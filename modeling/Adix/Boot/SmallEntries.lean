import Adix.Boot.Defs

/-!
# Entries of the memory map without a whole page

`new_chunk` returns `NULL` when it has no memory and also when its range has no whole page, and the scan gives up in
both cases.
-/

namespace Adix.Boot

open PageTable PhysPages List

/-- The scan of the memory map, with the chunk list also when it gives up with `-1`, which is `false`. What `kmalloc`
does depends on the chunks made so far. -/
def scanChunkList (chunkOk : List Chunk → Smap → Bool) : List Smap → List Chunk → List Chunk × Bool
  | [], cs => (cs, true)
  | e :: es, cs =>
    if e.Usable then
      match newChunk (chunkOk cs e) e.base (e.base + e.length) with
      | none => (cs, false)
      | some c => scanChunkList chunkOk es (cs ++ [c])
    else scanChunkList chunkOk es cs

variable {chunkOk : List Chunk → Smap → Bool} {e : Smap} {es : List Smap} {cs : List Chunk}

/-- The two models of the scan agree. -/
theorem scanMap_chunks (ok : Smap → Bool) (es : List Smap) (sc : Scan) : (scanMap ok es sc).map Scan.chunks =
    if (scanChunkList (fun _ => ok) es sc.chunks).2 then some (scanChunkList (fun _ => ok) es sc.chunks).1
      else none := by
  induction es generalizing sc with
  | nil => rfl
  | cons e es ih =>
    unfold scanMap scanChunkList scanEntry
    by_cases hu : e.Usable
    · rw [if_pos hu, if_pos hu]
      dsimp only
      cases newChunk (ok e) e.base (e.base + e.length) with
      | none => rfl
      | some c => exact ih _
    · rw [if_neg hu, if_neg hu]
      exact ih sc

def Smap.HasPage (e : Smap) : Prop :=
  ∃ a, a % sizeofPage = 0 ∧ e.base.toNat ≤ a ∧ a + sizeofPage ≤ e.base.toNat + e.length.toNat

private theorem Smap.hasPage_iff (e : Smap) : e.HasPage ↔
    (e.base.toNat + 4095) / 4096 * 4096 + 4096 ≤ e.base.toNat + e.length.toNat := by
  unfold Smap.HasPage sizeofPage
  constructor
  · rintro ⟨a, h1, h2, h3⟩
    omega
  · exact fun h => ⟨(e.base.toNat + 4095) / 4096 * 4096, by omega, by omega, by omega⟩

instance (e : Smap) : Decidable e.HasPage := decidable_of_iff _ e.hasPage_iff.symm

def Smap.Small (e : Smap) : Prop := e.type = 1 ∧ ¬e.HasPage

instance (e : Smap) : Decidable e.Small := inferInstanceAs (Decidable (_ ∧ _))

def Tracked (cs : List Chunk) (a : Nat) : Prop := a % sizeofPage = 0 ∧ ∃ c ∈ cs, c.covers a = true

/-- Without its small entries, the scan of a map succeeds in the same cases and tracks the same pages. -/
structure SmallIgnored (chunkOk : List Chunk → Smap → Bool) (map : List Smap) : Prop where
  succeeds : (scanChunkList chunkOk (map.filter fun e => !decide e.Small) []).2 = (scanChunkList chunkOk map []).2
  tracked : ∀ a, Tracked (scanChunkList chunkOk (map.filter fun e => !decide e.Small) []).1 a ↔
    Tracked (scanChunkList chunkOk map []).1 a

private theorem scanChunkList_filter (h : ∀ e ∈ es, e.Small → ¬e.Usable) :
    scanChunkList chunkOk (es.filter fun e => !decide e.Small) cs = scanChunkList chunkOk es cs := by
  induction es generalizing cs with
  | nil => rfl
  | cons e es ih =>
    have hes := fun cs => @ih cs fun x hx => h x (mem_cons_of_mem e hx)
    by_cases hs : e.Small
    · rw [filter_cons_of_neg (by simp [hs]), hes, scanChunkList, if_neg (h e mem_cons_self hs)]
    · rw [filter_cons_of_pos (by simp [hs])]
      unfold scanChunkList
      split
      · split
        · rfl
        · exact hes _
      · exact hes cs

section NoWrap

/-- The entry ends a page below the end of the address space, so that rounding its bounds does not wrap. -/
def Smap.NoWrap (e : Smap) : Prop := e.base.toNat + e.length.toNat + sizeofPage ≤ addrSpace

instance (e : Smap) : Decidable e.NoWrap := inferInstanceAs (Decidable (_ ≤ _))

/-- With memory, a chunk is made if and only if the entry has a whole page. -/
theorem newChunk_isSome_iff (h : e.NoWrap) : (newChunk true e.base (e.base + e.length)).isSome = true ↔ e.HasPage := by
  unfold Smap.NoWrap addrSpace sizeofPage at h
  have hsum : (e.base + e.length).toNat = e.base.toNat + e.length.toNat := by
    rw [BitVec.toNat_add]
    exact Nat.mod_eq_of_lt (by omega)
  have hfirst : (e.base.toNat + sizeofPage - 1) % addrSpace = e.base.toNat + 4095 := by
    unfold sizeofPage addrSpace
    omega
  rw [e.hasPage_iff]
  unfold newChunk
  simp only [hsum, hfirst]
  simp only [pageAlign, sizeofPage, if_true]
  split
  · simp only [Option.isSome_some, true_iff]
    omega
  · simp only [Option.isSome_none, Bool.false_eq_true, false_iff]
    omega

/-- With memory for all chunks, the scan succeeds if and only if every usable entry has a whole page. -/
theorem scanChunkList_succeeds_iff (h : ∀ e ∈ es, e.Usable → e.NoWrap) :
    (scanChunkList (fun _ _ => true) es cs).2 = true ↔ ∀ e ∈ es, e.Usable → e.HasPage := by
  induction es generalizing cs with
  | nil => simp [scanChunkList]
  | cons e es ih =>
    have hes := fun cs => @ih cs fun x hx => h x (mem_cons_of_mem e hx)
    rw [forall_mem_cons]
    unfold scanChunkList
    by_cases hu : e.Usable
    · have hpage := newChunk_isSome_iff (h e mem_cons_self hu)
      rw [if_pos hu]
      cases hc : newChunk true e.base (e.base + e.length) with
      | none =>
        rw [hc] at hpage
        simp [hu, ← hpage]
      | some c =>
        rw [hc] at hpage
        simp [hes, hu, ← hpage]
    · simp [hu, hes]

end NoWrap

/-- In a map whose usable entries do not wrap, the small entries are ignored, whatever `kmalloc` does, if and only if
they are empty. -/
theorem small_entries_iff (map : List Smap) (hfit : ∀ e ∈ map, e.Usable → e.NoWrap) :
    (∀ chunkOk, SmallIgnored chunkOk map) ↔ ∀ e ∈ map, e.Small → e.length = 0 := by
  constructor
  · intro h e he hs
    by_contra hlen
    -- with memory for all chunks, the scan without the small entries succeeds
    have hfilter : (scanChunkList (fun _ _ => true) (map.filter fun e => !decide e.Small) []).2 = true := by
      refine (scanChunkList_succeeds_iff fun x hx => hfit x (mem_filter.1 hx).1).2 fun x hx hu => ?_
      by_contra hpage
      have hsmall := (mem_filter.1 hx).2
      simp [Smap.Small, hu.1, hpage] at hsmall
    have hscan := (h fun _ _ => true).succeeds.symm.trans hfilter
    exact hs.2 ((scanChunkList_succeeds_iff hfit).1 hscan e he ⟨hs.1, hlen⟩)
  · intro h chunkOk
    have hsame : scanChunkList chunkOk (map.filter fun e => !decide e.Small) [] = scanChunkList chunkOk map [] :=
      scanChunkList_filter fun e he hs hu => hu.2 (h e he hs)
    exact ⟨by rw [hsame], fun a => by rw [hsame]⟩

theorem small_entries_empty : SmallIgnored (fun cs _ => cs.isEmpty)
      [⟨0, 0x9fc00, 1⟩, ⟨0x9fc00, 0, 1⟩, ⟨0xf0000, 0x400, 2⟩, ⟨0x100000, 0x7ee0000, 1⟩] ∧
    ¬ ∀ chunkOk, SmallIgnored chunkOk [⟨0x100000, 0x100000, 1⟩, ⟨0x9fc00, 0x400, 1⟩] :=
  ⟨(small_entries_iff _ (by decide +kernel)).2 (by decide +kernel) _,
    fun h => absurd ((small_entries_iff _ (by decide +kernel)).1 h) (by decide +kernel)⟩

/-- One megabyte, and an entry of one kilobyte at the end of low memory: the scan gives up at the latter, although
there is memory for all chunks. -/
theorem small_entry_ends_scan :
      (scanChunkList (fun _ _ => true) [⟨0x100000, 0x100000, 1⟩, ⟨0x9fc00, 0x400, 1⟩] []).2 = false ∧
      (scanChunkList (fun _ _ => true)
        ([⟨0x100000, 0x100000, 1⟩, ⟨0x9fc00, 0x400, 1⟩].filter fun e => !decide e.Small) []).2 = true := by
  decide +kernel

end Adix.Boot
