import Adix.Boot.Defs
import Adix.PhysPages.Consistent
import Adix.Vma.Layout

/-!
# The free list after boot

Each usable entry of the memory map becomes a chunk, and the pages of the chunks that have no mark make up the free
list.
-/

namespace Adix.Boot

open PageTable PhysPages List Option

variable {e f : Smap} {es smap : List Smap} {c : Chunk} {cs : List Chunk} {sc sc' : Scan} {s s' : Pages} {ok : Bool}
  {chunkOk : Smap → Bool} {a b q n x : Nat} {U : Nat → Prop} {nodeOk : Nat → Bool}

def Smap.stop (e : Smap) : Nat := e.base.toNat + e.length.toNat

def Smap.Has (e : Smap) (x : Nat) : Prop := e.base.toNat ≤ x ∧ x < e.stop

def Smap.Apart (e f : Smap) : Prop := e.stop ≤ f.base.toNat ∨ f.stop ≤ e.base.toNat

def EntriesApart (smap : List Smap) : Prop := smap.Pairwise fun e f => e.Usable → f.Usable → e.Apart f

structure ChunkOf (e : Smap) (c : Chunk) : Prop where
  start_eq : c.physAddrStart = pageAlign ((e.base.toNat + sizeofPage - 1) % addrSpace)
  end_eq : c.physAddrEnd = pageAlign (e.base + e.length).toNat
  unmarked : ∀ d ∈ c.physPagePointer, d.refcount = 0

private theorem newChunk_spec (h : newChunk ok e.base (e.base + e.length) = some c) : ChunkOf e c := by
  unfold newChunk at h
  dsimp only at h
  split at h
  · split at h
    · obtain rfl := some.inj h
      refine ⟨rfl, rfl, fun d hd => ?_⟩
      rw [eq_of_mem_replicate hd]
    · cases h
  · cases h

/-- The chunk of an entry lies in the entry, unless rounding wraps around. -/
theorem ChunkOf.inside (h : ChunkOf e c) (hwrap : e.stop + sizeofPage ≤ addrSpace) :
    e.base.toNat ≤ c.physAddrStart ∧ c.physAddrEnd ≤ e.stop := by
  have hstop : (e.base + e.length).toNat = e.stop := by
    rw [BitVec.toNat_add]
    unfold Smap.stop sizeofPage addrSpace at *
    omega
  rw [h.start_eq, h.end_eq, hstop]
  unfold Smap.stop pageAlign sizeofPage addrSpace at *
  omega

structure Scanned (es : List Smap) (sc sc' : Scan) (cs : List Chunk) : Prop where
  chunks_eq : sc'.chunks = sc.chunks ++ cs
  entries : List.Forall₂ ChunkOf (es.filter fun e => decide e.Usable) cs
  lower : sc'.lowerChunk = sc.lowerChunk.or
    ((es.find? fun e => decide e.Usable).map fun e => (e.base, e.base + e.length))
  bound : sc.physEndAddr ≤ sc'.physEndAddr ∧ ∀ e ∈ es, e.Usable → e.base + e.length ≤ sc'.physEndAddr

/-- The scan makes a chunk of each usable entry. -/
theorem scanMap_spec (h : scanMap chunkOk es sc = some sc') : ∃ cs, Scanned es sc sc' cs := by
  induction es generalizing sc with
  | nil =>
    cases h
    exact ⟨[], by simp, .nil, by simp, BitVec.le_refl _, by simp⟩
  | cons e es ih =>
    obtain ⟨sc1, h1, h2⟩ := bind_eq_some_iff.1 h
    obtain ⟨cs, hcs⟩ := ih h2
    obtain ⟨hle, hall⟩ := hcs.bound
    unfold scanEntry at h1
    by_cases he : e.Usable
    · rw [if_pos he] at h1
      obtain ⟨c, hc, rfl⟩ := map_eq_some_iff.1 h1
      have hmax : sc.physEndAddr ≤ sc'.physEndAddr ∧ e.base + e.length ≤ sc'.physEndAddr := by
        split at hle
        · rename_i hlt
          exact ⟨BitVec.le_trans (BitVec.le_of_lt hlt) hle, hle⟩
        · rename_i hlt
          exact ⟨hle, BitVec.le_trans (BitVec.not_lt.1 hlt) hle⟩
      refine ⟨c :: cs, ?_, ?_, ?_, hmax.1, fun f hf hu => ?_⟩
      · rw [hcs.chunks_eq, List.append_assoc]
        rfl
      · rw [filter_cons_of_pos (by simpa using he)]
        exact .cons (newChunk_spec hc) hcs.entries
      · rw [hcs.lower, find?_cons_of_pos (by simpa using he)]
        cases sc.lowerChunk <;> rfl
      · rcases mem_cons.1 hf with rfl | hf
        · exact hmax.2
        · exact hall f hf hu
    · rw [if_neg he] at h1
      cases h1
      refine ⟨cs, hcs.chunks_eq, ?_, ?_, hle, fun f hf hu => ?_⟩
      · rw [filter_cons_of_neg (by simpa using he)]
        exact hcs.entries
      · rw [hcs.lower, find?_cons_of_neg (by simpa using he)]
      · rcases mem_cons.1 hf with rfl | hf
        · exact absurd hu he
        · exact hall f hf hu

theorem entry_of_mem (h : List.Forall₂ ChunkOf es cs) (hc : c ∈ cs) : ∃ e ∈ es, ChunkOf e c := by
  induction h with
  | nil => cases hc
  | cons hec _ ih =>
    rcases mem_cons.1 hc with rfl | hc
    · exact ⟨_, mem_cons_self, hec⟩
    · obtain ⟨e, he, hec⟩ := ih hc
      exact ⟨e, mem_cons_of_mem _ he, hec⟩

/-- Chunks of entries that do not overlap do not overlap. -/
theorem chunksApart_of_entries (h : List.Forall₂ ChunkOf es cs) (hap : es.Pairwise Smap.Apart)
    (hwrap : ∀ e ∈ es, e.stop + sizeofPage ≤ addrSpace) : ChunksApart cs := by
  induction h with
  | nil => exact List.Pairwise.nil
  | cons hec hrest ih =>
    obtain ⟨he, hes⟩ := pairwise_cons.1 hap
    refine pairwise_cons.2 ⟨fun d hd => ?_, ih hes fun f hf => hwrap f (mem_cons_of_mem _ hf)⟩
    obtain ⟨f, hf, hfd⟩ := entry_of_mem hrest hd
    have h1 := hec.inside (hwrap _ mem_cons_self)
    have h2 := hfd.inside (hwrap f (mem_cons_of_mem _ hf))
    have h3 := he f hf
    unfold Smap.Apart at h3
    omega

def Touched (a b q : Nat) : Prop := pageAlign a ≤ q ∧ q < pageAlign ((b + sizeofPage - 1) % addrSpace)

def Marks (n : Nat) (U : Nat → Prop) (s : Pages) : Prop :=
  ∀ q k, q % sizeofPage = 0 → refcount s q = some k → k.toNat ≤ n ∧ (U q → 0 < k.toNat)

theorem marks_new (h : List.Forall₂ ChunkOf es cs) (l : List PhysFree) : Marks 0 (fun _ => False) ⟨cs, l⟩ := by
  intro q k _ hk
  obtain ⟨d, hd, rfl⟩ := map_eq_some_iff.1 hk
  obtain ⟨c, hc, -, hdc⟩ := findDesc_some hd
  obtain ⟨e, -, hec⟩ := entry_of_mem h hc
  rw [hec.unmarked d hdc]
  exact ⟨le_rfl, False.elim⟩

private theorem has_touched (hq : q % sizeofPage = 0) : Touched a b q ↔
    (⟨pageAlign a, (pageAlign ((b + sizeofPage - 1) % addrSpace) - pageAlign a) / sizeofPage⟩ : PhysFree).Has q := by
  generalize hlast : (b + sizeofPage - 1) % addrSpace = last
  unfold Touched PhysFree.Has
  rw [hlast]
  unfold pageAlign sizeofPage at *
  constructor
  · rintro ⟨h1, h2⟩
    exact ⟨(q - (a - a % 4096)) / 4096, by dsimp only; omega, by dsimp only; omega⟩
  · rintro ⟨i, hi, rfl⟩
    dsimp only at *
    omega

private theorem mark_eq (h : mark s a b = some s') : s' = (incRefCountPages s a b).1 := by
  unfold mark at h
  dsimp only at h
  split at h
  · cases h
  · exact (some.inj h).symm

theorem bounds_mark (h : mark s a b = some s') : s'.chunkList.map Chunk.bounds = s.chunkList.map Chunk.bounds := by
  rw [mark_eq h]
  exact bounds_incPages

theorem physFreeList_mark (h : mark s a b = some s') : s'.physFreeList = s.physFreeList := by
  rw [mark_eq h]
  exact physFreeList_incPages

/-- `mark` counts up the pages that the range touches, and no others. -/
theorem Marks.mark (hm : Marks n U s) (hn : n + 1 < 2 ^ 32) (h : mark s a b = some s') :
    Marks (n + 1) (fun q => U q ∨ Touched a b q) s' := by
  have hal : pageAlign a % sizeofPage = 0 := by
    unfold pageAlign sizeofPage
    omega
  rw [mark_eq h]
  intro q k hq hk
  have hdesc := desc_incPages (s := s) (n := (pageAlign ((b + sizeofPage - 1) % addrSpace) - pageAlign a) / sizeofPage)
    hal hq
  obtain ⟨d, hd, rfl⟩ := map_eq_some_iff.1 hk
  by_cases ht : Touched a b q
  · obtain ⟨d0, hd0, rfl⟩ := map_eq_some_iff.1 ((hdesc.1 ((has_touched hq).1 ht)).symm.trans hd)
    have hle := (hm q d0.refcount hq (map_eq_some_iff.2 ⟨d0, hd0, rfl⟩)).1
    have hval : (d0.refcount + 1).toNat = d0.refcount.toNat + 1 := by
      rw [BitVec.toNat_add]
      exact Nat.mod_eq_of_lt (by show d0.refcount.toNat + 1 < _; omega)
    show (d0.refcount + 1).toNat ≤ _ ∧ _
    rw [show d0.bump.refcount = d0.refcount + 1 from rfl, hval]
    exact ⟨by omega, fun _ => by omega⟩
  · have hd0 := (hdesc.2 ((has_touched hq).not.1 ht)).symm.trans hd
    obtain ⟨hle, hpos⟩ := hm q d.refcount hq (map_eq_some_iff.2 ⟨d, hd0, rfl⟩)
    exact ⟨by omega, fun hU => hpos (hU.resolve_right ht)⟩

private theorem incPages_outside (h : ∀ i < n, getPhysPageDesc s (a + sizeofPage * i) = none) :
    incPages s a n = (s, -(n : Int)) := by
  induction n generalizing a with
  | zero => rfl
  | succ n ih =>
    have hfirst : getPhysPageDesc s a = none := h 0 (Nat.succ_pos n)
    have hrest : incPages s (a + sizeofPage) n = (s, -(n : Int)) := by
      refine ih fun i hi => ?_
      rw [Nat.add_assoc, Nat.add_comm sizeofPage, ← Nat.mul_succ]
      exact h (i + 1) (Nat.succ_lt_succ hi)
    rw [incPages, incRefCountPage, hfirst]
    dsimp only
    rw [hrest]
    refine Prod.ext rfl ?_
    dsimp only
    omega

/-- A range that can be marked meets a chunk. -/
theorem mark_meets (ha : a % 4096 = 0) (hb : b % 4096 = 0) (hab : a < b) (hlen : b < a + 2 ^ 31) (hlt : b < 2 ^ 64)
    (h : mark s a b = some s') : ∃ q, a ≤ q ∧ ∃ c ∈ s.chunkList, c.covers q = true := by
  by_contra hnot
  have hlast : pageAlign ((b + sizeofPage - 1) % addrSpace) = b := by
    unfold pageAlign sizeofPage addrSpace
    omega
  have hcount : incRefCountPages s a b = (s, -(((b - a) / sizeofPage : Nat) : Int)) := by
    unfold incRefCountPages
    rw [hlast, pageAlign_eq ha]
    refine incPages_outside fun i _ => ?_
    refine eq_none_iff_forall_ne_some.2 fun d hd => hnot ?_
    obtain ⟨c, hc, hcov, -⟩ := findDesc_some hd
    refine ⟨_, ?_, c, hc, hcov⟩
    unfold pageAlign sizeofPage
    omega
  unfold mark at h
  rw [hcount] at h
  dsimp only at h
  rw [if_pos] at h
  · cases h
  · unfold Negative sizeofPage
    rw [BitVec.toInt_ofInt, Int.bmod_eq_of_le]
    all_goals omega

private theorem scanPages_ok {ds : List PhysPage} {node : Option PhysFree}
    (h : (scanPages nodeOk ds a node).2 ≠ -1) : scanPages nodeOk ds a node = scanPages (fun _ => true) ds a node := by
  induction ds generalizing a node with
  | nil => rfl
  | cons d ds ih =>
    by_cases hd : 0 < d.refcount
    · simp only [scanPages, if_pos hd] at h ⊢
      rw [ih h]
    · cases node with
      | some r =>
        simp only [scanPages, if_neg hd] at h ⊢
        exact ih h
      | none =>
        by_cases hok : nodeOk a = true
        · simp only [scanPages, if_neg hd, if_pos hok, if_true] at h ⊢
          exact ih h
        · simp only [scanPages, if_neg hd, if_neg hok] at h
          exact absurd rfl h

private theorem scanChunks_ok (h : (scanChunks nodeOk cs).2 ≠ -1) :
    scanChunks nodeOk cs = scanChunks (fun _ => true) cs := by
  induction cs with
  | nil => rfl
  | cons c cs ih =>
    rw [scanChunks] at h ⊢
    dsimp only at h ⊢
    split at h
    · exact absurd rfl h
    · next hc => rw [scanChunks, scanPages_ok hc, ih h]

theorem chunksApart_iff : ChunksApart cs ↔ (cs.map Chunk.bounds).Pairwise fun b d => b.2 ≤ d.1 ∨ d.2 ≤ b.1 := by
  rw [pairwise_map]
  rfl

/-- What the free list is for chunks with the bounds of those of the entries `es`, when the pages of `U` are marked. -/
structure FreeList (es : List Smap) (U : Nat → Prop) (s : Pages) : Prop where
  apart : PhysPages.Apart s.physFreeList
  page : ∀ q, Covers s.physFreeList q → q % sizeofPage = 0 ∧ ¬ U q ∧ ∃ e ∈ es, e.base.toNat ≤ q ∧
    q + sizeofPage ≤ e.stop

/-- The free list has the pages of the entries that are not marked. -/
theorem initFreePhysPageManager_freeList (hes : List.Forall₂ ChunkOf es cs) (hap : es.Pairwise Smap.Apart)
    (hlow : ∀ e ∈ es, e.stop ≤ 2 ^ 43) (hbounds : s.chunkList.map Chunk.bounds = cs.map Chunk.bounds)
    (hempty : s.physFreeList = []) (hm : Marks n U s) (hr : (initFreePhysPageManager nodeOk s).2 ≠ -1) :
    FreeList es U (initFreePhysPageManager nodeOk s).1 := by
  have hwrap : ∀ e ∈ es, e.stop + sizeofPage ≤ addrSpace := by
    intro e he
    have := hlow e he
    unfold sizeofPage addrSpace
    omega
  -- the chunks have the bounds that they were made with
  have hentry : ∀ c ∈ s.chunkList, ∃ e ∈ es, e.base.toNat ≤ c.physAddrStart ∧ c.physAddrEnd ≤ e.stop := by
    intro c hc
    have hmem : c.bounds ∈ cs.map Chunk.bounds := hbounds ▸ List.mem_map_of_mem hc
    obtain ⟨c0, hc0, hb⟩ := List.mem_map.1 hmem
    obtain ⟨e, he, hec⟩ := entry_of_mem hes hc0
    have hin := hec.inside (hwrap e he)
    obtain ⟨h1, h2⟩ := Prod.mk.inj hb
    exact ⟨e, he, h1 ▸ hin.1, h2 ▸ hin.2⟩
  have hchunks : ChunksApart s.chunkList := by
    rw [chunksApart_iff, hbounds, ← chunksApart_iff]
    exact chunksApart_of_entries hes hap hwrap
  have hlen : ∀ c ∈ s.chunkList, c.physPagePointer.length < 2 ^ 32 := by
    intro c hc
    obtain ⟨e, he, -, hend⟩ := hentry c hc
    have h1 := hlow e he
    have h2 := c.length
    unfold sizeofPage at h2
    omega
  have hlist : (initFreePhysPageManager nodeOk s).1.physFreeList = (scanChunks (fun _ => true) s.chunkList).1 := by
    show s.physFreeList ++ (scanChunks nodeOk s.chunkList).1 = _
    rw [hempty, nil_append, scanChunks_ok hr]
  refine ⟨?_, fun q hq => ?_⟩
  · rw [hlist]
    exact apart_scanChunks hchunks hlen
  · rw [hlist, covers_scanChunks hchunks hlen] at hq
    obtain ⟨hal, hcount⟩ := hq
    obtain ⟨c, hc, hcov⟩ := refcount_some hcount
    obtain ⟨e, he, h1, h2⟩ := hentry c hc
    obtain ⟨h3, h4⟩ := Chunk.covers_iff.1 hcov
    have h5 := c.length
    have h6 := c.aligned
    refine ⟨hal, fun hU => absurd ((hm q 0 hal hcount).2 hU) (by decide), e, he, by omega, ?_⟩
    unfold sizeofPage at *
    omega

end Adix.Boot
