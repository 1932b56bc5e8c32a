import Adix.Lib.Runs
import Adix.PhysPages.Alloc
import Mathlib.Data.BitVec
import Mathlib.Data.Set.Card

/-!
# The free list and the reference counts agree

`init_free_phys_page_manager` makes the free list of the pages without an owner, and `alloc_phys_pages` and
`free_phys_page` keep it so, so that a page is handed out only while nobody owns it.
-/

namespace Adix.PhysPages

open List
open PhysPage (bump)
open PhysFree (stop has_addr)

variable {s s' : Pages} {c : Chunk} {cs : List Chunk} {a b n addr : Nat} {d : PhysPage} {ok : Bool}
  {f : PhysPage → PhysPage} {l : List PhysFree} {ds : List PhysPage}

def Ascending (cs : List Chunk) : Prop := cs.Pairwise fun c d => c.physAddrEnd ≤ d.physAddrStart

def Unowned (s : Pages) (a : Nat) : Prop := a % sizeofPage = 0 ∧ refcount s a = some 0

/-- The runs of the free list are in order and cover exactly the pages with reference count `0`. -/
structure Consistent (s : Pages) : Prop where
  ordered : Ordered s.physFreeList
  covers : ∀ a, Covers s.physFreeList a ↔ Unowned s a

private def FreeFrom (ds : List PhysPage) (addr b : Nat) : Prop :=
  ∃ i d, ds[i]? = some d ∧ d.refcount = 0 ∧ b = addr + sizeofPage * i

private theorem freeFrom_cons : FreeFrom (d :: ds) a b ↔ (d.refcount = 0 ∧ b = a) ∨ FreeFrom ds (a + sizeofPage) b := by
  constructor
  · rintro ⟨i, d', hd, h0, rfl⟩
    cases i with
    | zero =>
      obtain rfl : d = d' := by simpa using hd
      exact .inl ⟨h0, by simp⟩
    | succ i => exact .inr ⟨i, d', by simpa using hd, h0, by rw [Nat.mul_add]; omega⟩
  · rintro (⟨h0, rfl⟩ | ⟨i, d', hd, h0, rfl⟩)
    · exact ⟨0, d, by simp, h0, by simp⟩
    · exact ⟨i + 1, d', by simpa using hd, h0, by rw [Nat.mul_add]; omega⟩

private theorem FreeFrom.le (h : FreeFrom ds a b) : a ≤ b := by
  obtain ⟨i, d, -, -, rfl⟩ := h
  omega

/-- The scan of a chunk appends runs of the free pages from `a` on. -/
private theorem scanPages_spec (ds : List PhysPage) (a : Nat) (node : Option PhysFree)
    (hnode : ∀ r ∈ node, 0 < r.count ∧ r.stop = a) (hlen : node.elim 0 PhysFree.count + ds.length < 2 ^ 32) :
    Ordered (scanPages (fun _ => true) ds a node).1 ∧
      (∀ b, Covers (scanPages (fun _ => true) ds a node).1 b ↔ Covers node.toList b ∨ FreeFrom ds a b) ∧
      (scanPages (fun _ => true) ds a node).1.Pairwise fun r t => r.stop < t.addr := by
  induction ds generalizing a node with
  | nil =>
    cases node with
    | none => exact ⟨Ordered.nil, fun b => by simp [scanPages, FreeFrom], List.Pairwise.nil⟩
    | some r =>
      exact ⟨Ordered.nil.cons (hnode r rfl).1 (by simp), fun b => by simp [scanPages, FreeFrom], pairwise_singleton _ _⟩
  | cons d ds ih =>
    rw [length_cons] at hlen
    by_cases hd : 0 < d.refcount
    · have hne : ¬ d.refcount = 0 := fun h => by rw [h] at hd; exact absurd hd (by decide)
      obtain ⟨h1, h2, h3⟩ := ih (a + sizeofPage) none (by rintro r ⟨⟩) (by simp; omega)
      have hle : ∀ b, Covers (scanPages (fun _ => true) ds (a + sizeofPage) none).1 b → a + sizeofPage ≤ b :=
        fun b hb => (((h2 b).1 hb).resolve_left (by simp)).le
      have he : (scanPages (fun _ => true) (d :: ds) a node).1 =
          node.toList ++ (scanPages (fun _ => true) ds (a + sizeofPage) none).1 := by
        rw [scanPages.eq_def]
        dsimp only
        rw [if_pos hd]
      rw [he]
      refine ⟨?_, fun b => ?_, ?_⟩
      · cases node with
        | none => exact h1
        | some r =>
          refine h1.cons (hnode r rfl).1 fun b hb => ?_
          have := hle b hb
          rw [(hnode r rfl).2]
          omega
      · rw [covers_append, h2, freeFrom_cons, and_iff_left_of_imp (fun h => absurd h hne)]
        simp only [hne, false_or, Option.toList_none, not_covers_nil]
      · -- the page in use lies between the run and the next one
        cases node with
        | none => exact h3
        | some r =>
          refine pairwise_cons.2 ⟨fun t ht => ?_, h3⟩
          have := hle t.addr ⟨t, ht, has_addr (h1.nonempty t ht)⟩
          rw [(hnode r rfl).2]
          unfold sizeofPage at this
          omega
    · have h0 : d.refcount = 0 := by bv_omega
      -- the page joins the run that ends before it, or begins one
      obtain ⟨r, he, hr, hstop, hlt, hhas⟩ : ∃ r : PhysFree,
          scanPages (fun _ => true) (d :: ds) a node = scanPages (fun _ => true) ds (a + sizeofPage) (some r) ∧
          0 < r.count ∧ r.stop = a + sizeofPage ∧ r.count + ds.length < 2 ^ 32 ∧
          ∀ b, r.Has b ↔ Covers node.toList b ∨ b = a := by
        cases node with
        | none =>
          refine ⟨⟨a, 1⟩, by rw [scanPages, if_neg hd]; rfl, by simp, by simp [stop], ?_, ?_⟩
          · dsimp only
            omega
          · intro b
            simp [has_one]
        | some r =>
          obtain ⟨hr, hstop⟩ := hnode r rfl
          simp only [Option.elim_some] at hlen
          have hmod : (r.count + 1) % 2 ^ 32 = r.count + 1 := by omega
          refine ⟨⟨r.addr, r.count + 1⟩, ?_, by simp, ?_, by dsimp only; omega, ?_⟩
          · rw [scanPages, if_neg hd, hmod]
          · simp only [stop, sizeofPage] at hstop ⊢
            omega
          · intro b
            rw [has_concat (r := r) (t := ⟨a, 1⟩) hstop.symm, has_one]
            simp
      obtain ⟨h1, h2, h3⟩ := ih (a + sizeofPage) (some r) (by rintro t ⟨⟩; exact ⟨hr, hstop⟩) hlt
      rw [he]
      refine ⟨h1, fun b => ?_, h3⟩
      rw [h2, freeFrom_cons, ← or_assoc]
      refine or_congr_left ?_
      simp [hhas b, h0]

def Chunk.Free (c : Chunk) (a : Nat) : Prop :=
  a % sizeofPage = 0 ∧ c.covers a = true ∧ (c.physPagePointer[c.index a]?).map (·.refcount) = some 0

private theorem freeFrom_chunk : FreeFrom c.physPagePointer c.physAddrStart b ↔ c.Free b := by
  constructor
  · rintro ⟨i, d, hd, h0, rfl⟩
    obtain ⟨h1, h2⟩ := Chunk.covers_addr (c := c) (List.getElem?_eq_some_iff.1 hd).1
    refine ⟨?_, h1, by rw [h2, hd, ← h0]; rfl⟩
    have h3 := c.aligned
    unfold sizeofPage at *
    omega
  · rintro ⟨hb, hc, hd⟩
    obtain ⟨d, hd, h0⟩ := Option.map_eq_some_iff.1 hd
    exact ⟨c.index b, d, hd, h0, (Chunk.addr_index hb hc).1⟩

def Within (c : Chunk) (r : PhysFree) : Prop := c.physAddrStart ≤ r.addr ∧ r.stop ≤ c.physAddrEnd

def runsOf (c : Chunk) : List PhysFree := (scanPages (fun _ => true) c.physPagePointer c.physAddrStart none).1

private theorem scanPages_within (hlen : c.physPagePointer.length < 2 ^ 32) :
    Ordered (runsOf c) ∧ (∀ b, Covers (runsOf c) b ↔ c.Free b) ∧ (∀ r ∈ runsOf c, Within c r) ∧
      (runsOf c).Pairwise fun r t => r.stop < t.addr := by
  obtain ⟨h1, h2, h3⟩ := scanPages_spec c.physPagePointer c.physAddrStart none (by rintro r ⟨⟩) (by simpa using hlen)
  have hcov : ∀ b, Covers (runsOf c) b ↔ c.Free b := by
    intro b
    unfold runsOf
    rw [h2, freeFrom_chunk]
    simp
  refine ⟨h1, hcov, fun r hr => ?_, h3⟩
  have hpos := h1.nonempty r hr
  obtain ⟨-, hfirst, -⟩ := (hcov _).1 ⟨r, hr, has_addr hpos⟩
  obtain ⟨hal, hlast, -⟩ := (hcov _).1 ⟨r, hr, r.count - 1, by omega, rfl⟩
  refine ⟨(Chunk.covers_iff.1 hfirst).1, ?_⟩
  have hindex := Chunk.addr_index hal hlast
  have hend := c.length
  unfold stop
  unfold sizeofPage at *
  omega

def ChunksApart (cs : List Chunk) : Prop :=
  cs.Pairwise fun c d => c.physAddrEnd ≤ d.physAddrStart ∨ d.physAddrEnd ≤ c.physAddrStart

private theorem Ascending.chunksApart (h : Ascending cs) : ChunksApart cs := h.imp Or.inl

private theorem ChunksApart.findDesc_tail (h : ChunksApart (c :: cs)) (hb : c.covers b = true) :
    findDesc b cs = none := by
  refine Option.eq_none_iff_forall_ne_some.2 fun d hd => ?_
  obtain ⟨c', hc', hcov', -⟩ := findDesc_some hd
  have h3 := (pairwise_cons.1 h).1 c' hc'
  have h4 := Chunk.covers_iff.1 hb
  have h5 := Chunk.covers_iff.1 hcov'
  omega

/-- The first scan finds the pages without an owner. -/
theorem covers_scanChunks (hap : ChunksApart cs) (hlen : ∀ c ∈ cs, c.physPagePointer.length < 2 ^ 32) :
    Covers (scanChunks (fun _ => true) cs).1 b ↔ b % sizeofPage = 0 ∧ (findDesc b cs).map (·.refcount) = some 0 := by
  induction cs with
  | nil => simp [scanChunks, findDesc]
  | cons c cs ih =>
    obtain ⟨-, hcov, -⟩ := scanPages_within (hlen c (by simp))
    have htail := ih (pairwise_cons.1 hap).2 fun c' hc' => hlen c' (by simp [hc'])
    show Covers (runsOf c ++ (scanChunks (fun _ => true) cs).1) b ↔ _
    rw [covers_append, hcov, htail, findDesc, Chunk.Free]
    by_cases hb : c.covers b
    · simp [hb, hap.findDesc_tail hb]
    · simp [hb]

private theorem scanChunks_pairwise {Q : PhysFree → PhysFree → Prop} (hone : ∀ r t, r.stop ≤ t.addr → Q r t)
    (htwo : cs.Pairwise fun c d => ∀ r t, Within c r → Within d t → Q r t)
    (hlen : ∀ c ∈ cs, c.physPagePointer.length < 2 ^ 32) :
    (∀ r ∈ (scanChunks (fun _ => true) cs).1, 0 < r.count ∧ ∃ c ∈ cs, Within c r) ∧
      (scanChunks (fun _ => true) cs).1.Pairwise Q := by
  induction cs with
  | nil => exact ⟨by simp [scanChunks], List.Pairwise.nil⟩
  | cons c cs ih =>
    obtain ⟨hord, -, hin, -⟩ := scanPages_within (hlen c (by simp))
    obtain ⟨hc, htail⟩ := pairwise_cons.1 htwo
    obtain ⟨i1, i2⟩ := ih htail fun c' hc' => hlen c' (by simp [hc'])
    show (∀ r ∈ runsOf c ++ (scanChunks (fun _ => true) cs).1, _) ∧
      (runsOf c ++ (scanChunks (fun _ => true) cs).1).Pairwise Q
    refine ⟨fun r hr => ?_, pairwise_append.2 ⟨hord.ascending.imp (hone _ _), i2, fun r hr t ht => ?_⟩⟩
    · rcases mem_append.1 hr with hr | hr
      · exact ⟨hord.nonempty r hr, c, by simp, hin r hr⟩
      · obtain ⟨hpos, c', hc', hin'⟩ := i1 r hr
        exact ⟨hpos, c', by simp [hc'], hin'⟩
    · obtain ⟨-, c', hc', hin'⟩ := i1 t ht
      exact hc c' hc' r t (hin r hr) hin'

private theorem ordered_scanChunks (hasc : Ascending cs) (hlen : ∀ c ∈ cs, c.physPagePointer.length < 2 ^ 32) :
    Ordered (scanChunks (fun _ => true) cs).1 := by
  obtain ⟨h1, h2⟩ := scanChunks_pairwise (Q := fun r t => r.stop ≤ t.addr) (fun _ _ h => h)
    (hasc.imp fun h r t hr ht => Nat.le_trans hr.2 (Nat.le_trans h ht.1)) hlen
  exact ⟨fun r hr => (h1 r hr).1, h2⟩

theorem apart_scanChunks (hap : ChunksApart cs) (hlen : ∀ c ∈ cs, c.physPagePointer.length < 2 ^ 32) :
    Apart (scanChunks (fun _ => true) cs).1 := by
  have htwo : cs.Pairwise fun c d => ∀ r t, Within c r → Within d t → r.stop ≤ t.addr ∨ t.stop ≤ r.addr := by
    refine hap.imp fun h r t ⟨hr1, hr2⟩ ⟨ht1, ht2⟩ => ?_
    omega
  obtain ⟨h1, h2⟩ := scanChunks_pairwise (fun _ _ h => .inl h) htwo hlen
  exact ⟨fun r hr => (h1 r hr).1, h2⟩

private theorem length_lt_of_numPages (hnum : numPages cs < 2 ^ 31) (hc : c ∈ cs) :
    c.physPagePointer.length < 2 ^ 32 := by
  induction cs with
  | nil => cases hc
  | cons d cs ih =>
    rw [numPages, map_cons, sum_cons] at hnum
    rcases mem_cons.1 hc with rfl | hc
    · omega
    · exact ih (by unfold numPages; omega) hc

def boot (cs : List Chunk) : Pages := (initFreePhysPageManager (fun _ => true) ⟨cs, []⟩).1

/-- What every operation relies on: page `0` is in use, and the machine has fewer than `2 ^ 31` pages. -/
structure Inv (s : Pages) : Prop extends Consistent s where
  few : numPages s.chunkList < 2 ^ 31
  zero : refcount s 0 ≠ some 0

/-- The state after boot. -/
theorem boot_inv (hasc : Ascending cs) (hnum : numPages cs < 2 ^ 31)
    (hzero : (findDesc 0 cs).map (·.refcount) ≠ some 0) : Inv (boot cs) := by
  have hlen := fun c (hc : c ∈ cs) => length_lt_of_numPages hnum hc
  exact ⟨⟨ordered_scanChunks hasc hlen, fun b => covers_scanChunks hasc.chunksApart hlen⟩, hnum, hzero⟩

private theorem Consistent.aligned (h : Consistent s) (hb : Covers s.physFreeList b) : b % sizeofPage = 0 :=
  ((h.covers b).1 hb).1

private theorem Inv.bounded (h : Inv s) : Bounded s.physFreeList := by
  intro r hr
  have hall : ∀ i, i < r.count → Unowned s (r.addr + sizeofPage * i) := fun i hi => (h.covers _).1 ⟨r, hr, i, hi, rfl⟩
  constructor
  · have hpos := h.ordered.nonempty r hr
    have hlast := hall (r.count - 1) (by omega)
    have hfit := refcount_fits hlast.1 hlast.2
    unfold stop
    unfold sizeofPage at *
    omega
  · -- the pages of the run are distinct pages of the chunks
    have hle : ((List.range r.count).map fun i => r.addr + sizeofPage * i).length ≤ numPages s.chunkList := by
      apply length_le_numPages
      · refine List.Nodup.map ?_ nodup_range
        intro i j hij
        unfold sizeofPage at hij
        dsimp only at hij
        omega
      · intro a ha
        obtain ⟨i, hi, rfl⟩ := List.mem_map.1 ha
        have hu := hall i (mem_range.1 hi)
        exact ⟨hu.1, refcount_some hu.2⟩
    rw [length_map, length_range] at hle
    have := h.few
    omega

theorem Inv.listed (h : Inv s) : Listed s := by
  refine ⟨h.ordered.apart, fun b hb => ?_⟩
  obtain ⟨hal, hb⟩ := (h.covers b).1 hb
  refine ⟨hal, ?_, refcount_fits hal hb⟩
  rintro rfl
  exact h.zero hb

private theorem Allocated.unowned (hal : Allocated s n s' a) (h : Inv s) :
    Unowned s' b ↔ Unowned s b ∧ ¬ (⟨a, n⟩ : PhysFree).Has b := by
  by_cases hhas : (⟨a, n⟩ : PhysFree).Has b
  · -- a page of the run now has count `1`
    obtain ⟨-, h0⟩ := (h.covers b).1 (hal.free b hhas)
    obtain ⟨d, hd, hd0⟩ := Option.map_eq_some_iff.1 h0
    have hone : refcount s' b = some 1 := by
      rw [refcount, hal.counted b hhas, hd]
      simp [bump, hd0]
    simp [Unowned, hone, hhas]
  · rw [and_iff_left hhas]
    refine and_congr_right fun hb => ?_
    rw [refcount, hal.other b hb hhas, refcount]

/-- An allocation keeps the invariant. -/
theorem Allocated.inv (hal : Allocated s n s' a) (h : Inv s) : Inv s' := by
  refine ⟨⟨hal.ordered h.ordered, fun b => ?_⟩, ?_, fun hz => ?_⟩
  · rw [hal.covers, h.covers, hal.unowned h]
  · rw [hal.numPages_eq]
    exact h.few
  · exact h.zero ((hal.unowned h).1 ⟨rfl, hz⟩).1.2

/-- `alloc_phys_pages` allocates, or changes nothing. -/
theorem allocPhysPages_spec (h : Inv s) (n : Nat) :
    allocPhysPages s n = (s, 0) ∨ ∃ s' a, allocPhysPages s n = (s', a) ∧ Allocated s n s' a ∧ Inv s' := by
  obtain he | ⟨s', a, he, hal⟩ := allocPhysPages_listed h.listed n
  · exact .inl he
  · exact .inr ⟨s', a, he, hal, hal.inv h⟩

/-- A page in use may get another descriptor, if it stays in use. -/
theorem Inv.updateDesc (h : Inv s) (ha : a % sizeofPage = 0)
    (hd : desc s a = some d) (h0 : d.refcount ≠ 0) (hf : (f d).refcount ≠ 0) : Inv (updateDesc s a f) := by
  have hdesc := fun b hb => desc_updateDesc (s := s) (f := f) (b := b) ha hb
  have hun : ∀ b, Unowned (PhysPages.updateDesc s a f) b ↔ Unowned s b := by
    intro b
    refine and_congr_right fun hb => ?_
    rw [refcount, refcount, hdesc b hb]
    by_cases hba : b = a
    · subst hba
      rw [if_pos rfl, hd]
      simp only [Option.map_some, Option.some.injEq, h0, hf]
    · simp [hba]
  refine ⟨⟨h.ordered, fun b => ?_⟩, ?_, ?_⟩
  · rw [hun b]
    exact h.covers b
  · rw [numPages_updateDesc]
    exact h.few
  · intro hz
    exact h.zero ((hun 0).1 ⟨rfl, hz⟩).2

theorem Inv.taken (h : Inv s) (ho : Ordered s'.physFreeList)
    (hsub : ∀ b, Covers s'.physFreeList b → Covers s.physFreeList b)
    (hkept : ∀ b, b % sizeofPage = 0 → (Covers s.physFreeList b → Covers s'.physFreeList b) → desc s' b = desc s b)
    (htaken : ∀ b, Covers s.physFreeList b → ¬ Covers s'.physFreeList b → desc s' b = (desc s b).map bump)
    (hnum : numPages s'.chunkList = numPages s.chunkList) : Inv s' := by
  refine ⟨⟨ho, fun b => ⟨fun hb => ?_, fun hb => ?_⟩⟩, by rw [hnum]; exact h.few, fun hz => ?_⟩
  · obtain ⟨hal, h0⟩ := (h.covers b).1 (hsub b hb)
    refine ⟨hal, ?_⟩
    rw [refcount, hkept b hal fun _ => hb]
    exact h0
  · obtain ⟨hal, h0⟩ := hb
    by_cases hs : Covers s.physFreeList b
    · by_contra hnot
      -- a page that was taken has count `1`
      obtain ⟨-, hc⟩ := (h.covers b).1 hs
      obtain ⟨d, hd, hd0⟩ := Option.map_eq_some_iff.1 hc
      rw [refcount, htaken b hs hnot, hd] at h0
      have h1 : d.refcount + 1 = 0 := Option.some.inj h0
      rw [hd0] at h1
      exact absurd h1 (by decide)
    · rw [refcount, hkept b hal fun h' => absurd h' hs] at h0
      exact absurd ((h.covers b).2 ⟨hal, h0⟩) hs
  · have h0 : ¬ Covers s.physFreeList 0 := fun hc => h.zero ((h.covers 0).1 hc).2
    rw [refcount, hkept 0 rfl fun hc => absurd hc h0] at hz
    exact h.zero hz

def PhysPage.drop (d : PhysPage) : PhysPage := { d with refcount := d.refcount - 1 }

/-- `free_phys_page` counts one page down, and lists it when nobody owns it any more. -/
theorem freePhysPage_spec (h : Inv s) (ha : a % sizeofPage = 0) {k : BitVec 32} (hk : refcount s a = some k)
    (h1 : 1 ≤ k.toNat) (h2 : k.toNat ≤ 2 ^ 31) (h3 : a = 0 → k ≠ 1) : ∃ s', freePhysPage true s a = (s', 0) ∧ Inv s' ∧
      ∀ b, b % sizeofPage = 0 → desc s' b = if b = a then (desc s a).map PhysPage.drop else desc s b := by
  obtain ⟨d, hd, rfl⟩ := Option.map_eq_some_iff.1 hk
  have hdesc := fun b hb => desc_updateDesc (s := s) (f := PhysPage.drop) (b := b) ha hb
  have hnat : (d.refcount - 1).toNat = d.refcount.toNat - 1 := by bv_omega
  have hint : (d.refcount - 1).toInt = (d.refcount.toNat - 1 : Nat) := by
    rw [BitVec.toInt_eq_toNat_of_lt (by omega), hnat]
  have hdec : decRefCountPage s a = (updateDesc s a PhysPage.drop, ((d.refcount.toNat - 1 : Nat) : Int)) := by
    unfold decRefCountPage
    rw [getPhysPageDesc_eq ha, hd, ← hint]
    rfl
  unfold freePhysPage
  rw [hdec]
  dsimp only
  rw [if_neg (by omega)]
  by_cases hlast : d.refcount = 1
  · rw [hlast, if_neg (by decide)]
    have hnot : ¬ Covers s.physFreeList a := by
      intro hc
      have := ((h.covers a).1 hc).2
      rw [hk, hlast] at this
      cases this
    obtain ⟨l', e1, e2, e3⟩ := insertPage_spec (l := s.physFreeList) none h.ordered h.bounded
      (fun b hb => h.aligned hb) ha (refcount_fits ha hk) hnot (by rintro p ⟨⟩)
    rw [show (updateDesc s a PhysPage.drop).physFreeList = s.physFreeList from rfl, e1]
    refine ⟨_, rfl, ⟨⟨e2, fun b => ?_⟩, ?_, ?_⟩, hdesc⟩
    · show Covers l' b ↔ Unowned (updateDesc s a PhysPage.drop) b
      rw [e3 b]
      show b = a ∨ Covers s.physFreeList b ↔ _
      rw [h.covers]
      constructor
      · rintro (rfl | hb)
        · refine ⟨ha, ?_⟩
          rw [refcount, hdesc b ha, if_pos rfl, hd]
          simp [PhysPage.drop, hlast]
        · refine ⟨hb.1, ?_⟩
          have hba : b ≠ a := by
            rintro rfl
            exact hnot ((h.covers b).2 hb)
          rw [refcount, hdesc b hb.1, if_neg hba]
          exact hb.2
      · rintro ⟨hb, hz⟩
        by_cases hba : b = a
        · exact .inl hba
        · rw [refcount, hdesc b hb, if_neg hba] at hz
          exact .inr ⟨hb, hz⟩
    · show numPages (updateDesc s a PhysPage.drop).chunkList < 2 ^ 31
      rw [numPages_updateDesc]
      exact h.few
    · have ha0 : 0 ≠ a := fun ha0 => h3 ha0.symm hlast
      show refcount (updateDesc s a PhysPage.drop) 0 ≠ some 0
      rw [refcount, hdesc 0 rfl, if_neg ha0]
      exact h.zero
  · have hgt : (0 : Int) < (d.refcount.toNat - 1 : Nat) := by
      have : d.refcount.toNat ≠ 1 := fun he => hlast (by bv_omega)
      omega
    rw [if_pos hgt]
    refine ⟨_, rfl, h.updateDesc ha hd ?_ ?_, hdesc⟩
    · intro hz
      rw [hz] at h1
      exact absurd h1 (by decide)
    · show d.refcount - 1 ≠ 0
      bv_omega

inductive Op
  | alloc (n : Nat)
  | free (addr : Nat)
  deriving DecidableEq

/-- One call; the `kmalloc` of a list node succeeds. -/
def step (s : Pages) : Op → Option Pages
  | .alloc n => some (allocPhysPages s n).1
  | .free addr => some (freePhysPage true s addr).1

def FreeOwned (s : Pages) : Op → Prop
  | .alloc _ => True
  | .free addr => addr % sizeofPage = 0 ∧ ∃ k ∈ refcount s addr, 1 ≤ k.toNat

/-- A freed page has at most `2 ^ 31` owners, and page `0` keeps one. -/
def FreeOk (s : Pages) : Op → Prop
  | .alloc _ => True
  | .free addr =>
    addr % sizeofPage = 0 ∧ ∃ k ∈ refcount s addr, 1 ≤ k.toNat ∧ k.toNat ≤ 2 ^ 31 ∧ (addr = 0 → k ≠ 1)

-- the search through the option is named, since the default instance tries all words
instance decidableFreeOwned (s : Pages) : ∀ op, Decidable (FreeOwned s op)
  | .alloc _ => .isTrue trivial
  | .free addr => @instDecidableAnd (addr % sizeofPage = 0) _ inferInstance (Option.decidableExistsMem _)

instance decidableFreeOk (s : Pages) : ∀ op, Decidable (FreeOk s op)
  | .alloc _ => .isTrue trivial
  | .free addr => @instDecidableAnd (addr % sizeofPage = 0) _ inferInstance (Option.decidableExistsMem _)

def Returns (s : Pages) (n b : Nat) : Prop :=
  (allocPhysPages s n).2 ≠ 0 ∧ (⟨(allocPhysPages s n).2, n⟩ : PhysFree).Has b

private theorem step_inv (op : Op) (h : Inv s) (hok : FreeOk s op) : ∃ s', step s op = some s' ∧ Inv s' := by
  cases op with
  | alloc n =>
    refine ⟨_, rfl, ?_⟩
    obtain he | ⟨s', a, he, -, hinv⟩ := allocPhysPages_spec h n
    · rw [he]
      exact h
    · rw [he]
      exact hinv
  | free addr =>
    obtain ⟨ha, k, hk, h1, h2, h3⟩ := hok
    obtain ⟨s', he, hinv, -⟩ := freePhysPage_spec h ha hk h1 h2 h3
    exact ⟨s', by rw [step, he], hinv⟩

/-- Every run keeps the invariant, and no call fails. -/
private theorem run_inv {ops : List Op} (h : Inv s) (hok : Permitted step FreeOk s ops) :
    ∃ s', run step s ops = some s' ∧ Inv s' :=
  run_invariant (fun _ op hi hp => step_inv op hi hp) h hok

private theorem Returns.refcount (h : Inv s) (hr : Returns s n b) :
    refcount s b = some 0 ∧ PhysPages.refcount (allocPhysPages s n).1 b = some 1 := by
  obtain ⟨hne, hhas⟩ := hr
  obtain he | ⟨s', a, he, hal, -⟩ := allocPhysPages_spec h n
  · rw [he] at hne
    exact absurd rfl hne
  · rw [he] at hhas ⊢
    obtain ⟨-, h0⟩ := (h.covers b).1 (hal.free b hhas)
    refine ⟨h0, ?_⟩
    obtain ⟨d, hd, hz⟩ := Option.map_eq_some_iff.1 h0
    rw [PhysPages.refcount, hal.counted b hhas, hd]
    simp [bump, hz]

/-- After boot and any sequence of calls, the free list covers exactly the pages without an owner; a page is returned
only when it has none, and not again before its count is back at `0`. -/
theorem allocator_consistent (cs : List Chunk) (hasc : Ascending cs) (hnum : numPages cs < 2 ^ 31)
    (hzero : (findDesc 0 cs).map (·.refcount) ≠ some 0) (ops : List Op) (hok : Permitted step FreeOk (boot cs) ops) :
    ∃ s, run step (boot cs) ops = some s ∧ Consistent s ∧ ∀ n b, Returns s n b →
        refcount s b = some 0 ∧ refcount (allocPhysPages s n).1 b = some 1 ∧
        ∀ later, Permitted step FreeOk (allocPhysPages s n).1 later →
          ∃ t, run step (allocPhysPages s n).1 later = some t ∧ ∀ m, Returns t m b → refcount t b = some 0 := by
  obtain ⟨s, hs, hinv⟩ := run_inv (boot_inv hasc hnum hzero) hok
  refine ⟨s, hs, hinv.toConsistent, fun n b hr => ?_⟩
  obtain ⟨h0, h1⟩ := hr.refcount hinv
  refine ⟨h0, h1, fun later hlater => ?_⟩
  obtain ⟨s', hs', hinv'⟩ := step_inv (.alloc n) hinv trivial
  obtain rfl : (allocPhysPages s n).1 = s' := Option.some.inj hs'
  obtain ⟨t, ht, htinv⟩ := run_inv hinv' hlater
  exact ⟨t, ht, fun m hm => (hm.refcount htinv).1⟩

private def fourPages (k : BitVec 32) : Chunk where
  physAddrStart := 0
  physAddrEnd := 16384
  physPagePointer := [⟨k, 0⟩, ⟨0, 0⟩, ⟨1, 0⟩, ⟨0, 0⟩]
  aligned := rfl
  length := by simp [sizeofPage]
  nonempty := by decide
  fits := by simp [addrSpace]

theorem allocator_consistent_reuse :
      Permitted step FreeOk (boot [fourPages 1]) [.alloc 1, .free 8192, .free 4096, .alloc 2] ∧
      ∃ s, run step (boot [fourPages 1]) [.alloc 1, .free 8192, .free 4096, .alloc 2] = some s ∧ Consistent s := by
  have hok : Permitted step FreeOk (boot [fourPages 1]) [.alloc 1, .free 8192, .free 4096, .alloc 2] := by
    decide +kernel
  obtain ⟨s, hs, hc, -⟩ := allocator_consistent [fourPages 1] (pairwise_singleton _ _) (by decide) (by decide)
    [.alloc 1, .free 8192, .free 4096, .alloc 2] hok
  exact ⟨hok, s, hs, hc⟩

/-- As many calls of `alloc_phys_pages(1)` as succeed, but no more than `n`: their number. -/
def allocs : Nat → Pages → Nat
  | 0, _ => 0
  | n + 1, s => if (allocPhysPages s 1).2 = 0 then 0 else allocs n (allocPhysPages s 1).1 + 1

private theorem ncard_covers (h : Ordered l) :
    {a | Covers l a}.ncard = (l.map PhysFree.count).sum ∧ {a | Covers l a}.Finite := by
  induction l with
  | nil => simp [Covers]
  | cons r l ih =>
    obtain ⟨hcard, hfin⟩ := ih h.tail
    have hrun : {a | r.Has a} = ↑((Finset.range r.count).image fun i => r.addr + sizeofPage * i) := by
      ext a
      simp [PhysFree.Has, eq_comm]
    have hsplit : {a | Covers (r :: l) a} = {a | r.Has a} ∪ {a | Covers l a} := by
      ext a
      exact covers_cons
    have hdisj : Disjoint {a | r.Has a} {a | Covers l a} := by
      rw [Set.disjoint_left]
      intro a ha hl
      have h1 := PhysFree.Has.bounds ha
      have h2 := h.stop_le hl
      unfold sizeofPage at h1
      omega
    have hrfin : {a | r.Has a}.Finite := hrun ▸ Finset.finite_toSet _
    rw [hsplit]
    refine ⟨?_, hrfin.union hfin⟩
    rw [Set.ncard_union_eq hdisj hrfin hfin, hcard, hrun, Set.ncard_coe_finset, Finset.card_image_of_injective,
      Finset.card_range]
    · rfl
    · intro i j hij
      simpa [sizeofPage] using hij

private theorem allocs_eq (h : Listed s) : allocs n s = min n (freeCount s) := by
  induction n generalizing s with
  | zero => rw [allocs, Nat.zero_min]
  | succ n ih =>
    rw [allocs]
    rcases Nat.eq_zero_or_pos (freeCount s) with h0 | hpos
    · rw [allocPhysPages_empty h0, if_pos rfl, h0, Nat.min_zero]
    · obtain ⟨s', a, he, hal, hc⟩ := allocPhysPages_one h hpos
      rw [he, if_neg hal.ne_zero, ih hal.listed]
      omega

/-- In every state that a run reaches, as many pages can be had one by one as there are pages without an owner. -/
theorem allocs_eq_unowned (cs : List Chunk) (hasc : Ascending cs) (hnum : numPages cs < 2 ^ 31)
    (hzero : (findDesc 0 cs).map (·.refcount) ≠ some 0) (ops : List Op) (hok : Permitted step FreeOk (boot cs) ops) :
    ∃ s, run step (boot cs) ops = some s ∧ ∀ n, allocs n s = min n {a | Unowned s a}.ncard := by
  obtain ⟨s, hs, hinv⟩ := run_inv (boot_inv hasc hnum hzero) hok
  refine ⟨s, hs, fun n => ?_⟩
  rw [allocs_eq hinv.listed, freeCount, ← (ncard_covers hinv.ordered).1]
  simp only [hinv.covers]

theorem allocs_eq_unowned_one : Permitted step FreeOk (boot [fourPages 1]) [.alloc 1, .free 8192, .free 4096] ∧
    ∃ s, run step (boot [fourPages 1]) [.alloc 1, .free 8192, .free 4096] = some s ∧
      ∀ n, allocs n s = min n {a | Unowned s a}.ncard := by
  have hok : Permitted step FreeOk (boot [fourPages 1]) [.alloc 1, .free 8192, .free 4096] := by decide +kernel
  exact ⟨hok, allocs_eq_unowned [fourPages 1] (pairwise_singleton _ _) (by decide) (by decide) _ hok⟩

/-- Two ways in which freeing an owned page breaks the free list: page `0` is listed, and the next `alloc_phys_pages`
takes it without giving it an owner; and with more than `2 ^ 31` owners a page is listed that still has some. -/
theorem free_breaks_list :
    (Ascending [fourPages 1] ∧ numPages [fourPages 1] < 2 ^ 31 ∧ (findDesc 0 [fourPages 1]).map (·.refcount) ≠ some 0 ∧
      Permitted step FreeOwned (boot [fourPages 1]) [.free 0, .alloc 1] ∧
      ∃ s, run step (boot [fourPages 1]) [.free 0, .alloc 1] = some s ∧ ¬ Consistent s) ∧
    (Ascending [fourPages (2 ^ 31 + 1)] ∧ numPages [fourPages (2 ^ 31 + 1)] < 2 ^ 31 ∧
      (findDesc 0 [fourPages (2 ^ 31 + 1)]).map (·.refcount) ≠ some 0 ∧
      Permitted step FreeOwned (boot [fourPages (2 ^ 31 + 1)]) [.free 0] ∧
      ∃ s, run step (boot [fourPages (2 ^ 31 + 1)]) [.free 0] = some s ∧ ¬ Consistent s) := by
  refine ⟨⟨pairwise_singleton _ _, by decide, by decide, by decide +kernel, _, rfl, fun hc => ?_⟩,
    pairwise_singleton _ _, by decide, by decide, by decide +kernel, _, rfl, fun hc => ?_⟩
  · -- page `0` has no owner, and the list begins behind it
    obtain ⟨r, hr, hhas⟩ := (hc.covers 0).2 ⟨rfl, by decide +kernel⟩
    have habove : ∀ r ∈ (allocPhysPages (freePhysPage true (boot [fourPages 1]) 0).1 1).1.physFreeList, 0 < r.addr := by
      decide +kernel
    exact absurd hhas.bounds.1 (Nat.not_le.2 (habove r hr))
  · have hcov : Covers [⟨0, 2⟩, ⟨12288, 1⟩] 0 := covers_cons.2 (.inl (has_addr (by decide)))
    have h0 := ((hc.covers 0).1 hcov).2
    revert h0
    decide +kernel

/-- What a sequence of calls leaves and returns, call by call; the flags say whether the `kmalloc` of a list node
succeeds. -/
def frees : Pages → List (Bool × Nat) → List (Pages × Int)
  | _, [] => []
  | s, (ok, addr) :: calls => freePhysPage ok s addr :: frees (freePhysPage ok s addr).1 calls

private theorem getPhysPageDesc_updateDesc : getPhysPageDesc (updateDesc s a f) a = (getPhysPageDesc s a).map f := by
  have ha := pageAlign_aligned a
  show findDesc (pageAlign a) (modifyDesc (pageAlign a) f s.chunkList) = _
  rw [findDesc_modifyDesc ha ha, if_pos rfl]
  rfl

private theorem freePhysPage_none (h : getPhysPageDesc s addr = none) : freePhysPage ok s addr = (s, -1) := by
  unfold freePhysPage decRefCountPage
  rw [h]
  rfl

/-- `free_phys_page` counts the page down before it looks at the count. For a page without an owner the count is then
-1, which is also the value for an error. -/
private theorem freePhysPage_unowned (h : getPhysPageDesc s addr = some d) (hd : d.refcount = 0) :
    freePhysPage ok s addr = (updateDesc s addr PhysPage.drop, -1) := by
  unfold freePhysPage decRefCountPage
  rw [h]
  dsimp only
  rw [hd, if_pos (by decide)]
  rfl

private theorem freePhysPage_unowned_ne (h : getPhysPageDesc s addr = some d) (hd : d.refcount = 0) :
    freePhysPage ok s addr ≠ (s, -1) := by
  rw [freePhysPage_unowned h hd]
  intro heq
  have hdesc := congrArg (getPhysPageDesc · addr) (Prod.mk.inj heq).1
  rw [getPhysPageDesc_updateDesc, h, Option.map_some, Option.some_inj] at hdesc
  have hcount := congrArg PhysPage.refcount hdesc
  change d.refcount - 1 = d.refcount at hcount
  rw [hd] at hcount
  exact absurd hcount (by decide)

/-- For pages without an owner: all calls are rejected without any effect if and only if none of the pages has a
descriptor. -/
theorem free_rejected_iff (s : Pages) (calls : List (Bool × Nat))
    (hzero : ∀ c ∈ calls, ∀ d, getPhysPageDesc s c.2 = some d → d.refcount = 0) :
    (∀ r ∈ frees s calls, r = (s, -1)) ↔ ∀ c ∈ calls, getPhysPageDesc s c.2 = none := by
  induction calls with
  | nil => simp [frees]
  | cons c calls ih =>
    obtain ⟨ok, addr⟩ := c
    rw [forall_mem_cons] at hzero ⊢
    rw [frees, forall_mem_cons]
    cases hd : getPhysPageDesc s addr with
    | some d =>
      refine iff_of_false (fun h => ?_) fun h => absurd h.1 (by simp)
      exact freePhysPage_unowned_ne hd (hzero.1 d hd) h.1
    | none =>
      rw [freePhysPage_none hd]
      exact and_congr (by simp) (ih hzero.2)

private def twoPages : Chunk where
  physAddrStart := 0x1000
  physAddrEnd := 0x3000
  physPagePointer := [⟨0, 0⟩, ⟨0, 0⟩]
  aligned := page_aligned
  length := by simp [sizeofPage]
  nonempty := by decide
  fits := by simp [addrSpace]

theorem free_rejected_outside : getPhysPageDesc (boot [twoPages]) 0x3000 = none ∧
    ∀ r ∈ frees (boot [twoPages]) [(true, 0x3000), (true, 0x8000), (true, 0x3000)], r = (boot [twoPages], -1) := by
  refine ⟨by decide +kernel, ?_⟩
  exact (free_rejected_iff (boot [twoPages]) [(true, 0x3000), (true, 0x8000), (true, 0x3000)] (by decide +kernel)).2
    (by decide +kernel)

/-- The first page of the chunk is freed twice, and is on the free list twice then. -/
theorem free_not_rejected : ¬ ∀ (s : Pages) (calls : List (Bool × Nat)),
    (∀ c ∈ calls, ∀ d, getPhysPageDesc s c.2 = some d → d.refcount = 0) →
    ∀ r ∈ frees s calls, r.2 = -1 ∧ (∀ a, refcount r.1 a = refcount s a) ∧ r.1.physFreeList = s.physFreeList := by
  intro h
  have hcalls := h (boot [twoPages]) [(true, 0x1000), (true, 0x1000)] (by decide +kernel)
  have hlist := (hcalls _ (mem_cons_of_mem _ mem_cons_self)).2.2
  exact absurd hlist (by decide +kernel)

/-! ### The free list that the first scan builds -/

variable {r t : PhysFree} {a : Nat}

/-- The pages of the run are free pages of the chunk, and those right before and right behind it are not. -/
structure MaximalRun (c : Chunk) (r : PhysFree) : Prop where
  nonempty : 0 < r.count
  free : ∀ a, r.Has a → c.Free a
  before : ∀ a, a + sizeofPage = r.addr → ¬ c.Free a
  after : ¬ c.Free r.stop

namespace MaximalRun

private theorem count_le (hr : MaximalRun c r) (ht : MaximalRun c t) (haddr : r.addr = t.addr) : r.count ≤ t.count := by
  apply Nat.le_of_not_lt
  intro hlt
  refine ht.after (hr.free t.stop ⟨t.count, hlt, ?_⟩)
  rw [haddr, PhysFree.stop]

private theorem eq_of_has (hr : MaximalRun c r) (ht : MaximalRun c t) (hhas : t.Has r.addr) : r = t := by
  obtain ⟨i, hi, haddr⟩ := hhas
  cases i with
  | zero =>
    have haddr : r.addr = t.addr := haddr
    have hcount : r.count = t.count := Nat.le_antisymm (hr.count_le ht haddr) (ht.count_le hr haddr.symm)
    cases r
    cases t
    simp_all
  | succ i =>
    -- the page before `r` belongs to `t`
    refine absurd (ht.free _ ⟨i, by omega, rfl⟩) (hr.before _ ?_)
    rw [haddr, Nat.mul_succ]
    omega

end MaximalRun

private theorem mem_iff_maximalRun (hord : Ordered l) (hcov : ∀ a, Covers l a ↔ c.Free a)
    (hgap : l.Pairwise fun r t => r.stop < t.addr) : r ∈ l ↔ MaximalRun c r := by
  have hpage : 0 < sizeofPage := by decide
  have hsymm : Std.Symm fun r t : PhysFree => r.stop < t.addr ∨ t.stop < r.addr := ⟨fun _ _ => Or.symm⟩
  have hpair : l.Pairwise fun r t => r.stop < t.addr ∨ t.stop < r.addr := hgap.imp Or.inl
  have hapart : ∀ r ∈ l, ∀ t ∈ l, r ≠ t → r.stop < t.addr ∨ t.stop < r.addr :=
    fun r hr t ht hne => hpair.forall hr ht hne
  have hmax : ∀ r ∈ l, MaximalRun c r := by
    intro r hr
    refine ⟨hord.nonempty r hr, fun a ha => (hcov a).1 ⟨r, hr, ha⟩, fun a ha hfree => ?_, fun hfree => ?_⟩
    · obtain ⟨t, ht, hhas⟩ := (hcov a).2 hfree
      have hbd := hhas.bounds
      have hle := (PhysFree.has_addr (hord.nonempty r hr)).bounds
      by_cases heq : r = t
      · subst heq
        omega
      · have := hapart r hr t ht heq
        omega
    · obtain ⟨t, ht, hhas⟩ := (hcov _).2 hfree
      have hbd := hhas.bounds
      have hle := (PhysFree.has_addr (hord.nonempty r hr)).bounds
      by_cases heq : r = t
      · subst heq
        omega
      · have := hapart r hr t ht heq
        omega
  refine ⟨hmax r, fun hr => ?_⟩
  obtain ⟨t, ht, hhas⟩ := (hcov r.addr).2 (hr.free _ (PhysFree.has_addr hr.nonempty))
  rw [hr.eq_of_has (hmax t ht) hhas]
  exact ht

private theorem scanPages_retval (ds : List PhysPage) (node : Option PhysFree) :
    (scanPages (fun _ => true) ds a node).2 = 0 := by
  induction ds generalizing a node with
  | nil => rfl
  | cons d ds ih =>
    rw [scanPages.eq_def]
    dsimp only
    split
    · exact ih none
    · cases node with
      | none => exact ih _
      | some r => exact ih _

private theorem scanChunks_eq : scanChunks (fun _ => true) cs = (cs.flatMap runsOf, 0) := by
  induction cs with
  | nil => rfl
  | cons c cs ih =>
    have hret := scanPages_retval c.physPagePointer none (a := c.physAddrStart)
    unfold scanChunks
    simp only [ih, hret, flatMap_cons]
    rfl

/-- The runs made of a chunk are the maximal runs of its free pages. -/
private theorem mem_runsOf (hlen : c.physPagePointer.length < 2 ^ 32) : r ∈ runsOf c ↔ MaximalRun c r := by
  obtain ⟨hord, hcov, -, hgap⟩ := scanPages_within hlen
  exact mem_iff_maximalRun hord hcov hgap

/-- For chunks that do not overlap, of fewer than `2 ^ 31` pages each: the scan appends, chunk by chunk, the maximal
runs of free pages in ascending order, and no run reaches into another chunk. -/
theorem init_maximal_runs (s : Pages) (hap : ChunksApart s.chunkList)
    (hlen : ∀ c ∈ s.chunkList, c.physPagePointer.length < 2 ^ 31) :
    ∃ runs : Chunk → List PhysFree, initFreePhysPageManager (fun _ => true) s =
        ({ s with physFreeList := s.physFreeList ++ s.chunkList.flatMap runs }, 0) ∧
      ∀ c ∈ s.chunkList, (∀ r, r ∈ runs c ↔ MaximalRun c r) ∧ (runs c).Pairwise (fun r t => r.stop < t.addr) ∧
        ∀ r ∈ runs c, Within c r ∧ ∀ d ∈ s.chunkList, d ≠ c → r.stop ≤ d.physAddrStart ∨ d.physAddrEnd ≤ r.addr := by
  refine ⟨runsOf, ?_, fun c hc => ?_⟩
  · unfold initFreePhysPageManager
    rw [scanChunks_eq]
  have hfew : c.physPagePointer.length < 2 ^ 32 := by
    have := hlen c hc
    omega
  obtain ⟨-, -, hin, hgap⟩ := scanPages_within hfew
  refine ⟨fun r => mem_runsOf hfew, hgap, fun r hr => ⟨hin r hr, fun d hd hne => ?_⟩⟩
  have hrin : c.physAddrStart ≤ r.addr ∧ r.stop ≤ c.physAddrEnd := hin r hr
  have hsymm : Std.Symm fun c d : Chunk => c.physAddrEnd ≤ d.physAddrStart ∨ d.physAddrEnd ≤ c.physAddrStart :=
    ⟨fun _ _ => Or.symm⟩
  have hcd := List.Pairwise.forall hap hc hd (Ne.symm hne)
  omega

private theorem lowerChunk_fits : 0x4000 < addrSpace := by simp [addrSpace]

private def lowerChunk : Chunk where
  physAddrStart := 0x1000
  physAddrEnd := 0x4000
  physPagePointer := [⟨0, 0⟩, ⟨1, 0⟩, ⟨0, 0⟩]
  aligned := page_aligned
  length := by simp [sizeofPage]
  nonempty := by decide
  fits := lowerChunk_fits

private def upperChunk : Chunk where
  physAddrStart := 0x4000
  physAddrEnd := 0x6000
  physPagePointer := [⟨0, 0⟩, ⟨0, 0⟩]
  aligned := rfl
  length := by simp [sizeofPage]
  nonempty := by decide
  fits := by simp [addrSpace]

theorem init_maximal_runs_border :
        (initFreePhysPageManager (fun _ => true) ⟨[lowerChunk, upperChunk], []⟩).1.physFreeList =
        [⟨0x1000, 1⟩, ⟨0x3000, 1⟩, ⟨0x4000, 2⟩] ∧
      ∃ runs : Chunk → List PhysFree, [⟨0x1000, 1⟩, ⟨0x3000, 1⟩, ⟨0x4000, 2⟩] = runs lowerChunk ++ runs upperChunk ∧
        (∀ r, r ∈ runs lowerChunk ↔ MaximalRun lowerChunk r) ∧ ∀ r, r ∈ runs upperChunk ↔ MaximalRun upperChunk r := by
  have hap : ChunksApart [lowerChunk, upperChunk] := by
    refine pairwise_pair.2 (.inl ?_)
    decide
  have hlen : ∀ c ∈ [lowerChunk, upperChunk], c.physPagePointer.length < 2 ^ 31 := by
    intro c hc
    simp only [mem_cons, not_mem_nil, or_false] at hc
    rcases hc with rfl | rfl <;> decide
  have hlist : (initFreePhysPageManager (fun _ => true) ⟨[lowerChunk, upperChunk], []⟩).1.physFreeList =
      [⟨0x1000, 1⟩, ⟨0x3000, 1⟩, ⟨0x4000, 2⟩] := by decide +kernel
  obtain ⟨runs, heq, hruns⟩ := init_maximal_runs ⟨[lowerChunk, upperChunk], []⟩ hap hlen
  refine ⟨hlist, runs, ?_, (hruns lowerChunk (by simp)).1, (hruns upperChunk (by simp)).1⟩
  rw [← hlist, heq]
  simp

end Adix.PhysPages
