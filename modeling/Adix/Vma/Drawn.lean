import Adix.PhysPages.Consistent
import Adix.Vma.Pages

/-!
# Pages drawn one at a time

The functions that map pages change the page allocator in one way only: they take single pages, for the pages
themselves and for the page tables.
-/

namespace Adix.Vma.Pages

open PageTable PhysPages List Option

def allocOne (p : PhysPages.Pages) : PhysPages.Pages := (allocPhysPages p 1).1

/-- At most `n` pages were taken, one at a time. -/
def Drawn (n : Nat) (p p' : PhysPages.Pages) : Prop := ∃ m ≤ n, p' = allocOne^[m] p

variable {p p' p'' : PhysPages.Pages} {s s' : Mach} {m n cr3 : Nat} {entry phys virt prot : Word} {r : PhysFree}
  {rs : List PhysFree}

private theorem Drawn.refl (p : PhysPages.Pages) : Drawn 0 p p := ⟨0, Nat.le_refl 0, rfl⟩

private theorem Drawn.one (p : PhysPages.Pages) : Drawn 1 p (allocOne p) := ⟨1, Nat.le_refl 1, rfl⟩

private theorem Drawn.mono (h : Drawn m p p') (hn : m ≤ n) : Drawn n p p' := by
  obtain ⟨k, hk, he⟩ := h
  exact ⟨k, by omega, he⟩

theorem Drawn.trans (h : Drawn m p p') (h' : Drawn n p' p'') : Drawn (m + n) p p'' := by
  obtain ⟨k, hk, rfl⟩ := h
  obtain ⟨j, hj, rfl⟩ := h'
  refine ⟨j + k, by omega, ?_⟩
  rw [Function.iterate_add_apply]

/-- What an allocation of one page keeps is kept. -/
theorem Drawn.keeps {P : PhysPages.Pages → Prop} (h : Drawn n p p') (hstep : ∀ p, P p → P (allocOne p)) (hp : P p) :
    P p' := by
  obtain ⟨k, -, rfl⟩ := h
  induction k with
  | zero => exact hp
  | succ k ih =>
    rw [Function.iterate_succ_apply']
    exact hstep _ ih

private theorem physFreeList_allocOne (p : PhysPages.Pages) :
    (allocOne p).physFreeList = (takeRun 1 p.physFreeList).elim p.physFreeList Prod.snd := by
  unfold allocOne allocPhysPages
  rw [if_neg Nat.one_ne_zero]
  cases takeRun 1 p.physFreeList with
  | none => rfl
  | some t =>
    dsimp only
    split
    · rfl
    · exact physFreeList_incPages

private theorem freeCount_allocOne (p : PhysPages.Pages) :
    freeCount (allocOne p) ≤ freeCount p ∧ freeCount p ≤ freeCount (allocOne p) + 1 := by
  unfold freeCount
  rw [physFreeList_allocOne]
  cases ht : takeRun 1 p.physFreeList with
  | none => exact ⟨Nat.le_refl _, Nat.le_succ _⟩
  | some t =>
    have := takeRun_count ht
    rw [elim_some]
    omega

theorem Drawn.freeCount_le (h : Drawn n p p') : freeCount p' ≤ freeCount p ∧ freeCount p ≤ freeCount p' + n := by
  obtain ⟨k, hk, rfl⟩ := h
  have hgone : freeCount (allocOne^[k] p) ≤ freeCount p ∧ freeCount p ≤ freeCount (allocOne^[k] p) + k := by
    induction k with
    | zero => exact ⟨Nat.le_refl _, Nat.le_refl _⟩
    | succ k ih =>
      have hone := freeCount_allocOne (allocOne^[k] p)
      rw [Function.iterate_succ_apply']
      omega
  omega

theorem count_le_freeCount (hl : p.physFreeList = r :: rs) : r.count ≤ freeCount p := by
  unfold freeCount
  rw [hl, map_cons, sum_cons]
  exact Nat.le_add_right _ _

/-- The first run of the free list gives all the pages while it lasts. -/
theorem Drawn.first (h : Drawn n p p') (hl : p.physFreeList = r :: rs) (hn : n < r.count) :
    ∃ r', p'.physFreeList = r' :: rs ∧ r.count ≤ r'.count + n := by
  obtain ⟨k, hk, rfl⟩ := h
  have hfirst : ∃ r', (allocOne^[k] p).physFreeList = r' :: rs ∧ r'.count + k = r.count := by
    induction k with
    | zero => exact ⟨r, hl, rfl⟩
    | succ k ih =>
      obtain ⟨r', he, hc⟩ := ih (by omega)
      rw [Function.iterate_succ_apply', physFreeList_allocOne, he]
      unfold takeRun
      rw [if_neg (by omega), if_neg (by omega)]
      exact ⟨_, rfl, by dsimp only; omega⟩
  obtain ⟨r', he, hc⟩ := hfirst
  exact ⟨r', he, by omega⟩

theorem Drawn.inv (h : Drawn n p p') (hp : PhysPages.Inv p) : PhysPages.Inv p' := by
  refine h.keeps (fun p hp => ?_) hp
  unfold allocOne
  obtain he | ⟨s', a, he, -, hinv⟩ := allocPhysPages_spec hp 1
  · rw [he]
    exact hp
  · rw [he]
    exact hinv

private theorem storeAt_pages {w : Word} (hs : storeAt s cr3 virt w = some s') : s'.pages = s.pages := by
  obtain ⟨page, -, rfl⟩ := map_eq_some_iff.1 hs
  rfl

private theorem nextEntry_drawn {ok : Bool} (hs : nextEntry s cr3 entry phys = some (s', ok)) :
    Drawn 1 s.pages s'.pages := by
  have hnone : Drawn 1 s.pages s.pages := (Drawn.refl _).mono (Nat.zero_le 1)
  obtain ⟨e, -, hs⟩ := bind_eq_some_iff.1 hs
  split at hs
  · split at hs
    · cases hs
      exact hnone
    · dsimp only at hs
      split at hs
      · cases hs
        exact Drawn.one _
      · obtain ⟨s1, hs1, heq⟩ := map_eq_some_iff.1 hs
        cases heq
        rw [storeAt_pages hs1]
        exact Drawn.one _
  · cases hs
    exact hnone

private theorem lastEntry_pages {r : Int} (hs : lastEntry s cr3 phys virt prot = some (s', r)) :
    s'.pages = s.pages := by
  have hstore : ∀ w, (storeAt s cr3 (selfRefPte virt) w).map (fun s => (s, (0 : Int))) = some (s', r) →
      s'.pages = s.pages := by
    intro w hw
    obtain ⟨s1, hs1, heq⟩ := map_eq_some_iff.1 hw
    cases heq
    exact storeAt_pages hs1
  obtain ⟨e, -, hs⟩ := bind_eq_some_iff.1 hs
  split at hs
  · split at hs
    · cases hs
      rfl
    · exact hstore _ hs
  · exact hstore _ hs

/-- One page takes three tables at most. -/
theorem updateCurrPageTable_drawn {r : Int} (hs : updateCurrPageTable s cr3 phys virt prot = some (s', r)) :
    Drawn 3 s.pages s'.pages := by
  obtain ⟨⟨s1, ok1⟩, h1, hs⟩ := bind_eq_some_iff.1 hs
  have hd1 := nextEntry_drawn h1
  dsimp only at hs
  split at hs
  · cases hs
    exact hd1.mono (by decide)
  obtain ⟨⟨s2, ok2⟩, h2, hs⟩ := bind_eq_some_iff.1 hs
  have hd2 := hd1.trans (nextEntry_drawn h2)
  dsimp only at hs
  split at hs
  · cases hs
    exact hd2.mono (by decide)
  obtain ⟨⟨s3, ok3⟩, h3, hs⟩ := bind_eq_some_iff.1 hs
  have hd3 := hd2.trans (nextEntry_drawn h3)
  dsimp only at hs
  split at hs
  · cases hs
    exact hd3
  · rw [lastEntry_pages hs]
    exact hd3

theorem mapPages_drawn {pages : List Nat} (hs : mapPages cr3 prot pages virt s = some s') :
    Drawn (3 * pages.length) s.pages s'.pages := by
  induction pages generalizing s virt with
  | nil =>
    cases hs
    exact Drawn.refl _
  | cons phys rest ih =>
    obtain ⟨⟨s1, r⟩, h1, hs⟩ := bind_eq_some_iff.1 hs
    have hd := (updateCurrPageTable_drawn h1).trans (ih hs)
    exact hd.mono (by rw [length_cons]; omega)

theorem takePages_drawn (n : Nat) (s : Mach) : Drawn n s.pages (takePages n s).1.pages := by
  induction n generalizing s with
  | zero => exact Drawn.refl _
  | succ n ih =>
    unfold takePages
    dsimp only
    split
    · exact (Drawn.one _).mono (by omega)
    · exact ((Drawn.one _).trans (ih _)).mono (by omega)

/-- With enough free pages, `n` of them are taken. -/
theorem takePages_spec (h : Listed s.pages) (hn : n ≤ freeCount s.pages) :
    ∃ s' pages, takePages n s = (s', some pages) ∧ pages.length = n ∧ s'.mem = s.mem ∧ s'.base = s.base ∧
      Listed s'.pages ∧ (∀ q ∈ pages, Free s q) ∧ ∀ q, Free s' q → Free s q := by
  induction n generalizing s with
  | zero => exact ⟨s, [], rfl, rfl, rfl, rfl, h, nofun, fun _ hq => hq⟩
  | succ n ih =>
    obtain ⟨s1, f, he, ht, hc⟩ := allocPage_spec h (by omega)
    obtain ⟨s', pages, he', hlen, hmem, hbase, hl, hpages, hsub⟩ := ih ht.allocated.listed (by omega)
    have hold : ∀ q, Free s1 q → Free s q := fun q hq => (ht.free_iff.1 hq).1
    refine ⟨s', f :: pages, ?_, by rw [length_cons, hlen], hmem.trans ht.mem_eq, hbase.trans ht.base_eq, hl, ?_,
      fun q hq => hold q (hsub q hq)⟩
    · unfold takePages
      rw [he]
      dsimp only
      rw [if_neg ht.allocated.ne_zero, he']
      rfl
    · intro q hq
      rcases mem_cons.1 hq with rfl | hq
      · exact ht.wasFree
      · exact hold q (hpages q hq)

end Adix.Vma.Pages
