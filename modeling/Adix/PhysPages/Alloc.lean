import Adix.PhysPages.Runs
import Mathlib.Data.List.Nodup
import Mathlib.Data.List.Perm.Subperm

/-!
# Descriptors and allocation of pages

`desc s a` is the descriptor of the page `a`, if some chunk has one, and `refcount s a` its reference count.
`alloc_phys_pages` looks at the free list only, whatever the counts are.
-/

namespace Adix.PhysPages

open List Option
open PhysFree (count stop)

variable {s s' : Pages} {a b n : Nat} {l : List PhysFree} {k : BitVec 32}

def desc (s : Pages) (a : Nat) : Option PhysPage := findDesc a s.chunkList

def refcount (s : Pages) (a : Nat) : Option (BitVec 32) := (desc s a).map (·.refcount)

def PhysPage.bump (d : PhysPage) : PhysPage := { d with refcount := d.refcount + 1 }

def numPages (cs : List Chunk) : Nat := (cs.map (·.physPagePointer.length)).sum

def Chunk.bounds (c : Chunk) : Nat × Nat := (c.physAddrStart, c.physAddrEnd)

variable {c : Chunk} {cs : List Chunk} {f : PhysPage → PhysPage}

theorem pageAlign_eq (h : a % sizeofPage = 0) : pageAlign a = a := by simp [pageAlign, h]

theorem Chunk.covers_iff : c.covers a = true ↔ c.physAddrStart ≤ a ∧ a < c.physAddrEnd := by
  simp [Chunk.covers]

/-- A page of a chunk is that of its index. -/
theorem Chunk.addr_index (ha : a % sizeofPage = 0) (h : c.covers a = true) :
    a = c.physAddrStart + sizeofPage * c.index a ∧ c.index a < c.physPagePointer.length := by
  have h1 := c.aligned
  have h2 := c.length
  obtain ⟨h3, h4⟩ := Chunk.covers_iff.1 h
  unfold Chunk.index
  unfold sizeofPage at *
  omega

open Chunk (bounds addr_index covers_iff index)

theorem Chunk.covers_addr {i : Nat} (hi : i < c.physPagePointer.length) :
    c.covers (c.physAddrStart + sizeofPage * i) = true ∧ c.index (c.physAddrStart + sizeofPage * i) = i := by
  have h2 := c.length
  rw [covers_iff]
  unfold index
  unfold sizeofPage at *
  omega

private theorem Chunk.index_inj (ha : a % sizeofPage = 0) (hb : b % sizeofPage = 0) (hca : c.covers a = true)
    (hcb : c.covers b = true) (h : c.index a = c.index b) : a = b := by
  rw [(addr_index ha hca).1, (addr_index hb hcb).1, h]

theorem findDesc_modifyDesc (ha : a % sizeofPage = 0) (hb : b % sizeofPage = 0) :
    findDesc b (modifyDesc a f cs) = if b = a then (findDesc a cs).map f else findDesc b cs := by
  induction cs with
  | nil => simp [modifyDesc, findDesc]
  | cons c cs ih =>
    unfold modifyDesc
    by_cases hc : c.covers a
    · rw [if_pos hc]
      show (if c.covers b then (c.physPagePointer.modify (c.index a) f)[c.index b]? else findDesc b cs) = _
      by_cases hba : b = a
      · subst hba
        simp [findDesc, hc]
      · rw [if_neg hba]
        by_cases hcb : c.covers b
        · have hne : c.index a ≠ c.index b := fun he => hba (Chunk.index_inj ha hb hc hcb he).symm
          simp [findDesc, hcb, hne]
        · simp [findDesc, hcb]
    · rw [if_neg hc]
      by_cases hba : b = a
      · subst hba
        simp only [findDesc, hc, if_true] at ih ⊢
        exact ih
      · rw [if_neg hba] at ih ⊢
        simp only [findDesc, ih]

private theorem numPages_modifyDesc : numPages (modifyDesc a f cs) = numPages cs := by
  induction cs with
  | nil => rfl
  | cons c cs ih =>
    unfold modifyDesc
    split
    · simp [numPages, Chunk.modify]
    · simp only [numPages, map_cons, sum_cons] at ih ⊢
      rw [ih]

private theorem bounds_modifyDesc : (modifyDesc a f cs).map bounds = cs.map bounds := by
  induction cs with
  | nil => rfl
  | cons c cs ih =>
    unfold modifyDesc
    split
    · rfl
    · rw [map_cons, map_cons, ih]

theorem findDesc_some {d : PhysPage} (h : findDesc a cs = some d) :
    ∃ c ∈ cs, c.covers a = true ∧ d ∈ c.physPagePointer := by
  induction cs with
  | nil => cases h
  | cons c cs ih =>
    unfold findDesc at h
    split at h
    · exact ⟨c, mem_cons_self, ‹_›, mem_of_getElem? h⟩
    · obtain ⟨c', hc', hd⟩ := ih h
      exact ⟨c', mem_cons_of_mem _ hc', hd⟩

theorem refcount_some (h : refcount s a = some k) : ∃ c ∈ s.chunkList, c.covers a = true := by
  obtain ⟨d, hd, -⟩ := Option.map_eq_some_iff.1 h
  obtain ⟨c, hc, hcov, -⟩ := findDesc_some hd
  exact ⟨c, hc, hcov⟩

theorem refcount_fits (ha : a % sizeofPage = 0) (h : refcount s a = some k) : a + sizeofPage < addrSpace := by
  obtain ⟨c, -, hc⟩ := refcount_some h
  have h1 := addr_index ha hc
  have h2 := c.length
  have h3 := c.fits
  unfold sizeofPage at *
  omega

/-- There are no more pages than the chunks have descriptors. -/
theorem length_le_numPages {l : List Nat} (hd : l.Nodup)
    (h : ∀ a ∈ l, a % sizeofPage = 0 ∧ ∃ c ∈ cs, c.covers a = true) : l.length ≤ numPages cs := by
  -- all pages of the chunks, in one list
  let pages := cs.flatMap fun c => (List.range c.physPagePointer.length).map fun i => c.physAddrStart + sizeofPage * i
  have hlen : pages.length = numPages cs := by simp [pages, numPages, length_flatMap]
  have hsub : l ⊆ pages := by
    intro a hal
    obtain ⟨ha, c, hc, hcov⟩ := h a hal
    obtain ⟨h1, h2⟩ := addr_index ha hcov
    refine mem_flatMap.2 ⟨c, hc, List.mem_map.2 ⟨c.index a, mem_range.2 h2, h1.symm⟩⟩
  calc l.length ≤ pages.length := (subperm_of_subset hd hsub).length_le
    _ = numPages cs := hlen

theorem getPhysPageDesc_eq (ha : a % sizeofPage = 0) : getPhysPageDesc s a = desc s a := by
  rw [getPhysPageDesc, pageAlign_eq ha, desc]

/-- A change through `get_phys_page_desc` changes the descriptor of one page. -/
theorem desc_updateDesc (ha : a % sizeofPage = 0) (hb : b % sizeofPage = 0) :
    desc (updateDesc s a f) b = if b = a then (desc s a).map f else desc s b := by
  unfold desc updateDesc
  rw [pageAlign_eq ha, findDesc_modifyDesc ha hb]

@[simp] theorem numPages_updateDesc : numPages (updateDesc s a f).chunkList = numPages s.chunkList :=
  numPages_modifyDesc

private theorem desc_incRefCountPage (ha : a % sizeofPage = 0) (hb : b % sizeofPage = 0) :
    desc (incRefCountPage s a).1 b = if b = a then (desc s a).map PhysPage.bump else desc s b := by
  unfold incRefCountPage
  rw [getPhysPageDesc_eq ha]
  cases hd : desc s a with
  | some d =>
    have h := desc_updateDesc (s := s) (f := PhysPage.bump) ha hb
    rw [hd] at h
    exact h
  | none =>
    by_cases hba : b = a
    · subst hba
      simp [hd]
    · simp [hba]

@[simp] private theorem physFreeList_incRefCountPage : (incRefCountPage s a).1.physFreeList = s.physFreeList := by
  unfold incRefCountPage
  split <;> rfl

@[simp] private theorem numPages_incRefCountPage :
    numPages (incRefCountPage s a).1.chunkList = numPages s.chunkList := by
  unfold incRefCountPage
  split
  · exact numPages_modifyDesc
  · rfl

@[simp] theorem physFreeList_incPages : (incPages s a n).1.physFreeList = s.physFreeList := by
  induction n generalizing s a with
  | zero => rfl
  | succ n ih => simp [incPages, ih]

@[simp] private theorem numPages_incPages : numPages (incPages s a n).1.chunkList = numPages s.chunkList := by
  induction n generalizing s a with
  | zero => rfl
  | succ n ih => simp [incPages, ih]

@[simp] theorem bounds_incPages : (incPages s a n).1.chunkList.map bounds = s.chunkList.map bounds := by
  induction n generalizing s a with
  | zero => rfl
  | succ n ih =>
    have hone : (incRefCountPage s a).1.chunkList.map bounds = s.chunkList.map bounds := by
      unfold incRefCountPage
      split
      · exact bounds_modifyDesc
      · rfl
    rw [← hone]
    exact ih

private theorem has_succ : (⟨a, n + 1⟩ : PhysFree).Has b ↔ b = a ∨ (⟨a + sizeofPage, n⟩ : PhysFree).Has b := by
  have h := has_concat (r := ⟨a, 1⟩) (t := ⟨a + sizeofPage, n⟩) (b := b) (by simp [stop])
  rw [has_one, Nat.add_comm] at h
  exact h

/-- The loop of `inc_ref_count_pages` counts each page of its range once. -/
theorem desc_incPages (ha : a % sizeofPage = 0) (hb : b % sizeofPage = 0) :
    ((⟨a, n⟩ : PhysFree).Has b → desc (incPages s a n).1 b = (desc s b).map PhysPage.bump) ∧
      (¬ (⟨a, n⟩ : PhysFree).Has b → desc (incPages s a n).1 b = desc s b) := by
  induction n generalizing s a with
  | zero =>
    constructor
    · rintro ⟨i, hi, -⟩
      exact absurd hi (Nat.not_lt_zero i)
    · intro _
      rfl
  | succ n ih =>
    have ha' : (a + sizeofPage) % sizeofPage = 0 := by rw [Nat.add_mod_right]; exact ha
    obtain ⟨ih1, ih2⟩ := ih (s := (incRefCountPage s a).1) ha'
    rw [has_succ]
    show (_ → desc (incPages (incRefCountPage s a).1 (a + sizeofPage) n).1 b = _) ∧
      (_ → desc (incPages (incRefCountPage s a).1 (a + sizeofPage) n).1 b = _)
    rw [desc_incRefCountPage ha hb] at ih1 ih2
    by_cases hba : b = a
    · -- the later pages lie above `a`
      subst hba
      have hnot : ¬ (⟨b + sizeofPage, n⟩ : PhysFree).Has b := by
        intro hh
        have := hh.bounds.1
        unfold sizeofPage at this
        dsimp only at this
        omega
      constructor
      · intro _
        rw [ih2 hnot, if_pos rfl]
      · intro h
        exact absurd (.inl rfl) h
    · rw [if_neg hba] at ih1 ih2
      constructor
      · intro h
        exact ih1 (h.resolve_left hba)
      · intro h
        exact ih2 fun hh => h (.inr hh)

/-- What `alloc_phys_pages` needs of the free list: its runs do not overlap. -/
structure Listed (s : Pages) : Prop where
  apart : Apart s.physFreeList
  page : ∀ b, Covers s.physFreeList b → b % sizeofPage = 0 ∧ b ≠ 0 ∧ b + sizeofPage < addrSpace

theorem covers_run (hb : b % 4096 = 0) (h : Covers [⟨b, n⟩] a) : a % 4096 = 0 ∧ b ≤ a ∧ a + 4096 ≤ b + 4096 * n := by
  obtain ⟨r, hr, i, hi, rfl⟩ := h
  obtain rfl := mem_singleton.1 hr
  unfold sizeofPage
  dsimp only at hi ⊢
  omega

theorem listed_run (hn : 0 < n) (hb : b % 4096 = 0) (h0 : b ≠ 0) (hs : b + 4096 * n < 2 ^ 64) :
    Listed ⟨cs, [⟨b, n⟩]⟩ := by
  refine ⟨⟨fun r hr => ?_, pairwise_singleton _ _⟩, fun a ha => ?_⟩
  · obtain rfl := mem_singleton.1 hr
    exact hn
  · have := covers_run hb ha
    unfold sizeofPage addrSpace
    omega

/-- The `n` pages from `a` on are taken off the list, and each is counted up. -/
structure Allocated (s : Pages) (n : Nat) (s' : Pages) (a : Nat) : Prop where
  ne_zero : a ≠ 0
  listed : Listed s'
  ordered : Ordered s.physFreeList → Ordered s'.physFreeList
  free : ∀ b, (⟨a, n⟩ : PhysFree).Has b → Covers s.physFreeList b
  covers : ∀ b, Covers s'.physFreeList b ↔ Covers s.physFreeList b ∧ ¬ (⟨a, n⟩ : PhysFree).Has b
  counted : ∀ b, (⟨a, n⟩ : PhysFree).Has b → desc s' b = (desc s b).map PhysPage.bump
  other : ∀ b, b % sizeofPage = 0 → ¬ (⟨a, n⟩ : PhysFree).Has b → desc s' b = desc s b
  numPages_eq : numPages s'.chunkList = numPages s.chunkList

private theorem Listed.stop_lt (h : Listed s) : ∀ r ∈ s.physFreeList, r.stop < addrSpace := by
  intro r hr
  have hpos := h.apart.nonempty r hr
  have hlast := (h.page _ ⟨r, hr, r.count - 1, by omega, rfl⟩).2.2
  unfold stop
  unfold sizeofPage at *
  omega

private theorem incRefCountPages_eq (ha : a % sizeofPage = 0) (hfit : a + sizeofPage * n < addrSpace) :
    incRefCountPages s a ((a + n * sizeofPage) % addrSpace) = incPages s a n := by
  have hs : addrSpace % sizeofPage = 0 := by decide
  have h1 : (a + n * sizeofPage) % addrSpace = a + sizeofPage * n := by
    rw [Nat.mul_comm]
    exact Nat.mod_eq_of_lt hfit
  have h2 : (a + sizeofPage * n + sizeofPage - 1) % addrSpace = a + sizeofPage * n + (sizeofPage - 1) := by
    rw [Nat.add_sub_assoc (by decide)]
    apply Nat.mod_eq_of_lt
    unfold sizeofPage at *
    omega
  have h3 : pageAlign (a + sizeofPage * n + (sizeofPage - 1)) = a + sizeofPage * n := by
    unfold pageAlign sizeofPage at *
    omega
  have h4 : (a + sizeofPage * n - a) / sizeofPage = n := by
    rw [Nat.add_sub_cancel_left]
    exact Nat.mul_div_cancel_left n (by decide)
  simp only [incRefCountPages, h1, h2, h3, pageAlign_eq ha, h4]

/-- Whatever the reference counts are, pages are taken off the list and counted, or nothing changes. -/
theorem allocPhysPages_listed (h : Listed s) (n : Nat) :
    allocPhysPages s n = (s, 0) ∨ ∃ s' a, allocPhysPages s n = (s', a) ∧ Allocated s n s' a := by
  unfold allocPhysPages
  by_cases hn : n = 0
  · exact .inl (if_pos hn)
  rw [if_neg hn]
  cases ht : takeRun n s.physFreeList with
  | none => exact .inl rfl
  | some al =>
    obtain ⟨a, l⟩ := al
    right
    obtain ⟨t1, t2, t3⟩ := takeRun_spec h.apart h.stop_lt ht
    obtain ⟨ha, ha0, -⟩ := h.page a (t1 a ⟨0, by dsimp only; omega, by simp⟩)
    have hfit : a + sizeofPage * n < addrSpace := by
      have := (h.page _ (t1 (a + sizeofPage * (n - 1)) ⟨n - 1, by dsimp only; omega, rfl⟩)).2.2
      unfold sizeofPage at *
      omega
    dsimp only
    rw [if_neg ha0, incRefCountPages_eq ha hfit]
    let s1 : Pages := { s with physFreeList := l }
    have hlist : (incPages s1 a n).1.physFreeList = l := physFreeList_incPages
    have hinc := fun b hb => desc_incPages (s := s1) (n := n) (b := b) ha hb
    refine ⟨_, a, rfl, ha0, ⟨?_, ?_⟩, fun ho => ?_, t1, ?_, fun b hb => ?_, fun b hb hnot => (hinc b hb).2 hnot,
      numPages_incPages⟩
    · show Apart (incPages s1 a n).1.physFreeList
      rw [hlist]
      exact t2
    · show ∀ b, Covers (incPages s1 a n).1.physFreeList b → _
      rw [hlist]
      intro b hb
      exact h.page b ((t3 b).1 hb).1
    · show Ordered (incPages s1 a n).1.physFreeList
      rw [hlist]
      exact takeRun_ordered ho h.stop_lt ht
    · show ∀ b, Covers (incPages s1 a n).1.physFreeList b ↔ _
      rw [hlist]
      exact t3
    · exact (hinc b (h.page b (t1 b hb)).1).1 hb

def freeCount (s : Pages) : Nat := (s.physFreeList.map count).sum

/-- The list has `n` pages fewer afterwards. -/
theorem takeRun_count {l' : List PhysFree} (h : takeRun n l = some (a, l')) :
    (l'.map count).sum + n = (l.map count).sum := by
  induction l generalizing l' with
  | nil => cases h
  | cons r rs ih =>
    unfold takeRun at h
    split at h
    · obtain ⟨⟨b, rs'⟩, hrs, heq⟩ := map_eq_some_iff.1 h
      cases heq
      have hsum := ih hrs
      simp only [map_cons, sum_cons]
      omega
    · split at h
      · cases h
        simp only [map_cons, sum_cons]
        omega
      · cases h
        simp only [map_cons, sum_cons]
        omega

private theorem takeRun_one_none (h : takeRun 1 l = none) : (l.map count).sum = 0 := by
  induction l with
  | nil => rfl
  | cons r rs ih =>
    unfold takeRun at h
    split at h
    · have hsum := ih (map_eq_none_iff.1 h)
      simp only [map_cons, sum_cons]
      omega
    · split at h <;> cases h

theorem freeCount_allocPhysPages (s : Pages) :
    freeCount s = 0 ∧ allocPhysPages s 1 = (s, 0) ∨ freeCount (allocPhysPages s 1).1 + 1 = freeCount s := by
  unfold allocPhysPages
  rw [if_neg (by decide)]
  cases ht : takeRun 1 s.physFreeList with
  | none => exact .inl ⟨takeRun_one_none ht, rfl⟩
  | some x =>
    obtain ⟨a, l⟩ := x
    right
    rw [freeCount, freeCount, ← takeRun_count ht]
    dsimp only
    split
    · rfl
    · rw [incRefCountPages, physFreeList_incPages]

/-- A single page is available as long as the list is not empty. -/
theorem allocPhysPages_one (h : Listed s) (hfree : 0 < freeCount s) :
    ∃ s' a, allocPhysPages s 1 = (s', a) ∧ Allocated s 1 s' a ∧ freeCount s' + 1 = freeCount s := by
  rcases freeCount_allocPhysPages s with ⟨h0, -⟩ | hsum
  · omega
  obtain he | ⟨s', a, he, hal⟩ := allocPhysPages_listed h 1
  · rw [he] at hsum
    dsimp only at hsum
    omega
  · rw [he] at hsum
    exact ⟨s', a, he, hal, hsum⟩

theorem allocPhysPages_empty (h : freeCount s = 0) : allocPhysPages s 1 = (s, 0) := by
  rcases freeCount_allocPhysPages s with ⟨-, he⟩ | hsum
  · exact he
  · omega

end Adix.PhysPages
