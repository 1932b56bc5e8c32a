import Adix.Cow.Fault

/-!
# One entry of the current page table is written

`update_curr_page_table` writes one entry of the current page table.
-/

namespace Adix.Space

open PageTable PhysPages Cow Option BitVec

def TableOf (r : Nat) (s : Mach) (q : Nat) : Prop := IsTable (· ≠ selfRefEntry) s (· = r) q

/-- The page of `a` has the entry `e`, every other entry of the table `r` is as it was, and so is the memory outside the
tables. -/
structure Maps (r : Nat) (s s' : Mach) (a e : Word) : Prop where
  wf : WellFormed (· ≠ selfRefEntry) s' (· = r)
  self : SelfRef s' r
  here : leaf s'.mem r a = some e
  elsewhere : ∀ b, indexPml4e b ≠ selfRefEntry → ¬ SamePage b a → leaf s'.mem r b = leaf s.mem r b
  tables : ∀ q, TableOf r s' q → TableOf r s q ∨ Free s q
  outside : ∀ q, ¬ TableOf r s q → (Free s q → Free s' q) → s'.mem q = s.mem q
  free_sub : ∀ q, Free s' q → Free s q

/-- The same with a page of the free list as the frame. -/
structure NewPage (r : Nat) (s s' : Mach) (a perm : Word) (z : Nat) : Prop
    extends Maps r s s' a (leafEntry (BitVec.ofNat 64 z) perm) where
  wasFree : Free s z
  taken : ¬ Free s' z
  data : ¬ TableOf r s' z
  mem_eq : s'.mem z = s.mem z
  count : freeCount s.pages ≤ freeCount s'.pages + missing s.mem r a + 1

variable {s s' u : Mach} {r q z pt : Nat} {a b e phys perm : Word}

private theorem maps_store (hg : Grows (· ≠ selfRefEntry) (· = r) s u) (hself : SelfRef s r)
    (hv : indexPml4e a ≠ selfRefEntry) (hpt : Radix.walk entryFormat u.mem r (tablePath a) = some pt)
    (hp : entryFormat.present e = true) :
    Maps r s (u.store pt (indexPte a) e) a e := by
  have hpath := tablePath_ok (K := (· ≠ selfRefEntry)) hv
  obtain ⟨h1, h2⟩ := leafWord_store (w := e) hg rfl hv hpt
  refine
    { wf := hg.wf.store rfl hpath rfl hpt
      self := hg.selfRef_store rfl hv hpt rfl (fun h => h rfl) hself
      here := ?_
      elsewhere := fun b hb hne => leaf_eq_of_leafWord (h2 r b rfl hb fun hsame => hne hsame.2)
      tables := fun q hq => (hg.isTable ((isTable_store hg.wf rfl hpath rfl hpt).1 hq)).imp_right And.left
      outside := fun q hq hfree => hg.store_outside rfl hv hpt hq hfree
      free_sub := hg.free_sub }
  rw [leaf_eq_filter, h1, filter_some, hp]
  rfl

section Update

variable (hw : WellFormed (· ≠ selfRefEntry) s (· = r)) (hself : SelfRef s r) (hv : indexPml4e a ≠ selfRefEntry)
include hw hself hv

/-- With a page, `update_curr_page_table` maps it, with at most the missing tables taken. -/
theorem updateCurrPageTable_maps (hphys : phys ≠ 0) (hc : missing s.mem r a ≤ freeCount s.pages) (perm : Word) :
    ∃ s', updateCurrPageTable s r phys a perm = some (s', 0) ∧ Maps r s s' a (leafEntry phys perm) ∧
      freeCount s.pages ≤ freeCount s'.pages + missing s.mem r a := by
  obtain ⟨u, pt, hg, hpt, hcount, he⟩ := updatePageTableIdmap_spec hw rfl hv phys perm hc
  refine ⟨_, ?_, maps_store hg hself hv hpt present_leafEntry, hcount⟩
  rw [updateCurrPageTable_eq hw hself hv hphys hc, he]

/-- Without one, it gives the entry other permissions. -/
theorem updateCurrPageTable_protects (he : leaf s.mem r a = some e) (hp : entryFormat.present perm = true) :
    ∃ s', updateCurrPageTable s r 0 a perm = some (s', 0) ∧ Maps r s s' a (withPerm e perm) ∧ s'.pages = s.pages := by
  obtain ⟨pt, hpt, -, hu⟩ := updateCurrPageTable_zero hw hself hv he perm
  refine ⟨_, hu, maps_store (Grows.refl hw) hself hv hpt ?_, rfl⟩
  rw [present_eq] at hp ⊢
  rw [getLsbD_or, getLsbD_nextLevelAddr, getLsbD_nonAddrFields, hp]
  simp

/-- A page is taken and mapped. -/
theorem allocPage_maps (hc : missing s.mem r a + 1 ≤ freeCount s.pages) (perm : Word) :
    ∃ u z s', s.allocPage = (u, z) ∧ z ≠ 0 ∧ updateCurrPageTable u r (BitVec.ofNat 64 z) a perm = some (s', 0) ∧
      NewPage r s s' a perm z := by
  obtain ⟨u, z, halloc, ht, hcount⟩ := allocPage_spec hw.listed (by omega)
  have hz := hw.free z ht.wasFree
  have hmem : ∀ q, TableOf r s q → u.mem q = s.mem q := fun q _ => by rw [ht.mem_eq]
  have hsub : ∀ q, Free u q → Free s q := fun q hq => (ht.free_iff.1 hq).1
  have hwu : WellFormed (· ≠ selfRefEntry) u (· = r) := hw.congr hmem ht.allocated.listed ht.base_eq hsub
  have hselfu : SelfRef u r := hself.congr (by rw [ht.mem_eq])
  have htab : ∀ q, TableOf r u q ↔ TableOf r s q := fun q => by
    unfold TableOf IsTable
    rw [ht.mem_eq]
  obtain ⟨s', hs', hm, hcount'⟩ := updateCurrPageTable_maps hwu hselfu hv (hz.ofNat_ne_zero ht.allocated.ne_zero)
    (by rw [ht.mem_eq]; omega) perm
  have hnot : ¬ Free u z := fun h => (ht.free_iff.1 h).2 rfl
  have hdata : ¬ TableOf r u z := fun h => (hw.table z ((htab z).1 h)).2.2 ht.wasFree
  refine ⟨u, z, s', halloc, ht.allocated.ne_zero, hs', ⟨hm.wf, hm.self, hm.here, fun b hb hne => ?_, fun q hq => ?_,
    fun q hq hfree => ?_, fun q hq => hsub q (hm.free_sub q hq)⟩, ht.wasFree, fun h => hnot (hm.free_sub z h),
    fun h => ?_, ?_, ?_⟩
  · rw [hm.elsewhere b hb hne, ht.mem_eq]
  · rcases hm.tables q hq with h | h
    · exact .inl ((htab q).1 h)
    · exact .inr (hsub q h)
  · rw [hm.outside q (fun h => hq ((htab q).1 h)) fun h => hfree (hsub q h), ht.mem_eq]
  · exact (hm.tables z h).elim hdata hnot
  · rw [hm.outside z hdata fun h => absurd h hnot, ht.mem_eq]
  · rw [ht.mem_eq] at hcount'
    omega

end Update

theorem writeBit_leafEntry : writeBit (leafEntry phys perm) = perm.getLsbD 1 := by
  rw [writeBit_eq]
  unfold leafEntry
  rw [getLsbD_or, getLsbD_or, getLsbD_nextLevelAddr, getLsbD_nonAddrFields]
  simp [pageTransPresent]

theorem writeBit_withPerm : writeBit (withPerm e (pageTransPresent ||| perm)) = perm.getLsbD 1 := by
  rw [writeBit_eq]
  unfold withPerm
  rw [getLsbD_or, getLsbD_nextLevelAddr, getLsbD_nonAddrFields, getLsbD_or]
  simp [pageTransPresent]

/-- The tables of `r` are as before, and no page has been freed. -/
structure KeepsTables (r : Nat) (s u : Mach) : Prop where
  mem_eq : ∀ q, IsTable (· ≠ selfRefEntry) s (· = r) q → u.mem q = s.mem q
  listed : Listed u.pages
  base_eq : u.base = s.base
  free_sub : ∀ q, Free u q → Free s q

section Keeps

variable {u₁ u' : Mach} (hw : WellFormed (· ≠ selfRefEntry) s (· = r))
include hw

theorem KeepsTables.refl : KeepsTables r s s := ⟨fun _ _ => rfl, hw.listed, rfl, fun _ hq => hq⟩

theorem KeepsTables.wf (hk : KeepsTables r s u) : WellFormed (· ≠ selfRefEntry) u (· = r) :=
  hw.congr hk.mem_eq hk.listed hk.base_eq hk.free_sub

omit hw in
theorem KeepsTables.leaf_eq (hk : KeepsTables r s u) (hb : indexPml4e b ≠ selfRefEntry) :
    leaf u.mem r b = leaf s.mem r b :=
  lookup_of_tables hk.mem_eq rfl (tablePath_ok hb)

omit hw in
theorem KeepsTables.self (hk : KeepsTables r s u) (hself : SelfRef s r) : SelfRef u r :=
  hself.congr (by rw [hk.mem_eq r ⟨r, [], rfl, TablePath.nil, rfl⟩])

theorem KeepsTables.updateDesc (f : Nat) (g : PhysPage → PhysPage) :
    KeepsTables r s { s with pages := updateDesc s.pages f g } :=
  ⟨fun _ _ => rfl, ⟨hw.listed.apart, hw.listed.page⟩, rfl, fun _ hq => hq⟩

theorem KeepsTables.take (hk : KeepsTables r s u) (ht : TakesPage u u₁ z) (hmem : ∀ q, q ≠ z → u'.mem q = u₁.mem q)
    (hpages : u'.pages = u₁.pages) (hbase : u'.base = u₁.base) : KeepsTables r s u' := by
  refine ⟨fun q hq => ?_, by rw [hpages]; exact ht.allocated.listed, by rw [hbase, ht.base_eq, hk.base_eq],
    fun q hq => ?_⟩
  · have hne : q ≠ z := by
      rintro rfl
      exact (hw.table q hq).2.2 (hk.free_sub q ht.wasFree)
    rw [hmem q hne, ht.mem_eq]
    exact hk.mem_eq q hq
  · have hfree : Free u₁ q := by
      unfold Free at hq
      rw [hpages] at hq
      exact hq
    exact hk.free_sub q (ht.free_iff.1 hfree).1

end Keeps

private theorem samePage_pageStart : SamePage b (pageStart a) ↔ SamePage b a := by
  rw [← placeOf_eq_iff, ← placeOf_eq_iff, placeOf_pageStart]

theorem Maps.of_pageStart (h : Maps r s s' (pageStart a) e) : Maps r s s' a e where
  wf := h.wf
  self := h.self
  here := by rw [← leaf_pageStart]; exact h.here
  elsewhere b hb hne := h.elsewhere b hb fun hsame => hne (samePage_pageStart.1 hsame)
  tables := h.tables
  outside := h.outside
  free_sub := h.free_sub

/-- `page_not_present` maps a page of the free list. -/
theorem pageNotPresent_maps (hw : WellFormed (· ≠ selfRefEntry) s (· = r)) (hself : SelfRef s r)
    (hv : indexPml4e a ≠ selfRefEntry) (hc : missing s.mem r a + 1 ≤ freeCount s.pages) (v : Vma.VmArea) :
    ∃ s' z, pageNotPresent s r (some v) a = some (s', .value 0) ∧ NewPage r s s' a v.vmPageProt z := by
  have hv' : indexPml4e (pageStart a) ≠ selfRefEntry := by rw [indexPml4e_pageStart]; exact hv
  rw [← missing_pageStart] at hc
  obtain ⟨u, z, s', halloc, hz, hs', hn⟩ := allocPage_maps hw hself hv' hc v.vmPageProt
  refine ⟨s', z, ?_, hn.toMaps.of_pageStart, hn.wasFree, hn.taken, hn.data, hn.mem_eq, ?_⟩
  · unfold pageNotPresent
    rw [halloc]
    dsimp only
    rw [if_neg hz, hs']
    rfl
  · rw [← missing_pageStart]
    exact hn.count

end Adix.Space
