import Adix.Cow.State

/-!
# The page fault handlers

Each handler takes a good state to a good state, by a step of the machine that shares frames.
-/

namespace Adix.Cow

open PageTable PhysPages Fork List Option BitVec

variable {s s' u u₀ u₁ u' : Mach} {roots : List Nat} {p f z r : Nat} {a e : Word}

structure Served (roots : List Nat) (r : Nat) (x : Place) (s s' : Mach) (l : Sharing.Label Place (Index → Word)) :
    Prop where
  good : Good s' roots
  step : Sharing.Step (abs s roots) (abs s' roots) l
  used : ∀ q, Taken s s' q → Table s' roots q ∨ (abs s' roots).Uses q
  elsewhere : ∀ r' z, r' ∈ roots → UserSlot z.pml4e → ¬ (r' = r ∧ z = x) → entryAt s'.mem r' z = entryAt s.mem r' z

theorem placeOf_pageStart : placeOf (pageStart a) = placeOf a := by
  rw [placeOf_eq_iff]
  intro k h1 h2
  unfold pageStart
  rw [getLsbD_and]
  interval_cases k <;> simp

private theorem tablePath_pageStart : tablePath (pageStart a) = tablePath a :=
  (samePage_iff.1 (placeOf_eq_iff.1 placeOf_pageStart)).1

theorem leaf_pageStart (m : Memory) (pml4 : Nat) : leaf m pml4 (pageStart a) = leaf m pml4 a := by
  rw [← entryAt_placeOf, placeOf_pageStart, entryAt_placeOf]

theorem indexPml4e_pageStart : indexPml4e (pageStart a) = indexPml4e a := congrArg Place.pml4e placeOf_pageStart

theorem userSlot_pageStart (hv : UserSlot (indexPml4e a)) : UserSlot (indexPml4e (pageStart a)) := by
  rwa [indexPml4e_pageStart]

theorem missing_pageStart (m : Memory) (pml4 : Nat) : missing m pml4 (pageStart a) = missing m pml4 a := by
  have hpath : (indexPml4e (pageStart a) = indexPml4e a ∧ indexPdpe (pageStart a) = indexPdpe a) :=
    ⟨indexPml4e_pageStart, congrArg Place.pdpe placeOf_pageStart⟩
  unfold missing
  rw [hpath.1, hpath.2, tablePath_pageStart]

theorem missing_of_leaf (he : leaf s.mem r a = some e) : missing s.mem r a = 0 := by
  have hlack : ∀ σ i ρ, tablePath a ++ [indexPte a] = σ ++ i :: ρ → lack s.mem r σ = 0 := by
    intro σ i ρ h
    obtain ⟨q, hq, -⟩ := Radix.lookup_passes h he
    unfold lack
    rw [hq]
    rfl
  unfold missing
  rw [hlack [indexPml4e a] _ _ rfl, hlack [indexPml4e a, indexPdpe a] _ _ rfl, hlack (tablePath a) _ _ rfl]

theorem Kept.refl (h : Good s roots) : Kept roots s s := ⟨fun _ _ => rfl, fun _ _ => rfl, rfl, fun _ hq => hq, h.pages⟩

/-- A descriptor may change as long as its page stays in use. -/
theorem kept_updateDesc (h : Good s roots) (hf : (abs s roots).Uses f) {d : PhysPage} (hd : desc s.pages f = some d)
    {g : PhysPage → PhysPage} (hg : (g d).refcount ≠ 0) : Kept roots s { s with pages := updateDesc s.pages f g } := by
  have hal := uses_aligned hf
  obtain ⟨d', hd', hpos, -⟩ := h.desc_of_uses hf
  cases hd.symm.trans hd'
  have h0 : d.refcount ≠ 0 := by
    intro hz
    rw [hz] at hpos
    exact absurd hpos (Nat.lt_irrefl 0)
  refine ⟨fun _ _ => rfl, fun q hq => ?_, rfl, fun _ hq => hq, h.pages.updateDesc hal hd h0 hg⟩
  rw [desc_updateDesc hal (h.wf.table q hq).1.aligned, if_neg]
  rintro rfl
  exact (h.frame q hf).2 hq

/-- A page is taken off the free list and filled. -/
theorem Kept.take (h : Good s roots) (hk : Kept roots s u) (ht : TakesPage u u₁ z)
    (hmem : ∀ q, q ≠ z → u'.mem q = u₁.mem q) (hpages : u'.pages = u₁.pages) (hbase : u'.base = u₁.base) :
    Kept roots s u' := by
  have hne : ∀ q, Table s roots q → q ≠ z := by
    rintro q hq rfl
    exact (h.wf.table q hq).2.2 (hk.free_sub q ht.wasFree)
  constructor
  · intro q hq
    rw [hmem q (hne q hq), ht.mem_eq]
    exact hk.mem_eq q hq
  · intro q hq
    rw [hpages, ht.allocated.other q (h.wf.table q hq).1.aligned fun hhas => hne q hq (has_one.1 hhas)]
    exact hk.desc_eq q hq
  · rw [hbase, ht.base_eq]
    exact hk.base_eq
  · intro q hq
    have hfree : Free u₁ q := by
      unfold Free at hq
      rw [hpages] at hq
      exact hq
    exact hk.free_sub q (ht.free_iff.1 hfree).1
  · rw [hpages]
    exact ht.allocated.inv hk.inv

private theorem count_taken (hi : Inv u.pages) (ht : TakesPage u u₁ z) (hd : desc s.pages z = desc u₁.pages z) :
    (abs s roots).count z = 1 := by
  obtain ⟨d, hd0, h0⟩ := map_eq_some_iff.1 ((hi.covers z).1 ht.wasFree).2
  rw [ht.allocated.counted z (has_one.2 rfl), hd0] at hd
  rw [abs_count hd]
  show (d.refcount + 1).toNat = 1
  rw [h0]
  rfl

private theorem userBit_eq (e : Word) : userBit e = e.getLsbD 2 := decide_and_twoPow e 2 _ rfl (by decide)

theorem writeBit_eq (e : Word) : writeBit e = e.getLsbD 1 := decide_and_twoPow e 1 _ rfl (by decide)

private theorem userBit_leafEntry (phys perm : Word) : userBit (leafEntry phys perm) = userBit perm := by
  rw [userBit_eq, userBit_eq]
  unfold leafEntry
  rw [getLsbD_or, getLsbD_or, getLsbD_nextLevelAddr, getLsbD_nonAddrFields]
  simp [pageTransPresent]

section Handlers

variable (h : Good s roots) (hr : roots[p]? = some r) (hv : UserSlot (indexPml4e a))
include h hr hv

structure NewFrame (roots : List Nat) (r : Nat) (s u₀ u u' : Mach) (p : Nat) (x : Place) (z : Nat) (w : Bool) :
    Prop where
  remaps : (abs s roots).Remaps (abs u' roots) p x (z, w)
  unused : ¬ (abs s roots).Uses z
  count : (abs u' roots).count z = 1
  data : u'.mem z = u.mem z
  frame : ∀ g, (abs s roots).Uses g → u'.mem g = u₀.mem g ∧ desc u'.pages g = desc u₀.pages g
  served : ∀ {l}, Sharing.Step (abs s roots) (abs u' roots) l → Served roots r x s u' l

private theorem map_new (hk0 : Kept roots s u₀) (hfree0 : ∀ q, Free s q → Free u₀ q) (ht : TakesPage u₀ u₁ z)
    (hmem : ∀ q, q ≠ z → u.mem q = u₁.mem q) (hpages : u.pages = u₁.pages) (hbase : u.base = u₁.base)
    (hc : missing u.mem r a ≤ freeCount u.pages) (perm : Word) :
    ∃ u' e, updateCurrPageTable u r (BitVec.ofNat 64 z) (pageStart a) perm = some (u', 0) ∧
      leaf u'.mem r a = some e ∧ entryFormat.next e = z ∧ userBit e = userBit perm ∧
      NewFrame roots r s u₀ u u' p (placeOf a) z (writeBit e) := by
  have hk : Kept roots s u := hk0.take h ht hmem hpages hbase
  have hroot := mem_of_getElem? hr
  have hwas : Free s z := hk0.free_sub z ht.wasFree
  have hz := h.wf.free z hwas
  have hne : BitVec.ofNat 64 z ≠ 0 := hz.ofNat_ne_zero ht.allocated.ne_zero
  have hv' := userSlot_pageStart hv
  obtain ⟨u', hu', hm⟩ := updateCurrPageTable_maps (hk.wf h) hroot (hk.self hroot (h.self r hroot)) hv' hne
    (by rw [missing_pageStart]; exact hc) perm
  have hnext : entryFormat.next (leafEntry (BitVec.ofNat 64 z) perm) = z := next_leafEntry_ofNat hz
  have hfree_iff : ∀ q, Free u q ↔ Free u₀ q ∧ q ≠ z := by
    intro q
    rw [← ht.free_iff]
    unfold Free
    rw [hpages]
  have hfree : ¬ Free u z := fun hf => ((hfree_iff z).1 hf).2 rfl
  have hnot : ¬ Table s roots z := fun hq => (h.wf.table z hq).2.2 hwas
  obtain ⟨hmz, hdz, -⟩ := hk.mapped_outside hm hz.aligned hnot hfree
  have hremaps := hk.remaps h hm hr hv'
  rw [hnext, placeOf_pageStart] at hremaps
  refine ⟨u', _, hu', by rw [← leaf_pageStart]; exact hm.leaf_eq, hnext, userBit_leafEntry _ _, ?_⟩
  refine
    { remaps := hremaps
      unused := fun hu => h.not_free hu hwas
      count := count_taken hk0.inv ht (by rw [hdz, hpages])
      data := hmz
      frame := ?_
      served := ?_ }
  · intro g hg
    have hgz : g ≠ z := fun hgz => h.not_free hg (hgz ▸ hwas)
    have hga := uses_aligned hg
    obtain ⟨h1, h2, -⟩ := hk.mapped_outside hm hga (h.frame g hg).2 fun hq => h.not_free hg (hk.free_sub g hq)
    rw [h1, h2, hmem g hgz, ht.mem_eq, hpages]
    exact ⟨rfl, ht.allocated.other g hga fun hhas => hgz (has_one.1 hhas)⟩
  · intro l hstep
    refine ⟨?_, hstep, fun q hq => ?_, fun r' x hr' hx hne => ?_⟩
    · refine hk.good_mapped h hm hr hv' (hstep.inv h.sharing) ?_ ?_ ?_
      all_goals rw [hnext]
      · exact hz.lt
      · exact hnot
      · exact hfree
    · by_cases hqz : q = z
      · right
        rw [hqz]
        exact .of_map ((hremaps.2 p (placeOf a)).trans (if_pos ⟨rfl, rfl⟩))
      · exact .inl (hm.used q ⟨(hfree_iff q).2 ⟨hfree0 q hq.1, hqz⟩, hq.2⟩)
    · exact hk.entryAt_mapped hm hr' hx (by rw [placeOf_pageStart]; exact hne)

/-- `page_not_present` maps a page of the free list, with the permissions of the area. -/
theorem pageNotPresent_new (hc : missing s.mem r a + 1 ≤ freeCount s.pages) (node : Vma.VmArea) :
    ∃ s' e u, pageNotPresent s r (some node) a = some (s', .value 0) ∧ leaf s'.mem r a = some e ∧
      s.allocPage = (u, entryFormat.next e) ∧ u.mem = s.mem ∧ userBit e = userBit node.vmPageProt ∧
      NewFrame roots r s s u s' p (placeOf a) (entryFormat.next e) (writeBit e) := by
  obtain ⟨u, z, halloc, ht, hcount⟩ := allocPage_spec h.wf.listed (by omega)
  obtain ⟨s', e, hs', he, rfl, huser, hn⟩ := map_new h hr hv (Kept.refl h) (fun _ hq => hq) ht (fun _ _ => rfl) rfl rfl
    (by rw [ht.mem_eq]; omega) node.vmPageProt
  refine ⟨s', e, u, ?_, he, halloc, ht.mem_eq, huser, hn⟩
  unfold pageNotPresent
  rw [halloc]
  dsimp only
  rw [if_neg ht.allocated.ne_zero, hs']
  rfl

/-- `page_not_present` is a step that maps a new frame. -/
theorem pageNotPresent_spec (hleaf : leaf s.mem r a = none) (hc : missing s.mem r a + 1 ≤ freeCount s.pages)
    (node : Vma.VmArea) : ∃ s' e, pageNotPresent s r (some node) a = some (s', .value 0) ∧ leaf s'.mem r a = some e ∧
      Served roots r (placeOf a) s s' (.demand p (placeOf a) (s'.mem (entryFormat.next e))) := by
  obtain ⟨s', e, u, hs', he, -, -, -, hn⟩ := pageNotPresent_new h hr hv hc node
  have hnone : (abs s roots).map p (placeOf a) = none := by
    show mapping s roots p (placeOf a) = none
    rw [mapping_placeOf hr hv, hleaf]
    rfl
  refine ⟨s', e, hs', he, hn.served ?_⟩
  refine .demand (List.getElem?_eq_some_iff.1 hr).1 hnone hn.unused hn.remaps hn.count fun g hg => ?_
  obtain ⟨h1, h2⟩ := hn.frame g hg
  exact abs_kept h2 h1

omit h hr in
private theorem hardwareWalk_of_leaf (hw : WellFormed UserSlot u (· ∈ roots)) (hmem : r ∈ roots)
    (he : leaf u.mem r a = some e) (hlt : entryFormat.next e < 2 ^ 51) :
    hardwareWalk u r a = some (entryFormat.next e) :=
  hardwareWalk_of_entry (hw.mono fun _ he => he ▸ hmem) hv he hlt

omit h in
theorem map_of_leaf (he : leaf s.mem r a = some e) :
    (abs s roots).map p (placeOf a) = some (entryFormat.next e, writeBit e) := by
  show mapping s roots p (placeOf a) = _
  rw [mapping_placeOf hr hv, he]
  rfl

def lessShared (s : Mach) (f : Nat) : Mach :=
  { s with pages := updateDesc s.pages f fun d => { d with refcount := d.refcount - 1 } }

section Copy

variable {d : PhysPage} (he : leaf s.mem r a = some e) (hd : desc s.pages (entryFormat.next e) = some d)
include he hd

theorem kept_lessShared (hdec : d.refcount - 1 ≠ 0) : Kept roots s (lessShared s (entryFormat.next e)) :=
  kept_updateDesc h (.of_map (map_of_leaf hr hv he)) hd hdec

theorem copyShared_eq (hdec : d.refcount - 1 ≠ 0) (node : Vma.VmArea) : copyShared s r node a (entryAddr e) =
    match (lessShared s (entryFormat.next e)).allocPage with
    | (u, z) => if z = 0 then some (u, .exit) else
      (updateCurrPageTable (copyPage u z (entryFormat.next e)) r (BitVec.ofNat 64 z) (pageStart a) node.vmPageProt).map
        fun (s, _) => (s, .value 0) := by
  have hk0 := kept_lessShared h hr hv he hd hdec
  have hmem := mem_of_getElem? hr
  show (match (lessShared s (entryFormat.next e)).allocPage with
    | (u, z) => if z = 0 then some (u, Ret.exit) else (hardwareWalk u r (pageStart a)).bind fun src =>
      (updateCurrPageTable (copyPage u z src) r (BitVec.ofNat 64 z) _ _).map _) = _
  obtain halloc | ⟨u, z, halloc, ht⟩ := allocPage_cases hk0.inv.listed
  · rw [halloc]
    rfl
  have hk : Kept roots s u := hk0.take h ht (fun _ _ => rfl) rfl rfl
  have hwalk : hardwareWalk u r (pageStart a) = some (entryFormat.next e) := by
    refine hardwareWalk_of_leaf (by rw [indexPml4e_pageStart]; exact hv) (hk.wf h) hmem ?_
      (h.frame _ (.of_map (map_of_leaf hr hv he))).1
    rw [leaf_pageStart, ← he]
    exact hk.entryAt_eq hmem (x := placeOf a) hv
  rw [halloc]
  dsimp only
  rw [if_neg ht.allocated.ne_zero, if_neg ht.allocated.ne_zero, hwalk, bind_some]

/-- The process gets a copy of a frame that others have too. -/
private theorem copyShared_spec (hshared : 1 < d.refcount.toNat) (node : Vma.VmArea) :
    ∃ s' ret, copyShared s r node a (entryAddr e) = some (s', ret) ∧
      (ret = .exit ∨ ret = .value 0 ∧ Served roots r (placeOf a) s s' .silent) := by
  have hmap := map_of_leaf hr hv he
  have huses := Sharing.State.Uses.of_map hmap
  have hal := uses_aligned huses
  have hone : d.refcount.toNat = (d.refcount - 1).toNat + 1 := by bv_omega
  have hdec : d.refcount - 1 ≠ 0 := by bv_omega
  have hk0 := kept_lessShared h hr hv he hd hdec
  have hdesc0 : ∀ q, q % sizeofPage = 0 → desc (lessShared s (entryFormat.next e)).pages q =
      if q = entryFormat.next e then some { d with refcount := d.refcount - 1 } else desc s.pages q := by
    intro q hq
    show desc (updateDesc s.pages _ _) q = _
    rw [desc_updateDesc hal hq, hd]
    rfl
  rw [copyShared_eq h hr hv he hd hdec]
  obtain halloc | ⟨u₁, z, halloc, ht⟩ := allocPage_cases hk0.inv.listed
  · rw [halloc]
    exact ⟨_, .exit, rfl, .inl rfl⟩
  have hfill : ∀ q, q ≠ z → (copyPage u₁ z (entryFormat.next e)).mem q = u₁.mem q :=
    fun q hq => funext fun j => if_neg hq
  have hk : Kept roots s (copyPage u₁ z (entryFormat.next e)) := hk0.take h ht hfill rfl rfl
  have hmissing : missing (copyPage u₁ z (entryFormat.next e)).mem r a = 0 :=
    missing_of_leaf ((hk.entryAt_eq (mem_of_getElem? hr) (x := placeOf a) hv).trans he)
  obtain ⟨s', e', hs', -, rfl, -, hn⟩ := map_new h hr hv hk0 (fun _ hq => hq) ht hfill rfl rfl
    (by rw [hmissing]; omega) node.vmPageProt
  refine ⟨s', .value 0, ?_, .inr ⟨rfl, hn.served ?_⟩⟩
  · rw [halloc]
    dsimp only
    rw [if_neg ht.allocated.ne_zero, hs']
    rfl
  have hdf : desc s'.pages (entryFormat.next e) = some { d with refcount := d.refcount - 1 } := by
    rw [(hn.frame _ huses).2, hdesc0 _ hal, if_pos rfl]
  have hdata : ∀ g, (abs s roots).Uses g → s'.mem g = s.mem g := fun g hg => (hn.frame g hg).1
  refine .copy hmap ?_ hn.unused hn.remaps hn.count ?_ ?_ ?_ (hdata _ huses) ?_
  · rw [abs_count hd]
    exact hshared
  · refine hn.data.trans ((funext fun j => if_pos rfl).trans ?_)
    rw [ht.mem_eq]
    rfl
  · rw [abs_count hd, abs_count hdf]
    exact hone.symm
  · show (∃ c ∈ desc s'.pages _, _) ↔ ∃ c ∈ desc s.pages _, _
    rw [hdf, hd]
    simp
  · intro g hg hgf
    refine abs_kept ?_ (hdata g hg)
    rw [(hn.frame g hg).2, hdesc0 g (uses_aligned hg), if_neg hgf]

end Copy

private theorem checkPageProt_spec (he : leaf s.mem r a = some e) (hone : (abs s roots).count (entryFormat.next e) ≤ 1)
    (hk : Kept roots s u) (hmem : u.mem = s.mem) (hfree : ∀ q, Free s q → Free u q)
    (hcount : (abs u roots).count (entryFormat.next e) = (abs s roots).count (entryFormat.next e))
    (hdesc : ∀ g, (abs s roots).Uses g → g ≠ entryFormat.next e → desc u.pages g = desc s.pages g)
    (env : Env) (node : Vma.VmArea) :
    ∃ s' v, checkPageProt u r env node a = some (s', v) ∧ (v = -1 ∧ leaf s'.mem r a = some e ∨ v = 0) ∧
      Served roots r (placeOf a) s s' .silent := by
  have hmap := map_of_leaf hr hv he
  have huses := Sharing.State.Uses.of_map hmap
  have hroot := mem_of_getElem? hr
  have hself := hk.self hroot (h.self r hroot)
  have hleaf : leaf u.mem r a = some e := by rw [hmem]; exact he
  unfold checkPageProt
  rw [virt2physSelfref_eq ((hk.wf h).mono fun _ hq => hq ▸ hroot) hself hv, bind_some, hleaf, map_some, getD_some]
  dsimp only
  split
  · -- the permissions are as they should be
    refine ⟨u, -1, rfl, .inl ⟨rfl, hleaf⟩, ?_⟩
    have hremaps : (abs s roots).Remaps (abs u roots) p (placeOf a) (entryFormat.next e, writeBit e) := by
      refine ⟨rfl, fun q x => ?_⟩
      show mapping u roots q x = _
      rw [hk.mapping_eq]
      split
      · rename_i hx
        rw [hx.1, hx.2]
        exact hmap
      · rfl
    have hstep : Sharing.Step (abs s roots) (abs u roots) .silent :=
      .retain hmap hone hremaps hcount (congrFun hmem _) fun g hg hgf => abs_kept (hdesc g hg hgf) (congrFun hmem g)
    exact ⟨hk.good h (hstep.inv h.sharing), hstep, fun q hq => absurd (hfree q hq.1) hq.2,
      fun r' x hr' hx _ => hk.entryAt_eq hr' hx⟩
  · have hv' := userSlot_pageStart hv
    have hpresent : entryFormat.present (pageTransPresent ||| node.vmPageProt) = true := by
      rw [present_eq, getLsbD_or]
      rfl
    obtain ⟨s', hs', hm, hpages⟩ := updateCurrPageTable_perm (hk.wf h) hroot hself hv'
      (by rw [leaf_pageStart]; exact hleaf) hpresent
    obtain ⟨hlt, hnot⟩ := h.frame _ huses
    have hnext : entryFormat.next (withPerm e (pageTransPresent ||| node.vmPageProt)) = entryFormat.next e :=
      next_withPerm hlt
    have hnf : ∀ g, (abs s roots).Uses g → ¬ Free u g := fun g hg hq => h.not_free hg (hk.free_sub g hq)
    have hremaps := hk.remaps h hm hr hv'
    rw [hnext, placeOf_pageStart] at hremaps
    have hframe : ∀ g, (abs s roots).Uses g → s'.mem g = s.mem g := by
      intro g hg
      rw [← hmem]
      exact (hk.mapped_outside hm (uses_aligned hg) (h.frame g hg).2 (hnf g hg)).1
    refine ⟨s', 0, hs', .inr rfl, ?_⟩
    have hstep : Sharing.Step (abs s roots) (abs s' roots) .silent := by
      refine .retain hmap hone hremaps ?_ (hframe _ huses) fun g hg hgf => abs_kept ?_ (hframe g hg)
      · rw [← hcount]
        show ((desc s'.pages _).map _).getD 0 = ((desc u.pages _).map _).getD 0
        rw [hpages]
      · rw [hpages]
        exact hdesc g hg hgf
    refine ⟨hk.good_mapped h hm hr hv' (hstep.inv h.sharing) ?_ ?_ ?_, hstep, fun q hq => ?_, fun r' x hr' hx hne => ?_⟩
    · rw [hnext]
      exact hlt
    · rw [hnext]
      exact hnot
    · rw [hnext]
      exact hnf _ huses
    · have hq' : ¬ Covers s'.pages.physFreeList q := hq.2
      rw [hpages] at hq'
      exact absurd (hfree q hq.1) hq'
    · exact hk.entryAt_mapped hm hr' hx (by rw [placeOf_pageStart]; exact hne)

/-- `cow` replaces a shared frame by a copy, or gives back the write permission to the last owner. In both cases nobody
sees a change. -/
theorem cow_spec (he : leaf s.mem r a = some e) (env : Env) (node : Vma.VmArea) :
    ∃ s' ret, cow s r env node a = some (s', ret) ∧ (ret = .exit ∨
      ret = .value 1 ∧ s' = s ∧ (abs s roots).count (entryFormat.next e) ≤ 1 ∨
      ret ≠ .value 1 ∧ (ret = .value 0 ∨ leaf s'.mem r a = some e) ∧ Served roots r (placeOf a) s s' .silent) := by
  have huses := Sharing.State.Uses.of_map (map_of_leaf hr hv he)
  have hroot := mem_of_getElem? hr
  obtain ⟨d, hd, hpos, -⟩ := h.desc_of_uses huses
  have hcount : (abs s roots).count (entryFormat.next e) = d.refcount.toNat := abs_count hd
  have hdesc : getPhysPageDesc s.pages (entryAddr e).toNat = some d := (getPhysPageDesc_eq (next_aligned e)).trans hd
  unfold cow
  rw [virt2physSelfref_eq (h.wf.mono fun _ hq => hq ▸ hroot) (h.self r hroot) hv, bind_some, he, map_some, getD_some]
  dsimp only
  rw [hdesc]
  dsimp only
  split
  · rename_i hflag
    refine ⟨s, .value 1, rfl, .inr (.inl ⟨rfl, rfl, Nat.le_of_not_lt fun hlt => ?_⟩)⟩
    -- a frame with several owners is flagged
    obtain ⟨⟨d', hd', hne⟩, -⟩ := h.sharing.guard huses hlt
    cases hd.symm.trans hd'
    exact hne hflag
  · split
    · rename_i hone
      have hk := kept_updateDesc h huses hd (g := fun d => { d with flag := d.flag &&& ~~~pageCow })
        (by show d.refcount ≠ 0; rw [hone]; decide)
      have hal := uses_aligned huses
      obtain ⟨s', v, hs', hv', hserved⟩ := checkPageProt_spec h hr hv he (by rw [hcount, hone]; decide) hk rfl
        (fun _ hq => hq) (by
          rw [hcount]
          refine abs_count (d := { d with flag := d.flag &&& ~~~pageCow }) ?_
          rw [desc_updateDesc hal hal, if_pos rfl, hd]
          rfl)
        (fun g hg hgf => by rw [desc_updateDesc hal (uses_aligned hg), if_neg hgf]) env node
      refine ⟨s', .value v, (congrArg (Option.map _) hs'), .inr (.inr ?_)⟩
      rcases hv' with ⟨rfl, hkept⟩ | rfl
      · exact ⟨by decide, .inr hkept, hserved⟩
      · exact ⟨by decide, .inl rfl, hserved⟩
    · rename_i hne1
      split
      · rename_i h0
        rw [h0] at hpos
        exact absurd hpos (Nat.lt_irrefl 0)
      · have hshared : 1 < d.refcount.toNat := by
          have hne : d.refcount.toNat ≠ 1 := fun h1 => hne1 (eq_of_toNat_eq h1)
          omega
        obtain ⟨s', ret, hs', hret⟩ := copyShared_spec h hr hv he hd hshared node
        refine ⟨s', ret, hs', ?_⟩
        rcases hret with hret | ⟨rfl, hserved⟩
        · exact .inl hret
        · exact .inr (.inr ⟨by decide, .inl rfl, hserved⟩)

/-- A write fault at a page that is present is a step that nobody sees. -/
theorem pagePresentWrite_spec (he : leaf s.mem r a = some e) (env : Env) (node : Option Vma.VmArea) (err : Word) :
    ∃ s' ret, pagePresentWrite s r env node a err = some (s', ret) ∧ (ret = .exit ∨
      (ret = .value 0 ∨ leaf s'.mem r a = some e) ∧ Served roots r (placeOf a) s s' .silent) := by
  have hidle : Served roots r (placeOf a) s s .silent :=
    ⟨h, .idle rfl (fun _ _ => rfl) fun _ _ => ⟨rfl, Iff.rfl, rfl⟩, fun q hq => absurd hq.1 hq.2, fun _ _ _ _ _ => rfl⟩
  cases node with
  | none => exact ⟨s, .value (-1), rfl, .inr ⟨.inr he, hidle⟩⟩
  | some node =>
    unfold pagePresentWrite
    dsimp only
    split
    · exact ⟨s, .exit, rfl, .inl rfl⟩
    obtain ⟨s1, ret, hcow, hret⟩ := cow_spec h hr hv he env node
    rw [hcow, bind_some]
    dsimp only
    rcases hret with rfl | ⟨rfl, rfl, hone⟩ | ⟨hne, hstored, hserved⟩
    · exact ⟨s1, .exit, rfl, .inl rfl⟩
    · rw [if_neg (by simp)]
      split
      · exact ⟨s1, .exit, rfl, .inl rfl⟩
      obtain ⟨s', v, hs', hv', hserved⟩ := checkPageProt_spec h hr hv he hone (Kept.refl h) rfl (fun _ hq => hq) rfl
        (fun _ _ _ => rfl) env node
      rw [hs', map_some]
      rcases hv' with ⟨rfl, -⟩ | rfl
      · exact ⟨s', .exit, rfl, .inl rfl⟩
      · exact ⟨s', .value 0, rfl, .inr ⟨.inl rfl, hserved⟩⟩
    · rw [if_pos hne]
      exact ⟨s1, ret, rfl, .inr ⟨hstored, hserved⟩⟩

end Handlers

end Adix.Cow
