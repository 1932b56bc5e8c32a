import Adix.Space.Areas

/-!
# Machines with the same tables

The kernel does not look at pages that are not tables, so that its functions have the same results on alike machines and
leave them alike.
-/

namespace Adix.Space

open PageTable PhysPages Cow Fork List Option

/-- The machines have the same page allocator and the same page tables; what is in all other pages may differ. -/
structure Alike (roots : List Nat) (s s' : Mach) : Prop where
  pages_eq : s'.pages = s.pages
  base_eq : s'.base = s.base
  mem_eq : ∀ q, Table s roots q → s'.mem q = s.mem q

variable {s s' u u' : Mach} {roots : List Nat} {r z q t t' : Nat} {a e phys virt perm : Word} {i : Index}
  {σ : List Index} {w : Word}

namespace Alike

variable (h : Alike roots s s')
include h

private theorem free_iff : Free s' q ↔ Free s q := by
  unfold Free
  rw [h.pages_eq]

private theorem walk_eq (hr : r ∈ roots) (hσ : TablePath UserSlot σ) :
    Radix.walk entryFormat s'.mem r σ = Radix.walk entryFormat s.mem r σ := walk_of_tables h.mem_eq hr hσ

private theorem lack_eq (hr : r ∈ roots) (hσ : TablePath UserSlot σ) : lack s'.mem r σ = lack s.mem r σ := by
  unfold lack
  rw [h.walk_eq hr hσ]

theorem missing_eq (hr : r ∈ roots) (hv : UserSlot (indexPml4e a)) : missing s'.mem r a = missing s.mem r a := by
  have hpath := tablePath_ok (K := UserSlot) hv
  have hp2 : TablePath UserSlot [indexPml4e a, indexPdpe a] := TablePath.left _ [indexPde a] hpath
  have hp1 : TablePath UserSlot [indexPml4e a] := TablePath.left _ [indexPdpe a] hp2
  unfold missing
  rw [h.lack_eq hr hp1, h.lack_eq hr hp2, h.lack_eq hr hpath]

private theorem wf (hw : WellFormed UserSlot s (· ∈ roots)) : WellFormed UserSlot s' (· ∈ roots) := by
  refine hw.congr h.mem_eq ?_ h.base_eq fun q hq => h.free_iff.1 hq
  rw [h.pages_eq]
  exact hw.listed

private theorem self (hr : r ∈ roots) (hself : SelfRef s r) : SelfRef s' r :=
  hself.congr (by rw [h.mem_eq r (table_root hr)])

private theorem kept (hg : Good s roots) : Kept roots s s' := by
  refine ⟨h.mem_eq, fun q _ => ?_, h.base_eq, fun q hq => h.free_iff.1 hq, ?_⟩
  · rw [h.pages_eq]
  · rw [h.pages_eq]
    exact hg.pages

/-- The entries are the same. -/
theorem leaf_eq (hr : r ∈ roots) (hv : UserSlot (indexPml4e a)) : leaf s'.mem r a = leaf s.mem r a :=
  lookup_of_tables h.mem_eq hr (tablePath_ok hv)

/-- If one of them is good, so is the other. -/
theorem good (hg : Good s roots) : Good s' roots := by
  have hk := h.kept hg
  refine hk.good hg (hg.sharing.of_map_eq rfl (fun _ _ => hk.mapping_eq) fun f _ => ?_)
  show ((desc s'.pages f).map _).getD 0 = _ ∧ ((∃ d ∈ desc s'.pages f, _) ↔ _)
  rw [h.pages_eq]
  exact ⟨rfl, Iff.rfl⟩

private theorem allocPage : s'.allocPage = ({ s' with pages := s.allocPage.1.pages }, s.allocPage.2) ∧
    Alike roots s.allocPage.1 { s' with pages := s.allocPage.1.pages } := by
  refine ⟨?_, rfl, h.base_eq, h.mem_eq⟩
  unfold Mach.allocPage
  rw [h.pages_eq]

private theorem updateDesc (f : Nat) (g : PhysPage → PhysPage) :
    Alike roots { s with pages := PhysPages.updateDesc s.pages f g }
      { s' with pages := PhysPages.updateDesc s'.pages f g } := by
  refine ⟨?_, h.base_eq, h.mem_eq⟩
  show PhysPages.updateDesc s'.pages f g = _
  rw [h.pages_eq]

private theorem fill {c c' : Memory} (hz : ¬ Table s roots z) (hc : ∀ q, q ≠ z → c q = s.mem q)
    (hc' : ∀ q, q ≠ z → c' q = s'.mem q) : Alike roots { s with mem := c } { s' with mem := c' } := by
  have hkeep : ∀ q, Table s roots q → c q = s.mem q := fun q hq => hc q fun he => hz (he ▸ hq)
  refine ⟨h.pages_eq, h.base_eq, fun q hq => ?_⟩
  have htable : Table { s with mem := c } roots q ↔ Table s roots q := isTable_of_tables hkeep
  have hq' := htable.1 hq
  have hne : q ≠ z := fun he => hz (he ▸ hq')
  show c' q = c q
  rw [hc q hne, hc' q hne]
  exact h.mem_eq q hq'

end Alike

private theorem Alike.store (h : Alike roots s s') (hw : WellFormed UserSlot s (· ∈ roots)) (hr : r ∈ roots)
    (hσ : TablePath UserSlot σ) (hlen : σ.length = 3) (ht : Radix.walk entryFormat s.mem r σ = some t) :
    Alike roots (s.store t i w) (s'.store t i w) := by
  refine ⟨h.pages_eq, h.base_eq, fun q hq => funext fun j => ?_⟩
  rw [Mach.store_mem, Mach.store_mem, h.mem_eq q ((isTable_store hw hr hσ hlen ht).1 hq)]

private theorem Alike.nextTable (h : Alike roots s s') (hw : WellFormed UserSlot s (· ∈ roots)) (ht : Table s roots t)
    (hg : Grows UserSlot (· ∈ roots) s u) (he : nextTable s t i = (u, some t')) :
    ∃ u', PageTable.nextTable s' t i = (u', some t') ∧ Alike roots u u' := by
  obtain ⟨halloc, halike⟩ := h.allocPage
  unfold PageTable.nextTable getZeroedPageTransObj at he ⊢
  rw [h.mem_eq t ht, halloc]
  split at he
  · rename_i hp
    rw [if_pos hp]
    dsimp only at he ⊢
    split at he
    · cases (Prod.mk.inj he).2
    · rename_i hvirt
      obtain ⟨hu, ht'⟩ := Prod.mk.inj he
      have hvirt' : ({ s' with pages := s.allocPage.1.pages }.zero s.allocPage.2).virtualAddr s.allocPage.2 ≠ 0 := by
        show _ + s'.base ≠ 0
        rw [h.base_eq]
        exact hvirt
      rw [if_neg hvirt']
      refine ⟨_, Prod.ext rfl ht', ?_⟩
      subst hu
      refine ⟨rfl, h.base_eq, fun q hq => funext fun j => ?_⟩
      rw [Mach.store_mem, Mach.store_mem, Mach.zero_mem, Mach.zero_mem]
      -- a table was a table before, or it is the new page
      rcases hg.isTable hq with hold | ⟨hfree, hnot⟩
      · rw [h.mem_eq q hold]
        rfl
      · have hnew : q = s.allocPage.2 := by
          rcases allocPage_cases hw.listed with hnone | ⟨u1, f, hsome, htake⟩
          · refine absurd ?_ hnot
            show Covers s.allocPage.1.pages.physFreeList q
            rw [hnone]
            exact hfree
          · rw [hsome]
            by_contra hne
            refine hnot ?_
            show Covers s.allocPage.1.pages.physFreeList q
            rw [hsome]
            exact htake.free_iff.2 ⟨hfree, hne⟩
        rw [if_pos hnew, if_pos hnew]
  · rename_i hp
    rw [if_neg hp]
    obtain ⟨rfl, ht'⟩ := Prod.mk.inj he
    exact ⟨s', Prod.ext rfl ht', h⟩

private theorem Alike.updatePageTableIdmap (h : Alike roots s s') (hw : WellFormed UserSlot s (· ∈ roots))
    (hr : r ∈ roots) (hv : UserSlot (indexPml4e virt)) (hc : missing s.mem r virt ≤ freeCount s.pages)
    (phys perm : Word) :
    ∃ u u', updatePageTableIdmap s r phys virt perm = (u, 0) ∧
      PageTable.updatePageTableIdmap s' r phys virt perm = (u', 0) ∧ Alike roots u u' := by
  have hpath := tablePath_ok (K := UserSlot) hv
  have hp2 : TablePath UserSlot ([indexPml4e virt] ++ [indexPdpe virt]) := TablePath.left _ [indexPde virt] hpath
  have hp1 : TablePath UserSlot ([] ++ [indexPml4e virt]) := TablePath.left _ [indexPdpe virt] hp2
  unfold missing at hc
  obtain ⟨s1, pdp, e1, g1, w1, c1⟩ := nextTable_spec (t := r) hw hr hp1 rfl (by rw [nil_append]; omega)
  obtain ⟨s1', e1', h1⟩ := h.nextTable hw (table_root hr) g1 e1
  rw [nil_append] at c1 w1
  have l2 : lack s1.mem r ([indexPml4e virt] ++ [indexPdpe virt]) ≤ _ := g1.lack_le hr hp2
  obtain ⟨s2, pd, e2, g2, w2, c2⟩ := nextTable_spec g1.wf hr hp2 w1 (by
    rw [singleton_append] at l2 ⊢
    omega)
  obtain ⟨s2', e2', h2⟩ := h1.nextTable g1.wf ⟨r, _, hr, hp1, w1⟩ g2 e2
  have l3 : lack s2.mem r (tablePath virt) ≤ _ := (g1.trans hw g2).lack_le hr hpath
  obtain ⟨s3, pt, e3, g3, w3, -⟩ := nextTable_spec (i := indexPde virt) g2.wf hr hpath w2 (by
    rw [singleton_append] at l2 c2
    show lack s2.mem r (tablePath virt) ≤ _
    omega)
  obtain ⟨s3', e3', h3⟩ := h2.nextTable g2.wf ⟨r, _, hr, hp2, w2⟩ g3 e3
  refine ⟨s3.store pt (indexPte virt) (leafEntry phys perm), s3'.store pt (indexPte virt) (leafEntry phys perm), ?_, ?_,
    h3.store g3.wf hr hpath rfl w3⟩
  · unfold PageTable.updatePageTableIdmap
    rw [e1]
    dsimp only
    rw [e2]
    dsimp only
    rw [e3]
  · unfold PageTable.updatePageTableIdmap
    rw [e1']
    dsimp only
    rw [e2']
    dsimp only
    rw [e3']

structure Formed (s : Mach) (roots : List Nat) : Prop where
  wf : WellFormed UserSlot s (· ∈ roots)
  self : ∀ r ∈ roots, SelfRef s r

theorem Formed.one (h : Formed s roots) (hr : r ∈ roots) : WellFormed UserSlot s (· = r) :=
  h.wf.mono fun _ hq => hq ▸ hr

/-- If the first call returns, so does the second, with the same value and a machine that is alike. -/
def Same {α : Type} (roots : List Nat) (x x' : Option (Mach × α)) : Prop :=
  ∀ u ret, x = some (u, ret) → ∃ u', x' = some (u', ret) ∧ Alike roots u u'

namespace Same

variable {α β : Type} {x x' y y' : Option (Mach × α)}

private theorem ret (h : Alike roots s s') {v : α} : Same roots (some (s, v)) (some (s', v)) := by
  rintro _ _ ⟨⟩
  exact ⟨s', rfl, h⟩

private theorem ite {c : Prop} [Decidable c] (hx : c → Same roots x x') (hy : ¬ c → Same roots y y') :
    Same roots (if c then x else y) (if c then x' else y') := by
  split_ifs with hc
  · exact hx hc
  · exact hy hc

private theorem bind {f f' : Mach × α → Option (Mach × β)} (hx : Same roots x x')
    (hf : ∀ u u' v, x = some (u, v) → Alike roots u u' → Same roots (f (u, v)) (f' (u', v))) :
    Same roots (x.bind f) (x'.bind f') := by
  intro u ret hu
  obtain ⟨⟨u1, v⟩, hu1, hrest⟩ := bind_eq_some_iff.1 hu
  obtain ⟨u1', hu1', h1⟩ := hx u1 v hu1
  rw [hu1', bind_some]
  exact hf u1 u1' v hu1 h1 u ret hrest

private theorem map {f : Mach × α → Mach × β} (g : α → β) (hf : ∀ u v, f (u, v) = (u, g v)) (hx : Same roots x x') :
    Same roots (x.map f) (x'.map f) := by
  rw [map_eq_bind, map_eq_bind]
  refine hx.bind fun u u' v _ h => ?_
  show Same roots (some (f (u, v))) (some (f (u', v)))
  rw [hf, hf]
  exact .ret h

end Same

theorem Formed.of_good (h : Good s roots) : Formed s roots := ⟨h.wf, h.self⟩

private theorem Formed.of_kept (h : Good s roots) (hk : Kept roots s u) : Formed u roots :=
  ⟨hk.wf h, fun r hr => hk.self hr (h.self r hr)⟩

theorem Alike.formed (h : Alike roots s s') (hf : Formed s roots) : Formed s' roots :=
  ⟨h.wf hf.wf, fun r hr => h.self hr (hf.self r hr)⟩

section Current

variable (hf : Formed s roots) (h : Alike roots s s') (hr : r ∈ roots) (hv : UserSlot (indexPml4e a))
include hf h hr hv

theorem Alike.virt2physSelfref : virt2physSelfref s' r a = PageTable.virt2physSelfref s r a := by
  rw [virt2physSelfref_eq ((h.formed hf).one hr) (h.self hr (hf.self r hr)) hv,
    virt2physSelfref_eq (hf.one hr) (hf.self r hr) hv, h.leaf_eq hr hv]

private theorem Alike.updateCurrPageTable (hphys : phys ≠ 0) (hc : missing s.mem r a ≤ freeCount s.pages)
    (perm : Word) :
    Same roots (updateCurrPageTable s r phys a perm) (PageTable.updateCurrPageTable s' r phys a perm) := by
  obtain ⟨u, u', hu, hu', halike⟩ := h.updatePageTableIdmap hf.wf hr hv hc phys perm
  have hc' : missing s'.mem r a ≤ freeCount s'.pages := by
    rw [h.missing_eq hr hv, h.pages_eq]
    exact hc
  rw [updateCurrPageTable_eq (hf.one hr) (hf.self r hr) hv hphys hc, hu,
    updateCurrPageTable_eq ((h.formed hf).one hr) (h.self hr (hf.self r hr)) hv hphys hc', hu']
  exact .ret halike

theorem Alike.updateCurrPageTable_zero (perm : Word) :
      ∃ u u' x, PageTable.updateCurrPageTable s r 0 a perm = some (u, x) ∧
      PageTable.updateCurrPageTable s' r 0 a perm = some (u', x) ∧ Alike roots u u' ∧ u.pages = s.pages := by
  have hw := hf.one hr
  have hself := hf.self r hr
  have hw' := (h.formed hf).one hr
  have hself' := h.self hr hself
  cases hleaf : leaf s.mem r a with
  | none =>
    refine ⟨s, s', -1, updateCurrPageTable_absent hw hself hv hleaf perm, ?_, h, rfl⟩
    exact updateCurrPageTable_absent hw' hself' hv ((h.leaf_eq hr hv).trans hleaf) perm
  | some e =>
    obtain ⟨pt, hpt, -, hu⟩ := PageTable.updateCurrPageTable_zero hw hself hv hleaf perm
    obtain ⟨pt', hpt', -, hu'⟩ := PageTable.updateCurrPageTable_zero hw' hself' hv ((h.leaf_eq hr hv).trans hleaf) perm
    rw [h.walk_eq hr (tablePath_ok hv), hpt] at hpt'
    cases hpt'
    exact ⟨_, _, 0, hu, hu', h.store hf.wf hr (tablePath_ok hv) rfl hpt, rfl⟩

end Current

section Handlers

variable (hg : Good s roots) (h : Alike roots s s') (hv : UserSlot (indexPml4e a)) {env : Cow.Env} (node : Vma.VmArea)
include h hv

private theorem Alike.checkPageProt (hr : r ∈ roots) (hf : Formed s roots) :
    Same roots (checkPageProt s r env node a) (Cow.checkPageProt s' r env node a) := by
  have hv' := userSlot_pageStart hv
  unfold Cow.checkPageProt
  rw [h.virt2physSelfref hf hr hv]
  cases PageTable.virt2physSelfref s r a with
  | none => exact nofun
  | some x =>
    refine .ite (fun _ => .ret h) fun _ => ?_
    obtain ⟨u, u', y, hu, hu', halike, -⟩ := h.updateCurrPageTable_zero hf hr hv' (pageTransPresent ||| node.vmPageProt)
    rw [hu, hu']
    exact .ret halike

include hg

/-- A page is mapped on both machines. -/
theorem Alike.pageNotPresent (hr : r ∈ roots) (node : Option Vma.VmArea)
    (hc : missing s.mem r a + 1 ≤ freeCount s.pages) :
    Same roots (pageNotPresent s r node a) (Cow.pageNotPresent s' r node a) := by
  cases node with
  | none => exact .ret h
  | some node =>
    have hv' := userSlot_pageStart hv
    obtain ⟨u, z, halloc, ht, hcount⟩ := allocPage_spec hg.wf.listed (by omega)
    obtain ⟨halloc', halike⟩ := h.allocPage
    have hk : Kept roots s u := (Kept.refl hg).take hg ht (fun _ _ => rfl) rfl rfl
    have hz := (hg.wf.free z ht.wasFree).ofNat_ne_zero ht.allocated.ne_zero
    have hmissing : missing u.mem r (pageStart a) ≤ freeCount u.pages := by
      rw [missing_pageStart, ht.mem_eq]
      omega
    unfold Cow.pageNotPresent
    rw [halloc', halloc]
    rw [halloc] at halike
    refine .ite (fun _ => .ret halike) fun _ => .map (fun _ => .value 0) (fun _ _ => rfl) ?_
    exact halike.updateCurrPageTable (Formed.of_kept hg hk) hr hv' hz hmissing _

variable {p : Nat} (hr : roots[p]? = some r) (he : leaf s.mem r a = some e)
include hr he

private theorem Alike.copyShared {d : PhysPage} (hd : desc s.pages (entryFormat.next e) = some d)
    (hshared : d.refcount - 1 ≠ 0) :
    Same roots (copyShared s r node a (entryAddr e)) (Cow.copyShared s' r node a (entryAddr e)) := by
  have hmem := mem_of_getElem? hr
  have hv' := userSlot_pageStart hv
  have hk0 := kept_lessShared hg hr hv he hd hshared
  obtain ⟨halloc', halike⟩ :=
    (h.updateDesc (entryFormat.next e) fun d => { d with refcount := d.refcount - 1 }).allocPage
  have hd' : desc s'.pages (entryFormat.next e) = some d := by
    rw [h.pages_eq]
    exact hd
  rw [copyShared_eq hg hr hv he hd hshared, copyShared_eq (h.good hg) hr hv ((h.leaf_eq hmem hv).trans he) hd' hshared]
  unfold lessShared at hk0 ⊢
  rw [halloc']
  rcases allocPage_cases hk0.inv.listed with halloc | ⟨u, z, halloc, ht⟩
  · rw [halloc] at halike ⊢
    exact .ret halike
  rw [halloc] at halike ⊢
  refine .ite (fun _ => .ret halike) fun _ => .map (fun _ => .value 0) (fun _ _ => rfl) ?_
  have hk : Kept roots s u := hk0.take hg ht (fun _ _ => rfl) rfl rfl
  have hfree : Free s z := hk0.free_sub z ht.wasFree
  have hz : ¬ Table u roots z := fun hq => (hg.wf.table z (hk.table_iff.1 hq)).2.2 hfree
  have hfill : ∀ (m : Mach) q, q ≠ z → (copyPage m z (entryFormat.next e)).mem q = m.mem q :=
    fun m q hq => funext fun j => if_neg hq
  have hk2 : Kept roots s (copyPage u z (entryFormat.next e)) := hk0.take hg ht (hfill u) rfl rfl
  refine (halike.fill hz (hfill u) (hfill _)).updateCurrPageTable (Formed.of_kept hg hk2) hmem hv'
    ((hg.wf.free z hfree).ofNat_ne_zero ht.allocated.ne_zero) ?_ node.vmPageProt
  rw [missing_pageStart, missing_of_leaf ((hk2.entryAt_eq hmem (x := placeOf a) hv).trans he)]
  exact Nat.zero_le _

private theorem Alike.cow : Same roots (cow s r env node a) (Cow.cow s' r env node a) := by
  have hmem := mem_of_getElem? hr
  have huses := Sharing.State.Uses.of_map (map_of_leaf hr hv he)
  have hf := Formed.of_good hg
  obtain ⟨d, hd, -⟩ := hg.desc_of_uses huses
  have hdesc : getPhysPageDesc s.pages (entryAddr e).toNat = some d := (getPhysPageDesc_eq (next_aligned e)).trans hd
  unfold Cow.cow
  rw [h.virt2physSelfref hf hmem hv, virt2physSelfref_eq (hf.one hmem) (hf.self r hmem) hv, he, map_some, getD_some,
    bind_some, bind_some]
  dsimp only
  rw [h.pages_eq, hdesc]
  refine .ite (fun _ => .ret h) fun _ => .ite (fun hone => ?_) fun hone => .ite (fun _ => .ret h) fun _ => ?_
  · have hk := kept_updateDesc hg huses hd (g := fun d => { d with flag := d.flag &&& ~~~pageCow })
      (by show d.refcount ≠ 0; rw [hone]; decide)
    have h1 := h.updateDesc (entryAddr e).toNat fun d => { d with flag := d.flag &&& ~~~pageCow }
    rw [h.pages_eq] at h1
    exact .map .value (fun _ _ => rfl) (h1.checkPageProt hv node hmem (Formed.of_kept hg hk))
  · exact h.copyShared hg hv node hr he hd fun h0 => hone (by bv_omega)

/-- A write fault is served alike. -/
theorem Alike.pagePresentWrite (node : Option Vma.VmArea) (err : Word) :
    Same roots (pagePresentWrite s r env node a err) (Cow.pagePresentWrite s' r env node a err) := by
  cases node with
  | none => exact .ret h
  | some node =>
    refine .ite (fun _ => .ret h) fun _ => (h.cow hg hv node hr he).bind fun u u' x hcow h1 => ?_
    refine .ite (fun _ => .ret h1) fun hne => .ite (fun _ => .ret h1) fun _ => ?_
    -- `cow` has done nothing
    obtain rfl : u = s := by
      obtain ⟨s1, x1, hcow1, hret⟩ := cow_spec hg hr hv he env node
      cases hcow.symm.trans hcow1
      rcases hret with rfl | ⟨-, hs1, -⟩ | ⟨hx, -⟩
      · exact absurd nofun hne
      · exact hs1
      · exact absurd hx hne
    exact .map (fun v => if v = 0 then .value 0 else .exit) (fun _ _ => (apply_ite (Prod.mk _) _ _ _).symm)
      (h1.checkPageProt hv node (mem_of_getElem? hr) (Formed.of_good hg))

end Handlers

end Adix.Space
