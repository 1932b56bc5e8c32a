import Adix.Space.Alike

/-!
# Two runs that differ in what is written

Two systems have the same processes, tables and free pages, and may differ in what the frames contain. A frame that
`munmap` frees and nobody else has goes back to the free list as it is.
-/

namespace Adix.Space

open PageTable PhysPages Cow Fork List Option BitVec
open Vma.Unmap (unmapPage unmapLoop)
open Vma.Unmap (munmap pageAlignMask endAddr startAddr)

section Release

variable {s s' u : Mach} {roots : List Nat} {p r q f : Nat} {a e page : Word}

/-- The frames of the process can be put on the free list: none of them is page `0`, and the map of physical memory has
an address for them. -/
def Returnable (s : Mach) (r : Nat) : Prop :=
  ∀ a e, UserSlot (indexPml4e a) → leaf s.mem r a = some e →
    (entryFormat.next e = 0 → desc s.pages 0 = none) ∧ entryFormat.next e + s.base.toNat < 2 ^ 64

def removed (e : Word) : Word := pageTransNextLevelAddr e ||| pageTransNonAddrFields 0

private theorem present_removed : entryFormat.present (removed e) = false := by
  unfold removed
  rw [present_eq, getLsbD_or, getLsbD_nextLevelAddr, getLsbD_nonAddrFields]
  simp

structure Unmapped (roots : List Nat) (s : Mach) (r : Nat) (page e : Word) (u : Mach) : Prop where
  inv : Inv u.pages
  base_eq : u.base = s.base
  forest : WellFormed UserSlot { u with pages := s.pages } (· ∈ roots)
  self : ∀ r' ∈ roots, SelfRef u r'
  table : ∀ q, Table u roots q → Table s roots q
  gone : leaf u.mem r page = none
  leaf_other : ∀ r' b, r' ∈ roots → UserSlot (indexPml4e b) → ¬ (r' = r ∧ SamePage b page) →
    leaf u.mem r' b = leaf s.mem r' b
  desc_eq : ∀ q, q % sizeofPage = 0 →
    desc u.pages q = if q = entryFormat.next e then (desc s.pages q).map PhysPage.drop else desc s.pages q

section Page

variable (hg : Good s roots) (hr : roots[p]? = some r) (hv : UserSlot (indexPml4e page))
  (he : leaf s.mem r page = some e)
include hg hr hv he

private theorem unmapPage_unmapped (hz : Returnable s r) :
    ∃ u, unmapPage true r page s = some u ∧ Unmapped roots s r page e u ∧
    ∀ s', Alike roots s s' → ∃ u', unmapPage true r page s' = some u' ∧ Alike roots u u' := by
  have hmem := mem_of_getElem? hr
  have hf := Formed.of_good hg
  have huses := Sharing.State.Uses.of_map (map_of_leaf hr hv he)
  obtain ⟨d, hd, hpos, hn⟩ := hg.desc_of_uses huses
  have hlt := hg.owners_lt huses
  have hrc : refcount s.pages (entryFormat.next e) = some d.refcount := by
    rw [refcount, hd]
    rfl
  obtain ⟨pages', hfree, hinv, hdesc⟩ := freePhysPage_spec hg.pages (next_aligned e) hrc hpos (by omega) (by
    intro h0
    have hnone := (hz page e hv he).1 h0
    rw [h0, hnone] at hd
    cases hd)
  obtain ⟨pt, hpt, -, hupd⟩ := updateCurrPageTable_zero (hf.one hmem) (hf.self r hmem) hv he 0
  have hpath := tablePath_ok (K := UserSlot) hv
  have hphys := virt2physSelfref_eq (hf.one hmem) (hf.self r hmem) hv
  rw [he, map_some, getD_some] at hphys
  have hgrow := Grows.refl hg.wf
  obtain ⟨h1, h2⟩ := leafWord_store (w := removed e) hgrow hmem hv hpt
  refine ⟨{ s.store pt (indexPte page) (removed e) with pages := pages' }, ?_, ?_, fun s' h => ?_⟩
  · unfold unmapPage
    rw [hphys, bind_some, hupd]
    exact congrArg (fun x => some { s.store pt (indexPte page) (removed e) with pages := x.1 }) hfree
  · refine
      { inv := hinv
        base_eq := rfl
        forest := hg.wf.store hmem hpath rfl hpt
        self := fun r' hr' => hgrow.selfRef_store hmem hv hpt hr' (fun hc => hc.1 rfl) (hg.self r' hr')
        table := fun q => (isTable_store hg.wf hmem hpath rfl hpt).1
        gone := ?_
        leaf_other := fun r' b hr' hb hne => leaf_eq_of_leafWord (h2 r' b hr' hb hne)
        desc_eq := fun q hq => ?_ }
    · show leaf (s.store pt (indexPte page) (removed e)).mem r page = none
      rw [leaf_eq_filter, h1, filter_some, present_removed]
      rfl
    · refine (hdesc q hq).trans ?_
      split
      · rename_i hqe
        rw [hqe]
      · rfl
  · obtain ⟨v, v', x, hv1, hv2, halike, -⟩ := h.updateCurrPageTable_zero hf hmem hv 0
    rw [hupd] at hv1
    cases hv1
    refine ⟨{ v' with pages := pages' }, ?_, rfl, halike.base_eq, halike.mem_eq⟩
    have hpages : v'.pages = s.pages := halike.pages_eq
    unfold unmapPage
    rw [h.virt2physSelfref hf hmem hv, hphys, bind_some, hv2]
    show some ({ v' with pages := (freePhysPage true v'.pages (entryFormat.next e)).1 } : Mach) = _
    rw [hpages, hfree]

variable (hu : Unmapped roots s r page e u)
include hu

omit hr hv he in
private theorem Unmapped.free (hq : Free u q) : Free s q ∨ q = entryFormat.next e := by
  obtain ⟨hal, h0⟩ := (hu.inv.covers q).1 hq
  by_cases hqe : q = entryFormat.next e
  · exact .inr hqe
  · rw [refcount, hu.desc_eq q hal, if_neg hqe] at h0
    exact .inl ((hg.pages.covers q).2 ⟨hal, h0⟩)

omit hv in
private theorem Unmapped.mapping (x : Place) (k : Nat) :
    mapping u roots k x = if k = p ∧ x = placeOf page then none else Cow.mapping s roots k x := by
  obtain ⟨b, rfl⟩ := exists_placeOf x
  unfold Cow.mapping
  cases hk : roots[k]? with
  | none =>
    rw [bind_none]
    split <;> rfl
  | some r' =>
    rw [bind_some, bind_some]
    by_cases hb : UserSlot (placeOf b).pml4e
    · rw [if_pos hb, if_pos hb, entryAt_placeOf, entryAt_placeOf]
      by_cases hpage : k = p ∧ placeOf b = placeOf page
      · have hr' : r' = r := by
          rw [hpage.1, hr] at hk
          exact (some.inj hk).symm
        rw [if_pos hpage, hr', leaf_samePage (placeOf_eq_iff.1 hpage.2), hu.gone]
        rfl
      · rw [if_neg hpage, hu.leaf_other r' b (mem_of_getElem? hk) hb]
        rintro ⟨rfl, hsame⟩
        exact hpage ⟨(getElem?_inj (List.getElem?_eq_some_iff.1 hk).1 hg.nodup).1 (hk.trans hr.symm),
          placeOf_eq_iff.2 hsame⟩
    · rw [if_neg hb, if_neg hb]
      split <;> rfl

private theorem Unmapped.releases :
    Sharing.Releases (abs s roots) (abs u roots) p (placeOf page) (entryFormat.next e) := by
  have hmap := map_of_leaf hr hv he
  have huses := Sharing.State.Uses.of_map hmap
  obtain ⟨d, hd, hpos, -⟩ := hg.desc_of_uses huses
  have hd' : desc u.pages (entryFormat.next e) = some d.drop := by
    rw [hu.desc_eq _ (next_aligned e), if_pos rfl, hd]
    rfl
  refine ⟨⟨_, hmap⟩, rfl, fun k x => hu.mapping hg hr he x k, fun _ => ⟨?_, ?_⟩, fun g hgu hne => ?_⟩
  · rw [abs_count hd, abs_count hd']
    show (d.refcount - 1).toNat + 1 = d.refcount.toNat
    rw [toNat_sub_of_le (by rw [le_def]; exact hpos)]
    exact Nat.sub_add_cancel hpos
  · show (∃ c ∈ desc u.pages _, _) ↔ ∃ c ∈ desc s.pages _, _
    rw [hd', hd]
    simp [PhysPage.drop]
  · have hkept : desc u.pages g = desc s.pages g := by
      rw [hu.desc_eq g (uses_aligned hgu), if_neg hne]
    refine ⟨?_, ?_⟩
    · show ((desc u.pages g).map _).getD 0 = ((desc s.pages g).map _).getD 0
      rw [hkept]
    · show (∃ c ∈ desc u.pages g, _) ↔ ∃ c ∈ desc s.pages g, _
      rw [hkept]

private theorem Unmapped.good (hz : Returnable s r) : Good u roots := by
  have hrel := hu.releases hg hr hv he
  have huses := Sharing.State.Uses.of_map (map_of_leaf hr hv he)
  obtain ⟨hlt, hnot⟩ := hg.frame _ huses
  refine
    { pages := hu.inv
      wf := ⟨hu.forest.forest, fun q hq => ?_, fun q hq => ?_, hu.inv.listed, fun q hq => ?_⟩
      nodup := hg.nodup
      self := hu.self
      described := fun r' hr' => ?_
      frame := fun f hf => ?_
      sharing := hrel.inv hg.sharing }
  · obtain ⟨h1, h2, h3⟩ := hg.wf.table q (hu.table q hq)
    refine ⟨h1, h2, fun hfree => ?_⟩
    rcases hu.free hg hfree with hold | rfl
    · exact h3 hold
    · exact hnot (hu.table _ hq)
  · rcases hu.free hg hq with hold | rfl
    · exact hg.wf.free q hold
    · exact ⟨next_aligned e, hlt⟩
  · rw [hu.base_eq]
    rcases hu.free hg hq with hold | rfl
    · exact hg.wf.window q hold
    · exact (hz page e hv he).2
  · have htable := table_root (s := s) hr'
    have hne : r' ≠ entryFormat.next e := fun h => hnot (h ▸ htable)
    rw [hu.desc_eq r' (hg.wf.table r' htable).1.aligned, if_neg hne]
    exact hg.described r' hr'
  · obtain ⟨h1, h2⟩ := hg.frame f (hrel.uses hf)
    exact ⟨h1, fun hq => h2 (hu.table f hq)⟩

omit hg hv he in
private theorem Unmapped.returnable (hz : Returnable s r) : Returnable u r := by
  intro b e' hb he'
  have hne : ¬ SamePage b page := by
    intro hsame
    rw [leaf_samePage hsame, hu.gone] at he'
    cases he'
  rw [hu.leaf_other r b (mem_of_getElem? hr) hb fun hc => hne hc.2] at he'
  obtain ⟨h1, h2⟩ := hz b e' hb he'
  refine ⟨fun h0 => ?_, by rw [hu.base_eq]; exact h2⟩
  rw [hu.desc_eq 0 rfl, h1 h0]
  split <;> rfl

end Page

private theorem unmapPage_none (hf : Formed s roots) (hr : r ∈ roots) (hv : UserSlot (indexPml4e page))
    (he : leaf s.mem r page = none) : unmapPage true r page s = some s := by
  have hphys := virt2physSelfref_eq (hf.one hr) (hf.self r hr) hv
  rw [he] at hphys
  unfold unmapPage
  rw [hphys, map_none, getD_none, bind_some, updateCurrPageTable_absent (hf.one hr) (hf.self r hr) hv he]
  simp only [map_some, Vma.Unmap.freePhysPage_minus_one]

/-- One round of the loop unmaps a page, if it is mapped. -/
private theorem unmapPage_spec (hg : Good s roots) (hr : roots[p]? = some r) (hv : UserSlot (indexPml4e page))
    (hz : Returnable s r) : ∃ u, unmapPage true r page s = some u ∧ Good u roots ∧ Returnable u r ∧
      ∀ s', Alike roots s s' → ∃ u', unmapPage true r page s' = some u' ∧ Alike roots u u' := by
  have hmem := mem_of_getElem? hr
  cases he : leaf s.mem r page with
  | none =>
    refine ⟨s, unmapPage_none (Formed.of_good hg) hmem hv he, hg, hz, fun s' h => ⟨s', ?_, h⟩⟩
    exact unmapPage_none (h.formed (Formed.of_good hg)) hmem hv ((h.leaf_eq hmem hv).trans he)
  | some e =>
    obtain ⟨u, hu, hunmapped, halike⟩ := unmapPage_unmapped hg hr hv he hz
    exact ⟨u, hu, hunmapped.good hg hr hv he hz, hunmapped.returnable hr hz, halike⟩

private theorem userSlot_of_lower (ha : a.toNat < 2 ^ 47) : UserSlot (indexPml4e a) := by
  refine ⟨Vma.Unmap.lower_slot ha, fun h => ?_⟩
  have hbit : (indexPml4e a).getLsbD 8 = a.getLsbD 47 := by
    unfold indexPml4e
    simp
  have ha47 : a.getLsbD 47 = false := Nat.testBit_lt_two_pow ha
  rw [h, ha47] at hbit
  exact absurd hbit (by decide)

/-- The loop keeps the state good, and alike machines alike. -/
private theorem unmapLoop_spec {stop : Word} {fuel : Nat} (hg : Good s roots) (hr : roots[p]? = some r)
    (hz : Returnable s r) (hstop : stop.toNat ≤ 2 ^ 47) (hpos : 0 < fuel)
    (hfuel : page < stop → page.toNat / 4096 + 1 < fuel) :
    ∃ u, unmapLoop (fun _ => true) r stop fuel page s = some u ∧ Good u roots ∧
      ∀ s', Alike roots s s' → ∃ u', unmapLoop (fun _ => true) r stop fuel page s' = some u' ∧ Alike roots u u' := by
  induction fuel generalizing s page with
  | zero => cases hpos
  | succ fuel ih =>
    unfold unmapLoop
    by_cases hlt : page < stop
    · have hrounds := hfuel hlt
      rw [lt_def] at hlt
      obtain ⟨s1, hs1, hg1, hz1, halike⟩ := unmapPage_spec hg hr (userSlot_of_lower (a := page) (by omega)) hz
      have hnext : page + pageAlignMask < stop → (page + pageAlignMask).toNat / 4096 + 1 < fuel := by
        have hsum : (page + pageAlignMask).toNat = (page.toNat + 0xfffffffffffff000) % 2 ^ 64 := BitVec.toNat_add _ _
        rw [lt_def]
        omega
      obtain ⟨u, hu, hgood, hrest⟩ := ih hg1 hz1 (by omega) hnext
      refine ⟨u, ?_, hgood, fun s' h => ?_⟩
      · rw [if_pos (by rw [lt_def]; exact hlt), hs1, bind_some, hu]
      · obtain ⟨s1', hs1', h1⟩ := halike s' h
        obtain ⟨u', hu', h'⟩ := hrest s1' h1
        exact ⟨u', by rw [if_pos (by rw [lt_def]; exact hlt), hs1', bind_some, hu'], h'⟩
    · exact ⟨s, if_neg hlt, hg, fun s' h => ⟨s', if_neg hlt, h⟩⟩

/-- `munmap` keeps the tables, the counts and the free list right, and alike machines alike. -/
theorem munmap_spec {l l' : List Vma.VmArea} {v : Vma.VmArea} {kmallocOk : Word → Bool} (hg : Good s roots)
    (hr : roots[p]? = some r) (hz : Returnable s r) (hok : ∀ page, kmallocOk page = true)
    (hv : Vma.munmap l a = some (v, l')) (hlow : v.vmEnd.toNat ≤ 2 ^ 47) :
    ∃ u, munmap kmallocOk s r l a = some (u, l') ∧ Good u roots ∧
      ∀ s', Alike roots s s' → ∃ u', munmap kmallocOk s' r l a = some (u', l') ∧ Alike roots u u' := by
  obtain rfl : kmallocOk = fun _ => true := funext hok
  have hstop : (endAddr v).toNat ≤ 2 ^ 47 := by
    rw [Vma.Unmap.toNat_endAddr]
    omega
  have hfuel : startAddr v < endAddr v → (startAddr v).toNat / 4096 + 1 < 2 ^ 52 + 1 := by
    rw [lt_def]
    omega
  obtain ⟨u, hu, hgood, hrest⟩ := unmapLoop_spec hg hr hz hstop (Nat.succ_pos _) hfuel
  unfold munmap
  rw [hv]
  dsimp only [bind_some]
  refine ⟨u, by rw [hu]; rfl, hgood, fun s' h => ?_⟩
  obtain ⟨u', hu', h'⟩ := hrest s' h
  exact ⟨u', by rw [hu']; rfl, h'⟩

end Release

variable {y v : Sys} {s s' m : Mach} {p q : Nat} {proc : Proc} {a err : Word} {e e' : Event} {es es' : List Event}
  {x : Ret}

/-- The same event, or two writes of a process other than `p` that differ in the byte. -/
inductive SameBut (p : Nat) : Event → Event → Prop where
  | same (e : Event) : SameBut p e e
  | write {q : Nat} (hq : q ≠ p) (a : Word) (b b' : BitVec 8) :
      SameBut p (.memory (.write q a b)) (.memory (.write q a b'))

/-- The events considered: areas are asked for by processes that there are, and given back by an address in them, in the
lower half and with memory for the free list; accesses, faults and forks as in `Cow.Allowed`. -/
def Orderly (y : Sys) : Event → Prop
  | .mmap p _ _ _ _ _ => ∃ proc, y.procs[p]? = some proc
  | .malloc p _ _ => ∃ proc, y.procs[p]? = some proc
  | .munmap p addr kmallocOk => (∀ page, kmallocOk page = true) ∧ ∃ proc v l, y.procs[p]? = some proc ∧
      Vma.munmap proc.mmap addr = some (v, l) ∧ Has v addr ∧ v.vmEnd.toNat ≤ 2 ^ 47 ∧ Returnable y.mach proc.pml4
  | .memory e => Allowed y e

def StepsAlike (o o' : Option Sys) : Prop :=
  ∃ v w, o = some v ∧ o' = some { v with mach := w } ∧ Good v.mach (roots v) ∧ Alike (roots v) v.mach w

private theorem stepsAlike_areas (hp : y.procs[p]? = some proc) (hgood : Good s (roots y)) (hm : Alike (roots y) s s')
    (l : List Vma.VmArea) :
    StepsAlike (some { y with mach := s, procs := y.procs.set p { proc with mmap := l } })
      (some { y with mach := s', procs := y.procs.set p { proc with mmap := l } }) := by
  have hroots : roots { y with mach := s, procs := y.procs.set p { proc with mmap := l } } = roots y := roots_set hp l
  refine ⟨_, s', rfl, rfl, ?_, ?_⟩
  · rw [hroots]
    exact hgood
  · rw [hroots]
    exact hm

section Steps

variable (hg : Good y.mach (roots y)) (h : Alike (roots y) y.mach m)
include hg h

private theorem stepsAlike_write {b b' : BitVec 8} (ha : Allowed y (.write p a b))
    (ha' : Allowed { y with mach := m } (.write p a b')) :
    StepsAlike (Cow.step y (.write p a b)) (Cow.step { y with mach := m } (.write p a b')) := by
  obtain ⟨hslot, proc, s, hp, hs⟩ := ha
  obtain ⟨-, proc', s', hp', hs'⟩ := ha'
  cases hp.symm.trans hp'
  have hstep : ∀ {y : Sys} {s : Mach} {c : BitVec 8}, y.procs[p]? = some proc → userWrite y.mach proc.pml4 a c =
      some s → Cow.step y (.write p a c) = some { y with mach := s } ∧ s.pages = y.mach.pages := by
    intro y s c hp hs
    refine ⟨?_, ?_⟩
    · show (y.procs[p]?.bind _) = _
      rw [hp, bind_some, hs]
      rfl
    · obtain ⟨w, -, hw⟩ := bind_eq_some_iff.1 hs
      split at hw
      · rw [← some.inj hw]
      · cases hw
  obtain ⟨hv, hpages⟩ := hstep hp hs
  obtain ⟨hv', hpages'⟩ := hstep hp' hs'
  obtain ⟨hk, hshare⟩ := write_spec hg hslot hp hs
  obtain ⟨hk', -⟩ := write_spec (y := { y with mach := m }) (h.good hg) hslot hp' hs'
  refine ⟨_, s', hv, hv', hk.good hg (hshare.inv hg.sharing), ?_, ?_, fun q hq => ?_⟩
  · exact hpages'.trans (h.pages_eq.trans hpages.symm)
  · exact hk'.base_eq.trans (h.base_eq.trans hk.base_eq.symm)
  · have hold := hk.table_iff.1 hq
    have hold' : Table m (roots y) q := (isTable_of_tables h.mem_eq).2 hold
    exact (hk'.mem_eq q hold').trans ((h.mem_eq q hold).trans (hk.mem_eq q hold).symm)

/-- The handler does the same on alike machines. -/
theorem pageFaultHandler_alike {env : Cow.Env} (ha : Allowed y (.fault p a err env))
    (hv : pageFaultHandler y p env a err = some (v, x)) :
    ∃ w, pageFaultHandler { y with mach := m } p env a err = some ({ v with mach := w }, x) ∧
      Alike (roots v) v.mach w := by
  obtain ⟨hslot, proc, hp, hraised, -, hfree⟩ := ha
  have hr := roots_getElem hp
  have hmem := List.mem_of_getElem? hr
  rw [hardwareLeaf_eq hg hmem hslot] at hraised
  unfold Cow.pageFaultHandler at hv ⊢
  rw [hp] at hv ⊢
  simp only [bind_some] at hv ⊢
  cases hleaf : leaf y.mach.mem proc.pml4 a with
  | none =>
    rw [hleaf] at hraised
    replace hraised : err &&& pfErrorCodeP = 0 := hraised
    have hP : ¬ (err &&& pfErrorCodeP ≠ 0) := fun hne => hne hraised
    rw [if_neg hP] at hv ⊢
    obtain ⟨⟨s, x1⟩, hs, heq⟩ := map_eq_some_iff.1 hv
    obtain ⟨s', hs', hm⟩ := h.pageNotPresent hg hslot hmem _ (hfree hraised) _ _ hs
    rw [hs', map_some]
    cases heq
    split
    · exact ⟨s', rfl, hm⟩
    · refine ⟨s', rfl, ?_⟩
      show Alike ((y.procs.set p { proc with mmap := _ }).map (·.pml4)) s s'
      rw [roots_set hp]
      exact hm
  | some w =>
    rw [hleaf] at hraised
    obtain ⟨hP, hW, -⟩ := hraised
    rw [if_pos hP, if_pos hW] at hv ⊢
    obtain ⟨⟨s, x1⟩, hs, heq⟩ := map_eq_some_iff.1 hv
    obtain ⟨s', hs', hm⟩ := h.pagePresentWrite hg hslot hr hleaf _ err _ _ hs
    rw [hs', map_some]
    cases heq
    exact ⟨s', rfl, hm⟩

private theorem stepsAlike_fault {env : Cow.Env} (ha : Allowed y (.fault p a err env)) :
    StepsAlike (Cow.step y (.fault p a err env)) (Cow.step { y with mach := m } (.fault p a err env)) := by
  obtain ⟨-, proc, hp, -⟩ := id ha
  obtain ⟨v, n, hv, hadv, -⟩ := pageFaultHandler_spec hg hp ha
  obtain ⟨w, hw, hm⟩ := pageFaultHandler_alike hg h ha hv
  refine ⟨v, w, ?_, ?_, hadv.good, hm⟩
  · unfold Cow.step
    dsimp only
    rw [hv, bind_some]
  · unfold Cow.step
    dsimp only
    rw [hw, bind_some]

private theorem stepsAlike_fork (ha : Allowed y (.fork p)) (ha' : Allowed { y with mach := m } (.fork p)) :
    StepsAlike (Cow.step y (.fork p)) (Cow.step { y with mach := m } (.fork p)) := by
  obtain ⟨v, hv, hadv⟩ := step_spec hg ha
  obtain ⟨proc, s, child, hp, hfork, h0, hzero⟩ := ha
  obtain ⟨proc', s', child', hp', hfork', -, hzero'⟩ := ha'
  cases hp.symm.trans hp'
  have hr := roots_getElem hp
  have hf := cowForkPageTable_spec (hg.current hr) hfork
  have hagree : AgreeOn (fun q => m.mem q = y.mach.mem q) y.mach m := ⟨h.pages_eq, h.base_eq, fun _ hq => hq⟩
  obtain ⟨s'', hfork'', hend⟩ := hagree.cowForkPageTable (hg.current hr) ((h.good hg).current hr)
    (fun q hq => h.mem_eq q (table_of_userTable hr hq)) hfork
  obtain ⟨rfl, hchild⟩ := Prod.mk.inj (some.inj (hfork''.symm.trans hfork'))
  cases hchild
  -- the same pages are taken
  have htaken : ∀ q, Taken y.mach s q → Taken m s'' q := by
    intro q hq
    unfold Taken Free
    rw [h.pages_eq, hend.pages_eq]
    exact hq
  have hstep : ∀ {y : Sys} {s : Mach}, y.procs[p]? = some proc →
      cowForkPageTable y.mach proc.pml4 = some (s, some child) →
      Cow.step y (.fork p) = some { y with mach := s, procs := y.procs ++ [⟨child, proc.mmap⟩] } := by
    intro y s hp hfork
    show forkProc y p = _
    unfold forkProc
    rw [hp, bind_some, hfork]
    rfl
  cases (hstep hp hfork).symm.trans hv
  refine ⟨_, s'', hv, hstep hp' hfork'', hadv.good, ?_⟩
  have hroots : roots { y with mach := s, procs := y.procs ++ [⟨child, proc.mmap⟩] } = roots y ++ [child] :=
    List.map_append
  rw [hroots]
  refine ⟨hend.pages_eq, hend.base_eq, fun q hq => hend.mem_eq q ?_⟩
  rcases table_cases hg hf h0 hzero hq with htable | ht
  · exact .inl (h.mem_eq q htable)
  · by_cases hqc : q = child
    · exact .inr hqc
    · refine .inl (funext fun j => ?_)
      exact (hzero' q (htaken q ht) hqc j).trans (hzero q ht hqc j).symm

/-- Each event keeps the systems alike, also when a process writes different bytes in them. -/
private theorem step_alike (hsame : SameBut p e e') (ha : Orderly y e) (ha' : Orderly { y with mach := m } e') :
    StepsAlike (step y e) (step { y with mach := m } e') := by
  cases hsame with
  | write hq a b b' => exact stepsAlike_write hg h ha ha'
  | same e =>
    cases e with
    | mmap q addr length prot flags env =>
      obtain ⟨proc, hp⟩ := ha
      have hareas := stepsAlike_areas hp hg h
        (Vma.mmap env proc.mmap addr length (prot ||| pageTransUserSupervisor) (flags ||| Vma.Pages.mapAnonymous)).1
      unfold step sysMmap
      dsimp only
      rw [hp]
      exact hareas
    | malloc q size env =>
      obtain ⟨proc, hp⟩ := ha
      have hareas := stepsAlike_areas hp hg h (Vma.mmap env proc.mmap mallocStartAddr size
        (pageTransReadWrite ||| pageTransUserSupervisor) Vma.Pages.mapAnonymous).1
      unfold step sysMalloc
      dsimp only
      rw [hp]
      exact hareas
    | munmap q addr kmallocOk =>
      obtain ⟨hok, proc, area, l, hp, harea, -, hlow, hz⟩ := ha
      obtain ⟨s, hs, hgood, hrest⟩ := munmap_spec hg (roots_getElem hp) hz hok harea hlow
      obtain ⟨s', hs', hm⟩ := hrest m h
      have hareas := stepsAlike_areas hp hgood hm l
      show StepsAlike (sysMunmap y q kmallocOk addr) (sysMunmap { y with mach := m } q kmallocOk addr)
      unfold sysMunmap
      dsimp only
      rw [hp, bind_some, bind_some, hs, hs']
      exact hareas
    | memory e =>
      cases e with
      | read q a =>
        have hstep : ∀ {y : Sys}, Allowed y (.read q a) → Cow.step y (.read q a) = some y := by
          intro y ⟨_, proc, b, hp, hb⟩
          show (y.procs[q]?.bind _) = _
          rw [hp, bind_some, hb]
          rfl
        exact ⟨y, m, hstep ha, hstep ha', hg, h⟩
      | write q a b => exact stepsAlike_write hg h ha ha'
      | fault q a err env => exact stepsAlike_fault hg h ha
      | fork q => exact stepsAlike_fork hg h ha ha'

end Steps

/-- Runs that differ in the bytes written keep the systems alike. -/
theorem run_alike (hg : Good y.mach (roots y)) (h : Alike (roots y) y.mach m) (hsame : List.Forall₂ (SameBut p) es es')
    (hes : Permitted step Orderly y es) (hes' : Permitted step Orderly { y with mach := m } es') :
    StepsAlike (run step y es) (run step { y with mach := m } es') := by
  induction hsame generalizing y m with
  | nil => exact ⟨y, m, rfl, rfl, hg, h⟩
  | cons hhead _ ih =>
    obtain ⟨v, w, hv, hw, hgood, halike⟩ := step_alike hg h hhead hes.1 hes'.1
    rw [run, run, hv, hw]
    exact ih hgood halike (hes.2 v hv) (hes'.2 _ hw)

end Adix.Space
