import Adix.Space.Areas
import Adix.Space.Maps

/-!
# The protection of pages

An area may begin and end inside a page, and `mmap` puts areas end to end, so a page may belong to several areas with
different protection. Its entry gets the protection of the area in which the first access was.
-/

namespace Adix.Space

open PageTable PhysPages Cow Vma List Option
open Vma.Unmap (Canonical)

def Writable (v : VmArea) : Prop := v.vmPageProt &&& pageTransReadWrite ≠ 0

def Meets (v : VmArea) (a : Word) : Prop := ∃ b, Has v b ∧ b.toNat / 4096 = a.toNat / 4096

/-- Where a present user entry of the process allows to write, each area with a byte in the page may be written. -/
def NotWider (y : Sys) (p : Nat) : Prop :=
  ∀ proc a e, y.procs[p]? = some proc → Canonical a → indexPml4e a ≠ selfRefEntry → leaf y.mach.mem proc.pml4 a =
    some e → userBit e = true → writeBit e = true → ∀ v ∈ proc.mmap, Meets v a → Writable v

/-- The process calls `sys_mmap` or has a page fault. The hardware translates canonical addresses, and its error code
says whether the page is present. -/
def MapsOrFaults (p : Nat) (y : Sys) : Event → Prop
  | .mmap q .. => q = p
  | .memory (.fault q addr errCode _) => q = p ∧ Canonical addr ∧
    (errCode &&& pfErrorCodeP = 0 ↔ entryOf y p addr = none)
  | .malloc .. | .munmap .. | .memory (.read ..) | .memory (.write ..) | .memory (.fork ..) => False

/-- Areas are asked for in whole pages, page faults are at user addresses outside of the self reference, and there are
pages for the page tables that they need. -/
def InPages (p : Nat) (y : Sys) : Event → Prop
  | .mmap _ addr length .. => addr.toNat % 4096 = 0 ∧ length.toNat % 4096 = 0
  | .memory (.fault _ addr errCode _) => addr < y.startKernel ∧ indexPml4e addr ≠ selfRefEntry ∧
      (errCode &&& pfErrorCodeP = 0 → ∀ proc ∈ y.procs[p]?,
        missing y.mach.mem proc.pml4 addr + 1 ≤ freeCount y.mach.pages)
  | .malloc .. | .munmap .. | .memory (.read ..) | .memory (.write ..) | .memory (.fork ..) => True

instance (a : Word) : Decidable (Canonical a) := inferInstanceAs (Decidable (_ ∨ _))

instance (p : Nat) (y : Sys) : ∀ e, Decidable (MapsOrFaults p y e)
  | .mmap q .. => inferInstanceAs (Decidable (q = p))
  | .memory (.fault ..) => inferInstanceAs (Decidable (_ ∧ _ ∧ (_ ↔ _)))
  | .malloc .. | .munmap .. | .memory (.read ..) | .memory (.write ..) | .memory (.fork ..) =>
    inferInstanceAs (Decidable False)

instance (p : Nat) (y : Sys) : ∀ e, Decidable (InPages p y e)
  | .mmap .. => inferInstanceAs (Decidable (_ ∧ _))
  | .memory (.fault ..) => inferInstanceAs (Decidable (_ ∧ _ ∧ (_ → ∀ proc ∈ (_ : Option Proc), _)))
  | .malloc .. | .munmap .. | .memory (.read ..) | .memory (.write ..) | .memory (.fork ..) =>
    .isTrue trivial

/-- The tables of the process are well-formed, its areas lie apart and at boundaries of pages, and each present user
entry is for a page of an area, writable only if the area is. -/
structure Confined (s : Mach) (r : Nat) (l : List VmArea) : Prop where
  wf : WellFormed (· ≠ selfRefEntry) s (· = r)
  self : SelfRef s r
  valid : Valid l
  bounds : ∀ v ∈ l, PageBounds v
  within : ∀ a e, Canonical a → indexPml4e a ≠ selfRefEntry → leaf s.mem r a = some e → userBit e = true →
    ∃ v ∈ l, Has v a ∧ (writeBit e = true → Writable v)

structure ConfinedProc (p : Nat) (y : Sys) : Prop where
  proc : ∃ proc, y.procs[p]? = some proc ∧ Confined y.mach proc.pml4 proc.mmap
  startKernel : y.startKernel.toNat ≤ 2 ^ 64 - 4096

variable {s s' u u' : Mach} {r p z : Nat} {l l' : List VmArea} {v node : VmArea} {a b e phys prot err len : Word}
  {y y' : Sys} {proc : Proc} {ret : Int} {env : Cow.Env}

/-- Canonical addresses of one page. -/
theorem page_eq_of_samePage (ha : Canonical a) (hb : Canonical b) (h : SamePage a b) :
    a.toNat / 4096 = b.toNat / 4096 := by
  have hsym : SamePage b a := fun k h1 h2 => (h k h1 h2).symm
  rcases ha with ha | ha
  · rcases hb with hb | hb
    · exact (Unmap.samePage_iff_div ha hb).1 h
    · exact absurd hsym (Unmap.not_samePage_upper hb ha)
  · rcases hb with hb | hb
    · exact absurd h (Unmap.not_samePage_upper ha hb)
    · -- in the upper half bits 63 to 47 are set
      have hbit : ∀ (x : Word) k, (x.toNat / 2 ^ 12).testBit k = x.toNat.testBit (k + 12) := fun x k =>
        Nat.testBit_div_two_pow ..
      have htop : ∀ x : Word, 2 ^ 64 - 2 ^ 47 ≤ x.toNat → ∀ k, 47 ≤ k → x.toNat.testBit k = decide (k < 64) := by
        intro x hx k hk
        have hdiv : x.toNat / 2 ^ 47 = 2 ^ 17 - 1 := by omega
        have hshift : x.toNat.testBit k = (x.toNat / 2 ^ 47).testBit (k - 47) := by
          rw [Nat.testBit_div_two_pow, Nat.sub_add_cancel hk]
        rw [hshift, hdiv, Nat.testBit_two_pow_sub_one]
        exact decide_eq_decide.2 (by omega)
      apply Nat.eq_of_testBit_eq
      intro k
      show (a.toNat / 2 ^ 12).testBit k = (b.toNat / 2 ^ 12).testBit k
      rw [hbit, hbit]
      by_cases hk : k + 12 ≤ 47
      · exact h (k + 12) (by omega) hk
      · rw [htop a ha _ (by omega), htop b hb _ (by omega)]

private theorem Confined.notWider (h : Confined y.mach proc.pml4 proc.mmap) (hp : y.procs[p]? = some proc) :
    NotWider y p := by
  intro proc' a e hp' ha hslot he hu hw w hmem ⟨b, hhas, hpage⟩
  cases hp.symm.trans hp'
  obtain ⟨v, hv, hva, hwr⟩ := h.within a e ha hslot he hu
  -- the area of the entry has the whole page, so it is the only one with a byte in it
  obtain rfl := eq_of_has h.valid hv hmem ((h.bounds v hv).has hva hpage) hhas
  exact hwr hw

private theorem writable_iff : Writable v ↔ v.vmPageProt.getLsbD 1 = true := by
  unfold Writable
  rw [Ne, and_readWrite_eq_zero, Bool.not_eq_false]

structure Serves (s : Mach) (r : Nat) (a : Word) (v : VmArea) (s' : Mach) : Prop where
  wf : WellFormed (· ≠ selfRefEntry) s' (· = r)
  self : SelfRef s' r
  elsewhere : ∀ b, indexPml4e b ≠ selfRefEntry → ¬ SamePage b a → leaf s'.mem r b = leaf s.mem r b
  here : ∀ e, leaf s'.mem r a = some e → leaf s.mem r a = some e ∨ (writeBit e = true → Writable v)

section Handlers

variable (hw : WellFormed (· ≠ selfRefEntry) s (· = r)) (hself : SelfRef s r) (hv : indexPml4e a ≠ selfRefEntry)
include hw

omit hw in
private theorem KeepsTables.serves {w : Word} (hk : KeepsTables r s u) (hm : Maps r u u' a w)
    (hwrite : writeBit w = true → Writable v) : Serves s r a v u' := by
  refine ⟨hm.wf, hm.self, fun b hb hne => ?_, fun e he => .inr ?_⟩
  · rw [hm.elsewhere b hb hne, hk.leaf_eq hb]
  · cases hm.here.symm.trans he
    exact hwrite

private theorem KeepsTables.idle (hk : KeepsTables r s u) (hself : SelfRef s r) (hv : indexPml4e a ≠ selfRefEntry) :
    Serves s r a v u :=
  ⟨hk.wf hw, hk.self hself, fun _ hb _ => hk.leaf_eq hb, fun _ he => .inl ((hk.leaf_eq hv).symm.trans he)⟩

include hself hv

private theorem updateCurrPageTable_serves (hk : KeepsTables r s u) (hphys : phys ≠ 0)
    (hc : missing u.mem r a ≤ freeCount u.pages)
    (v : VmArea) : ∃ u', updateCurrPageTable u r phys (pageStart a) v.vmPageProt = some (u', 0) ∧
    Serves s r a v u' := by
  have hv' : indexPml4e (pageStart a) ≠ selfRefEntry := by rw [indexPml4e_pageStart]; exact hv
  have hc' : missing u.mem r (pageStart a) ≤ freeCount u.pages := by rw [missing_pageStart]; exact hc
  obtain ⟨u', hu', hm, -⟩ := updateCurrPageTable_maps (hk.wf hw) (hk.self hself) hv' hphys hc' v.vmPageProt
  refine ⟨u', hu', hk.serves hm.of_pageStart ?_⟩
  rw [writeBit_leafEntry]
  exact writable_iff.2

private theorem checkPageProt_serves (hk : KeepsTables r s u)
    (h : checkPageProt u r env v a = some (s', ret)) : Serves s r a v s' := by
  have hv' : indexPml4e (pageStart a) ≠ selfRefEntry := by rw [indexPml4e_pageStart]; exact hv
  unfold checkPageProt at h
  rw [virt2physSelfref_eq (hk.wf hw) (hk.self hself) hv, bind_some] at h
  dsimp only at h
  split at h
  · cases h
    exact hk.idle hw hself hv
  · cases hleaf : leaf u.mem r (pageStart a) with
    | none =>
      rw [updateCurrPageTable_absent (hk.wf hw) (hk.self hself) hv' hleaf] at h
      cases h
      exact hk.idle hw hself hv
    | some e =>
      have hpresent : entryFormat.present (pageTransPresent ||| v.vmPageProt) = true := by
        rw [present_eq, BitVec.getLsbD_or]
        rfl
      obtain ⟨u', hu', hm, -⟩ := updateCurrPageTable_protects (hk.wf hw) (hk.self hself) hv' hleaf hpresent
      rw [hu'] at h
      cases h
      refine hk.serves hm.of_pageStart ?_
      rw [writeBit_withPerm]
      exact writable_iff.2

private theorem pageNotPresent_serves (hc : missing s.mem r a + 1 ≤ freeCount s.pages)
    (h : pageNotPresent s r (some v) a = some (s', .value ret)) : Serves s r a v s' := by
  obtain ⟨s1, z, hs1, hn⟩ := pageNotPresent_maps hw hself hv hc v
  rw [hs1] at h
  cases h
  refine (KeepsTables.refl hw).serves hn.toMaps ?_
  rw [writeBit_leafEntry]
  exact writable_iff.2

private theorem copyShared_serves (hleaf : leaf s.mem r a = some e)
    (h : copyShared s r v a phys = some (s', .value ret)) : Serves s r a v s' := by
  unfold copyShared at h
  have hk0 := KeepsTables.updateDesc hw phys.toNat fun d => { d with refcount := d.refcount - 1 }
  dsimp only at h
  rcases allocPage_cases hk0.listed with halloc | ⟨u, z, halloc, ht⟩
  · rw [halloc] at h
    cases (Prod.mk.inj (some.inj h)).2
  rw [halloc] at h
  rw [if_neg ht.allocated.ne_zero] at h
  obtain ⟨src, -, h⟩ := bind_eq_some_iff.1 h
  have hz := hw.free z (hk0.free_sub z ht.wasFree)
  have hk : KeepsTables r s (copyPage u z src) := hk0.take hw ht (fun q hq => funext fun j => if_neg hq) rfl rfl
  have hne : BitVec.ofNat 64 z ≠ 0 := hz.ofNat_ne_zero ht.allocated.ne_zero
  have hmissing : missing (copyPage u z src).mem r a = 0 := missing_of_leaf ((hk.leaf_eq hv).trans hleaf)
  obtain ⟨u', hu', hserves⟩ := updateCurrPageTable_serves hw hself hv hk hne (by rw [hmissing]; exact Nat.zero_le _) v
  rw [hu'] at h
  cases h
  exact hserves

private theorem cow_serves (hleaf : leaf s.mem r a = some e)
    (h : cow s r env v a = some (s', .value ret)) : Serves s r a v s' := by
  unfold cow at h
  rw [virt2physSelfref_eq hw hself hv, bind_some] at h
  dsimp only at h
  split at h
  · cases h
    exact (KeepsTables.refl hw).idle hw hself hv
  · split at h
    · cases h
      exact (KeepsTables.refl hw).idle hw hself hv
    · split at h
      · obtain ⟨⟨s1, ret1⟩, hs1, heq⟩ := map_eq_some_iff.1 h
        cases heq
        exact checkPageProt_serves hw hself hv (KeepsTables.updateDesc hw _ _) hs1
      · split at h
        · cases h
          exact (KeepsTables.refl hw).idle hw hself hv
        · exact copyShared_serves hw hself hv hleaf h

private theorem checked_serves
    (h : ((checkPageProt s r env v a).map fun (s, r) => if r = 0 then (s, .value 0) else (s, .exit)) =
    some (s', Ret.value ret)) :
    Serves s r a v s' := by
  obtain ⟨⟨s2, ret2⟩, hs2, heq⟩ := map_eq_some_iff.1 h
  have h2 := checkPageProt_serves hw hself hv (KeepsTables.refl hw) hs2
  dsimp only at heq
  split at heq
  · rwa [(Prod.mk.inj heq).1] at h2
  · cases heq

private theorem pagePresentWrite_serves (hleaf : leaf s.mem r a = some e)
    (h : pagePresentWrite s r env (some v) a err = some (s', .value ret)) : Serves s r a v s' := by
  unfold pagePresentWrite at h
  dsimp only at h
  split at h
  · cases (Prod.mk.inj (some.inj h)).2
  obtain ⟨⟨s1, ret1⟩, hcow, h⟩ := bind_eq_some_iff.1 h
  split at h
  · cases h
    exact cow_serves hw hself hv hleaf hcow
  rename_i hone
  obtain rfl := Decidable.of_not_not hone
  split at h
  · cases (Prod.mk.inj (some.inj h)).2
  have h1 := cow_serves hw hself hv hleaf hcow
  have h2 := checked_serves h1.wf h1.self hv h
  refine ⟨h2.wf, h2.self, fun b hb hne => (h2.elsewhere b hb hne).trans (h1.elsewhere b hb hne), fun e he => ?_⟩
  rcases h2.here e he with he | hwr
  · exact h1.here e he
  · exact .inr hwr

private theorem pagePresentRead_serves
    (h : pagePresentRead s r env (some v) a err = some (s', .value ret)) : Serves s r a v s' := by
  unfold pagePresentRead at h
  dsimp only at h
  split at h
  · cases (Prod.mk.inj (some.inj h)).2
  exact checked_serves hw hself hv h

end Handlers

private theorem Confined.serves (h : Confined s r l) (hg : Grown a l v l') (ha : Canonical a) (hs : Serves s r a v s') :
    Confined s' r l' := by
  have hold : ∀ b e, Canonical b → indexPml4e b ≠ selfRefEntry → leaf s.mem r b = some e → userBit e = true →
      ∃ w ∈ l', Has w b ∧ (writeBit e = true → Writable w) := by
    intro b e hb hslot he hu
    obtain ⟨w, hw, hhas, hwr⟩ := h.within b e hb hslot he hu
    obtain ⟨w', hw', hwide⟩ := hg.widens w hw
    refine ⟨w', hw', hwide.has hhas, fun hbit => ?_⟩
    unfold Writable
    rw [hwide.prot]
    exact hwr hbit
  refine ⟨hs.wf, hs.self, hg.valid, hg.bounds, fun b e hb hslot he hu => ?_⟩
  by_cases hsame : SamePage b a
  · rw [leaf_samePage hsame] at he
    rcases hs.here e he with he | hwr
    · exact hold b e hb hslot ((leaf_samePage hsame).trans he) hu
    · exact ⟨v, hg.mem, (hg.bounds v hg.mem).has hg.has (page_eq_of_samePage hb ha hsame), hwr⟩
  · rw [hs.elsewhere b hslot hsame] at he
    exact hold b e hb hslot he hu

private theorem searchGap_aligned (ha : a.toNat % 4096 = 0) (hb : ∀ v ∈ l, PageBounds v) :
    (searchGap len a l).toNat % 4096 = 0 := by
  induction l generalizing a with
  | nil => exact ha
  | cons n l ih =>
    unfold searchGap
    split
    · exact ha
    · exact ih (hb n (by simp)).2 fun v hv => hb v (by simp [hv])

private theorem Confined.mmap {env : Vma.Env} {flags : BitVec 32} (h : Confined s r l) (ha : a.toNat % 4096 = 0)
    (hlen : len.toNat % 4096 = 0) : Confined s r (Vma.mmap env l a len prot flags).1 := by
  rcases mmapGrowable_spec h.valid env ⟨a, len, prot, flags, -1⟩ with he | ⟨l', x, he, hx, hvalid, hm⟩
  · unfold Vma.mmap
    rw [he]
    exact h
  have hx' : x = getUnmappedArea l a len := by
    unfold mmapGrowable at he
    dsimp only at he
    split at he
    · exact absurd (Prod.mk.inj he).2.symm hx
    · exact (Prod.mk.inj he).2.symm
  have hstart : x.toNat % 4096 = 0 := by
    rw [hx']
    exact searchGap_aligned ha fun v hv => h.bounds v (fromVma_sublist.subset hv)
  obtain ⟨l1, l2, rfl, rfl⟩ := hm.added
  unfold Vma.mmap
  rw [he]
  refine ⟨h.wf, h.self, hvalid, fun v hv => ?_, fun b e hb hslot hleaf hu => ?_⟩
  · rcases mem_append.1 hv with hv | hv
    · exact h.bounds v (by simp [hv])
    · rcases mem_cons.1 hv with rfl | hv
      · refine ⟨hstart, ?_⟩
        show (x + len).toNat % 4096 = 0
        rw [BitVec.toNat_add]
        omega
      · exact h.bounds v (by simp [hv])
  · obtain ⟨v, hv, hrest⟩ := h.within b e hb hslot hleaf hu
    refine ⟨v, ?_, hrest⟩
    rcases mem_append.1 hv with hv | hv
    · simp [hv]
    · simp [hv]

private theorem Confined.fault (h : Confined y.mach proc.pml4 proc.mmap) (hp : y.procs[p]? = some proc)
    (hkernel : y.startKernel.toNat ≤ 2 ^ 64 - 4096) (ha : Canonical a)
    (hpresent : err &&& pfErrorCodeP = 0 ↔ entryOf y p a = none) (hlt : a < y.startKernel)
    (hv : indexPml4e a ≠ selfRefEntry)
    (hc : err &&& pfErrorCodeP = 0 → missing y.mach.mem proc.pml4 a + 1 ≤ freeCount y.mach.pages)
    (hs : pageFaultHandler y p env a err = some (y', .value ret)) :
    ∃ proc', y'.procs[p]? = some proc' ∧ Confined y'.mach proc'.pml4 proc'.mmap ∧ y'.startKernel = y.startKernel := by
  have huser : ¬ y.startKernel ≤ a := BitVec.not_le.2 hlt
  have hentry : entryOf y p a = leaf y.mach.mem proc.pml4 a := by
    unfold entryOf
    rw [hp, bind_some, hardwareLeaf_eq_leaf h.wf hv]
  unfold pageFaultHandler at hs
  rw [hp, bind_some] at hs
  simp only [if_neg huser] at hs
  split at hs
  · rename_i hP
    obtain ⟨⟨s, ret'⟩, hr, heq⟩ := map_eq_some_iff.1 hs
    cases heq
    refine ⟨proc, hp, ?_, rfl⟩
    obtain ⟨e, he⟩ := ne_none_iff_exists'.1 (mt hpresent.2 hP)
    rw [hentry] at he
    cases hfound : (searchVma a proc.mmap 0 none none).1 with
    | none =>
      -- no area: nothing is changed
      rw [hfound] at hr
      have hsame : s = y.mach := by
        split at hr
        · exact (Prod.mk.inj (some.inj hr)).1.symm
        · exact (Prod.mk.inj (some.inj hr)).1.symm
      rw [hsame]
      exact h
    | some k =>
      obtain ⟨v, hk, hhas⟩ := searchVma_has hfound
      rw [hfound, bind_some, hk] at hr
      refine h.serves ⟨h.valid, h.bounds, fun w hw => ⟨w, hw, .refl w⟩, mem_of_getElem? hk, hhas⟩ ha ?_
      split at hr
      · exact pagePresentWrite_serves h.wf h.self hv he hr
      · exact pagePresentRead_serves h.wf h.self hv hr
  · rename_i hP
    replace hP : err &&& pfErrorCodeP = 0 := Decidable.of_not_not hP
    generalize harea : areaFor env proc.mmap a = area at hs
    obtain ⟨node, l'⟩ := area
    obtain ⟨⟨s, ret'⟩, hr, heq⟩ := map_eq_some_iff.1 hs
    cases heq
    cases node with
    | none => cases (Prod.mk.inj (some.inj hr)).2
    | some v =>
      rw [BitVec.lt_def] at hlt
      have hg := areaFor_spec h.valid h.bounds (by omega) harea
      refine ⟨{ proc with mmap := l' }, ?_, h.serves hg ha (pageNotPresent_serves h.wf h.self hv (hc hP) hr), rfl⟩
      exact (getElem?_set_self (List.getElem?_eq_some_iff.1 hp).1)

/-- Each call and each fault keeps the process confined. -/
private theorem ConfinedProc.step {e : Event} (h : ConfinedProc p y) (he : MapsOrFaults p y e) (hin : InPages p y e)
    (hs : step y e = some y') : ConfinedProc p y' := by
  obtain ⟨⟨proc, hp, hc⟩, hkernel⟩ := h
  unfold Space.step at hs
  cases e with
  | mmap q addr length prot flags env =>
    obtain rfl : q = p := he
    obtain ⟨haddr, hlen⟩ := hin
    dsimp only at hs
    unfold sysMmap at hs
    rw [hp] at hs
    cases hs
    exact ⟨⟨_, getElem?_set_self (List.getElem?_eq_some_iff.1 hp).1, hc.mmap haddr hlen⟩, hkernel⟩
  | malloc => exact absurd he id
  | munmap => exact absurd he id
  | memory e =>
    cases e with
    | read => exact absurd he id
    | write => exact absurd he id
    | fork => exact absurd he id
    | fault q addr err env =>
      obtain ⟨rfl, haddr, hpresent⟩ := he
      obtain ⟨hlt, hv, hfree⟩ := hin
      obtain ⟨⟨y1, ret⟩, hret, hs⟩ := bind_eq_some_iff.1 hs
      cases ret with
      | exit => cases hs
      | value ret =>
        cases hs
        obtain ⟨proc', hp', hc', hk⟩ := hc.fault hp hkernel haddr hpresent hlt hv (fun hP => hfree hP proc hp) hret
        exact ⟨⟨proc', hp', hc'⟩, by rw [hk]; exact hkernel⟩

/-- If all areas are asked for in whole pages, then in every run of `sys_mmap` and page faults of a process its entries
never allow to write where an area does not. -/
theorem protection_not_wider (y₀ : Sys) (p : Nat) (h₀ : ConfinedProc p y₀) (es : List Event)
    (hes : Permitted step (fun y e => MapsOrFaults p y e ∧ InPages p y e) y₀ es) (y : Sys)
    (hy : run step y₀ es = some y) : NotWider y p := by
  obtain ⟨⟨proc, hp, hc⟩, -⟩ := run_preserves (fun _ _ _ h ha hs => h.step ha.1 ha.2 hs) h₀ hes hy
  exact hc.notWider hp

def freshProcess : Sys := { oneProcess with procs := [⟨0x1000, []⟩] }

private theorem confined_freshProcess : ConfinedProc 0 freshProcess := by
  refine ⟨⟨_, rfl, wellFormed_oneProcess, selfRef_oneProcess, Valid.nil, nofun, fun a e _ hslot he _ => ?_⟩, by decide⟩
  have hleaf : leaf oneProcess.mach.mem 0x1000 a = none := by
    unfold leaf tablePath
    rw [Radix.lookup_cons, oneProcess_empty _ hslot]
    rfl
  cases hleaf.symm.trans he

def twoAreas : List Event :=
  [.mmap 0 0x400000 0x1000 2 0 quietEnv.toEnv, .mmap 0 0x400000 0x1000 0 0 quietEnv.toEnv,
    .memory (.fault 0 0x400010 6 quietEnv), .memory (.fault 0 0x401010 4 quietEnv)]

theorem protection_not_wider_two : ∃ y, run step freshProcess twoAreas = some y ∧
    (entryOf y 0 0x400010).map writeBit = some true ∧ (entryOf y 0 0x401010).map writeBit = some false ∧
    NotWider y 0 := by
  obtain ⟨y, hy, h1, h2⟩ : ∃ y ∈ checkedRun step (fun y e => MapsOrFaults 0 y e ∧ InPages 0 y e) freshProcess twoAreas,
      (entryOf y 0 0x400010).map writeBit = some true ∧ (entryOf y 0 0x401010).map writeBit = some false := by
    decide +kernel
  obtain ⟨hperm, hrun⟩ := permitted_of_checkedRun hy
  exact ⟨y, hrun, h1, h2, protection_not_wider freshProcess 0 confined_freshProcess twoAreas hperm y hrun⟩

def halfPages : List Event :=
  [.mmap 0 0x400000 0x800 2 0 quietEnv.toEnv, .mmap 0 0x400000 0x800 0 0 quietEnv.toEnv,
    .memory (.fault 0 0x400010 6 quietEnv)]

def secondHalf : VmArea := ⟨0x400800, 0x401000, 4, 1, -1⟩

/-- Both areas are in one page. After the page fault it can be written. -/
theorem protection_wider : ¬ ∀ (y₀ : Sys) (p : Nat), ConfinedProc p y₀ → ∀ es : List Event,
    Permitted step (MapsOrFaults p) y₀ es → ∀ y, run step y₀ es = some y → NotWider y p := by
  intro h
  obtain ⟨y, hy, proc, hp, hmem, he⟩ : ∃ y ∈ checkedRun step (MapsOrFaults 0) freshProcess halfPages,
      ∃ proc ∈ y.procs[0]?, secondHalf ∈ proc.mmap ∧ leaf y.mach.mem proc.pml4 0x400010 = some 0x2007 := by
    decide +kernel
  obtain ⟨hperm, hrun⟩ := permitted_of_checkedRun hy
  have hmeets : Meets secondHalf 0x400010 := ⟨0x400800, ⟨by decide, by decide⟩, by decide⟩
  have hbad := h freshProcess 0 confined_freshProcess halfPages hperm y hrun proc 0x400010 0x2007 hp (by decide)
    (by decide) he (by decide) (by decide) secondHalf hmem hmeets
  exact hbad (by decide)

end Adix.Space
