import Adix.Space.Maps
import Adix.Space.Areas

/-!
# What a page fault changes

A fault for a page that is not present changes the entry of this page, and at most one bound of one area, by a page. A
fault with the user bit in an area without `PAGE_TRANS_USER_SUPERVISOR` is a violation: `page_present_read` looks at
the privilege first, `page_present_write` after `cow`, and `page_not_present` not at all.
-/

namespace Adix.Space

open PageTable PhysPages Cow Vma Fork BitVec

/-- The address is in the page next to an area that may grow to that side. -/
def Beside (v : VmArea) (a : Word) : Direction → Prop
  | .up => v.vmFlags &&& mapGrowsUp ≠ 0 ∧ v.vmEnd ≤ a ∧ a.toNat < v.vmEnd.toNat + 4096
  | .down => v.vmFlags &&& mapGrowsDown ≠ 0 ∧ a < v.vmStart ∧ v.vmStart.toNat ≤ a.toNat + 4096

/-- One area of the list has grown by a page. -/
def Extended (l l' : List VmArea) : Prop :=
  ∃ d l₁ v l₂, l = l₁ ++ v :: l₂ ∧ ¬ Wraps v d ∧ l' = l₁ ++ v.grown d :: l₂

/-- The areas are at least a page away from both ends of the address space, and stay in it when they grow. -/
def AwayFromEnds (l : List VmArea) : Prop := ∀ v ∈ l, 4096 ≤ v.vmStart.toNat ∧ v.vmEnd.toNat + 4096 < 2 ^ 64

/-- The fault at `a` is served: an area of the list afterwards has the address, its page is mapped to a page that was
free, with the protection of the area, and nothing else has changed but, by a page, one area. -/
def Provided (y : Sys) (p : Nat) (proc : Proc) (a : Word) (y' : Sys) : Prop :=
  ∃ s l v z, y' = afterFault y p proc a s l ∧ v ∈ l ∧ Has v a ∧ Free y.mach z ∧
    leaf s.mem proc.pml4 a = some (leafEntry (BitVec.ofNat 64 z) v.vmPageProt) ∧
    (∀ b, indexPml4e b ≠ selfRefEntry → ¬ SamePage b a → leaf s.mem proc.pml4 b = leaf y.mach.mem proc.pml4 b) ∧
    (l = areasFor y proc a ∨ Extended (areasFor y proc a) l)

variable {l l' : List VmArea} {v : VmArea} {a err : Word} {d : Direction} {env : Vma.Env} {y y' : Sys} {p : Nat}
  {proc : Proc} {r : Int}

private theorem AwayFromEnds.not_wraps (h : AwayFromEnds l) (hv : v ∈ l) : ¬ Wraps v d := by
  obtain ⟨h1, h2⟩ := h v hv
  cases d with
  | up => exact Nat.not_le.2 h2
  | down => exact Nat.not_lt.2 h1

private theorem beside_of_grows (h : Vma.Grows d env l v a) : Beside v a d := by
  cases d with
  | up =>
    have hle := GrowsUp.behind h
    have hnear := GrowsUp.near h
    rw [lt_def, toNat_sub_of_le hle, show Vma.sizeofPage.toNat = 4096 from rfl] at hnear
    exact ⟨GrowsUp.flag h, hle, by omega⟩
  | down =>
    have hlt := GrowsDown.before h
    have hnear := GrowsDown.near h
    rw [le_def, toNat_sub_of_le (BitVec.le_of_lt hlt), show Vma.sizeofPage.toNat = 4096 from rfl] at hnear
    exact ⟨GrowsDown.flag h, hlt, by omega⟩

private theorem areaFor_has {env : Cow.Env} (h : Valid l) (hends : AwayFromEnds l)
    (ha : areaFor env l a = (some v, l')) : v ∈ l' ∧ Has v a ∧ (l' = l ∨ Extended l l') := by
  rcases areaFor_cases ha with ⟨hv, rfl⟩ | ⟨d, l1, w, l2, rfl, hg, rfl, rfl⟩
  · obtain ⟨hmem, hhas⟩ := areaOf_some hv
    exact ⟨hmem, hhas, .inl rfl⟩
  · have hwrap : ¬ Wraps w d := hends.not_wraps (by simp)
    exact ⟨by simp, (hg.has_iff (h.proper w (by simp))).2 hwrap, .inr ⟨d, l1, w, l2, rfl, hwrap, rfl⟩⟩

private theorem areaFor_eq_none {env : Cow.Env} (h : ∀ v ∈ l, ¬ Has v a ∧ ∀ d, ¬ Beside v a d) :
    areaFor env l a = (none, l) := by
  cases ha : areaFor env l a with
  | mk node l' =>
    cases node with
    | none => rw [areaFor_none ha]
    | some v =>
      rcases areaFor_cases ha with ⟨hv, -⟩ | ⟨d, l1, w, l2, rfl, hg, -, -⟩
      · obtain ⟨hmem, hhas⟩ := areaOf_some hv
        exact absurd hhas (h v hmem).1
      · exact absurd (beside_of_grows hg) ((h w (by simp)).2 d)

/-- The effect of a fault for a page that is not present, outside of the self reference: it is served in an area, or
there is no area for it and the process ends. -/
theorem not_present_effect (y : Sys) (p : Nat) (proc : Proc) (hp : y.procs[p]? = some proc) (env : Cow.Env)
    (a err : Word) (herr : err &&& pfErrorCodeP = 0) (hw : WellFormed (· ≠ selfRefEntry) y.mach (· = proc.pml4))
    (hself : SelfRef y.mach proc.pml4) (hslot : indexPml4e a ≠ selfRefEntry) (hl : Valid (areasFor y proc a))
    (hends : AwayFromEnds (areasFor y proc a)) (hfree : missing y.mach.mem proc.pml4 a + 1 ≤ freeCount y.mach.pages) :
    (∀ y', pageFaultHandler y p env a err = some (y', .value 0) → Provided y p proc a y') ∧
      ((∀ v ∈ areasFor y proc a, ¬ Has v a ∧ ∀ d, ¬ Beside v a d) →
        pageFaultHandler y p env a err = some (y, .exit)) := by
  constructor
  · intro y' hy'
    cases harea : areaFor env (areasFor y proc a) a with
    | mk node l =>
      rw [pageFaultHandler_notPresent hp herr harea] at hy'
      cases node with
      | none =>
        cases hy'
      | some v =>
        obtain ⟨hmem, hhas, hlist⟩ := areaFor_has hl hends harea
        obtain ⟨s, z, hs, hn⟩ := pageNotPresent_maps hw hself hslot hfree v
        rw [hs] at hy'
        cases hy'
        exact ⟨s, l, v, z, rfl, hmem, hhas, hn.wasFree, hn.here, hn.elsewhere, hlist⟩
  · intro hnone
    rw [pageFaultHandler_notPresent hp herr (areaFor_eq_none hnone)]
    show some (afterFault y p proc a y.mach (areasFor y proc a), Ret.exit) = _
    rw [afterFault_self hp]

def growingProcess : Sys := { oneProcess with procs := [⟨0x1000, [⟨0x400000, 0x401000, 6, mapGrowsDown, -1⟩]⟩] }

theorem not_present_effect_grows : ∃ y', pageFaultHandler growingProcess 0 quietEnv 0x3ffff0 6 = some (y', .value 0) ∧
    y'.procs.map (·.mmap) = [[⟨0x3ff000, 0x401000, 6, mapGrowsDown, -1⟩]] ∧
    Provided growingProcess 0 ⟨0x1000, [⟨0x400000, 0x401000, 6, mapGrowsDown, -1⟩]⟩ 0x3ffff0 y' := by
  obtain ⟨⟨y', ret⟩, hy', rfl, hareas⟩ : ∃ x ∈ pageFaultHandler growingProcess 0 quietEnv 0x3ffff0 6, x.2 = .value 0 ∧
      x.1.procs.map (·.mmap) = [[⟨0x3ff000, 0x401000, 6, mapGrowsDown, -1⟩]] := by decide +kernel
  refine ⟨y', hy', hareas, ?_⟩
  exact (not_present_effect growingProcess 0 _ rfl quietEnv 0x3ffff0 6 (by decide) wellFormed_oneProcess
    selfRef_oneProcess (by decide) ⟨by decide, by decide⟩ (by unfold AwayFromEnds; decide) (by decide +kernel)).1 y' hy'

/-- The tables that a fault adds can be seen in the slot of the self reference: a page there that was not mapped now
leads to the new page table. -/
theorem not_present_shows_tables : ¬ ∀ (y : Sys) (p : Nat) (proc : Proc), y.procs[p]? = some proc → ∀ (env : Cow.Env)
    (a err : Word), err &&& pfErrorCodeP = 0 → WellFormed (· ≠ selfRefEntry) y.mach (· = proc.pml4) →
    SelfRef y.mach proc.pml4 → Valid (areasFor y proc a) → AwayFromEnds (areasFor y proc a) →
    missing y.mach.mem proc.pml4 a + 1 ≤ freeCount y.mach.pages →
    ∀ y', pageFaultHandler y p env a err = some (y', .value 0) → ∀ b, ¬ SamePage b a →
      hardwareWalk y'.mach proc.pml4 b = hardwareWalk y.mach proc.pml4 b := by
  intro h
  obtain ⟨⟨y', ret⟩, hy', rfl, hne⟩ : ∃ x ∈ pageFaultHandler oneProcess 0 quietEnv 0x400010 6, x.2 = .value 0 ∧
      hardwareWalk x.1.mach 0x1000 0xffff800000002000 ≠ hardwareWalk oneProcess.mach 0x1000 0xffff800000002000 := by
    decide +kernel
  refine hne (h oneProcess 0 _ rfl quietEnv 0x400010 6 (by decide) wellFormed_oneProcess selfRef_oneProcess
    ⟨by decide, by decide⟩ (by unfold AwayFromEnds; decide) (by decide +kernel) y' hy' 0xffff800000002000 fun hsame =>
      ?_)
  have hbit := hsame 47 (by decide) (by decide)
  revert hbit
  decide

/-! ### Faults of user code in areas of the kernel -/

open Option

/-- The page tables, the free list and the reference counts are as before. -/
structure Untouched (s s' : Mach) : Prop where
  mem : s'.mem = s.mem
  free : s'.pages.physFreeList = s.pages.physFreeList
  counts : ∀ q, refcount s'.pages q = refcount s.pages q

/-- The handler ends the process and leaves everything as it was. -/
def Refused (s : Mach) (r : Option (Mach × Ret)) : Prop := ∃ s', r = some (s', .exit) ∧ Untouched s s'

/-- The address leads to a page that is not to be copied on write. -/
def NotCow (s : Mach) (cr3 : Nat) (a : Word) : Prop :=
  ∃ phys perm d, virt2physSelfref s cr3 a = some (phys, perm) ∧ getPhysPageDesc s.pages phys.toNat = some d ∧
    d.flag &&& pageCow = 0

variable {s s' : Mach} {cr3 : Nat} {env : Cow.Env} {v : VmArea} {a err phys : Word} {ret : Ret}

private theorem Untouched.refl (s : Mach) : Untouched s s := ⟨rfl, rfl, fun _ => rfl⟩

private theorem refused_exit : Refused s (some (s, .exit)) := ⟨s, rfl, .refl s⟩

private theorem not_refused_none : ¬ Refused s none := by
  rintro ⟨_, h, -⟩
  cases h

private theorem not_refused_value : ¬ Refused s (some (s', .value r)) := by
  rintro ⟨_, h, -⟩
  cases h

private theorem refused_pageNotPresent : Refused s (pageNotPresent s cr3 (some v) a) ↔ freeCount s.pages = 0 := by
  rcases freeCount_allocPhysPages s.pages with ⟨h0, he⟩ | hsum
  · refine iff_of_true ?_ h0
    rw [pageNotPresent, Mach.allocPage, he]
    exact refused_exit
  · refine iff_of_false ?_ (by omega)
    rw [pageNotPresent, Mach.allocPage]
    dsimp only
    split
    · rintro ⟨s', h, hsame⟩
      cases h
      have hfree := hsame.free
      rw [freeCount, hfree, freeCount] at hsum
      omega
    · cases updateCurrPageTable { s with pages := (allocPhysPages s.pages 1).1 } cr3
        (BitVec.ofNat 64 (allocPhysPages s.pages 1).2) (pageStart a) v.vmPageProt with
      | none => exact not_refused_none
      | some x => exact not_refused_value

private theorem updateCurrPageTable_ret {virt perm : Word}
    (h : updateCurrPageTable s cr3 phys virt perm = some (s', r)) : r ≠ 1 := by
  obtain ⟨⟨s1, ok1⟩, -, h⟩ := bind_eq_some_iff.1 h
  cases ok1 with
  | false =>
    cases h
    decide
  | true =>
  obtain ⟨⟨s2, ok2⟩, -, h⟩ := bind_eq_some_iff.1 h
  cases ok2 with
  | false =>
    cases h
    decide
  | true =>
  obtain ⟨⟨s3, ok3⟩, -, h⟩ := bind_eq_some_iff.1 h
  cases ok3 with
  | false =>
    cases h
    decide
  | true =>
  obtain ⟨e, -, h⟩ := bind_eq_some_iff.1 h
  split at h
  · split at h
    · cases h
      decide
    · obtain ⟨_, -, h⟩ := map_eq_some_iff.1 h
      cases h
      decide
  · obtain ⟨_, -, h⟩ := map_eq_some_iff.1 h
    cases h
    decide

private theorem checkPageProt_ret (h : checkPageProt s cr3 env v a = some (s', r)) : r ≠ 1 := by
  obtain ⟨⟨_, perm⟩, -, h⟩ := bind_eq_some_iff.1 h
  dsimp only at h
  split at h
  · cases h
    decide
  · exact updateCurrPageTable_ret h

private theorem refcount_less {d : PhysPage} (hd : getPhysPageDesc s.pages phys.toNat = some d) :
    refcount (updateDesc s.pages phys.toNat fun d => { d with refcount := d.refcount - 1 }) (pageAlign phys.toNat) ≠
      refcount s.pages (pageAlign phys.toNat) := by
  have hal : pageAlign phys.toNat % PhysPages.sizeofPage = 0 := by
    unfold pageAlign PhysPages.sizeofPage
    omega
  have hsame : updateDesc s.pages phys.toNat (fun d => { d with refcount := d.refcount - 1 }) =
      updateDesc s.pages (pageAlign phys.toNat) fun d => { d with refcount := d.refcount - 1 } := by
    unfold updateDesc
    rw [pageAlign_eq hal]
  have hdesc : desc s.pages (pageAlign phys.toNat) = some d := hd
  unfold refcount
  rw [hsame, desc_updateDesc hal hal, if_pos rfl, hdesc]
  intro h
  have heq : d.refcount - 1 = d.refcount := some.inj h
  bv_omega

private theorem copyShared_exit {d : PhysPage} (hd : getPhysPageDesc s.pages phys.toNat = some d)
    (h : copyShared s cr3 v a phys = some (s', .exit)) : ¬ Untouched s s' := by
  intro hsame
  have hcounts := hsame.counts (pageAlign phys.toNat)
  unfold copyShared at h
  dsimp only at h
  split at h
  · rename_i hnone
    cases h
    refine refcount_less hd (Eq.trans ?_ hcounts)
    -- an allocation that fails changes no count
    generalize updateDesc s.pages phys.toNat (fun d => { d with refcount := d.refcount - 1 }) = p at hnone ⊢
    unfold Mach.allocPage allocPhysPages at hnone ⊢
    rw [if_neg (by decide)] at hnone ⊢
    cases ht : takeRun 1 p.physFreeList with
    | none => rfl
    | some x =>
      rw [ht] at hnone
      dsimp only at hnone ⊢
      split at hnone
      · rename_i h0
        rw [if_pos h0]
        rfl
      · contradiction
  · obtain ⟨src, -, h⟩ := bind_eq_some_iff.1 h
    obtain ⟨_, -, h⟩ := map_eq_some_iff.1 h
    cases h

private theorem cow_cases (h : cow s cr3 env v a = some (s', ret)) :
    NotCow s cr3 a ∧ s' = s ∧ ret = .value 1 ∨ ¬ NotCow s cr3 a ∧ ret ≠ .value 1 ∧
      (ret = .exit → ¬ Untouched s s') := by
  obtain ⟨⟨phys, perm⟩, hphys, h⟩ := bind_eq_some_iff.1 h
  dsimp only at h
  -- what the address leads to decides whether the page is one to be copied
  have hiff : ∀ d, getPhysPageDesc s.pages phys.toNat = some d → (NotCow s cr3 a ↔ d.flag &&& pageCow = 0) := by
    intro d hd
    constructor
    · rintro ⟨phys', perm', d', hphys', hd', hflag⟩
      cases hphys.symm.trans hphys'
      cases hd.symm.trans hd'
      exact hflag
    · exact fun hflag => ⟨phys, perm, d, hphys, hd, hflag⟩
  cases hd : getPhysPageDesc s.pages phys.toNat with
  | none =>
    rw [hd] at h
    cases h
    refine .inr ⟨?_, by decide, nofun⟩
    rintro ⟨phys', perm', d', hphys', hd', -⟩
    cases hphys.symm.trans hphys'
    rw [hd] at hd'
    cases hd'
  | some d =>
    rw [hd] at h
    dsimp only at h
    rw [hiff d hd]
    split at h
    · rename_i hflag
      cases h
      exact .inl ⟨hflag, rfl, rfl⟩
    · rename_i hflag
      refine .inr ⟨hflag, ?_⟩
      split at h
      · obtain ⟨⟨s1, r⟩, hprot, h⟩ := map_eq_some_iff.1 h
        cases h
        exact ⟨fun heq => checkPageProt_ret hprot (Ret.value.inj heq), nofun⟩
      · split at h
        · cases h
          exact ⟨by decide, nofun⟩
        · refine ⟨?_, ?_⟩
          · rintro rfl
            unfold copyShared at h
            dsimp only at h
            split at h
            · cases h
            · obtain ⟨src, -, h⟩ := bind_eq_some_iff.1 h
              obtain ⟨_, -, h⟩ := map_eq_some_iff.1 h
              cases h
          · rintro rfl
            exact copyShared_exit hd h

private theorem refused_pagePresentWrite (hpriv : checkPriv v err = false) :
      Refused s (pagePresentWrite s cr3 env (some v) a err) ↔
      v.vmPageProt &&& pageTransReadWrite = 0 ∨ NotCow s cr3 a := by
  unfold pagePresentWrite
  dsimp only
  by_cases hw : v.vmPageProt &&& pageTransReadWrite = 0
  · rw [if_pos hw]
    exact iff_of_true refused_exit (.inl hw)
  rw [if_neg hw, or_iff_right hw]
  cases hcow : cow s cr3 env v a with
  | none =>
    refine iff_of_false not_refused_none ?_
    rintro ⟨phys, perm, d, hphys, hd, hflag⟩
    unfold cow at hcow
    rw [hphys, bind_some] at hcow
    dsimp only at hcow
    rw [hd] at hcow
    dsimp only at hcow
    rw [if_pos hflag] at hcow
    cases hcow
  | some x =>
    obtain ⟨s', ret⟩ := x
    rw [bind_some]
    rcases cow_cases hcow with ⟨hnot, rfl, rfl⟩ | ⟨hnot, hret, hexit⟩
    · rw [if_neg (by simp), hpriv]
      exact iff_of_true refused_exit hnot
    · rw [if_pos hret]
      refine iff_of_false ?_ hnot
      rintro ⟨s1, h, hsame⟩
      cases h
      exact hexit rfl hsame

/-- The handler ends the process, with the page tables, the free list and the reference counts as before. -/
def Terminates (y : Sys) (p : Nat) (env : Cow.Env) (a err : Word) : Prop :=
  ∃ y', pageFaultHandler y p env a err = some (y', .exit) ∧ Untouched y.mach y'.mach

private theorem terminates_iff {r : Option (Mach × Ret)} {f : Mach → Sys} (hf : ∀ s, (f s).mach = s)
    (h : pageFaultHandler y p env a err = r.map fun (s, ret) => (f s, ret)) :
    Terminates y p env a err ↔ Refused y.mach r := by
  unfold Terminates Refused
  rw [h]
  constructor
  · rintro ⟨y', hy, hsame⟩
    obtain ⟨⟨s, ret⟩, hr, heq⟩ := map_eq_some_iff.1 hy
    cases heq
    rw [hf] at hsame
    exact ⟨s, hr, hsame⟩
  · rintro ⟨s, rfl, hsame⟩
    refine ⟨f s, rfl, ?_⟩
    rw [hf]
    exact hsame

/-- When a user fault in an area of the kernel ends the process and changes nothing. -/
theorem user_fault_terminates_iff (y : Sys) (p : Nat) (proc : Proc) (hp : y.procs[p]? = some proc) (env : Cow.Env)
    (a err : Word) (v : VmArea) (hv : areaOf (areasFor y proc a) a = some v) (hu : err &&& pfErrorCodeU ≠ 0)
    (hk : v.vmPageProt &&& pageTransUserSupervisor = 0) :
    Terminates y p env a err ↔ if err &&& pfErrorCodeP = 0 then freeCount y.mach.pages = 0
      else err &&& pfErrorCodeW = 0 ∨ v.vmPageProt &&& pageTransReadWrite = 0 ∨ NotCow y.mach proc.pml4 a := by
  have hpriv : checkPriv v err = false := by
    rw [checkPriv, decide_eq_true hu, decide_eq_true hk]
    rfl
  by_cases hpresent : err &&& pfErrorCodeP = 0
  · -- the area is found, so that none is grown
    have harea : areaFor env _ a = _ := areaFor_of_areaOf hv
    have hrefused : Refused y.mach (pageNotPresent y.mach proc.pml4 (some v) a) ↔ freeCount y.mach.pages = 0 :=
      refused_pageNotPresent
    rw [if_pos hpresent, ← hrefused]
    exact terminates_iff (fun s => afterFault_mach) (pageFaultHandler_notPresent hp hpresent harea)
  · rw [if_neg hpresent]
    have hhandler : pageFaultHandler y p env a err =
        (if err &&& pfErrorCodeW ≠ 0 then pagePresentWrite y.mach proc.pml4 env (some v) a err
          else pagePresentRead y.mach proc.pml4 env (some v) a err).map fun (s, ret) =>
            ({ y with mach := s }, ret) := by
      unfold pageFaultHandler
      rw [hp, bind_some]
      rw [if_pos hpresent, searchVma_areaOf]
      unfold areasFor at hv
      rw [hv]
    rw [terminates_iff (f := fun s => { y with mach := s }) (fun _ => rfl) hhandler]
    by_cases hw : err &&& pfErrorCodeW = 0
    · rw [if_neg (by simpa using hw)]
      refine iff_of_true ?_ (.inl hw)
      rw [pagePresentRead, hpriv]
      exact refused_exit
    · rw [if_pos hw, or_iff_right hw]
      exact refused_pagePresentWrite hpriv

def besideKernel : Sys := { oneProcess with kernelMmap := [⟨0xffffffff80000000, 0xffffffff90000000, 2, 0, -1⟩] }

theorem user_fault_terminates_read : Terminates besideKernel 0 ⟨⟨true, ⟨0, 0, 0, 0, 0⟩⟩, 0⟩ 0xffffffff80000010 5 :=
  (user_fault_terminates_iff besideKernel 0 _ rfl _ _ 5 ⟨0xffffffff80000000, 0xffffffff90000000, 2, 0, -1⟩ (by decide)
    (by decide) (by decide)).2 (.inl (by decide))

/-- A user access to a page of the kernel that is not present provides the page. -/
theorem user_fault_served :
    ¬ ∀ (y : Sys) (p : Nat) (proc : Proc), y.procs[p]? = some proc → ∀ (env : Cow.Env) (a err : Word)
    (v : VmArea), areaOf (areasFor y proc a) a = some v → err &&& pfErrorCodeU ≠ 0 →
    v.vmPageProt &&& pageTransUserSupervisor = 0 → Terminates y p env a err := by
  intro h
  obtain ⟨y', hy, -⟩ := h besideKernel 0 _ rfl ⟨⟨true, ⟨0, 0, 0, 0, 0⟩⟩, 0⟩ 0xffffffff80000010 4
    ⟨0xffffffff80000000, 0xffffffff90000000, 2, 0, -1⟩ (by decide) (by decide) (by decide)
  have hserved : (pageFaultHandler besideKernel 0 ⟨⟨true, ⟨0, 0, 0, 0, 0⟩⟩, 0⟩ 0xffffffff80000010 4).map (·.2) =
      some (.value 0) := by decide +kernel
  rw [hy] at hserved
  cases hserved

end Adix.Space
