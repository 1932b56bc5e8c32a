import Adix.Space.Protect
import Adix.Space.Twins

/-!
# What a new page contains

`page_not_present` maps the first page of the free list as it is. So the first bytes that a process reads from a new
page are what the last owner of the frame left there.
-/

namespace Adix.Space

open PageTable PhysPages Cow Fork List Option BitVec

variable {y v : Sys} {s s' m : Mach} {p r q k : Nat} {proc : Proc} {a b err e : Word} {node : Vma.VmArea}
  {c c' : Index → Word} {es : List Event} {env : Cow.Env} {j : Index}

def firstFree (s : Mach) : Nat := (s.pages.physFreeList.head?.map (·.addr)).getD 0

/-- The area in which the handler finds the address, possibly after it has grown. -/
def areaAt (y : Sys) (proc : Proc) (env : Cow.Env) (addr : Word) : Option Vma.VmArea :=
  (areaFor env (if y.startKernel ≤ addr then y.kernelMmap else proc.mmap) addr).1

private theorem allocPage_firstFree (hl : Listed s.pages) (hc : 0 < freeCount s.pages) :
    s.allocPage.2 = firstFree s := by
  obtain ⟨s', z, halloc, ht, -⟩ := allocPage_spec hl hc
  have hz := ht.allocated.ne_zero
  rw [halloc]
  unfold Mach.allocPage allocPhysPages at halloc
  unfold firstFree
  cases hlist : s.pages.physFreeList with
  | nil =>
    rw [hlist] at halloc
    exact absurd (Prod.mk.inj halloc).2.symm hz
  | cons run rest =>
    have hpos : 0 < run.count := hl.apart.nonempty run (by rw [hlist]; exact mem_cons_self ..)
    rw [hlist, if_neg one_ne_zero, takeRun, if_neg (by omega)] at halloc
    by_cases hone : 1 = run.count
    · rw [if_pos hone] at halloc
      dsimp only at halloc
      split at halloc
      · exact absurd (Prod.mk.inj halloc).2.symm hz
      · exact (Prod.mk.inj halloc).2.symm
    · rw [if_neg hone] at halloc
      dsimp only at halloc
      split at halloc
      · exact absurd (Prod.mk.inj halloc).2.symm hz
      · exact (Prod.mk.inj halloc).2.symm

private theorem eq_of_getByte {w w' : Word} (h : ∀ k, k < 8 → getByte w k = getByte w' k) : w = w' := by
  apply eq_of_getLsbD_eq
  intro i hi
  have hbyte := congrArg (fun x => x.getLsbD (i % 8)) (h (i / 8) (by omega))
  simp only [getByte, getLsbD_extractLsb', Nat.mod_lt i (by decide : 0 < 8), decide_true, Bool.true_and,
    Nat.div_add_mod] at hbyte
  exact hbyte

private def byteAddr (a : Word) (j : Index) (k : Nat) : Word := pageStart a + BitVec.ofNat 64 (8 * j.toNat + k)

private theorem toNat_byteAddr (hk : k < 8) : (byteAddr a j k).toNat = 4096 * (a.toNat / 4096) + 8 * j.toNat + k := by
  have hstart : (pageStart a).toNat = 4096 * (a.toNat / 4096) := Vma.Unmap.toNat_and_mask a
  unfold byteAddr
  rw [BitVec.toNat_add, toNat_ofNat, hstart]
  omega

private theorem byteAddr_spec (hk : k < 8) :
    SamePage (byteAddr a j k) a ∧ indexWord (byteAddr a j k) = j ∧ (byteAddr a j k).toNat % 8 = k := by
  have hn := toNat_byteAddr (a := a) (j := j) hk
  refine ⟨fun i h1 h2 => ?_, ?_, by omega⟩
  · have hbit : ∀ x : Word, x.getLsbD i = (x.toNat / 4096).testBit (i - 12) := by
      intro x
      rw [show (4096 : Nat) = 2 ^ 12 from rfl, Nat.testBit_div_two_pow, Nat.sub_add_cancel h1]
      rfl
    have hdiv : (byteAddr a j k).toNat / 4096 = a.toNat / 4096 := by omega
    rw [hbit, hbit, hdiv]
  · apply eq_of_toNat_eq
    unfold indexWord
    rw [toNat_setWidth, toNat_ushiftRight, Nat.shiftRight_eq_div_pow]
    omega

private theorem eq_of_bytes
    (h : ∀ b, SamePage b a → getByte (c (indexWord b)) (b.toNat % 8) = getByte (c' (indexWord b)) (b.toNat % 8)) :
    c = c' := by
  funext j
  apply eq_of_getByte
  intro k hk
  obtain ⟨hsame, hindex, hmod⟩ := byteAddr_spec (a := a) (j := j) hk
  have hbyte := h _ hsame
  rw [hindex, hmod] at hbyte
  exact hbyte

section Reads

variable (hg : Good y.mach (roots y)) (hp : y.procs[p]? = some proc)
include hg hp

/-- The first bytes that a process reads from a new page are those of the page that was handed out next. -/
theorem first_read (ha : Allowed y (.fault p a err env)) (hP : err &&& pfErrorCodeP = 0)
    (hnode : areaAt y proc env a = some node) :
    ∃ v, step y (.memory (.fault p a err env)) = some v ∧ ∀ b, SamePage b a → userRead v.mach proc.pml4 b =
      if userBit node.vmPageProt then some (getByte (y.mach.mem (firstFree y.mach) (indexWord b)) (b.toNat % 8))
        else none := by
  obtain ⟨v, hv, hadv⟩ := fault_spec hg ha
  refine ⟨v, hv, fun b hb => ?_⟩
  obtain ⟨hslot, proc', hp', -, -, hfree⟩ := ha
  cases hp.symm.trans hp'
  have hr := roots_getElem hp
  have hmissing := hfree hP
  obtain ⟨s', e, u, hs', he, halloc, hmem, huser, hnew⟩ := pageNotPresent_new hg hr hslot hmissing node
  have hfirst : entryFormat.next e = firstFree y.mach := by
    rw [← allocPage_firstFree hg.wf.listed (by omega), halloc]
  -- the handler leaves the machine that `page_not_present` gives
  have hv' : v.mach = s' ∧ roots v = roots y := by
    have hP' : ¬ (err &&& pfErrorCodeP ≠ 0) := fun hne => hne hP
    unfold Cow.step Cow.pageFaultHandler at hv
    unfold areaAt at hnode
    dsimp only at hv
    rw [hp, bind_some, if_neg hP', hnode, hs', map_some, bind_some] at hv
    cases hv
    split
    · exact ⟨rfl, rfl⟩
    · exact ⟨rfl, roots_set hp _⟩
  have hgood := hadv.good
  rw [hv'.1, hv'.2] at hgood
  have hslot' : UserSlot (indexPml4e b) := by
    rw [show indexPml4e b = indexPml4e a from congrArg Place.pml4e (placeOf_eq_iff.2 hb)]
    exact hslot
  have hframe : entryFormat.next e < 2 ^ 51 := (hgood.frame _ (.of_map (map_of_leaf hr hslot he))).1
  unfold userRead
  rw [hv'.1, hardwareLeaf_eq hgood (mem_of_getElem? hr) hslot', leaf_samePage hb, he, bind_some, huser,
    hardware_next hframe, hnew.data, hmem, hfirst]

private theorem allowed_alike (h : Alike (roots y) y.mach m) (ha : Allowed y (.fault p a err env)) :
    Allowed { y with mach := m } (.fault p a err env) := by
  obtain ⟨v, n, hv, -⟩ := pageFaultHandler_spec hg hp ha
  obtain ⟨w, hw, -⟩ := pageFaultHandler_alike hg h ha hv
  obtain ⟨hslot, proc', hp', hraised, -, hfree⟩ := ha
  have hmem := mem_of_getElem? (roots_getElem hp')
  refine ⟨hslot, proc', hp', ?_, fun y' hy' => ?_, fun hP => ?_⟩
  · rw [hardwareLeaf_eq hg hmem hslot] at hraised
    rw [hardwareLeaf_eq (h.good hg) hmem hslot, h.leaf_eq hmem hslot]
    exact hraised
  · rw [hw] at hy'
    cases (Prod.mk.inj (some.inj hy')).2
  · show missing m.mem proc'.pml4 a + 1 ≤ freeCount m.pages
    rw [h.missing_eq hmem hslot, h.pages_eq]
    exact hfree hP

end Reads

/-- Two runs from one state differ in bytes that other processes write. When a fault then gives the process a page it
may read, it reads the same bytes in both exactly when the page that was handed out had the same contents. -/
theorem leftover_unseen_iff (y₀ : Sys) (h₀ : Good y₀.mach (roots y₀)) (p : Nat) (es es' : List Event)
    (hsame : List.Forall₂ (SameBut p) es es') (hes : Permitted step Orderly y₀ es)
    (hes' : Permitted step Orderly y₀ es') :
    ∃ y y', run step y₀ es = some y ∧ run step y₀ es' = some y' ∧ ∀ (proc : Proc) (a err : Word) (env : Cow.Env)
      (node : Vma.VmArea), y.procs[p]? = some proc → Allowed y (.fault p a err env) → err &&& pfErrorCodeP = 0 →
      areaAt y proc env a = some node → userBit node.vmPageProt = true →
      ∃ z z', step y (.memory (.fault p a err env)) = some z ∧ step y' (.memory (.fault p a err env)) = some z' ∧
        ((∀ b, SamePage b a → userRead z.mach proc.pml4 b = userRead z'.mach proc.pml4 b) ↔
          y.mach.mem (firstFree y.mach) = y'.mach.mem (firstFree y.mach)) := by
  obtain ⟨y, m, hy, hy', hg, halike⟩ := run_alike h₀ ⟨rfl, rfl, fun _ _ => rfl⟩ hsame hes hes'
  refine ⟨y, _, hy, hy', fun proc a err env node hp ha hP hnode huser => ?_⟩
  obtain ⟨z, hz, hread⟩ := first_read hg hp ha hP hnode
  obtain ⟨z', hz', hread'⟩ :=
    first_read (y := { y with mach := m }) (halike.good hg) hp (allowed_alike hg hp halike ha) hP hnode
  refine ⟨z, z', hz, hz', ?_⟩
  have hfirst : firstFree m = firstFree y.mach := by
    unfold firstFree
    rw [halike.pages_eq]
  simp only [huser, if_true, hfirst] at hread hread'
  constructor
  · intro h
    refine eq_of_bytes (a := a) fun b hb => ?_
    have hb' := h b hb
    rw [hread b hb, hread' b hb] at hb'
    exact some.inj hb'
  · intro h b hb
    rw [hread b hb, hread' b hb, h]

def tenPages : Chunk where
  physAddrStart := 0x1000
  physAddrEnd := 0xb000
  physPagePointer := [⟨1, 0⟩, ⟨1, 0⟩, ⟨0, 0⟩, ⟨0, 0⟩, ⟨0, 0⟩, ⟨0, 0⟩, ⟨0, 0⟩, ⟨0, 0⟩, ⟨0, 0⟩, ⟨0, 0⟩]
  aligned := page_aligned
  length := by simp [sizeofPage]
  nonempty := by decide
  fits := by simp [addrSpace]

def twoProcesses : Sys where
  mach := ⟨fun q j => if (q = 0x1000 ∨ q = 0x2000) ∧ j = selfRefEntry then BitVec.ofNat 64 (q + 3) else 0,
    boot [tenPages], 0⟩
  procs := [⟨0x1000, []⟩, ⟨0x2000, []⟩]
  kernelMmap := []
  startKernel := 0xffffffff80000000

private theorem inv_twoProcesses : Inv twoProcesses.mach.pages :=
  boot_inv (pairwise_singleton _ _) (by decide) (by decide)

private theorem root_twoProcesses (hr : r ∈ roots twoProcesses) : r = 0x1000 ∨ r = 0x2000 := by
  simpa [roots, twoProcesses] using hr

private theorem start_twoProcesses : Start twoProcesses := by
  have hfree : ∀ q, Free twoProcesses.mach q → q % 4096 = 0 ∧ 0x1000 ≤ q ∧ q < 0xb000 := by
    intro q hq
    obtain ⟨ha, hc⟩ := (inv_twoProcesses.covers q).1 hq
    obtain ⟨c, hc, hcov⟩ := refcount_some hc
    obtain rfl : c = tenPages := mem_singleton.1 hc
    rw [Chunk.covers_iff] at hcov
    exact ⟨ha, hcov⟩
  have hempty : ∀ r ∈ roots twoProcesses, ∀ i, i ≠ selfRefEntry → twoProcesses.mach.mem r i = 0 :=
    fun r _ i hi => if_neg fun h => hi h.2
  refine start_empty inv_twoProcesses ?_ (by decide) ?_ ?_ hempty
  · refine wellFormed_empties hempty ?_ ?_ inv_twoProcesses.listed ?_
    · intro r hr
      have hused : ¬ Free twoProcesses.mach r := by
        intro hq
        have h0 := ((inv_twoProcesses.covers _).1 hq).2
        rcases root_twoProcesses hr with rfl | rfl
        · exact absurd h0 (by decide +kernel)
        · exact absurd h0 (by decide +kernel)
      rcases root_twoProcesses hr with rfl | rfl
      · exact ⟨⟨rfl, by decide⟩, by decide, hused⟩
      · exact ⟨⟨rfl, by decide⟩, by decide, hused⟩
    · intro q hq
      have := hfree q hq
      exact ⟨this.1, by omega⟩
    · intro q hq
      have := hfree q hq
      show q + 0 < 2 ^ 64
      omega
  · intro r hr
    show hardwareFormat.link (twoProcesses.mach.mem r selfRefEntry) = some r
    rcases root_twoProcesses hr with rfl | rfl
    · decide +kernel
    · decide +kernel
  · intro r hr
    rcases root_twoProcesses hr with rfl | rfl
    · exact ⟨⟨1, 0⟩, by decide +kernel⟩
    · exact ⟨⟨1, 0⟩, by decide +kernel⟩

def orderlyNow (y : Sys) : Event → Bool
  | .mmap p _ _ _ _ _ => y.procs[p]?.isSome
  | .malloc p _ _ => y.procs[p]?.isSome
  | .munmap _ _ _ => false
  | .memory e => allowedNow y e

private theorem orderly_of_now {e : Event} (h : orderlyNow y e = true) : Orderly y e := by
  cases e with
  | mmap p => exact isSome_iff_exists.1 h
  | malloc p => exact isSome_iff_exists.1 h
  | munmap p => cases h
  | memory e => exact allowed_of_now h

private theorem permitted_of_orderlyNow (h : (checkedRun step (fun y e => orderlyNow y e = true) y es).isSome) :
    Permitted step Orderly y es := by
  obtain ⟨v, hv⟩ := isSome_iff_exists.1 h
  exact (permitted_of_checkedRun hv).1.mono fun _ _ => orderly_of_now

private theorem returnable_of_base (h0 : desc s.pages 0 = none) (hb : s.base = 0) : Returnable s r := by
  intro a e _ _
  refine ⟨fun _ => h0, ?_⟩
  rw [hb]
  exact (entryAddr e).isLt

def ownPage (b : BitVec 8) : List Event :=
  [.mmap 1 0x1000 0x1000 2 0 quietEnv.toEnv, .memory (.fault 1 0x1000 6 quietEnv), .memory (.write 1 0x1000 b)]

def nextOwner : List Event := [.mmap 0 0x1000 0x1000 2 0 quietEnv.toEnv]

def changesHands (b : BitVec 8) : List Event := ownPage b ++ .munmap 1 0x1000 (fun _ => true) :: nextOwner

def firstTouch : Event := .memory (.fault 0 0x1000 6 quietEnv)

private theorem sameBut_ownPage (b b' : BitVec 8) (es : List Event) :
    List.Forall₂ (SameBut 0) (ownPage b ++ es) (ownPage b' ++ es) := by
  have hrest : List.Forall₂ (SameBut 0) es es := by
    induction es with
    | nil => exact .nil
    | cons e es ih => exact .cons (.same e) ih
  exact .cons (.same _) (.cons (.same _) (.cons (.write (by decide) _ _ _) hrest))

private theorem of_run {P : Sys → Prop} [DecidablePred P]
    (h : (run step twoProcesses es).all (fun y => decide (P y)) = true) (hy : run step twoProcesses es = some y) :
    P y := by
  rw [hy] at h
  exact of_decide_eq_true h

private def touchable (y : Sys) : Bool :=
  allowedNow y (.fault 0 0x1000 6 quietEnv) && y.procs[0]?.any fun proc => decide (proc.pml4 = 0x1000) &&
    (areaAt y proc quietEnv 0x1000).any fun node => userBit node.vmPageProt

private theorem touchable_spec (h : touchable y = true) : Allowed y (.fault 0 0x1000 6 quietEnv) ∧ ∃ proc node,
    y.procs[0]? = some proc ∧ proc.pml4 = 0x1000 ∧ areaAt y proc quietEnv 0x1000 = some node ∧
      userBit node.vmPageProt = true := by
  obtain ⟨ha, hrest⟩ := Bool.and_eq_true_iff.1 h
  obtain ⟨proc, hp, hrest⟩ := (Option.any_eq_true _ _).1 hrest
  obtain ⟨hr, hrest⟩ := Bool.and_eq_true_iff.1 hrest
  obtain ⟨node, hnode, huser⟩ := (Option.any_eq_true _ _).1 hrest
  exact ⟨allowed_of_now ha, proc, node, hp, of_decide_eq_true hr, hnode, huser⟩

theorem leftover_unseen_kept : ∃ y y' z z', run step twoProcesses (ownPage 7 ++ nextOwner) = some y ∧
    run step twoProcesses (ownPage 9 ++ nextOwner) = some y' ∧ step y firstTouch = some z ∧
      step y' firstTouch = some z' ∧
    ∀ b, SamePage b 0x1000 → userRead z.mach 0x1000 b = userRead z'.mach 0x1000 b := by
  obtain ⟨y, y', hy, hy', hread⟩ := leftover_unseen_iff twoProcesses start_twoProcesses.good 0 (ownPage 7 ++ nextOwner)
    (ownPage 9 ++ nextOwner) (sameBut_ownPage 7 9 _) (permitted_of_orderlyNow (by decide +kernel))
    (permitted_of_orderlyNow (by decide +kernel))
  obtain ⟨hallowed, proc, node, hp, hr, hnode, huser⟩ := touchable_spec
    (of_run (P := fun y => touchable y = true) (by decide +kernel) hy)
  obtain ⟨z, z', hz, hz', hiff⟩ := hread proc 0x1000 6 quietEnv node hp hallowed (by decide) hnode huser
  rw [hr] at hiff
  refine ⟨y, y', z, z', hy, hy', hz, hz', hiff.2 ?_⟩
  -- the next page is untouched in both runs
  have hfirst := of_run (P := fun y => firstFree y.mach = 0x7000) (by decide +kernel) hy
  have hzero := of_run (P := fun y => (allIndices.all fun j => decide (y.mach.mem 0x7000 j = 0)) = true)
    (by decide +kernel) hy
  have hzero' := of_run (P := fun y => (allIndices.all fun j => decide (y.mach.mem 0x7000 j = 0)) = true)
    (by decide +kernel) hy'
  funext j
  rw [hfirst, of_decide_eq_true (List.all_eq_true.1 hzero j (mem_allIndices j)),
    of_decide_eq_true (List.all_eq_true.1 hzero' j (mem_allIndices j))]

/-- The frame into which another process writes is free in the state `y`. -/
def WritesFreed (p : Nat) (y u : Sys) : Event → Prop
  | .memory (.write q a _) => q ≠ p → ∀ e ∈ entryOf u q a, Free y.mach (hardwareFormat.next e)
  | _ => True

private def returnsPage (y : Sys) : Bool :=
  decide (y.mach.base = 0) && (desc y.mach.pages 0).isNone && y.procs[1]?.any fun proc =>
    (Vma.munmap proc.mmap 0x1000).any fun r =>
      decide (r.1.vmStart ≤ 0x1000) && decide (0x1000 < r.1.vmEnd) && decide (r.1.vmEnd.toNat ≤ 2 ^ 47)

private theorem orderly_of_returnsPage (h : returnsPage y = true) : Orderly y (.munmap 1 0x1000 fun _ => true) := by
  obtain ⟨hmach, h⟩ := Bool.and_eq_true_iff.1 h
  obtain ⟨hbase, h0⟩ := Bool.and_eq_true_iff.1 hmach
  obtain ⟨proc, hp, h⟩ := (Option.any_eq_true _ _).1 h
  obtain ⟨⟨v, l⟩, hv, h⟩ := (Option.any_eq_true _ _).1 h
  obtain ⟨hhas, hlow⟩ := Bool.and_eq_true_iff.1 h
  obtain ⟨h1, h2⟩ := Bool.and_eq_true_iff.1 hhas
  exact ⟨fun _ => rfl, proc, v, l, hp, hv, ⟨of_decide_eq_true h1, of_decide_eq_true h2⟩, of_decide_eq_true hlow,
    returnable_of_base (isNone_iff_eq_none.1 h0) (of_decide_eq_true hbase)⟩

private theorem permitted_changesHands {b : BitVec 8} (hb : b = 7 ∨ b = 9) :
    Permitted step Orderly twoProcesses (changesHands b) := by
  have hown : (checkedRun step (fun y e => orderlyNow y e = true) twoProcesses (ownPage b)).isSome := by
    rcases hb with rfl | rfl
    · decide +kernel
    · decide +kernel
  refine (permitted_of_orderlyNow hown).append fun y hy =>
    ⟨orderly_of_returnsPage ?_, fun y' hy' => ⟨?_, fun _ _ => trivial⟩⟩
  · rcases hb with rfl | rfl
    · exact of_run (P := fun y => returnsPage y = true) (by decide +kernel) hy
    · exact of_run (P := fun y => returnsPage y = true) (by decide +kernel) hy
  · have hrun : run step twoProcesses (ownPage b ++ [.munmap 1 0x1000 fun _ => true]) = some y' := by
      rw [run_append, hy, bind_some, run, hy']
      rfl
    refine isSome_iff_exists.1 ?_
    rcases hb with rfl | rfl
    · exact of_run (P := fun y => y.procs[0]?.isSome = true) (by decide +kernel) hrun
    · exact of_run (P := fun y => y.procs[0]?.isSome = true) (by decide +kernel) hrun

private theorem writesFreed_changesHands (hy : run step twoProcesses (changesHands 7) = some y) :
    Permitted step (WritesFreed 0 y) twoProcesses (changesHands 7) := by
  have hfree : Free y.mach 0x3000 := by
    have hany := of_run
      (P := fun y => (y.mach.pages.physFreeList.any fun r => decide (r.addr = 0x3000) && decide (0 < r.count)) = true)
      (by decide +kernel) hy
    obtain ⟨r, hr, hrun⟩ := List.any_eq_true.1 hany
    obtain ⟨haddr, hcount⟩ := Bool.and_eq_true_iff.1 hrun
    exact ⟨r, hr, 0, of_decide_eq_true hcount, (of_decide_eq_true haddr).symm⟩
  refine ⟨trivial, fun u1 h1 => ⟨trivial, fun u2 h2 => ⟨fun _ e he => ?_,
    fun _ _ => ⟨trivial, fun _ _ => ⟨trivial, fun _ _ => trivial⟩⟩⟩⟩⟩
  have hrun : run step twoProcesses ((ownPage 7).take 2) = some u2 := by
    show (step twoProcesses _).bind (fun u => (step u _).bind some) = some u2
    rw [h1, bind_some, h2, bind_some]
  have hentry := of_run (P := fun u => (entryOf u 1 0x1000).all (fun e => decide (hardwareFormat.next e = 0x3000)) =
    true) (by decide +kernel) hrun
  rw [he] at hentry
  rw [show hardwareFormat.next e = 0x3000 from of_decide_eq_true hentry]
  exact hfree

/-- The process reads what the other one wrote into its page before it gave it back. -/
theorem leftover_seen : ¬ ∀ (y₀ : Sys), Good y₀.mach (roots y₀) → ∀ (p : Nat) (es es' : List Event),
    List.Forall₂ (SameBut p) es es' → Permitted step Orderly y₀ es → Permitted step Orderly y₀ es' →
    ∀ y y', run step y₀ es = some y → run step y₀ es' = some y' → Permitted step (WritesFreed p y) y₀ es →
    ∀ (proc : Proc) (a err : Word) (env : Cow.Env), y.procs[p]? = some proc → Allowed y (.fault p a err env) →
    err &&& pfErrorCodeP = 0 → ∀ z z', step y (.memory (.fault p a err env)) = some z →
    step y' (.memory (.fault p a err env)) = some z' →
    ∀ b, SamePage b a → userRead z.mach proc.pml4 b = userRead z'.mach proc.pml4 b := by
  intro h
  obtain ⟨y, hy⟩ : ∃ y, run step twoProcesses (changesHands 7) = some y := isSome_iff_exists.1 (by decide +kernel)
  obtain ⟨y', hy'⟩ : ∃ y, run step twoProcesses (changesHands 9) = some y := isSome_iff_exists.1 (by decide +kernel)
  obtain ⟨hallowed, proc, node, hp, hr, hnode, huser⟩ := touchable_spec
    (of_run (P := fun y => touchable y = true) (by decide +kernel) hy)
  -- what it reads in the two runs
  have htouch : ∀ {b c : BitVec 8} {y : Sys}, run step twoProcesses (changesHands b) = some y →
      ((run step twoProcesses (changesHands b ++ [firstTouch])).any fun z =>
        decide (userRead z.mach 0x1000 0x1000 = some c)) = true →
      ∃ z, step y firstTouch = some z ∧ userRead z.mach 0x1000 0x1000 = some c := by
    intro b c y hy hany
    obtain ⟨z, hz, hread⟩ := (Option.any_eq_true _ _).1 hany
    rw [run_append, hy, bind_some, run] at hz
    obtain ⟨z', hz', hrest⟩ := bind_eq_some_iff.1 hz
    obtain rfl := some.inj hrest
    exact ⟨z', hz', of_decide_eq_true hread⟩
  obtain ⟨z, hz, hread⟩ := htouch (c := 7) hy (by decide +kernel)
  obtain ⟨z', hz', hread'⟩ := htouch (c := 9) hy' (by decide +kernel)
  have hsame := h twoProcesses start_twoProcesses.good 0 _ _ (sameBut_ownPage 7 9 _) (permitted_changesHands (.inl rfl))
    (permitted_changesHands (.inr rfl)) y y' hy hy' (writesFreed_changesHands hy) proc 0x1000 6 quietEnv hp hallowed
    (by decide) z z' hz hz' 0x1000 fun _ _ _ => rfl
  rw [hr, hread, hread'] at hsame
  exact absurd hsame (by decide)

end Adix.Space
