import Adix.Cow.Run

/-!
# Cached translations

The processor uses leaf entries from a cache, the TLB. `update_curr_page_table` calls `invalidate_tlb` for its page,
and `sys_yield` empties the cache with `set_cr3`. `cow_fork_level` takes the write permission from the entries of the
parent and leaves the cache as it is.
-/

namespace Adix.Cow.Tlb

open PageTable PhysPages Fork List Option

/-- The system, the process that runs, and the leaf entries that the processor keeps for it. -/
structure Cpu where
  sys : Sys
  running : Nat
  tlb : List (Place × Word)

def invalidateTlb (tlb : List (Place × Word)) (x : Place) : List (Place × Word) := tlb.filter fun c => c.1 ≠ x

def fillTlb (tlb : List (Place × Word)) (x : Place) (e : Word) : List (Place × Word) := (x, e) :: invalidateTlb tlb x

/-- The leaf entry that the processor uses for an address: the one in the cache, or else the one in the page table. -/
def Cpu.translate (z : Cpu) (addr : Word) : Option Word :=
  match z.tlb.find? fun c => c.1 = placeOf addr with
  | some c => some c.2
  | none => z.sys.procs[z.running]?.bind fun proc => hardwareLeaf z.sys.mach.mem proc.pml4 addr

/-- What the running process does, or what is done to it: it reads or writes a byte, faults or forks, another process is
scheduled, or the cache drops an entry. -/
inductive Event where
  | read (addr : Word)
  | write (addr : Word) (b : BitVec 8)
  | fault (addr errCode : Word) (env : Env)
  | fork
  | schedule (p : Nat)
  | evict (x : Place)

def storeByte (s : Mach) (e addr : Word) (b : BitVec 8) : Mach :=
  { s with mem := fun q => if q = hardwareFormat.next e then setPageByte addr b (s.mem q) else s.mem q }

def step (z : Cpu) : Event → Option Cpu
  | .read addr => (z.translate addr).map fun e => { z with tlb := fillTlb z.tlb (placeOf addr) e }
  | .write addr b => (z.translate addr).bind fun e =>
      if userBit e && writeBit e then
        some { z with
          sys := { z.sys with mach := storeByte z.sys.mach e addr b }
          tlb := fillTlb z.tlb (placeOf addr) e }
      else none
  | .fault addr errCode env => (pageFaultHandler z.sys z.running env addr errCode).bind fun (y, ret) =>
      match ret with
      -- a handler that returns 0 has stored the entry, and invalidate_tlb was called
      | .value v => some { z with sys := y, tlb := if v = 0 then invalidateTlb z.tlb (placeOf addr) else z.tlb }
      | .exit => none
  | .fork => (forkProc z.sys z.running).map fun y => { z with sys := y }
  | .schedule p => if p < z.sys.procs.length then some { z with running := p, tlb := [] } else none
  | .evict x => some { z with tlb := invalidateTlb z.tlb x }

/-- The events of the runs considered, as for the machine without a cache; the processor lets accesses pass and raises
faults as the entry says that it uses. -/
def Allowed (z : Cpu) : Event → Prop
  | .read addr => UserSlot (indexPml4e addr) ∧ ∃ e, z.translate addr = some e
  | .write addr _ => UserSlot (indexPml4e addr) ∧ ∃ e, z.translate addr = some e ∧ userBit e = true ∧ writeBit e = true
  | .fault addr errCode env => UserSlot (indexPml4e addr) ∧ Raised errCode (z.translate addr) ∧
      (∀ y, pageFaultHandler z.sys z.running env addr errCode ≠ some (y, .exit)) ∧
      (errCode &&& pfErrorCodeP = 0 → ∀ proc, z.sys.procs[z.running]? = some proc →
        missing z.sys.mach.mem proc.pml4 addr + 1 ≤ freeCount z.sys.mach.pages)
  | .fork => Cow.Allowed z.sys (.fork z.running)
  | .schedule p => p < z.sys.procs.length
  | .evict _ => True

/-- When the process forks, no entry in the cache allows to write. -/
def ForksClean (z : Cpu) : Event → Prop
  | .fork => ∀ c ∈ z.tlb, writeBit c.2 = false
  | _ => True

def Safe (z : Cpu) : Prop :=
  ∀ c ∈ z.tlb, writeBit c.2 = true →
    ∀ d ∈ getPhysPageDesc z.sys.mach.pages (hardwareFormat.next c.2), d.refcount.toNat ≤ 1

def started (y : Sys) (p : Nat) : Cpu := ⟨y, p, []⟩

/-- The cache agrees with the table of the running process. -/
structure Coherent (z : Cpu) : Prop where
  good : Good z.sys.mach (roots z.sys)
  running : z.running < z.sys.procs.length
  cached : ∀ {x e r}, (x, e) ∈ z.tlb → (roots z.sys)[z.running]? = some r →
    UserSlot x.pml4e ∧ entryAt z.sys.mach.mem r x = some e

variable {z : Cpu} {y : Sys} {p r : Nat} {proc : Proc} {addr e err : Word} {x x' : Place} {b : BitVec 8} {env : Env}
  {ev : Event} {tlb : List (Place × Word)}

private theorem mem_invalidateTlb : (x', e) ∈ invalidateTlb tlb x ↔ (x', e) ∈ tlb ∧ x' ≠ x := by
  unfold invalidateTlb
  rw [mem_filter, decide_eq_true_iff]

private theorem coherent_empty (hg : Good y.mach (roots y)) (hp : p < y.procs.length) : Coherent (started y p) :=
  ⟨hg, hp, nofun⟩

namespace Coherent

variable (h : Coherent z)
include h

private theorem exists_proc : ∃ proc, z.sys.procs[z.running]? = some proc := ⟨_, List.getElem?_eq_getElem h.running⟩

/-- A coherent cache translates as the table does. -/
private theorem translate_eq (hp : z.sys.procs[z.running]? = some proc) (hv : UserSlot (indexPml4e addr)) :
    z.translate addr = leaf z.sys.mach.mem proc.pml4 addr := by
  have hr := roots_getElem hp
  unfold Cpu.translate
  cases hfind : z.tlb.find? fun c => c.1 = placeOf addr with
  | none =>
    rw [hp]
    exact hardwareLeaf_eq h.good (mem_of_getElem? hr) hv
  | some c =>
    obtain ⟨x, e⟩ := c
    have hx : x = placeOf addr := by simpa using find?_some hfind
    rw [hx] at hfind
    exact (h.cached (mem_of_find?_eq_some hfind) hr).2.symm

private theorem fill {s : Mach} (hp : z.sys.procs[z.running]? = some proc) (hv : UserSlot (indexPml4e addr))
    (he : leaf z.sys.mach.mem proc.pml4 addr = some e) (hk : Kept (roots z.sys) z.sys.mach s)
    (hg : Good s (roots z.sys)) :
    Coherent { z with
      sys := { z.sys with mach := s }
      tlb := fillTlb z.tlb (placeOf addr) e } := by
  have hr := roots_getElem hp
  refine ⟨hg, h.running, fun {x e' r} hc hr' => ?_⟩
  cases hr.symm.trans hr'
  have hslot : UserSlot x.pml4e ∧ entryAt z.sys.mach.mem proc.pml4 x = some e' := by
    rcases mem_cons.1 hc with hc | hc
    · cases hc
      exact ⟨hv, he⟩
    · exact h.cached (mem_invalidateTlb.1 hc).1 hr
  exact ⟨hslot.1, (hk.entryAt_eq (mem_of_getElem? hr) hslot.1).trans hslot.2⟩

private theorem safe : Safe z := by
  intro c hc hw d hd
  obtain ⟨x, e⟩ := c
  obtain ⟨proc, hp⟩ := h.exists_proc
  have hr := roots_getElem hp
  obtain ⟨hx, he⟩ := h.cached hc hr
  have hmap : (abs z.sys.mach (roots z.sys)).map z.running x = some (entryFormat.next e, writeBit e) :=
    mapping_eq_some.2 ⟨proc.pml4, e, hr, hx, he, rfl, rfl⟩
  have huses := Sharing.State.Uses.of_map hmap
  rw [hardware_next (h.good.frame _ huses).1, getPhysPageDesc_eq (uses_aligned huses)] at hd
  have hcount : (abs z.sys.mach (roots z.sys)).count (entryFormat.next e) = d.refcount.toNat := abs_count hd
  rw [← hcount]
  refine Nat.le_of_not_lt fun hlt => ?_
  have hro : writeBit e = false := (h.good.sharing.guard huses hlt).2 _ _ _ hmap
  rw [show writeBit e = true from hw] at hro
  cases hro

private theorem read (ha : Allowed z (.read addr)) : ∃ z', step z (.read addr) = some z' ∧ Coherent z' := by
  obtain ⟨hv, e, he⟩ := ha
  obtain ⟨proc, hp⟩ := h.exists_proc
  refine ⟨{ z with tlb := fillTlb z.tlb (placeOf addr) e }, ?_, ?_⟩
  · unfold step
    dsimp only
    rw [he]
    rfl
  · rw [h.translate_eq hp hv] at he
    exact h.fill hp hv he (Kept.refl h.good) h.good

private theorem write (ha : Allowed z (.write addr b)) : ∃ z', step z (.write addr b) = some z' ∧ Coherent z' := by
  obtain ⟨hv, e, he, hu, hw⟩ := ha
  obtain ⟨proc, hp⟩ := h.exists_proc
  have hbits : (userBit e && writeBit e) = true := by rw [hu, hw]; rfl
  refine ⟨{ z with
    sys := { z.sys with mach := storeByte z.sys.mach e addr b }
    tlb := fillTlb z.tlb (placeOf addr) e }, ?_, ?_⟩
  · unfold step
    dsimp only
    rw [he, bind_some, if_pos hbits]
  · rw [h.translate_eq hp hv] at he
    have hs : userWrite z.sys.mach proc.pml4 addr b = some (storeByte z.sys.mach e addr b) := by
      unfold userWrite
      rw [hardwareLeaf_eq h.good (mem_of_getElem? (roots_getElem hp)) hv, he, bind_some, if_pos hbits]
      rfl
    obtain ⟨hk, hstep⟩ := write_spec h.good hv hp hs
    exact h.fill hp hv he hk (hk.good h.good (hstep.inv h.good.sharing))

private theorem fault (ha : Allowed z (.fault addr err env)) :
    ∃ z', step z (.fault addr err env) = some z' ∧ Coherent z' := by
  obtain ⟨hv, hraised, hexit, hfree⟩ := ha
  obtain ⟨proc, hp⟩ := h.exists_proc
  have hr := roots_getElem hp
  have hmem := mem_of_getElem? hr
  rw [h.translate_eq hp hv, ← hardwareLeaf_eq h.good hmem hv] at hraised
  obtain ⟨y, v, hy, hadv, honly⟩ := pageFaultHandler_spec h.good hp
    ⟨hv, proc, hp, hraised, hexit, fun hP => hfree hP proc hp⟩
  refine ⟨{ z with sys := y, tlb := if v = 0 then invalidateTlb z.tlb (placeOf addr) else z.tlb }, ?_,
    hadv.good, ?_, fun {x e r} hc hr' => ?_⟩
  · unfold step
    dsimp only
    rw [hy, bind_some]
  · have hlen := congrArg List.length honly.roots_eq
    unfold roots at hlen
    rw [length_map, length_map] at hlen
    rw [hlen]
    exact h.running
  · rw [honly.roots_eq] at hr'
    cases hr.symm.trans hr'
    replace hc : (x, e) ∈ if v = 0 then invalidateTlb z.tlb (placeOf addr) else z.tlb := hc
    -- the entry of the page is in the cache only if it was not stored
    have hcached : (x, e) ∈ z.tlb ∧ (x = placeOf addr → v ≠ 0) := by
      split at hc
      · obtain ⟨hc, hne⟩ := mem_invalidateTlb.1 hc
        exact ⟨hc, fun hx => absurd hx hne⟩
      · rename_i hne
        exact ⟨hc, fun _ => hne⟩
    obtain ⟨hslot, he⟩ := h.cached hcached.1 hr
    refine ⟨hslot, Eq.trans ?_ he⟩
    by_cases hx : x = placeOf addr
    · rw [hx]
      exact honly.stored.resolve_left (hcached.2 hx)
    · exact honly.elsewhere _ x hmem hslot fun hxx => hx hxx.2

private theorem fork (ha : Allowed z .fork) (hclean : ForksClean z .fork) :
    ∃ z', step z .fork = some z' ∧ Coherent z' := by
  obtain ⟨y, hy, hadv⟩ := fork_spec h.good ha
  obtain ⟨proc, s', child, hp, hfork, h0, -⟩ := ha
  have hr := roots_getElem hp
  have hforked := cowForkPageTable_spec (h.good.current hr) hfork
  replace hy : forkProc z.sys z.running = some y := hy
  refine ⟨{ z with sys := y }, ?_, hadv.good, ?_, fun {x e r} hc hr' => ?_⟩
  · unfold step
    rw [hy]
    rfl
  all_goals
    unfold forkProc at hy
    rw [hp, bind_some, hfork] at hy
    cases hy
  · rw [length_append]
    exact Nat.lt_of_lt_of_le h.running (Nat.le_add_right _ _)
  · have hp' : (z.sys.procs ++ [⟨child, proc.mmap⟩])[z.running]? = some proc := by
      rw [getElem?_append_left h.running, hp]
    obtain rfl := some.inj ((roots_getElem
      (y := { z.sys with mach := s', procs := z.sys.procs ++ [⟨child, proc.mmap⟩] }) hp').symm.trans hr')
    obtain ⟨hslot, he⟩ := h.cached hc hr
    refine ⟨hslot, ?_⟩
    rw [entryAt_parent h.good hr hforked h0 hslot, he, map_some, clearRW_of_not_writable (hclean _ hc)]

/-- The cache agrees with the table after an event, unless the process forks with an entry that allows to write. -/
theorem step_coherent (ha : Allowed z ev) (hclean : ForksClean z ev) : ∃ z', step z ev = some z' ∧ Coherent z' := by
  cases ev with
  | read addr => exact h.read ha
  | write addr b => exact h.write ha
  | fault addr err env => exact h.fault ha
  | fork => exact h.fork ha hclean
  | schedule p =>
    refine ⟨{ z with running := p, tlb := [] }, if_pos ha, h.good, ha, nofun⟩
  | evict x =>
    exact ⟨{ z with tlb := invalidateTlb z.tlb x }, rfl, h.good, h.running,
      fun hc hr => h.cached (mem_invalidateTlb.1 hc).1 hr⟩

end Coherent

def allowedNow (z : Cpu) : Event → Bool
  | .read addr => decide (UserSlot (indexPml4e addr)) && (z.translate addr).isSome
  | .write addr _ => decide (UserSlot (indexPml4e addr)) && (z.translate addr).any fun e => userBit e && writeBit e
  | .fault addr errCode env => decide (UserSlot (indexPml4e addr)) && decide (Raised errCode (z.translate addr)) &&
      (step z (.fault addr errCode env)).isSome && z.sys.procs[z.running]?.all fun proc =>
        decide (missing z.sys.mach.mem proc.pml4 addr + 1 ≤ freeCount z.sys.mach.pages)
  | .fork => Cow.allowedNow z.sys (.fork z.running)
  | .schedule p => decide (p < z.sys.procs.length)
  | .evict _ => true

private theorem allowed_of_now (h : allowedNow z ev = true) : Allowed z ev := by
  cases ev with
  | read addr =>
    obtain ⟨hv, he⟩ := Bool.and_eq_true_iff.1 h
    exact ⟨of_decide_eq_true hv, isSome_iff_exists.1 he⟩
  | write addr b =>
    obtain ⟨hv, he⟩ := Bool.and_eq_true_iff.1 h
    obtain ⟨e, he, hbits⟩ := (Option.any_eq_true _ _).1 he
    exact ⟨of_decide_eq_true hv, e, he, Bool.and_eq_true_iff.1 hbits⟩
  | fault addr errCode env =>
    obtain ⟨h, hc⟩ := Bool.and_eq_true_iff.1 h
    obtain ⟨h, hs⟩ := Bool.and_eq_true_iff.1 h
    obtain ⟨hv, hr⟩ := Bool.and_eq_true_iff.1 h
    refine ⟨of_decide_eq_true hv, of_decide_eq_true hr, fun y hy => ?_, fun _ proc hp => ?_⟩
    · unfold step at hs
      dsimp only at hs
      rw [hy] at hs
      cases hs
    · rw [hp] at hc
      exact of_decide_eq_true hc
  | fork => exact Cow.allowed_of_now (y := z.sys) (e := .fork z.running) h
  | schedule p =>
    show p < z.sys.procs.length
    exact of_decide_eq_true h
  | evict x => trivial

instance (z : Cpu) : ∀ ev, Decidable (ForksClean z ev)
  | .fork => inferInstanceAs (Decidable (∀ c ∈ z.tlb, _))
  | .read _ | .write _ _ | .fault _ _ _ | .schedule _ | .evict _ => .isTrue trivial

instance (z : Cpu) : Decidable (Safe z) := inferInstanceAs (Decidable (∀ c ∈ z.tlb, _ → ∀ d ∈ _, _))

private theorem permitted_of_now {es : List Event}
    (h : Permitted step (fun z ev => allowedNow z ev = true ∧ ForksClean z ev) z es) :
    Permitted step (fun z ev => Allowed z ev ∧ ForksClean z ev) z es :=
  h.mono fun _ _ ha => ⟨allowed_of_now ha.1, ha.2⟩

/-- In every run in which no process forks while an entry in the cache allows to write, the cache gives no write
permission to a frame that is shared. -/
theorem tlb_respects_sharing (y₀ : Sys) (h₀ : Start y₀) (p₀ : Nat) (hp : p₀ < y₀.procs.length) (es : List Event)
    (hes : Permitted step (fun z ev => Allowed z ev ∧ ForksClean z ev) (started y₀ p₀) es) :
    ∃ z, run step (started y₀ p₀) es = some z ∧ Safe z := by
  have hstep : ∀ z ev, Coherent z → Allowed z ev ∧ ForksClean z ev → ∃ z', step z ev = some z' ∧ Coherent z' :=
    fun z ev h ha => h.step_coherent ha.1 ha.2
  obtain ⟨z, hz, h⟩ := run_invariant hstep (coherent_empty h₀.good hp) hes
  exact ⟨z, hz, h.safe⟩

theorem tlb_respects_sharing_scheduled : ∃ z, run step (started oneProcess 0) [.fault 0x400010 6 quietEnv,
    .write 0x400010 7, .schedule 0, .fork, .read 0x400010, .fault 0x400010 7 quietEnv, .write 0x400010 8] = some z ∧
      Safe z :=
  tlb_respects_sharing oneProcess start_oneProcess 0 (by decide) _ (permitted_of_now (by decide +kernel))

/-- The parent has written to its page before it forks, and may still write to it afterwards, although the page is
shared with the child. -/
theorem tlb_keeps_permission : ¬ ∀ (y₀ : Sys) (p₀ : Nat) (es : List Event), Start y₀ → p₀ < y₀.procs.length →
    Permitted step Allowed (started y₀ p₀) es → ∃ z, run step (started y₀ p₀) es = some z ∧ Safe z := by
  intro h
  obtain ⟨y, hy, hunsafe⟩ : ∃ z ∈ checkedRun step (fun z ev => allowedNow z ev = true) (started oneProcess 0)
      [.fault 0x400010 6 quietEnv, .write 0x400010 7, .fork], ¬ Safe z := by decide +kernel
  obtain ⟨hes, hrun⟩ := permitted_of_checkedRun hy
  obtain ⟨z, hz, hsafe⟩ := h oneProcess 0 _ start_oneProcess (by decide) (hes.mono fun _ _ => allowed_of_now)
  cases hrun.symm.trans hz
  exact hunsafe hsafe

end Adix.Cow.Tlb
