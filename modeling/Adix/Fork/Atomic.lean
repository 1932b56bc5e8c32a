import Adix.Fork.Defs
import Adix.Scheduler.Lifecycle
import Adix.Vma.Drawn

/-!
# The whole of `sys_fork` and its exits

`sys_fork` takes a page for the kernel stack, a process id, a link in the list of children and a copy of the page table
before it comes to the limit of tasks, and an exit frees nothing but the PCB. The calls of `kmalloc` do not grow the
heap.
-/

namespace Adix.Fork.Atomic

open PageTable PhysPages Scheduler Vma.Pages Option

structure Kernel where
  sched : Sched
  space : Space

/-- What a call finds around it: the results of `kmalloc`, the bytes around the list of areas, the words copied to the
stack, and the fields of the PCB that are not set. -/
structure Env where
  pcbOk : Bool
  area : Vma.Env
  stack : Index → Word
  nameOk : Bool
  childrenOk : Bool
  tssOk : Bool
  mmOk : Bool
  uninit : Uninit

/-- The same for the scheduler, once it is known whether there is a stack and a page table. -/
def Env.forkEnv (env : Env) (stackOk : Bool) (pageTable : Option Nat) : ForkEnv where
  pcbOk := env.pcbOk
  stackOk := stackOk
  nameOk := env.nameOk
  childrenOk := env.childrenOk
  pageTable := pageTable
  tssOk := env.tssOk
  mmOk := env.mmOk
  uninit := env.uninit

/-- The `memcpy` and `memset` of the stack: the page at a virtual address is filled. -/
def fillPage (s : Mach) (cr3 : Nat) (virt : Word) (words : Index → Word) : Option Mach :=
  (hardwareWalk s cr3 virt).map fun page => { s with mem := fun q => if q = page then words else s.mem q }

/-- `sys_fork`. A stack at the address `-1`, the value of an `mmap` that failed, is written to all the same. -/
def sysFork (kernmem : Word) (k : Kernel) (env : Env) : Option (Kernel × Nat) := do
  let parent ← getCurrentTask k.sched
  let p ← k.sched.pcb parent
  if !env.pcbOk then return (k, minusOne)
  let (space, stackBase) ← vAllocPages kernmem k.sched.cr3 env.area k.space 1 pageTransReadWrite
  if stackBase = 0 then
    let (sched, r) ← Scheduler.sysFork k.sched (env.forkEnv false none)
    return (⟨sched, space⟩, r)
  if stackBase = -1 then none
  let mach ← fillPage space.mach k.sched.cr3 stackBase env.stack
  if p.name.isSome && !env.nameOk then
    let (sched, r) ← Scheduler.sysFork k.sched (env.forkEnv true none)
    return (⟨sched, { space with mach := mach }⟩, r)
  let (mach, pageTable) ← cowForkPageTable mach k.sched.cr3
  let (sched, r) ← Scheduler.sysFork k.sched (env.forkEnv true pageTable)
  return (⟨sched, { space with mach := mach }⟩, r)

/-- What a call that fails should leave as it was: the children of the current task, the process ids, the descriptors of
all pages, the entries of the task for its own addresses, and the queues. -/
structure Untouched (k k' : Kernel) : Prop where
  children : ∀ t ∈ getCurrentTask k.sched, (k'.sched.pcb t).map Pcb.children = (k.sched.pcb t).map Pcb.children
  pidArray : k'.sched.pidArray = k.sched.pidArray
  desc : ∀ q, getPhysPageDesc k'.space.mach.pages q = getPhysPageDesc k.space.mach.pages q
  leaf : ∀ a, indexPml4e a ≠ pml4KernelEntry → indexPml4e a ≠ selfRefEntry →
    leaf k'.space.mach.mem k.sched.cr3 a = leaf k.space.mach.mem k.sched.cr3 a
  runQueue : k'.sched.runQueue = k.sched.runQueue
  waitQueue : k'.sched.waitQueue = k.sched.waitQueue
  waitTimerQueue : k'.sched.waitTimerQueue = k.sched.waitTimerQueue
  terminatedQueue : k'.sched.terminatedQueue = k.sched.terminatedQueue

/-- The kernel is in order: the allocator and the lists of areas are, and the next PCB is a new one. -/
structure Sound (k : Kernel) : Prop where
  pages : PhysPages.Inv k.space.mach.pages
  areas : ∀ i, Vma.Valid (k.space.mmaps i)
  fresh : k.sched.pcb k.sched.numTasks = none

variable {s s' s'' : Mach} {cr3 : Nat} {virt prot : Word} {k k' : Kernel} {env : Env}

/-- The allocator of `s'` is that of `s` with some pages taken off its list; the others are described as before. -/
structure Draws (s s' : Mach) : Prop where
  listed : Listed s'.pages
  free : ∀ q, Free s' q → Free s q
  desc_eq : ∀ q, q % PhysPages.sizeofPage = 0 → ¬ Free s q → desc s'.pages q = desc s.pages q

private theorem Draws.refl (h : Listed s.pages) : Draws s s := ⟨h, fun _ hq => hq, fun _ _ _ => rfl⟩

private theorem Draws.trans (h : Draws s s') (h' : Draws s' s'') : Draws s s'' := by
  refine ⟨h'.listed, fun q hq => h.free q (h'.free q hq), fun q hq hfree => ?_⟩
  rw [h'.desc_eq q hq fun hc => hfree (h.free q hc), h.desc_eq q hq hfree]

private theorem Draws.congr (h : Draws s s') (hp : s''.pages = s'.pages) : Draws s s'' := by
  refine ⟨hp ▸ h.listed, fun q hq => h.free q ?_, fun q hq hfree => ?_⟩
  · unfold Free at hq ⊢
    rwa [hp] at hq
  · rw [hp]
    exact h.desc_eq q hq hfree

private theorem takesPage_draws {f : Nat} (h : TakesPage s s' f) : Draws s s' := by
  refine ⟨h.allocated.listed, fun q hq => (h.free_iff.1 hq).1, fun q hq hfree => h.allocated.other q hq fun hc => ?_⟩
  exact hfree (h.allocated.free q hc)

private theorem allocPage_draws (h : Listed s.pages) : Draws s s.allocPage.1 := by
  obtain he | ⟨s', f, he, ht⟩ := allocPage_cases h
  · rw [he]
    exact Draws.refl h
  · rw [he]
    exact takesPage_draws ht

private theorem Drawn.draws {n : Nat} (hd : Drawn n s.pages s'.pages) (h : Listed s.pages) : Draws s s' := by
  -- each allocation is one of a machine with the memory of `s`
  refine (hd.keeps (P := fun p => Draws s { s with pages := p }) (fun p hp => ?_) (Draws.refl h)).congr rfl
  exact hp.trans ((allocPage_draws hp.listed).congr rfl)

section Stack

variable {y y' : Space} {kernmem addr : Word} {area : Vma.Env} (h : PhysPages.Inv y.mach.pages)
include h

omit h in
private theorem vAllocPages_empty (hfree : freeCount y.mach.pages = 0) :
    vAllocPages kernmem cr3 area y 1 prot = some (y, 0) := by
  have htake : takePages 1 y.mach = (y.mach, none) := by
    unfold takePages
    rw [allocPage_empty hfree]
    rfl
  unfold vAllocPages vAllocPagesAtVirt
  rw [if_neg (by decide), htake]

private theorem vAllocPages_taken (hareas : ∀ i, Vma.Valid (y.mmaps i)) (hkern : kernmem ≠ 0)
    (hfree : 0 < freeCount y.mach.pages) (hs : vAllocPages kernmem cr3 area y 1 prot = some (y', addr)) :
    addr ≠ 0 ∧ ∃ q, getPhysPageDesc y'.mach.pages q ≠ getPhysPageDesc y.mach.pages q := by
  obtain ⟨s1, z, hal, ht, -⟩ := allocPage_spec h.listed hfree
  have htake : takePages 1 y.mach = (s1, some [z]) := by
    unfold takePages
    rw [hal]
    exact if_neg ht.allocated.ne_zero
  unfold vAllocPages vAllocPagesAtVirt at hs
  rw [htake] at hs
  dsimp only at hs
  generalize hm : Vma.mmap area (y.mmaps (y.listFor kernmem)) kernmem Vma.sizeofPage prot mapAnonymous = r at hs
  obtain ⟨l, a⟩ := r
  have ha : a ≠ 0 := by
    obtain hfail | ⟨l', a', heq, -, -, hmapped⟩ := Vma.mmapGrowable_spec (hareas (y.listFor kernmem)) area
      ⟨kernmem, Vma.sizeofPage, prot, mapAnonymous, -1⟩
    · have := (Prod.mk.inj (hm.symm.trans hfail)).2
      rw [this]
      decide
    · cases hm.symm.trans heq
      have hle := hmapped.hint_le
      rintro rfl
      exact hkern (by bv_omega)
  rw [if_neg ha] at hs
  obtain ⟨s2, hs2, heq⟩ := map_eq_some_iff.1 hs
  cases heq
  refine ⟨ha, z, ?_⟩
  -- the page of the stack is not free any more, so that the tables are made of other pages
  have hal1 := (h.listed.page z ht.wasFree).1
  have hd := (Drawn.draws (mapPages_drawn hs2) ht.allocated.listed).desc_eq z hal1 fun hc => (ht.free_iff.1 hc).2 rfl
  obtain ⟨d, hd0, -⟩ := map_eq_some_iff.1 ((h.covers z).1 ht.wasFree).2
  rw [getPhysPageDesc_eq hal1, getPhysPageDesc_eq hal1]
  rw [hd, ht.allocated.counted z (has_one.2 rfl), hd0]
  intro hc
  have hcount := congrArg PhysPage.refcount (some.inj hc)
  simp [PhysPage.bump] at hcount

end Stack

section Tasks

variable {σ σ' : Sched} {t : TaskId} {p : Pcb} {e : ForkEnv} {r : Nat} (ht : getCurrentTask σ = some t)
  (hp : σ.pcb t = some p) (hpcb : e.pcbOk = true)
include ht hp hpcb

private theorem sysFork_noStack (hstack : e.stackOk = false) (hs : Scheduler.sysFork σ e = some (σ', r)) :
    σ' = { σ with numTasks := σ.numTasks + 1 } := by
  rcases sysFork_cases ht hp hs with ⟨hno, -⟩ | ⟨-, ⟨-, hσ⟩ | ⟨hok, -⟩⟩
  · rw [hpcb] at hno
    cases hno
  · exact hσ
  · rw [hstack] at hok
    cases hok

private theorem sysFork_children (hfresh : σ.pcb σ.numTasks = none) (hstack : e.stackOk = true)
    (hname : ¬ (p.name.isSome && !e.nameOk) = true) (hs : Scheduler.sysFork σ e = some (σ', r)) :
    (σ'.pcb t).map Pcb.children = some (p.children ++ [σ.numTasks]) := by
  have htn : t ≠ σ.numTasks := by
    intro hc
    rw [← hc, hp] at hfresh
    cases hfresh
  have hkept : ((forking σ t).pcb t).map Pcb.children = some (p.children ++ [σ.numTasks]) := by
    unfold forking addChild
    rw [update_self, getNextPid_eq]
    rw [hp]
    rfl
  rcases sysFork_cases ht hp hs with ⟨hno, -⟩ | ⟨-, ⟨hno, -⟩ | ⟨-, ⟨hno, -⟩ | rfl | ⟨x, -, rfl⟩⟩⟩
  · rw [hpcb] at hno
    cases hno
  · rw [hstack] at hno
    cases hno
  · exact absurd hno hname
  · exact hkept
  · show ((if t = σ.numTasks then _ else _) : Option Pcb).map Pcb.children = _
    rw [if_neg htn]
    exact hkept

end Tasks

/-- A call that fails once the PCB is allocated leaves the children, the process ids, the pages, the entries and the
queues as they were if and only if there was no page for the stack. -/
theorem fork_atomic_iff (kernmem : Word) (hkern : kernmem ≠ 0) (k : Kernel) (hk : Sound k) (env : Env)
    (hpcb : env.pcbOk = true) (k' : Kernel) (hs : sysFork kernmem k env = some (k', minusOne)) :
    Untouched k k' ↔ freeCount k.space.mach.pages = 0 := by
  unfold sysFork at hs
  simp only [bind_eq_bind, hpcb, Bool.not_true, Bool.false_eq_true, if_false] at hs
  obtain ⟨t, ht, hs⟩ := bind_eq_some_iff.1 hs
  obtain ⟨p, hp, hs⟩ := bind_eq_some_iff.1 hs
  obtain ⟨⟨space, stackBase⟩, hstack, hs⟩ := bind_eq_some_iff.1 hs
  constructor
  · -- with a free page, either the page or the link to the child is left behind
    intro hu
    by_contra hfree
    obtain ⟨h0, q, hq⟩ := vAllocPages_taken hk.pages hk.areas hkern (Nat.pos_of_ne_zero hfree) hstack
    rw [if_neg h0] at hs
    split at hs
    · cases hs
    obtain ⟨mach, hfill, hs⟩ := bind_eq_some_iff.1 hs
    split at hs
    · obtain ⟨⟨sched, r⟩, -, hs⟩ := bind_eq_some_iff.1 hs
      obtain ⟨page, -, rfl⟩ := map_eq_some_iff.1 hfill
      cases hs
      exact hq (hu.desc q)
    · rename_i hname
      obtain ⟨⟨mach', pageTable⟩, -, hs⟩ := bind_eq_some_iff.1 hs
      obtain ⟨⟨sched, r⟩, hsched, hs⟩ := bind_eq_some_iff.1 hs
      cases hs
      have hchildren := sysFork_children (e := env.forkEnv true pageTable) ht hp hpcb hk.fresh rfl hname hsched
      have hsame := hu.children t ht
      rw [hp, hchildren] at hsame
      simp at hsame
  · intro hfree
    rw [vAllocPages_empty hfree] at hstack
    cases hstack
    obtain ⟨⟨sched, r⟩, hsched, hs⟩ := bind_eq_some_iff.1 hs
    cases hs
    obtain rfl := sysFork_noStack (e := env.forkEnv false none) ht hp hpcb rfl hsched
    exact ⟨fun _ _ => rfl, rfl, fun _ => rfl, fun _ _ _ => rfl, rfl, rfl, rfl, rfl⟩

def oneTask (limit : Nat) : Sched :=
  { Scheduler.boot (fun _ => 0) with
    pcb := fun t => if t = 0 then some ⟨1, none, none, 0, [], .ready, .uproc, 0x1000, 0, 0⟩ else none
    numTasks := 1
    runQueue := [0]
    noproc := 1
    pidArray := fun i => if i = 1 then 1 else 0
    rlimitNproc := limit
    cr3 := 0x1000 }

def plentiful : Env := ⟨true, ⟨true, ⟨0, 0, 0, 0, 0⟩⟩, fun _ => 0, true, true, true, true, ⟨0, 0, 0, 0⟩⟩

def lonePage : Chunk where
  physAddrStart := 0x1000
  physAddrEnd := 0x2000
  physPagePointer := [⟨1, 0⟩]
  aligned := page_aligned
  length := by simp [PhysPages.sizeofPage]
  nonempty := by decide
  fits := by simp [addrSpace]

def smallKernel (limit : Nat) (c : Chunk) : Kernel where
  sched := oneTask limit
  space := { emptySpace with mach := { emptySpace.mach with pages := PhysPages.boot [c] } }

private theorem smallKernel_sound (limit : Nat) {c : Chunk} (hnum : numPages [c] < 2 ^ 31)
    (hzero : (findDesc 0 [c]).map (·.refcount) ≠ some 0) : Sound (smallKernel limit c) where
  pages := boot_inv (List.pairwise_singleton _ _) hnum hzero
  areas _ := Vma.Valid.nil
  fresh := rfl

theorem fork_atomic_empty :
    ∃ k', sysFork 0xffffffff80400000 (smallKernel 1024 lonePage) plentiful = some (k', minusOne) ∧
    Untouched (smallKernel 1024 lonePage) k' := by
  obtain ⟨⟨k', r⟩, hs, hr⟩ :
      ∃ r ∈ sysFork 0xffffffff80400000 (smallKernel 1024 lonePage) plentiful, r.2 = minusOne := by
    decide +kernel
  obtain rfl : r = minusOne := hr
  refine ⟨k', hs, ?_⟩
  exact (fork_atomic_iff 0xffffffff80400000 (by decide) (smallKernel 1024 lonePage)
    (smallKernel_sound 1024 (by decide) (by decide)) plentiful rfl k' hs).2 (by decide)

/-- A fork that the limit refuses: the child stays in the list of its parent. -/
theorem fork_refused_leaves_child : ¬ ∀ (kernmem : Word), kernmem ≠ 0 → ∀ k, Sound k → ∀ env : Env, env.pcbOk = true →
    ∀ k', sysFork kernmem k env = some (k', minusOne) → Untouched k k' := by
  intro h
  obtain ⟨⟨k', r⟩, hs, hr, hchildren⟩ : ∃ r ∈ sysFork 0xffffffff80400000 (smallKernel 1 twelvePages) plentiful,
      r.2 = minusOne ∧ (r.1.sched.pcb 0).map Pcb.children = some [1] := by
    decide +kernel
  obtain rfl : r = minusOne := hr
  have hu := h 0xffffffff80400000 (by decide) (smallKernel 1 twelvePages) (smallKernel_sound 1 (by decide) (by decide))
    plentiful rfl k' hs
  have hsame := hu.children 0 rfl
  rw [hchildren] at hsame
  revert hsame
  decide

end Adix.Fork.Atomic
