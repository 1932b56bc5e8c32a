import Mathlib.Data.List.Basic
import Mathlib.Algebra.Group.Nat.Defs

/-!
# The scheduler (`sys/scheduler/scheduler.c`, `sys/scheduler/pcb.c`)

A task is on one of four lists: ready to run, waiting for a descriptor, waiting for the timer, or terminated. The lists
share one link field of the PCB, so `list_del` takes a task off whichever list it is on. The last task of the run queue
is running.

Tasks are numbered as they are created; `pcb t` is the PCB as long as it is allocated. An outcome `none` is an access
through a pointer to nothing, or a write behind the array of `_sys_wakeup`.
-/

namespace Adix.Scheduler

abbrev TaskId := Nat

inductive PState where
  | ready
  | terminated
  deriving DecidableEq

inductive PType where
  | kthread
  | uproc
  deriving DecidableEq

/-- `struct pcb_t`, without stacks, TSS, files and memory areas. `children` is the list anchored at the field. -/
structure Pcb where
  pid : Nat
  name : Option String
  parent : Option TaskId
  wakeupReturn : Nat
  children : List TaskId
  state : PState
  type : PType
  cr3Content : Nat
  waitDesc : Nat
  sleepTimeRem : BitVec 64
  deriving DecidableEq

def ulimit : Nat := 1000

def timerElapsed : Nat := ulimit + 1

def notWaiting : Nat := 0

def maxWaitProc : Nat := 20

def rlimitNprocMax : Nat := 1024

def minusOne : Nat := 2 ^ 64 - 1

/-- The state of the scheduler. `pidArray` is the memory from `pid_array` on, whose first `ulimit` entries are the
array; `stack` is the task on whose kernel stack the processor runs. -/
structure Sched where
  pcb : TaskId → Option Pcb
  numTasks : Nat
  runQueue : List TaskId
  terminatedQueue : List TaskId
  waitQueue : List TaskId
  waitTimerQueue : List TaskId
  noproc : Nat
  prepTask : Option TaskId
  pidArray : Nat → Int
  rlimitNproc : Nat
  stack : Option TaskId
  cr3 : Nat

namespace Sched

def update (s : Sched) (t : TaskId) (f : Pcb → Pcb) : Sched :=
  { s with pcb := fun u => if u = t then (s.pcb u).map f else s.pcb u }

def listDel (s : Sched) (t : TaskId) : Sched :=
  { s with
    runQueue := s.runQueue.erase t
    terminatedQueue := s.terminatedQueue.erase t
    waitQueue := s.waitQueue.erase t
    waitTimerQueue := s.waitTimerQueue.erase t }

end Sched

/-! ### Switching -/

def getNextTask (s : Sched) : Option TaskId := s.runQueue.head?

def getCurrentTask (s : Sched) : Option TaskId :=
  match s.prepTask with
  | some t => some t
  | none => s.runQueue.getLast?

def getTerminatedTask (s : Sched) : Option TaskId := s.terminatedQueue.head?

/-- `cleanupTerminated`, with `deep_free_task`. -/
def cleanupTerminated (s : Sched) : Option Sched :=
  match getTerminatedTask s with
  | none => some s
  | some t => (s.pcb t).map fun p =>
    { s.listDel t with
      pidArray := fun i => if i = p.pid then 0 else s.pidArray i
      pcb := fun u => if u = t then none else s.pcb u }

def switchTo (s : Sched) (t : TaskId) : Option Sched := cleanupTerminated { s with stack := some t }

def sysYield (s : Sched) : Option Sched := do
  let nextTask ← getNextTask s
  let s := s.listDel nextTask
  let s := { s with runQueue := s.runQueue ++ [nextTask] }
  let p ← s.pcb nextTask
  let s := if p.cr3Content ≠ 0 then { s with cr3 := p.cr3Content } else s
  switchTo s nextTask

/-! ### Waking up -/

def updateWaitDescriptor (s : Sched) (t : TaskId) (waitDesc : Nat) : Sched :=
  s.update t fun p => { p with waitDesc := waitDesc }

def wakeupProc (t : TaskId) (s : Sched) : Sched :=
  let s := (updateWaitDescriptor s t notWaiting).listDel t
  { s with runQueue := t :: s.runQueue }

def waitsFor (s : Sched) (waitDesc : Nat) (t : TaskId) : Bool :=
  match s.pcb t with
  | some p => p.waitDesc == waitDesc
  | none => false

/-- `_sys_wakeup`: the matching tasks are gathered in an array, and taken from it last first. -/
def sysWakeupQueue (s : Sched) (waitQueue : List TaskId) (waitDesc : Nat) : Option (Sched × Nat) :=
  let temp := waitQueue.filter (waitsFor s waitDesc)
  if maxWaitProc < temp.length then none else some (temp.foldr wakeupProc s, temp.length)

def sysWakeup (s : Sched) (waitDesc : Nat) : Option (Sched × Nat) := sysWakeupQueue s s.waitQueue waitDesc

def countDown (s : Sched) : Sched :=
  s.waitTimerQueue.foldl (fun s t => s.update t fun p =>
    let rem := p.sleepTimeRem - 1
    { p with sleepTimeRem := rem, waitDesc := if rem = 0 then timerElapsed else p.waitDesc }) s

def sysWakeupTimer (s : Sched) : Option Sched :=
  let s := countDown s
  (sysWakeupQueue s s.waitTimerQueue timerElapsed).map Prod.fst

/-! ### Sleeping and exiting -/

/-- `sys_sleep`, up to the switch to another task. -/
def sysSleep (s : Sched) (waitDesc : Nat) : Option Sched := do
  let t ← getCurrentTask s
  let s := (updateWaitDescriptor s t waitDesc).listDel t
  sysYield { s with waitQueue := t :: s.waitQueue }

/-- `sys_sleep_timer`, up to the switch to another task. -/
def sysSleepTimer (s : Sched) (sleepInterval : Int) : Option Sched :=
  if sleepInterval ≤ 0 then some s
  else do
    let t ← getCurrentTask s
    let s := (s.update t fun p => { p with sleepTimeRem := BitVec.ofInt 64 sleepInterval }).listDel t
    sysYield { s with waitTimerQueue := t :: s.waitTimerQueue }

/-- `remove_child`: the task is taken off the list of its parent. -/
def removeChild (s : Sched) (c : TaskId) : Sched :=
  match (s.pcb c).bind Pcb.parent with
  | some q => s.update q fun p => { p with children := p.children.erase c }
  | none => s

def removeParentInfoFromChildren (s : Sched) (p : Pcb) : Sched :=
  p.children.foldl (fun s c => s.update c fun p => { p with parent := none }) s

/-- The part of `handle_wakeup_on_exit` for a task with a parent. -/
def notifyParent (s : Sched) (t : TaskId) (p : Pcb) (parent : TaskId) : Option Sched := do
  let q ← s.pcb parent
  let (s, numWakeups) ← sysWakeup s p.pid
  let s ← if numWakeups = 0 then (sysWakeup s q.pid).map Prod.fst else some s
  let s := s.update parent fun q => { q with wakeupReturn := p.pid }
  return removeChild s t

def handleWakeupOnExit (s : Sched) (t : TaskId) (p : Pcb) : Option Sched := do
  let s ← match p.parent with
    | some parent => notifyParent s t p parent
    | none => some s
  return if p.children ≠ [] then removeParentInfoFromChildren s p else s

def sysExit (s : Sched) : Option Sched := do
  let t ← getCurrentTask s
  let p ← s.pcb t
  let s := (s.update t fun p => { p with state := .terminated }).listDel t
  let s ← handleWakeupOnExit { s with terminatedQueue := t :: s.terminatedQueue, noproc := s.noproc - 1 } t p
  sysYield s

/-! ### New tasks -/

def addToTaskList (s : Sched) (t : TaskId) : Sched × Bool :=
  if s.noproc + 1 > s.rlimitNproc then (s, false)
  else ({ s with runQueue := t :: s.runQueue, noproc := s.noproc + 1 }, true)

def getNextPid (s : Sched) : Sched × Nat :=
  match (List.range' 1 (ulimit - 1)).find? fun i => decide (s.pidArray i = 0) with
  | some i => ({ s with pidArray := fun j => if j = i then 1 else s.pidArray j }, i)
  | none => (s, minusOne)

/-- The fields of a PCB that are not set when it is created. -/
structure Uninit where
  wakeupReturn : Nat
  cr3Content : Nat
  waitDesc : Nat
  sleepTimeRem : BitVec 64
  deriving DecidableEq

/-- What the allocations of `sys_fork` return: the PCB, the kernel stack, the name, the anchor of the list of children,
the page table, the TSS and the areas. -/
structure ForkEnv where
  pcbOk : Bool
  stackOk : Bool
  nameOk : Bool
  childrenOk : Bool
  pageTable : Option Nat
  tssOk : Bool
  mmOk : Bool
  uninit : Uninit
  deriving DecidableEq

def addChild (s : Sched) (p c : TaskId) : Sched := s.update p fun p => { p with children := p.children ++ [c] }

/-- `sys_fork`, as far as the scheduler is concerned, with its result in the parent. When the call fails, the process
id and the link in the list of children are not taken back. -/
def sysFork (s : Sched) (env : ForkEnv) : Option (Sched × Nat) := do
  let parent ← getCurrentTask s
  let p ← s.pcb parent
  if !env.pcbOk then return (s, minusOne)
  let c := s.numTasks
  let s := { s with numTasks := s.numTasks + 1 }
  if !env.stackOk then return (s, minusOne)
  let (s, pid) := getNextPid s
  if p.name.isSome && !env.nameOk then return (s, minusOne)
  if !env.childrenOk then none
  let s := addChild s parent c
  let some cr3 := env.pageTable | return (s, minusOne)
  if !env.tssOk then return (s, minusOne)
  if !env.mmOk then return (s, minusOne)
  let (s, added) := addToTaskList s c
  if !added then return (s, minusOne)
  let cPcb : Pcb :=
    { pid := pid, name := p.name, parent := some parent, wakeupReturn := env.uninit.wakeupReturn, children := [],
      state := p.state, type := p.type, cr3Content := cr3, waitDesc := p.waitDesc,
      sleepTimeRem := env.uninit.sleepTimeRem }
  return ({ s with pcb := fun u => if u = c then some cPcb else s.pcb u }, pid)

/-- `createTask`. The page table of a user process has been built. -/
def createTask (s : Sched) (procType : PType) (program : Option String) (cr3 : Nat) (uninit : Uninit) :
    Sched × TaskId :=
  let c := s.numTasks
  let (s, pid) := getNextPid { s with numTasks := s.numTasks + 1 }
  let pcb : Pcb :=
    { pid := pid, name := program, parent := none, wakeupReturn := uninit.wakeupReturn, children := [], state := .ready,
      type := procType, cr3Content := if procType = .uproc then cr3 else uninit.cr3Content, waitDesc := uninit.waitDesc,
      sleepTimeRem := uninit.sleepTimeRem }
  ({ s with
      pcb := fun u => if u = c then some pcb else s.pcb u
      cr3 := if procType = .uproc then cr3 else s.cr3
      prepTask := none }, c)

def boot (around : Nat → Int) : Sched where
  pcb := fun _ => none
  numTasks := 0
  runQueue := []
  terminatedQueue := []
  waitQueue := []
  waitTimerQueue := []
  noproc := 0
  prepTask := none
  pidArray := fun i => if i < ulimit then 0 else around i
  rlimitNproc := rlimitNprocMax
  stack := none
  cr3 := 0

def cooperativeSchedule (s : Sched) (cr3 : Nat) (shell daemon : Uninit) : Option Sched :=
  let (s, adsh) := createTask s .uproc (some "bin/adsh") cr3 shell
  let (s, _) := addToTaskList s adsh
  let (s, d) := createTask s .kthread none 0 daemon
  let (s, _) := addToTaskList s d
  sysYield s

/-- The thread of `invokeDaemon`, the second task. -/
def daemon : TaskId := 1

def sysSetrlimit (s : Sched) (rlimCur : Nat) : Sched :=
  if rlimCur > rlimitNprocMax then s else { s with rlimitNproc := rlimCur }

/-! ### Runs -/

inductive Event where
  | yield
  | fork (env : ForkEnv)
  | exit
  | sleep (waitDesc : Nat)
  | sleepTimer (sleepInterval : Int)
  | wakeup (waitDesc : Nat)
  | tick
  | setrlimit (rlimCur : Nat)
  deriving DecidableEq

def step (s : Sched) : Event → Option Sched
  | .yield => sysYield s
  | .fork env => (sysFork s env).map Prod.fst
  | .exit => sysExit s
  | .sleep waitDesc => sysSleep s waitDesc
  | .sleepTimer k => sysSleepTimer s k
  | .wakeup waitDesc => (sysWakeup s waitDesc).map Prod.fst
  | .tick => sysWakeupTimer s
  | .setrlimit n => some (sysSetrlimit s n)

end Adix.Scheduler
