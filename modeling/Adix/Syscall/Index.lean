import Mathlib.Data.BitVec

/-!
# Indices from user programs (`sys/syscall/syscall_handler.c`, `sys/scheduler/pcb.c`, `sys/ulimit/ulimit.c`)

The file system calls look up `open_files[fd]` for every `fd`, and call an operation of the file without comparing it
with `NULL`; the calls for limits compare the resource with the size of the table, but not with 0. An array is the
memory from its first entry on, with the memory before it at negative indices.
-/

namespace Adix.Syscall

def openFilesLimit : Int := 1024

inductive Handler where
  | terminalOpen | terminalRead | terminalWrite | terminalClose
  | sysOpen | sysRead | sysLseek | sysClose | sysOpendir | sysReaddir | sysClosedir
  /-- What is not one of these functions: a word that happens to be where a table is expected. -/
  | other (address : BitVec 64)
  deriving DecidableEq

/-- `struct operation_pointers`; `none` is `NULL`. -/
structure OperationPointers where
  «open» : Option Handler
  read : Option Handler
  write : Option Handler
  lseek : Option Handler
  close : Option Handler
  opendir : Option Handler
  readdir : Option Handler
  closedir : Option Handler
  deriving DecidableEq

def terminalOps : OperationPointers :=
  ⟨some .terminalOpen, some .terminalRead, some .terminalWrite, none, some .terminalClose, none, none, none⟩

def tarfsOps : OperationPointers :=
  ⟨some .sysOpen, some .sysRead, none, some .sysLseek, some .sysClose, some .sysOpendir, some .sysReaddir,
    some .sysClosedir⟩

/-- The current task: the words from `open_files` on, and the operations of the table at an address. The entries are
`NULL` or open files of one of the two kinds. -/
structure Process where
  openFiles : Int → BitVec 64
  opPointers : BitVec 64 → OperationPointers
  kinds : ∀ fd, 0 ≤ fd → fd < openFilesLimit → openFiles fd ≠ 0 →
    opPointers (openFiles fd) = terminalOps ∨ opPointers (openFiles fd) = tarfsOps

def getProcessFilesTable (p : Process) (fd : BitVec 32) : BitVec 64 := p.openFiles fd.toInt

/-- What a file system call does: it returns at once, or it calls an operation of the file in a slot. -/
inductive Outcome where
  | returns (value : Int)
  | calls (slot : Int) (operation : Option Handler)
  deriving DecidableEq

/-- A file system call with its `error` value. -/
def stub (operation : OperationPointers → Option Handler) (error : Int) (p : Process) (fd : BitVec 32) : Outcome :=
  let pft := getProcessFilesTable p fd
  if pft = 0 then .returns error else .calls fd.toInt (operation (p.opPointers pft))

def sysReadStub : Process → BitVec 32 → Outcome := stub OperationPointers.read (-1)

def sysWriteStub : Process → BitVec 32 → Outcome := stub OperationPointers.write (-1)

def sysLseekStub : Process → BitVec 32 → Outcome := stub OperationPointers.lseek (-1)

def sysCloseStub : Process → BitVec 32 → Outcome := stub OperationPointers.close (-1)

/-- `sys_readdir_stub`; the error is `NULL`. -/
def sysReaddirStub : Process → BitVec 32 → Outcome := stub OperationPointers.readdir 0

def sysClosedirStub : Process → BitVec 32 → Outcome := stub OperationPointers.closedir (-1)

inductive Call where
  | read | write | lseek | close | readdir | closedir
  deriving DecidableEq

namespace Call

def run : Call → Process → BitVec 32 → Outcome
  | read => sysReadStub
  | write => sysWriteStub
  | lseek => sysLseekStub
  | close => sysCloseStub
  | readdir => sysReaddirStub
  | closedir => sysClosedirStub

def operation : Call → OperationPointers → Option Handler
  | read => OperationPointers.read
  | write => OperationPointers.write
  | lseek => OperationPointers.lseek
  | close => OperationPointers.close
  | readdir => OperationPointers.readdir
  | closedir => OperationPointers.closedir

def error : Call → Int
  | readdir => 0
  | read | write | lseek | close | closedir => -1

def OnTerminal : Call → Prop
  | read | write | close => True
  | lseek | readdir | closedir => False

def OnTarfs : Call → Prop
  | read | lseek | close | readdir | closedir => True
  | write => False

private theorem run_eq (c : Call) : c.run = stub c.operation c.error := by
  cases c <;> rfl

private theorem terminal_iff (c : Call) : (c.operation terminalOps).isSome ↔ c.OnTerminal := by
  cases c <;> simp [operation, terminalOps, OnTerminal]

private theorem tarfs_iff (c : Call) : (c.operation tarfsOps).isSome ↔ c.OnTarfs := by
  cases c <;> simp [operation, tarfsOps, OnTarfs]

/-- The call returns its error value, or it goes to an operation of an open file. -/
def InRange (c : Call) (p : Process) (fd : BitVec 32) : Prop :=
  c.run p fd = .returns c.error ∨ ∃ h, c.run p fd = .calls fd.toInt (some h) ∧ 0 ≤ fd.toInt ∧
    fd.toInt < openFilesLimit ∧ p.openFiles fd.toInt ≠ 0

/-- There is nothing at `open_files[fd]`, or it is an entry of the table with an open file that implements the call. -/
def Implemented (c : Call) (p : Process) (fd : BitVec 32) : Prop :=
  p.openFiles fd.toInt = 0 ∨ (0 ≤ fd.toInt ∧ fd.toInt < openFilesLimit ∧
    (p.opPointers (p.openFiles fd.toInt) = terminalOps ∧ c.OnTerminal ∨
      p.opPointers (p.openFiles fd.toInt) = tarfsOps ∧ c.OnTarfs))

/-- A call stays in the table if and only if it is implemented for what it finds. -/
private theorem inRange_iff (c : Call) (p : Process) (fd : BitVec 32) : c.InRange p fd ↔ c.Implemented p fd := by
  unfold InRange Implemented
  rw [run_eq]
  unfold stub getProcessFilesTable
  by_cases hzero : p.openFiles fd.toInt = 0
  · simp [hzero]
  rw [if_neg hzero]
  constructor
  · intro h
    rcases h with h | ⟨h, heq, h0, hlim, -⟩
    · cases h
    · have hop : c.operation (p.opPointers (p.openFiles fd.toInt)) = some h := (Outcome.calls.inj heq).2
      refine Or.inr ⟨h0, hlim, ?_⟩
      rcases p.kinds _ h0 hlim hzero with hk | hk
      · refine Or.inl ⟨hk, (terminal_iff c).1 ?_⟩
        rw [← hk, hop]
        rfl
      · refine Or.inr ⟨hk, (tarfs_iff c).1 ?_⟩
        rw [← hk, hop]
        rfl
  · intro h
    obtain ⟨h0, hlim, hk⟩ := h.resolve_left hzero
    have hsome : (c.operation (p.opPointers (p.openFiles fd.toInt))).isSome := by
      rcases hk with ⟨hk, hc⟩ | ⟨hk, hc⟩
      · rw [hk]
        exact (terminal_iff c).2 hc
      · rw [hk]
        exact (tarfs_iff c).2 hc
    obtain ⟨h, hh⟩ := Option.isSome_iff_exists.1 hsome
    exact Or.inr ⟨h, by rw [hh], h0, hlim, hzero⟩

end Call

def rlimitNores : Int := 3

structure Rlimit where
  rlimCur : BitVec 64
  rlimMax : BitVec 64
  deriving DecidableEq

/-- The words from `rlimit_cur` and from `RLIMIT_MAX` on. -/
structure Limits where
  rlimitCur : Int → BitVec 64
  rlimitMax : Int → BitVec 64

/-- What a call for limits does: its result, the limits and the contents of `rlim` after it, and the entries that it
has read or written. -/
structure LimitCall where
  result : Int
  limits : Limits
  rlim : Option Rlimit
  accessed : List Int

/-- `sys_getrlimit`; `none` is a pointer `NULL`. -/
def sysGetrlimit (l : Limits) (resource : BitVec 32) (rlim : Option Rlimit) : LimitCall :=
  if resource.toInt ≥ rlimitNores then ⟨-1, l, rlim, []⟩
  else match rlim with
    | none => ⟨-1, l, rlim, []⟩
    | some _ => ⟨0, l, some ⟨l.rlimitCur resource.toInt, l.rlimitMax resource.toInt⟩, [resource.toInt]⟩

def sysSetrlimit (l : Limits) (resource : BitVec 32) (rlim : Option Rlimit) : LimitCall :=
  if resource.toInt ≥ rlimitNores then ⟨-1, l, rlim, []⟩
  else match rlim with
    | none => ⟨-1, l, rlim, []⟩
    | some r =>
      if r.rlimCur > l.rlimitMax resource.toInt then ⟨-1, l, rlim, [resource.toInt]⟩
      else ⟨0, { l with rlimitCur := fun i => if i = resource.toInt then r.rlimCur else l.rlimitCur i }, rlim,
        [resource.toInt]⟩

/-- The call fails and has no effect, or it has accessed entries of the tables only. -/
def LimitCall.InRange (c : LimitCall) (l : Limits) (rlim : Option Rlimit) : Prop :=
  c.result = -1 ∧ c.limits = l ∧ c.rlim = rlim ∨ ∀ i ∈ c.accessed, 0 ≤ i ∧ i < rlimitNores

private theorem sysGetrlimit_inRange (l : Limits) (resource : BitVec 32) (rlim : Option Rlimit) :
    (sysGetrlimit l resource rlim).InRange l rlim ↔ 0 ≤ resource.toInt ∨ rlim = none := by
  unfold sysGetrlimit LimitCall.InRange
  have hn : rlimitNores = 3 := rfl
  split
  · simp
    omega
  · cases rlim with
    | none => simp
    | some r =>
      simp
      omega

private theorem sysSetrlimit_inRange (l : Limits) (resource : BitVec 32) (rlim : Option Rlimit) :
    (sysSetrlimit l resource rlim).InRange l rlim ↔
      0 ≤ resource.toInt ∨ ∀ r ∈ rlim, r.rlimCur > l.rlimitMax resource.toInt := by
  unfold sysSetrlimit LimitCall.InRange
  have hn : rlimitNores = 3 := rfl
  split
  · simp
    omega
  · cases rlim with
    | none => simp
    | some r =>
      dsimp only
      split
      · rename_i hgt
        simp [hgt]
      · rename_i hgt
        simp [hgt]
        omega

/-- A file system call stays in the table of open files exactly if nothing is found at `open_files[fd]`, or an open
file that implements the call; the calls for limits exactly if the resource is not negative, or they fail before they
use it. -/
theorem indices_in_range (c : Call) (p : Process) (fd : BitVec 32) (l : Limits) (resource : BitVec 32)
    (rlim : Option Rlimit) : (c.InRange p fd ↔ c.Implemented p fd) ∧
    ((sysGetrlimit l resource rlim).InRange l rlim ↔ 0 ≤ resource.toInt ∨ rlim = none) ∧
    ((sysSetrlimit l resource rlim).InRange l rlim ↔ 0 ≤ resource.toInt ∨ ∀ r ∈ rlim,
    r.rlimCur > l.rlimitMax resource.toInt) :=
  ⟨c.inRange_iff p fd, sysGetrlimit_inRange l resource rlim, sysSetrlimit_inRange l resource rlim⟩

def shellProcess : Process where
  openFiles fd := if fd = 0 then 0x1000 else if fd = openFilesLimit then 0x2000 else 0
  opPointers a := if a = 0x1000 then terminalOps else ⟨none, some (.other 0), none, none, none, none, none, none⟩
  kinds fd h0 hlim hne := by
    by_cases hfd : fd = 0
    · exact Or.inl (by simp [hfd])
    · simp [hfd, Int.ne_of_lt hlim] at hne

def plainLimits : Limits where
  rlimitCur i := if i = 0 ∨ i = 1 then 1024 else if i = 2 then 16384 else 0
  rlimitMax i := if i = 0 ∨ i = 1 then 1024 else if i = 2 then 16384 else 0

/-- Seeking in the terminal calls `NULL`; file 1024 is the link field of the PCB taken for an open file; the limit of
resource -1 is before the tables. -/
theorem indices_out_of_range : ¬ Call.lseek.InRange shellProcess 0 ∧ ¬ Call.read.InRange shellProcess 1024 ∧
    ¬ (sysGetrlimit plainLimits (-1) (some ⟨0, 0⟩)).InRange plainLimits (some ⟨0, 0⟩) ∧
    ¬ (sysSetrlimit plainLimits (-1) (some ⟨0, 0⟩)).InRange plainLimits (some ⟨0, 0⟩) := by
  have hterminal : shellProcess.opPointers (shellProcess.openFiles (0#32).toInt) = terminalOps := by decide
  refine ⟨?_, ?_, ?_, ?_⟩
  · rw [Call.inRange_iff]
    intro h
    rcases h with h | ⟨-, -, ⟨-, h⟩ | ⟨h, -⟩⟩
    · exact absurd h (by decide)
    · exact h
    · exact absurd (hterminal.symm.trans h) (by decide)
  · rw [Call.inRange_iff]
    intro h
    rcases h with h | ⟨-, h, -⟩
    · exact absurd h (by decide)
    · exact absurd h (by decide)
  · rw [sysGetrlimit_inRange]
    decide
  · rw [sysSetrlimit_inRange]
    decide

end Adix.Syscall
