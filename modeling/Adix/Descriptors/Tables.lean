import Adix.Tarfs.Defs
import Mathlib.Algebra.Group.Int.Defs

/-!
# File descriptors (`sys/scheduler/pcb.c`, `sys/filesystems/file_structures.c`, `sys/ulimit/ulimit.c`)

Every PCB has an array `open_files` of pointers to objects with the position in the file, which `sys_fork` copies.
Arrays and objects are bytes of one memory, and a process is the address of its `open_files`; the word at
`open_files[fd]` is read and written for every `fd`, also outside of the array. The addresses that `kmalloc` returns
are arguments.
-/

namespace Adix.Descriptors

def openFilesLimit : Nat := 1024

def rlimitNofileMax : Nat := 1024

def tableSize : Nat := 8 * openFilesLimit

def pftSize : Nat := 24

/-- The memory, `rlimit_cur[RLIMIT_NOFILE]`, the processes, and the objects of type `struct process_files_table` in
use. -/
structure Kernel where
  mem : Bytes
  rlimitNofile : Nat
  procs : List Nat
  entries : List Nat

def slotAddr (this : Nat) (fd : Int) : Nat := (((this : Int) + 8 * fd) % 2 ^ 64).toNat

def getProcessFilesTable (m : Bytes) (this : Nat) (fd : Int) : Nat := m.readLE (slotAddr this fd) 8

def setSlot (m : Bytes) (this : Nat) (fd : Int) (pft : Nat) : Bytes := m.writeLE (slotAddr this fd) 8 pft

def header (m : Bytes) (pft : Nat) : Nat := m.readLE pft 8

def offset (m : Bytes) (pft : Nat) : Nat := m.readLE (pft + 8) 8

def opPointers (m : Bytes) (pft : Nat) : Nat := m.readLE (pft + 16) 8

def setOffset (m : Bytes) (pft v : Nat) : Bytes := m.writeLE (pft + 8) 8 v

/-- `get_new_process_files_table`, with the address `pft` from `kmalloc`. -/
def getNewProcessFilesTable (k : Kernel) (pft header offset opPointers : Nat) : Kernel :=
  { k with
    mem := ((k.mem.writeLE pft 8 header).writeLE (pft + 8) 8 offset).writeLE (pft + 16) 8 opPointers
    entries := pft :: k.entries }

def kfree (k : Kernel) (pft : Nat) : Kernel := { k with entries := k.entries.filter (· ≠ pft) }

def addToProcessFileTable (k : Kernel) (this pfd : Nat) : Kernel × Int :=
  match (List.range k.rlimitNofile).find? fun i : Nat => getProcessFilesTable k.mem this i = 0 with
  | some i => ({ k with mem := setSlot k.mem this i pfd }, i)
  | none => (kfree k pfd, -1)

def resetProcessFilesTable (k : Kernel) (this : Nat) (fd : BitVec 32) : Kernel × Int :=
  let pft := getProcessFilesTable k.mem this fd.toInt
  if pft = 0 then (k, -1)
  else
    let k := kfree k pft
    ({ k with mem := setSlot k.mem this fd.toInt 0 }, 0)

/-- `sys_open`. The search in the archive has found a header, or none; `tarfsOps` is the address of `tarfs_ops`. -/
def sysOpen (tarfsOps : Nat) (k : Kernel) (this : Nat) (found : Option Nat) (pft : Nat) : Kernel × Int :=
  match found with
  | none => (k, -1)
  | some header => addToProcessFileTable (getNewProcessFilesTable k pft header 0 tarfsOps) this pft

/-- `sys_opendir`. The search has found the header of a directory, or what is returned without one. -/
def sysOpendir (tarfsOps : Nat) (k : Kernel) (this : Nat) (found : Except Int Nat) (pft : Nat) : Kernel × Int :=
  match found with
  | .error r => (k, r)
  | .ok header => addToProcessFileTable (getNewProcessFilesTable k pft header 0 tarfsOps) this pft

def sysClose (k : Kernel) (this : Nat) (fd : BitVec 32) : Kernel × Int := resetProcessFilesTable k this fd

def sysClosedir (k : Kernel) (this : Nat) (fd : BitVec 32) : Kernel × Int := resetProcessFilesTable k this fd

def sysLseek (k : Kernel) (this : Nat) (fd : BitVec 32) (offset : BitVec 64) (whence : BitVec 32) : Kernel × Int :=
  let pft := getProcessFilesTable k.mem this fd.toInt
  if pft = 0 then (k, -1)
  else
    let old := BitVec.ofNat 64 (Descriptors.offset k.mem pft)
    ({ k with mem := setOffset k.mem pft (Tarfs.seekTo old offset whence).toNat }, 0)

/-- The loop of `sys_read`: the position and the number of bytes after it. -/
def readLoop (size : BitVec 64) : Nat → BitVec 64 → Nat → BitVec 64 × Nat
  | 0, offset, i => (offset, i)
  | n + 1, offset, i => if size = offset then (offset, i) else readLoop size n (offset + 1) (i + 1)

/-- `sys_read`, without the bytes that it copies to the caller. `fileSize` is the size of the regular file whose header
is at an address of the archive. -/
def sysRead (fileSize : Nat → Option (BitVec 64)) (k : Kernel) (this : Nat) (fd : BitVec 32) (count : BitVec 64) :
    Kernel × Int :=
  let pft := getProcessFilesTable k.mem this fd.toInt
  if pft = 0 then (k, -1)
  else match fileSize (header k.mem pft) with
    | none => (k, 0)
    | some size =>
      let (new, i) := readLoop size count.toNat (BitVec.ofNat 64 (offset k.mem pft)) 0
      ({ k with mem := setOffset k.mem pft new.toNat }, i)

/-- `sys_readdir`, without the header that it copies to `toRet`. `hasEntry` says if the directory with the header at an
address has an entry with this number. -/
def sysReaddir (hasEntry : Nat → Nat → Bool) (k : Kernel) (this : Nat) (fd : BitVec 32) (toRet : Nat) : Kernel × Int :=
  let pft := getProcessFilesTable k.mem this fd.toInt
  if pft = 0 then (k, 0)
  else if hasEntry (header k.mem pft) (offset k.mem pft) then
    ({ k with mem := setOffset k.mem pft (offset k.mem pft + 1) }, toRet)
  else (k, 0)

/-- One round of the loop of `sys_fork` over `open_files`, with the address for a copy from `kmalloc`. -/
def forkSlot (this child : Nat) (alloc : Nat → Nat) (k : Kernel) (i : Nat) : Kernel :=
  let pft := getProcessFilesTable k.mem this i
  if pft ≠ 0 then
    -- `get_duplicate_process_files_table`
    let k := getNewProcessFilesTable k (alloc i) (header k.mem pft) (offset k.mem pft) (opPointers k.mem pft)
    { k with mem := setSlot k.mem child i (alloc i) }
  else { k with mem := setSlot k.mem child i 0 }

def forkFiles (k : Kernel) (this child : Nat) (alloc : Nat → Nat) : Kernel :=
  (List.range openFilesLimit).foldl (forkSlot this child alloc) k

/-- How a fork ends: it fails before the files are copied or afterwards, or there is a new process. -/
inductive ForkEnd where
  | failsBefore
  | failsAfter
  | done
  deriving DecidableEq

/-- `sys_fork`, as far as files are concerned. A fork that fails does not give back the copies that it has made. -/
def sysFork (k : Kernel) (this child : Nat) (alloc : Nat → Nat) : ForkEnd → Kernel
  | .failsBefore => k
  | .failsAfter => forkFiles k this child alloc
  | .done => { forkFiles k this child alloc with procs := child :: k.procs }

/-- `sys_setrlimit` for `RLIMIT_NOFILE`. -/
def sysSetrlimit (k : Kernel) (rlimCur : Nat) : Kernel × Int :=
  if rlimCur > rlimitNofileMax then (k, -1) else ({ k with rlimitNofile := rlimCur }, 0)

inductive Call where
  | «open» (found : Option Nat) (pft : Nat)
  | opendir (found : Except Int Nat) (pft : Nat)
  | close (fd : BitVec 32)
  | closedir (fd : BitVec 32)
  | lseek (fd : BitVec 32) (offset : BitVec 64) (whence : BitVec 32)
  | read (fd : BitVec 32) (count : BitVec 64)
  | readdir (fd : BitVec 32) (toRet : Nat)
  | fork (child : Nat) (alloc : Nat → Nat) (how : ForkEnd)
  | setrlimit (rlimCur : Nat)

/-- What does not change: the address of `tarfs_ops`, the sizes of the files in the archive and the entries of its
directories. -/
structure Archive where
  tarfsOps : Nat
  fileSize : Nat → Option (BitVec 64)
  hasEntry : Nat → Nat → Bool

/-- A call of the process `this`, with its result; that of a fork is not modelled. -/
def call (a : Archive) (k : Kernel) (this : Nat) : Call → Kernel × Int
  | .open found pft => sysOpen a.tarfsOps k this found pft
  | .opendir found pft => sysOpendir a.tarfsOps k this found pft
  | .close fd => sysClose k this fd
  | .closedir fd => sysClosedir k this fd
  | .lseek fd offset whence => sysLseek k this fd offset whence
  | .read fd count => sysRead a.fileSize k this fd count
  | .readdir fd toRet => sysReaddir a.hasEntry k this fd toRet
  | .fork child alloc how => (sysFork k this child alloc how, 0)
  | .setrlimit rlimCur => sysSetrlimit k rlimCur

def step (a : Archive) (k : Kernel) (c : Nat × Call) : Option Kernel := some (call a k c.1 c.2).1

/-! ### What a call writes to -/

open List

variable {k : Kernel} {m m' : Bytes} {this p q i j e v a n x : Nat}

private theorem slotAddr_eq (hp : p + tableSize ≤ 2 ^ 64) (hi : i < openFilesLimit) : slotAddr p i = p + 8 * i := by
  unfold tableSize openFilesLimit at hp
  unfold openFilesLimit at hi
  unfold slotAddr
  omega

theorem getProcessFilesTable_congr (hp : p + tableSize ≤ 2 ^ 64) (hi : i < openFilesLimit)
    (h : ∀ x, p ≤ x → x < p + tableSize → m' x = m x) : getProcessFilesTable m' p i = getProcessFilesTable m p i := by
  unfold getProcessFilesTable
  rw [slotAddr_eq hp hi]
  apply Bytes.readLE_congr
  intro x h1 h2
  unfold openFilesLimit at hi
  refine h x (by omega) ?_
  unfold tableSize openFilesLimit
  omega

theorem setSlot_of_not_mem (hp : p + tableSize ≤ 2 ^ 64) (hi : i < openFilesLimit) (hx : x < p ∨ p + tableSize ≤ x) :
    setSlot m p i v x = m x := by
  unfold setSlot
  rw [slotAddr_eq hp hi]
  unfold tableSize openFilesLimit at hx
  unfold openFilesLimit at hi
  exact Bytes.writeLE_of_not_mem (by omega)

/-- A slot that is set is read back, and the others are as before. -/
theorem getProcessFilesTable_setSlot (hp : p + tableSize ≤ 2 ^ 64) (hi : i < openFilesLimit) (hj : j < openFilesLimit)
    (hv : v < 2 ^ 64) :
    getProcessFilesTable (setSlot m p i v) p j = if j = i then v else getProcessFilesTable m p j := by
  unfold getProcessFilesTable setSlot
  rw [slotAddr_eq hp hi, slotAddr_eq hp hj]
  split
  · next hji =>
    rw [hji]
    exact Bytes.readLE_writeLE_same hv
  · next hji =>
    apply Bytes.readLE_writeLE_of_disjoint
    unfold Apart
    omega

def entryAt (m : Bytes) (pft : Nat) : Nat × Nat × Nat := (header m pft, offset m pft, opPointers m pft)

private theorem entryAt_congr (h : ∀ x, e ≤ x → x < e + pftSize → m' x = m x) : entryAt m' e = entryAt m e := by
  unfold pftSize at h
  have hword : ∀ n, n + 8 ≤ 24 → m'.readLE (e + n) 8 = m.readLE (e + n) 8 := by
    intro n hn
    apply Bytes.readLE_congr
    intro x h1 h2
    exact h x (by omega) (by omega)
  have h0 := hword 0 (by omega)
  have h8 := hword 8 (by omega)
  have h16 := hword 16 (by omega)
  rw [Nat.add_zero] at h0
  unfold entryAt header offset opPointers
  rw [h0, h8, h16]

theorem setOffset_of_not_mem (hx : x < e ∨ e + pftSize ≤ x) : setOffset m e v x = m x := by
  unfold pftSize at hx
  exact Bytes.writeLE_of_not_mem (by omega)

theorem getNew_of_not_mem {hd o ops : Nat} (hx : x < e ∨ e + pftSize ≤ x) :
    (getNewProcessFilesTable k e hd o ops).mem x = k.mem x := by
  unfold pftSize at hx
  unfold getNewProcessFilesTable
  dsimp only
  rw [Bytes.writeLE_of_not_mem (by omega), Bytes.writeLE_of_not_mem (by omega), Bytes.writeLE_of_not_mem (by omega)]

/-- Tables and objects do not overlap, a slot that is not `NULL` has an object in use, and no two slots have the same
one. -/
structure Inv (k : Kernel) : Prop where
  limit : k.rlimitNofile ≤ rlimitNofileMax
  proc : ∀ p ∈ k.procs, p + tableSize ≤ 2 ^ 64
  procApart : ∀ p ∈ k.procs, ∀ q ∈ k.procs, p ≠ q → Apart p tableSize q tableSize
  entry : ∀ e ∈ k.entries, 0 < e ∧ e + pftSize ≤ 2 ^ 64
  entryApart : ∀ e ∈ k.entries, ∀ f ∈ k.entries, e ≠ f → Apart e pftSize f pftSize
  entryProc : ∀ e ∈ k.entries, ∀ p ∈ k.procs, Apart e pftSize p tableSize
  slot : ∀ p ∈ k.procs, ∀ i < openFilesLimit, getProcessFilesTable k.mem p i ≠ 0 →
    getProcessFilesTable k.mem p i ∈ k.entries
  own : ∀ p ∈ k.procs, ∀ q ∈ k.procs, ∀ i < openFilesLimit, ∀ j < openFilesLimit, getProcessFilesTable k.mem p i ≠ 0 →
    getProcessFilesTable k.mem p i = getProcessFilesTable k.mem q j → p = q ∧ i = j

/-- Memory that `kmalloc` can return: it is not in use. -/
structure Fresh (k : Kernel) (a n : Nat) : Prop where
  pos : 0 < a
  fits : a + n ≤ 2 ^ 64
  proc : ∀ p ∈ k.procs, Apart a n p tableSize
  entry : ∀ e ∈ k.entries, Apart a n e pftSize

def SameFiles (m m' : Bytes) (p : Nat) : Prop := ∀ i < openFilesLimit,
  getProcessFilesTable m' p i = getProcessFilesTable m p i ∧
    (getProcessFilesTable m p i ≠ 0 → entryAt m' (getProcessFilesTable m p i) = entryAt m (getProcessFilesTable m p i))

def Unused (k : Kernel) (x : Nat) : Prop :=
  (∀ p ∈ k.procs, x < p ∨ p + tableSize ≤ x) ∧ ∀ e ∈ k.entries, x < e ∨ e + pftSize ≤ x

theorem Fresh.unused (h : Fresh k a n) (h1 : a ≤ x) (h2 : x < a + n) : Unused k x := by
  constructor
  · intro p hp
    exact (h.proc p hp).outside h1 h2
  · intro e he
    exact (h.entry e he).outside h1 h2

theorem Fresh.not_mem (h : Fresh k a pftSize) : a ∉ k.entries := fun ha =>
  (h.entry a ha).ne (by decide) (by decide) rfl

def Writes (k : Kernel) (this : Nat) (m' : Bytes) : Prop := ∀ x, m' x ≠ k.mem x →
  (this ≤ x ∧ x < this + tableSize) ∨
    (∃ i < openFilesLimit, getProcessFilesTable k.mem this i ≠ 0 ∧ getProcessFilesTable k.mem this i ≤ x ∧
      x < getProcessFilesTable k.mem this i + pftSize) ∨ Unused k x

/-- A call leaves the slots and objects of every other process alone. -/
theorem Writes.others (hw : Writes k this m') (I : Inv k) (hthis : this ∈ k.procs) (hp : p ∈ k.procs) (hne : p ≠ this) :
    SameFiles k.mem m' p := by
  intro i hi
  constructor
  · refine getProcessFilesTable_congr (I.proc p hp) hi fun x h1 h2 => ?_
    by_contra hx
    obtain ⟨h3, h4⟩ | ⟨j, hj, hj0, h3, h4⟩ | ⟨h3, -⟩ := hw x hx
    · have := (I.procApart p hp this hthis hne).outside h1 h2
      omega
    · have := (I.entryProc _ (I.slot this hthis j hj hj0) p hp).symm.outside h1 h2
      omega
    · have := h3 p hp
      omega
  · intro hi0
    have hentry := I.slot p hp i hi hi0
    refine entryAt_congr fun x h1 h2 => ?_
    by_contra hx
    obtain ⟨h3, h4⟩ | ⟨j, hj, hj0, h3, h4⟩ | ⟨-, h3⟩ := hw x hx
    · have := (I.entryProc _ hentry this hthis).outside h1 h2
      omega
    · -- the object of another slot is another object
      have hdiff : getProcessFilesTable k.mem p i ≠ getProcessFilesTable k.mem this j :=
        fun heq => hne (I.own p hp this hthis i hi j hj hi0 heq).1
      have := (I.entryApart _ hentry _ (I.slot this hthis j hj hj0) hdiff).outside h1 h2
      omega
    · have := h3 _ hentry
      omega

namespace Inv

variable (I : Inv k)
include I

theorem congr_mem (h : ∀ p ∈ k.procs, ∀ i < openFilesLimit,
    getProcessFilesTable m' p i = getProcessFilesTable k.mem p i) : Inv { k with mem := m' } where
  limit := I.limit
  proc := I.proc
  procApart := I.procApart
  entry := I.entry
  entryApart := I.entryApart
  entryProc := I.entryProc
  slot p hp i hi := by
    rw [h p hp i hi]
    exact I.slot p hp i hi
  own p hp q hq i hi j hj := by
    rw [h p hp i hi, h q hq j hj]
    exact I.own p hp q hq i hi j hj

theorem slots_of_apart {x0 : Nat} (hw : ∀ x, x < x0 ∨ x0 + n ≤ x → m' x = k.mem x)
    (hap : ∀ p ∈ k.procs, Apart x0 n p tableSize) :
    ∀ p ∈ k.procs, ∀ i < openFilesLimit, getProcessFilesTable m' p i = getProcessFilesTable k.mem p i := by
  intro p hp i hi
  exact getProcessFilesTable_congr (I.proc p hp) hi fun x h1 h2 => hw x ((hap p hp).symm.outside h1 h2)

/-- A new object keeps the invariant. -/
theorem alloc (hf : Fresh k e pftSize) (hd o ops : Nat) : Inv (getNewProcessFilesTable k e hd o ops) := by
  have hslots : ∀ p ∈ k.procs, ∀ i < openFilesLimit,
      getProcessFilesTable (getNewProcessFilesTable k e hd o ops).mem p i = getProcessFilesTable k.mem p i :=
    I.slots_of_apart (fun x hx => getNew_of_not_mem hx) hf.proc
  have hmem := I.congr_mem hslots
  refine ⟨I.limit, I.proc, I.procApart, fun f hfm => ?_, fun f hfm g hgm hne => ?_, fun f hfm p hp => ?_,
    fun p hp i hi hi0 => mem_cons_of_mem e (hmem.slot p hp i hi hi0), hmem.own⟩
  · rcases mem_cons.1 hfm with rfl | hfm
    · exact ⟨hf.pos, hf.fits⟩
    · exact I.entry f hfm
  · rcases mem_cons.1 hfm with rfl | hfk
    · exact hf.entry g ((mem_cons.1 hgm).resolve_left (Ne.symm hne))
    · rcases mem_cons.1 hgm with rfl | hgk
      · exact (hf.entry f hfk).symm
      · exact I.entryApart f hfk g hgk hne
  · rcases mem_cons.1 hfm with rfl | hfm
    · exact hf.proc p hp
    · exact I.entryProc f hfm p hp

theorem get_setSlot (hp : p ∈ k.procs) (hi : i < openFilesLimit) (hv : v < 2 ^ 64) (hq : q ∈ k.procs)
    (hj : j < openFilesLimit) :
    getProcessFilesTable (setSlot k.mem p i v) q j = if q = p ∧ j = i then v else getProcessFilesTable k.mem q j := by
  by_cases hqp : q = p
  · subst hqp
    rw [getProcessFilesTable_setSlot (I.proc q hq) hi hj hv]
    simp
  · rw [if_neg (fun h => hqp h.1)]
    refine getProcessFilesTable_congr (I.proc q hq) hj fun x h1 h2 => setSlot_of_not_mem (I.proc p hp) hi ?_
    exact (I.procApart q hq p hp hqp).outside h1 h2

/-- A slot may be set to an object that no slot has. -/
theorem fillSlot (hp : p ∈ k.procs) (hi : i < openFilesLimit) (he : e ∈ k.entries)
    (hloose : ∀ q ∈ k.procs, ∀ j < openFilesLimit, getProcessFilesTable k.mem q j ≠ e) :
    Inv { k with mem := setSlot k.mem p i e } := by
  have hlt : e < 2 ^ 64 := by
    have := (I.entry e he).2
    unfold pftSize at this
    omega
  refine ⟨I.limit, I.proc, I.procApart, I.entry, I.entryApart, I.entryProc, fun q hq j hj => ?_,
    fun q hq q' hq' j hj j' hj' => ?_⟩
  · rw [I.get_setSlot hp hi hlt hq hj]
    split
    · exact fun _ => he
    · exact I.slot q hq j hj
  · rw [I.get_setSlot hp hi hlt hq hj, I.get_setSlot hp hi hlt hq' hj']
    split
    · next h =>
      split
      · next h' => exact fun _ _ => ⟨h.1.trans h'.1.symm, h.2.trans h'.2.symm⟩
      · exact fun _ heq => absurd heq.symm (hloose q' hq' j' hj')
    · split
      · exact fun _ heq => absurd heq (hloose q hq j hj)
      · exact I.own q hq q' hq' j hj j' hj'

/-- The position in an object may change. -/
theorem seek (he : e ∈ k.entries) (v : Nat) : Inv { k with mem := setOffset k.mem e v } :=
  I.congr_mem (I.slots_of_apart (fun _ hx => setOffset_of_not_mem hx) (I.entryProc e he))

theorem drop (hloose : ∀ q ∈ k.procs, ∀ j < openFilesLimit, getProcessFilesTable k.mem q j ≠ e) : Inv (kfree k e) := by
  have hsub : ∀ f ∈ k.entries.filter (· ≠ e), f ∈ k.entries := fun f hf => mem_of_mem_filter hf
  refine ⟨I.limit, I.proc, I.procApart, fun f hf => I.entry f (hsub f hf),
    fun f hf g hg => I.entryApart f (hsub f hf) g (hsub g hg), fun f hf => I.entryProc f (hsub f hf),
    fun q hq j hj hj0 => ?_, I.own⟩
  exact mem_filter.2 ⟨I.slot q hq j hj hj0, decide_eq_true (hloose q hq j hj)⟩

/-- A slot may be emptied and its object freed. -/
theorem clearSlot (hp : p ∈ k.procs) (hi : i < openFilesLimit) (hi0 : getProcessFilesTable k.mem p i ≠ 0) :
    Inv (kfree { k with mem := setSlot k.mem p i 0 } (getProcessFilesTable k.mem p i)) := by
  have hget : ∀ q ∈ k.procs, ∀ j < openFilesLimit, getProcessFilesTable (setSlot k.mem p i 0) q j =
      if q = p ∧ j = i then 0 else getProcessFilesTable k.mem q j :=
    fun q hq j hj => I.get_setSlot hp hi (by omega) hq hj
  have hempty : Inv { k with mem := setSlot k.mem p i 0 } := by
    refine ⟨I.limit, I.proc, I.procApart, I.entry, I.entryApart, I.entryProc, fun q hq j hj => ?_,
      fun q hq q' hq' j hj j' hj' => ?_⟩
    · rw [hget q hq j hj]
      split
      · exact fun h => absurd rfl h
      · exact I.slot q hq j hj
    · rw [hget q hq j hj, hget q' hq' j' hj']
      split
      · exact fun h => absurd rfl h
      · split
        · exact fun h heq => absurd heq h
        · exact I.own q hq q' hq' j hj j' hj'
  apply hempty.drop
  intro q hq j hj
  rw [hget q hq j hj]
  split
  · exact Ne.symm hi0
  · next h =>
    intro heq
    have hj0 : getProcessFilesTable k.mem q j ≠ 0 := by
      rw [heq]
      exact hi0
    exact h (I.own q hq p hp j hj i hi hj0 heq)

end Inv

end Adix.Descriptors
