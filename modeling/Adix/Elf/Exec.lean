import Adix.Elf.Load

/-!
# Replacing the program of a process (`sys/scheduler/exec.c`)

`sys_execvpe` gives the task its new name first. If `load_elf` returns -1, the old table and `mm_struct` are put back,
but not the old name, and 0 is returned. The heap is not modelled: `ExecEnv` says which allocations succeed.
-/

namespace Adix.Elf

open PageTable PhysPages Cow Space Fork Tarfs Mmap VirtMem List Option

/-- What `sys_execvpe` changes in the `pcb_t` besides `cr3_content`: `name`, the address `mm`, `u_stack_base` and
`open_files`. -/
structure Task where
  name : Option (List (BitVec 8))
  mm : Word
  uStackBase : Word
  files : Files

structure Exec where
  locals : Locals
  task : Task

/-- What a call finds around it: which allocations succeed, the `mm_struct` that `new_mm` returns, the addresses of the
local variables of `load_elf`, and `rlimit_cur[RLIMIT_STACK]`. -/
structure ExecEnv where
  argsOk : Bool
  nameOk : Bool
  fileOk : Bool
  newMm : Word
  ehdr : Word
  phdrs : Word
  rlimitStack : Word

inductive Outcome where
  | returned (ret : Word) (x : Exec)
  | entered (rsp rip : Word) (x : Exec)

/-- `get_kduplicate_curr_self_ref_PML4`: the state afterwards and the physical address, unless it is `NULL`. The outer
`none` is a page fault at the self reference. -/
def getKduplicateCurrSelfRefPml4 (s : Mach) (cr3 : Nat) : Option (Mach × Option Nat) :=
  let (s, pml4) := getZeroedPageTransObj s
  if s.virtualAddr pml4 = 0 then some (s, none)
  else (hardwareWalk s cr3 selfRefPml4).map fun src =>
    let s := s.store pml4 pml4KernelEntry (s.mem src pml4KernelEntry)
    (s.store pml4 selfRefEntry
      (pageTransNextLevelAddr (BitVec.ofNat 64 pml4) ||| pageTransPresent ||| pageTransReadWrite), some pml4)

def setProc (k : Kernel) (proc : Proc) : Kernel :=
  { k with sys := { k.sys with procs := k.sys.procs.set k.running proc } }

/-- `u_stack_vma` gets the flag and the limit. If `find_vma` has returned the list head, what is written is not in the
list. -/
def setGrowsDown (rlimitStack base : Word) (mmap : List Vma.VmArea) : List Vma.VmArea :=
  match mmap.findIdx? fun v => decide (base < v.vmEnd) with
  | some i => mmap.modify i fun v =>
    { v with vmFlags := v.vmFlags ||| Vma.mapGrowsDown, maxSize := rlimitStack / Vma.sizeofPage }
  | none => mmap

/-- The stack of the new program: the state afterwards and `u_stack_base`. -/
def userStack (k : Kernel) (rlimitStack : Word) : Option (Kernel × Word) :=
  k.proc?.bind fun proc =>
    let y : Vma.Pages.Space :=
      ⟨k.sys.mach, fun | .kernel => k.sys.kernelMmap | .task => proc.mmap, true, k.sys.startKernel⟩
    (Vma.Pages.vAllocPagesAtVirt proc.pml4 k.env.toEnv y 1 (pageTransReadWrite ||| pageTransUserSupervisor)
      0x70000000).map
      fun (y, base) => (setProc (k.withMach y.mach)
        { proc with mmap := setGrowsDown rlimitStack base (y.mmaps .task) }, base)

/-- `sys_execvpe`, with the archive at `start`. Without memory for the copies of the arguments it faults. -/
def sysExecvpe (env : ExecEnv) (fuel : Nat) (start : Word) (x : Exec) (path : List (BitVec 8)) : Option Outcome :=
  if env.argsOk = false then none
  else if env.nameOk = false then some (.returned (-1) { x with task := { x.task with name := none } })
  else
    let task := { x.task with name := some path }
    let k := x.locals.kernel
    k.proc?.bind fun old =>
      (getKduplicateCurrSelfRefPml4 k.sys.mach old.pml4).bind fun
        | (s, none) => some (.returned (-1) ⟨{ x.locals with kernel := k.withMach s }, task⟩)
        | (s, some pml4) =>
          let oldMm := task.mm
          let task := { task with mm := env.newMm }
          (loadElf fuel { x.locals with kernel := setProc (k.withMach s) ⟨pml4, []⟩ } start task.files path env.fileOk
            env.ehdr env.phdrs).bind fun (m, files, rip) =>
              let task := { task with files := files }
              if rip = -1 then
                some (.returned 0 ⟨{ m with kernel := setProc m.kernel old }, { task with mm := oldMm }⟩)
              else (userStack m.kernel env.rlimitStack).map fun (k, base) =>
                .entered (base ||| 0xfff) rip ⟨{ m with kernel := k }, { task with uStackBase := base }⟩

structure TaskKept (x x' : Exec) : Prop where
  name_eq : x'.task.name = x.task.name
  mm_eq : x'.task.mm = x.task.mm
  stack_eq : x'.task.uStackBase = x.task.uStackBase
  files_eq : x'.task.files = x.task.files
  proc_eq : x'.locals.kernel.proc? = x.locals.kernel.proc?

/-- What `sys_read` delivers of the member `i`: the contents of a regular file with the byte behind them, and nothing of
another member or the last header. -/
def shown (t : Tape) (i : Nat) : List (BitVec 8) :=
  match t.members[i]? with
  | some x =>
    if x.typeflag = 0x30 ∧ x.Unlinked then
      ((tape t.members).drop (offsetOf t.members i + 512)).take (x.contents.length + 1)
    else []
  | none => []

/-- The first bytes of `elf_header` after the call of `sys_read`, when `left` has been there before. -/
def elfHeader (t : Tape) (i : Nat) (left : List (BitVec 8)) : List (BitVec 8) :=
  (shown t i).take 4 ++ (left.take 4).drop (shown t i).length

/-- No member has the name, or `load_elf` does not find the magic of an ELF file in `elf_header`. -/
def NotElf (t : Tape) (path left : List (BitVec 8)) : Prop :=
  ∀ i, found t.members path = some i → elfHeader t i left ≠ magic

/-- A process calls `sys_execvpe`; `left` are the bytes that `elf_header` has before. If there is no page for the new
table, it is put at address 0, where no part of the archive is. -/
structure CallsExec (t : Tape) (x : Exec) (proc : Proc) (env : ExecEnv) (path left : List (BitVec 8)) : Prop where
  ready : Ready x.locals.kernel proc
  archive : ArchiveIn t x.locals.kernel proc
  low : freeCount x.locals.kernel.sys.mach.pages = 0 →
    ∀ a e, t.Has a → leaf x.locals.kernel.sys.mach.mem proc.pml4 a = some e → hardwareFormat.next e ≠ 0
  name : 0 ∉ path
  off : ∀ a, t.Has a → x.locals.stack a = none
  header : StackHas x.locals.stack env.ehdr left
  size : left.length = 64

variable {s s' : Mach} {k : Kernel} {proc : Proc} {t : Tape} {m : Locals} {files : Files}
  {path left l : List (BitVec 8)} {ehdr a : Word} {z i fuel fd : Nat} {x : Member}

structure KernelCopy (r : Nat) (s s' : Mach) (z : Nat) : Prop where
  kernel : s'.mem z pml4KernelEntry = s.mem r pml4KernelEntry
  other : ∀ q, q ≠ z → s'.mem q = s.mem q
  page : z = 0 ∧ freeCount s.pages = 0 ∨ Free s z

private theorem getKduplicate_cases {r : Nat} (hw : WellFormed (· ≠ selfRefEntry) s (· = r)) (hself : SelfRef s r) :
    (∃ s', getKduplicateCurrSelfRefPml4 s r = some (s', none)) ∨
      ∃ s' z, getKduplicateCurrSelfRefPml4 s r = some (s', some z) ∧ KernelCopy r s s' z := by
  have hclears := getZeroed_spec hw.listed
  unfold getKduplicateCurrSelfRefPml4
  dsimp only
  generalize (getZeroedPageTransObj s).1 = u at hclears ⊢
  generalize (getZeroedPageTransObj s).2 = z at hclears ⊢
  have hpage : z = 0 ∧ freeCount s.pages = 0 ∨ Free s z := by
    obtain ⟨h0, hc, -⟩ | ⟨-, hf, -⟩ := hclears.page
    · exact .inl ⟨h0, hc⟩
    · exact .inr hf
  have hroot := hw.table r ⟨r, [], rfl, TablePath.nil, rfl⟩
  have hne : r ≠ z := by
    intro hrz
    obtain ⟨h0, -⟩ | hf := hpage
    · exact hroot.2.1 (hrz.trans h0)
    · exact hroot.2.2 (hrz ▸ hf)
  split
  · exact .inl ⟨u, rfl⟩
  · have hwalk : hardwareWalk u r selfRefPml4 = some r := by
      refine hardwareWalk_pml4e (hself.congr ?_) 0
      rw [hclears.mem_eq, if_neg hne]
    rw [hwalk]
    refine .inr ⟨_, z, rfl, ?_, fun q hq => ?_, hpage⟩
    · rw [Mach.store_mem, if_neg fun h => absurd h.2 (by decide), Mach.store_mem, if_pos ⟨rfl, rfl⟩, hclears.mem_eq,
        if_neg hne]
    · funext j
      rw [Mach.store_mem, if_neg fun h => hq h.1, Mach.store_mem, if_neg fun h => hq h.1, hclears.mem_eq, if_neg hq]

section Copy

variable {r : Nat} (hw : WellFormed (· ≠ selfRefEntry) s (· = r)) (h : KernelCopy r s s' z)
include hw h

private theorem KernelCopy.ne_table {q : Nat} (hq : TableOf r s q) : q ≠ z := by
  rintro rfl
  obtain ⟨-, h0, hf⟩ := hw.table q hq
  obtain ⟨hz, -⟩ | hfree := h.page
  · exact h0 hz
  · exact hf hfree

private theorem KernelCopy.hardwareLeaf_eq (ha : kernmem ≤ a.toNat) : hardwareLeaf s'.mem z a = leaf s.mem r a := by
  have hslot : indexPml4e a = pml4KernelEntry := indexPml4e_top (Nat.le_trans (by decide) ha)
  rw [← hardwareLeaf_eq_leaf hw (kernel_slot ha)]
  unfold hardwareLeaf tablePath
  rw [Radix.lookup_cons, Radix.lookup_cons, hslot, h.kernel]
  cases hl : hardwareFormat.link (s.mem r pml4KernelEntry) with
  | none => rfl
  | some p =>
    -- the tables on the way are tables of the process
    have htable : ∀ τ q, τ.length ≤ 2 → Radix.walk hardwareFormat s.mem p τ = some q → q ≠ z := by
      intro τ q hτ hq
      have hpath : TablePath (· ≠ selfRefEntry) (pml4KernelEntry :: τ) := by
        refine ⟨Nat.succ_le_succ hτ, fun i hi => ?_⟩
        cases hi
        decide
      refine h.ne_table hw ⟨r, _, rfl, hpath, ?_⟩
      rw [← hardware_walk_eq hw hpath, Radix.walk_cons, hl]
      exact hq
    refine Radix.lookup_congr (Radix.walk_congr fun τ i ρ q hτ hq => ?_) fun q hq => ?_
    · have hlen := congrArg List.length hτ
      simp only [length_cons, length_nil, length_append] at hlen
      rw [h.other q (htable τ q (by omega) hq)]
    · rw [h.other q (htable _ q le_rfl hq)]

end Copy

private theorem KernelCopy.archive (hr : Ready k proc) (h : KernelCopy proc.pml4 k.sys.mach s' z)
    (hin : ArchiveIn t k proc) (hlow : freeCount k.sys.mach.pages = 0 →
      ∀ a e, t.Has a → leaf k.sys.mach.mem proc.pml4 a = some e → hardwareFormat.next e ≠ 0) :
    Holds (setProc (k.withMach s') ⟨z, []⟩) t.start (tape t.members) := by
  have hproc : (setProc (k.withMach s') ⟨z, []⟩).sys.procs[k.running]? = some ⟨z, []⟩ := by
    have hrun := (List.getElem?_eq_some_iff.1 hr.running).1
    exact getElem?_set_self hrun
  refine hin.bytes.congr fun j hj => ?_
  have ha := Tape.has_add hj
  generalize t.start + BitVec.ofNat 64 j = a at ha ⊢
  have hupper := t.placed.trans ha.1
  obtain ⟨-, e, he, -, hfree⟩ := hin.mapped a ha
  have hne : hardwareFormat.next e ≠ z := by
    intro hez
    obtain ⟨hz, hc⟩ | hf := h.page
    · exact hlow hc a e ha he (hez.trans hz)
    · exact hfree (hez ▸ hf)
  have hentry : (setProc (k.withMach s') ⟨z, []⟩).entry a = some e := by
    show Space.entryOf _ _ a = _
    rw [Space.entryOf, show (setProc (k.withMach s') ⟨z, []⟩).running = k.running from rfl, hproc]
    exact (h.hardwareLeaf_eq hr.wf hupper).trans he
  rw [Kernel.load_eq hr.running hr.wf (kernel_slot hupper), he]
  show Kernel.load _ a = _
  rw [Kernel.load, hentry, map_some, map_some]
  show some (Kernel.byteOf (s'.mem _) a) = _
  rw [h.other _ hne]

private theorem Holds.eq_of_length {l' : List (BitVec 8)} (h : Holds m a l) (h' : Holds m a l')
    (hlen : l.length = l'.length) : l = l' := by
  refine ext_getElem hlen fun j h1 h2 => ?_
  have hj := h j _ (List.getElem?_eq_getElem h1)
  rw [h' j _ (List.getElem?_eq_getElem h2)] at hj
  exact (some.inj hj).symm

private theorem shown_of_regular (hm : Holds m t.start (tape t.members)) (hx : t.members[i]? = some x)
    (hreg : x.Regular) : ∃ c, shown t i = x.contents ++ [c] ∧ Holds m (t.headerOf i + 512) (x.contents ++ [c]) := by
  obtain ⟨ha, hlen⟩ := Tape.memberAt hm hx
  obtain ⟨c, hc⟩ := ha.contents
  have hslice := Holds.slice hm (offsetOf t.members i + 512) (x.contents.length + 1)
  rw [BitVec.ofNat_add, ← BitVec.add_assoc] at hslice
  have hshown : shown t i = ((tape t.members).drop (offsetOf t.members i + 512)).take (x.contents.length + 1) := by
    unfold shown
    rw [hx]
    exact if_pos hreg
  refine ⟨c, ?_, hc⟩
  rw [hshown]
  refine Holds.eq_of_length hslice hc ?_
  rw [length_take, length_drop, length_append, length_singleton]
  omega

private theorem shown_of_other (h : ∀ x, t.members[i]? = some x → ¬ x.Regular) : shown t i = [] := by
  unfold shown
  split
  · next x hx => exact if_neg (h x hx)
  · rfl

private theorem elfHeader_of_file (hm : Holds m t.start (tape t.members)) (hx : t.members[i]? = some x)
    (hreg : x.Regular) (hlen : 4 ≤ x.contents.length) : elfHeader t i left = x.contents.take 4 := by
  obtain ⟨c, hshown, -⟩ := shown_of_regular hm hx hreg
  have hdrop : (left.take 4).drop (x.contents ++ [c]).length = [] := by
    apply drop_eq_nil_of_le
    rw [length_take, length_append]
    omega
  rw [elfHeader, hshown, hdrop, append_nil, take_append_of_le_length hlen]

section Read

variable (hm : Holds m t.start (tape t.members)) (hoff : ∀ a, t.Has a → m.stack a = none)
  (hleft : StackHas m.stack ehdr left) (hsize : left.length = 64)
include hm hoff hleft hsize

private theorem sysRead_elfHeader (hi : i ≤ t.members.length) (hfd : files.openFiles fd = some ⟨t.headerOf i, 0⟩) :
    ∃ m' pft r, sysRead m files fd ehdr sizeofEhdr = some (m', files.set fd (some pft), r) ∧ m'.kernel = m.kernel ∧
      Holds m' ehdr (elfHeader t i left) := by
  have hbuf : ∀ j < 64, (m.stack (ehdr + BitVec.ofNat 64 j)).isSome := by
    intro j hj
    rw [hleft j _ (List.getElem?_eq_getElem (by omega))]
    rfl
  by_cases hreg : ∃ x, t.members[i]? = some x ∧ x.Regular
  · obtain ⟨x, hx, hreg⟩ := hreg
    obtain ⟨c, hshown, hc⟩ := shown_of_regular hm hx hreg
    have hlen : (shown t i).length = x.contents.length + 1 := by
      rw [hshown, length_append, length_singleton]
    rw [holds_append, holds_cons] at hc
    have hbuffer : Buffer (Fills m ehdr (min 64 (shown t i).length)) t.Has ehdr (min 64 (shown t i).length) :=
      Fills.buffer (by omega) hoff fun j hj => hbuf j (by omega)
    obtain ⟨m', hread, hfills, hholds, -⟩ :=
      sysRead_behind (o := 0) sizeofEhdr hbuffer (.refl fun j hj => hbuf j (by omega))
      (Tape.openFile hm hx hreg) hc.2.1 hfd (Nat.zero_le _) (by rw [hlen]; exact le_of_eq rfl)
    rw [drop_zero, ← hshown, show sizeofEhdr.toNat = 64 from rfl] at hholds
    refine ⟨m', _, _, hread, hfills.kernel_eq, fun j b hb => ?_⟩
    rw [elfHeader, getElem?_append] at hb
    split at hb
    · next hj =>
      rw [length_take] at hj
      refine hholds j b ?_
      rw [getElem?_take_of_lt (by omega)] at hb
      rw [getElem?_take_of_lt (show j < 64 by omega), hb]
    · -- a byte that is not written
      next hj =>
      rw [length_take] at hj hb
      rw [getElem?_drop] at hb
      have hj4 : (shown t i).length + (j - min 4 (shown t i).length) < 4 := by
        by_contra hge
        rw [List.getElem?_eq_none (by rw [length_take]; omega)] at hb
        cases hb
      rw [show (shown t i).length + (j - min 4 (shown t i).length) = j by omega, getElem?_take_of_lt (by omega)] at hb
      apply load_stack
      rw [hfills.stack_eq _ fun j' hj' => add_ofNat_ne (n := 64) (by omega) (by omega) (by omega) (by omega)]
      exact hleft j b hb
  · have hother : ∀ x, t.members[i]? = some x → ¬ x.Regular := fun x hx h => hreg ⟨x, hx, h⟩
    have ha := (Tape.membersAt hm).drop hi
    obtain ⟨b, z, hb, hz, hnot⟩ : ∃ b z, load m (t.headerOf i + typeflagField) = some b ∧
        load m (t.headerOf i + typeflagField + 1) = some z ∧ ¬ (b = 0x30 ∧ z = 0) := by
      rw [BitVec.add_assoc]
      cases hd : t.members.drop i with
      | nil =>
        rw [hd] at ha
        exact ⟨0, 0, ha.nil_zero (i := 156) (by decide), ha.nil_zero (i := 157) (by decide), by decide⟩
      | cons x rest =>
        rw [hd] at ha
        refine ⟨_, _, ha.load_header (i := 156) (by decide), ha.load_header (i := 157) (by decide), hother x ?_⟩
        rw [← head?_drop, hd]
        rfl
    refine ⟨m, ⟨t.headerOf i, 0⟩, 0, ?_, rfl, ?_⟩
    · rw [sysRead_other sizeofEhdr hfd hb hz hnot, Files.set_slot hfd]
    · rw [elfHeader, shown_of_other hother]
      simpa using hleft.holds.slice 0 4

private theorem loadElf_notElf (files : Files) (phdrs : Word) (hpath : 0 ∉ path) (hnot : NotElf t path left)
    (hfuel : t.members.length < fuel) :
    ∃ m', loadElf fuel m t.start files path true ehdr phdrs = some (m', files, -1) ∧ m'.kernel = m.kernel := by
  have hfind := findHeader_eq (Tape.membersAt hm) hpath hfuel
  cases hf : found t.members path with
  | none =>
    refine ⟨m, ?_, rfl⟩
    rw [loadElf, sysOpen, hfind, hf]
    rfl
  | some i =>
    have hopen : sysOpen fuel m t.start files path true = some (addToProcessFileTable files ⟨t.headerOf i, 0⟩) := by
      rw [sysOpen, hfind, hf]
      rfl
    by_cases hfree : files.HasFree
    · obtain ⟨fd, hnone, hadd⟩ := addToProcessFileTable_eq hfree
      obtain ⟨m', pft, r, hread, hkernel, hholds⟩ := sysRead_elfHeader hm hoff hleft hsize (found_le hf)
        (Files.set_same files fd (some ⟨t.headerOf i, 0⟩))
      have hlen : magic.length ≤ (elfHeader t i left).length := by
        rw [elfHeader, length_append, length_take, length_drop, length_take]
        show 4 ≤ _
        omega
      have hmagic : isElf m' ehdr magic = some false := by
        rw [isElf_eq hholds hlen]
        refine congrArg some (decide_eq_false fun h => hnot i hf ?_)
        rw [← h]
        refine (take_of_length_le ?_).symm
        rw [elfHeader, length_append, length_take, length_drop, length_take]
        show _ ≤ 4
        omega
      refine ⟨m', ?_, hkernel⟩
      rw [loadElf, hopen, bind_some, hadd]
      dsimp only
      rw [hread, bind_some]
      rw [hmagic, bind_some]
      rw [sysClose, Files.set_same]
      rw [Files.set_set, Files.set_set, Files.set_slot hnone]
    · refine ⟨m, ?_, rfl⟩
      have hfull : addToProcessFileTable files ⟨t.headerOf i, 0⟩ = (files, none) := by
        unfold addToProcessFileTable
        rw [find?_eq_none.2 fun j hj hnone => hfree ⟨j, mem_range.1 hj, isNone_iff_eq_none.1 hnone⟩]
      rw [loadElf, hopen, bind_some, hfull]

end Read

private theorem proc?_setProc (h : k.proc? = some proc) (proc' : Proc) : (setProc k proc').proc? = some proc' := by
  have hrun := (List.getElem?_eq_some_iff.1 h).1
  exact getElem?_set_self hrun

/-- A call for a file that is no program puts all back but the name. -/
private theorem CallsExec.sysExecvpe_eq {x : Exec} {env : ExecEnv} (h : CallsExec t x proc env path left)
    (hargs : env.argsOk = true) (hfile : env.fileOk = true) (hnot : NotElf t path left)
    (hfuel : t.members.length < fuel) :
    ∃ ret x', sysExecvpe env fuel t.start x path = some (.returned ret x') ∧
      x'.task = { x.task with name := if env.nameOk then some path else none } ∧
      x'.locals.kernel.proc? = x.locals.kernel.proc? := by
  have hrun := h.ready.running
  unfold sysExecvpe
  rw [hargs]
  cases hname : env.nameOk with
  | false => exact ⟨_, _, rfl, rfl, rfl⟩
  | true =>
    dsimp only
    rw [hrun, bind_some]
    obtain ⟨s', hdup⟩ | ⟨s', z, hdup, hcopy⟩ := getKduplicate_cases h.ready.wf h.ready.self
    · rw [hdup]
      exact ⟨_, _, rfl, rfl, hrun⟩
    · rw [hdup, bind_some, hfile]
      dsimp only
      -- the archive is read through the new table
      have hbytes : Holds (⟨setProc (x.locals.kernel.withMach s') ⟨z, []⟩, x.locals.stack⟩ : Locals) t.start
          (tape t.members) := by
        intro j c hc
        have hoff := h.off _ (Tape.has_add (List.getElem?_eq_some_iff.1 hc).1)
        rw [load_kernel (m := ⟨setProc _ _, _⟩) hoff]
        exact hcopy.archive h.ready h.archive h.low j c hc
      obtain ⟨m', hload, hkernel⟩ :=
        loadElf_notElf hbytes h.off h.header h.size x.task.files env.phdrs h.name hnot hfuel
      rw [hload]
      refine ⟨_, _, rfl, rfl, ?_⟩
      rw [hkernel]
      exact proc?_setProc (proc?_setProc (k := x.locals.kernel.withMach s') hrun _) _

/-- For every path that names no ELF file, with memory for the copies of the arguments: `sys_execvpe` returns, and the
task is as before if and only if it had the name already with which the call ends. -/
theorem failed_exec_iff (t : Tape) (x : Exec) (proc : Proc) (env : ExecEnv) (path left : List (BitVec 8))
    (h : CallsExec t x proc env path left) (hargs : env.argsOk = true) (hfile : env.fileOk = true)
    (hnot : NotElf t path left) (fuel : Nat) (hfuel : t.members.length < fuel) :
    ∃ ret x', sysExecvpe env fuel t.start x path = some (.returned ret x') ∧
      (TaskKept x x' ↔ x.task.name = if env.nameOk then some path else none) := by
  obtain ⟨ret, x', heq, htask, hproc⟩ := h.sysExecvpe_eq hargs hfile hnot hfuel
  refine ⟨ret, x', heq, fun hk => ?_, fun hn => ?_⟩
  · rw [← hk.name_eq, htask]
  · exact ⟨by rw [htask, hn], by rw [htask], by rw [htask], by rw [htask], hproc⟩

def plainEnv : ExecEnv := ⟨true, true, true, 0xffffffff80500000, 0xffffffff80200000, 0xffffffff80200800, 0x800000⟩

private theorem Called.callsExec (env : ExecEnv) (h : Called t m proc files path l env.ehdr env.phdrs)
    (hc : 0 < freeCount m.kernel.sys.mach.pages) (task : Task) : ∃ left, CallsExec t ⟨m, task⟩ proc env path left := by
  refine ⟨(List.range 64).map fun j => (m.stack (env.ehdr + BitVec.ofNat 64 j)).getD 0, h.ready, h.archive,
    fun h0 => ?_, h.name, h.off, fun j c hj => ?_, ?_⟩
  · exact absurd h0 (by show freeCount m.kernel.sys.mach.pages ≠ 0; omega)
  · rw [getElem?_map, map_eq_some_iff] at hj
    obtain ⟨o, ho, rfl⟩ := hj
    obtain ⟨hlt, rfl⟩ := List.getElem?_eq_some_iff.1 ho
    obtain ⟨d, hd⟩ := isSome_iff_exists.1 (h.ehdr_local j hlt)
    rw [getElem_range, hd]
    rfl
  · rw [length_map, length_range]

private theorem Called.notElf {phdrs : Word} (h : Called t m proc files path l ehdr phdrs) (hlen : 4 ≤ l.length)
    (hl : l.take 4 ≠ magic) (left : List (BitVec 8)) : NotElf t path left := by
  intro i hi
  obtain ⟨i', x, hfound, hx, hreg, rfl⟩ := h.file
  cases hi.symm.trans hfound
  have hbytes : Holds m t.start (tape t.members) := by
    intro j c hc
    rw [load_kernel (h.off _ (Tape.has_add (List.getElem?_eq_some_iff.1 hc).1))]
    exact h.archive.bytes j c hc
  rw [elfHeader_of_file hbytes hx hreg hlen]
  exact hl

private theorem exists_callsExec (name : Option (List (BitVec 8))) : ∃ t x proc left,
    CallsExec t x proc plainEnv [0x61] left ∧ NotElf t [0x61] left ∧ t.members.length = 1 ∧ x.task.name = name := by
  obtain ⟨t, m, proc, files, hcall, hone, hc, -⟩ :=
    exists_called [0x61, 0x64, 0x69, 0x78] (by decide) (by decide +kernel)
  obtain ⟨left, hexec⟩ := Called.callsExec plainEnv hcall (by omega) ⟨name, 0, 0, files⟩
  exact ⟨t, _, proc, left, hexec, hcall.notElf (by decide) (by decide) left, hone, rfl⟩

theorem failed_exec_again : ∃ t x proc left, CallsExec t x proc plainEnv [0x61] left ∧ NotElf t [0x61] left ∧
    x.task.name = some [0x61] ∧ ∃ ret x', sysExecvpe plainEnv 2 t.start x [0x61] = some (.returned ret x') ∧
      TaskKept x x' := by
  obtain ⟨t, x, proc, left, hexec, hnot, hone, hname⟩ := exists_callsExec (some [0x61])
  obtain ⟨ret, x', heq, hiff⟩ := failed_exec_iff t x proc plainEnv _ left hexec rfl rfl hnot 2 (by omega)
  exact ⟨t, x, proc, left, hexec, hnot, hname, ret, x', heq, hiff.2 hname⟩

/-- A shell `sh` that tries the text has another name afterwards, with enough memory for all. -/
theorem failed_exec_renames : ¬ ∀ t x proc env path left, CallsExec t x proc env path left → env.argsOk = true →
    env.nameOk = true → env.fileOk = true → NotElf t path left → ∀ fuel, t.members.length < fuel →
      ∃ ret x', sysExecvpe env fuel t.start x path = some (.returned ret x') ∧ TaskKept x x' := by
  intro h
  obtain ⟨t, x, proc, left, hexec, hnot, hone, hname⟩ := exists_callsExec (some [0x73, 0x68])
  obtain ⟨ret, x', heq, hkept⟩ := h t x proc plainEnv _ left hexec rfl rfl rfl hnot 2 (by omega)
  have hfuel : t.members.length < 2 := by omega
  obtain ⟨ret', x'', heq', htask, -⟩ := hexec.sysExecvpe_eq rfl rfl hnot hfuel
  have hsame : x' = x'' := by
    have hout := some.inj (heq.symm.trans heq')
    injection hout
  have hnew := hkept.name_eq
  rw [hsame, htask, hname] at hnew
  exact absurd hnew (show (some [0x61] : Option (List (BitVec 8))) ≠ some [0x73, 0x68] by decide)

end Adix.Elf
