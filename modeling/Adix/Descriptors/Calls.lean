import Adix.Descriptors.Tables
import Adix.Lib.Runs

/-!
# Descriptors in runs of several processes

In every run, an open takes the least free descriptor of its process, and what a process does with its descriptors
changes nothing for the others, as long as every descriptor passed to a call is an index of `open_files` (`InRange`):
the calls do not check it, and the other tables are in the same memory.
-/

namespace Adix.Descriptors

open List

variable {k : Kernel} {this p i e v child new : Nat} {fd : BitVec 32} {a : Archive} {ok : BitVec 32 → Prop}

/-- The descriptor `fd` is the least one that is free and below the limit, and it is the only one that changes. -/
structure TakesLeast (k : Kernel) (this : Nat) (k' : Kernel) (fd : Nat) : Prop where
  below : fd < k.rlimitNofile ∧ fd < openFilesLimit
  empty : getProcessFilesTable k.mem this fd = 0
  least : ∀ j < fd, getProcessFilesTable k.mem this j ≠ 0
  taken : getProcessFilesTable k'.mem this fd ≠ 0
  kept : ∀ i < openFilesLimit, i ≠ fd → getProcessFilesTable k'.mem this i = getProcessFilesTable k.mem this i

def SameTable (k : Kernel) (this : Nat) (k' : Kernel) : Prop :=
  ∀ i < openFilesLimit, getProcessFilesTable k'.mem this i = getProcessFilesTable k.mem this i

/-- What an open returns and does to the table of its process. -/
def OpenResult (k : Kernel) (this : Nat) (out : Kernel × Int) : Prop :=
  (∃ fd : Nat, out.2 = fd ∧ TakesLeast k this out.1 fd) ∨ (out.2 = -1 ∧ SameTable k this out.1)

section Open

variable (I : Inv k) (hthis : this ∈ k.procs) {pft : Nat} (hf : Fresh k pft pftSize) (hd o ops : Nat)
include I hf

private theorem getNew_slots : ∀ p ∈ k.procs, ∀ i < openFilesLimit,
    getProcessFilesTable (getNewProcessFilesTable k pft hd o ops).mem p i = getProcessFilesTable k.mem p i ∧
      getProcessFilesTable k.mem p i ≠ pft := by
  intro p hp i hi
  refine ⟨I.slots_of_apart (fun x hx => getNew_of_not_mem hx) hf.proc p hp i hi, fun heq => ?_⟩
  have hslot := I.slot p hp i hi
  rw [heq] at hslot
  exact hf.not_mem (hslot (Nat.ne_of_gt hf.pos))

omit I in
private theorem getNew_writes : Writes k this (getNewProcessFilesTable k pft hd o ops).mem := by
  intro x hx
  have hin : ¬(x < pft ∨ pft + pftSize ≤ x) := fun h => hx (getNew_of_not_mem h)
  exact Or.inr (Or.inr (hf.unused (by omega) (by omega)))

include hthis in
private theorem opened :
    let out := addToProcessFileTable (getNewProcessFilesTable k pft hd o ops) this pft
    Inv out.1 ∧ Writes k this out.1.mem ∧ OpenResult k this out := by
  have hslots := getNew_slots I hf hd o ops
  have I1 := I.alloc hf hd o ops
  have hw : Writes k this (getNewProcessFilesTable k pft hd o ops).mem := getNew_writes hf hd o ops
  have hloose : ∀ q ∈ (getNewProcessFilesTable k pft hd o ops).procs, ∀ j < openFilesLimit,
      getProcessFilesTable (getNewProcessFilesTable k pft hd o ops).mem q j ≠ pft := by
    intro q hq j hj
    rw [(hslots q hq j hj).1]
    exact (hslots q hq j hj).2
  generalize hk1 : getNewProcessFilesTable k pft hd o ops = k1 at *
  have hprocs : k1.procs = k.procs := by rw [← hk1]; rfl
  have hlimit : k1.rlimitNofile = k.rlimitNofile := by rw [← hk1]; rfl
  have hpft : pft ∈ k1.entries := by rw [← hk1]; exact mem_cons_self
  have hthis1 : this ∈ k1.procs := hprocs ▸ hthis
  intro out
  have hout : out = addToProcessFileTable k1 this pft := rfl
  unfold addToProcessFileTable at hout
  split at hout
  · next fd hfind =>
    -- the least free descriptor
    rw [find?_range_eq_some] at hfind
    obtain ⟨hempty, hmem, hleast⟩ := hfind
    have hlt : fd < k1.rlimitNofile := mem_range.1 hmem
    have hfd : fd < openFilesLimit := Nat.lt_of_lt_of_le hlt I1.limit
    have hpft64 : pft < 2 ^ 64 := by
      have := hf.fits
      unfold pftSize at this
      omega
    have hget := fun i (hi : i < openFilesLimit) => I1.get_setSlot hthis1 hfd hpft64 hthis1 hi
    rw [hout]
    refine ⟨I1.fillSlot hthis1 hfd hpft hloose, fun x hx => ?_, Or.inl ⟨fd, rfl, ?_⟩⟩
    · by_cases hin : this ≤ x ∧ x < this + tableSize
      · exact Or.inl hin
      · apply hw x
        dsimp only at hx
        rwa [setSlot_of_not_mem (I.proc this hthis) hfd (by omega)] at hx
    · refine ⟨⟨hlimit ▸ hlt, hfd⟩, ?_, fun j hj => ?_, ?_, fun i hi hne => ?_⟩
      · rw [← (hslots this hthis fd hfd).1]
        exact of_decide_eq_true hempty
      · rw [← (hslots this hthis j (by omega)).1]
        simpa using hleast j hj
      · rw [hget fd hfd, if_pos ⟨rfl, rfl⟩]
        have := hf.pos
        omega
      · dsimp only
        rw [hget i hi, if_neg (fun h => hne h.2)]
        exact (hslots this hthis i hi).1
  · next hfind =>
    rw [hout]
    refine ⟨I1.drop hloose, hw, Or.inr ⟨rfl, fun i hi => (hslots this hthis i hi).1⟩⟩

end Open

def InRange (fd : BitVec 32) : Prop := 0 ≤ fd.toInt ∧ fd.toInt < openFilesLimit

private theorem InRange.index (h : InRange fd) : ∃ i : Nat, i < openFilesLimit ∧ fd.toInt = i := by
  obtain ⟨h1, h2⟩ := h
  exact ⟨fd.toInt.toNat, by omega, by omega⟩

section Use

variable (I : Inv k) (hthis : this ∈ k.procs) (hfd : InRange fd)
include I hthis hfd

/-- The position of an open file is an object of the caller. -/
private theorem setOffset_spec (hne : getProcessFilesTable k.mem this fd.toInt ≠ 0) (v : Nat) :
    let m := setOffset k.mem (getProcessFilesTable k.mem this fd.toInt) v
    Inv { k with mem := m } ∧ Writes k this m := by
  obtain ⟨i, hi, hfi⟩ := hfd.index
  rw [hfi] at hne ⊢
  refine ⟨I.seek (I.slot this hthis i hi hne) v, fun x hx => ?_⟩
  have hin := mt setOffset_of_not_mem hx
  exact Or.inr (Or.inl ⟨i, hi, hne, by omega, by omega⟩)

/-- A close keeps the invariant and writes only where the caller may. -/
private theorem resetProcessFilesTable_spec :
    Inv (resetProcessFilesTable k this fd).1 ∧ Writes k this (resetProcessFilesTable k this fd).1.mem := by
  obtain ⟨i, hi, hfi⟩ := hfd.index
  unfold resetProcessFilesTable
  rw [hfi]
  dsimp only
  split
  · exact ⟨I, fun x hx => absurd rfl hx⟩
  · next hne =>
    refine ⟨I.clearSlot hthis hi hne, fun x hx => Or.inl ?_⟩
    have hin : ¬(x < this ∨ this + tableSize ≤ x) := fun h => hx (setSlot_of_not_mem (I.proc this hthis) hi h)
    omega

private theorem sysLseek_spec (offset : BitVec 64) (whence : BitVec 32) :
    Inv (sysLseek k this fd offset whence).1 ∧ Writes k this (sysLseek k this fd offset whence).1.mem := by
  unfold sysLseek
  dsimp only
  split
  · exact ⟨I, fun x hx => absurd rfl hx⟩
  · next hne => exact setOffset_spec I hthis hfd hne _

private theorem sysRead_spec (fileSize : Nat → Option (BitVec 64)) (count : BitVec 64) :
    Inv (sysRead fileSize k this fd count).1 ∧ Writes k this (sysRead fileSize k this fd count).1.mem := by
  unfold sysRead
  dsimp only
  split
  · exact ⟨I, fun x hx => absurd rfl hx⟩
  · next hne =>
    split
    · exact ⟨I, fun x hx => absurd rfl hx⟩
    · exact setOffset_spec I hthis hfd hne _

private theorem sysReaddir_spec (hasEntry : Nat → Nat → Bool) (toRet : Nat) :
    Inv (sysReaddir hasEntry k this fd toRet).1 ∧ Writes k this (sysReaddir hasEntry k this fd toRet).1.mem := by
  unfold sysReaddir
  dsimp only
  split
  · exact ⟨I, fun x hx => absurd rfl hx⟩
  · next hne =>
    split
    · exact setOffset_spec I hthis hfd hne _
    · exact ⟨I, fun x hx => absurd rfl hx⟩

end Use

/-- The memory that `kmalloc` gives to a fork: for the PCB of the child, and for the copies. -/
structure ForkMem (k : Kernel) (this child : Nat) (alloc : Nat → Nat) : Prop where
  pcb : Fresh k child tableSize
  copy : ∀ i < openFilesLimit, getProcessFilesTable k.mem this i ≠ 0 →
    Fresh k (alloc i) pftSize ∧ Apart (alloc i) pftSize child tableSize
  apart : ∀ i < openFilesLimit, ∀ j < openFilesLimit, i ≠ j → getProcessFilesTable k.mem this i ≠ 0 →
    getProcessFilesTable k.mem this j ≠ 0 → Apart (alloc i) pftSize (alloc j) pftSize

structure Forked (k : Kernel) (this child : Nat) (alloc : Nat → Nat) (n : Nat) (k' : Kernel) : Prop where
  inv : Inv k'
  procs : k'.procs = k.procs
  unused : ∀ x, k'.mem x ≠ k.mem x → Unused k x
  entries : ∀ e ∈ k'.entries, e ∈ k.entries ∨ ∃ j < n, getProcessFilesTable k.mem this j ≠ 0 ∧ e = alloc j
  copied : ∀ j < n, getProcessFilesTable k.mem this j ≠ 0 → alloc j ∈ k'.entries
  slots : ∀ j < n, getProcessFilesTable k'.mem child j = if getProcessFilesTable k.mem this j = 0 then 0 else alloc j

private theorem Inv.slots_of_unused (I : Inv k) {m' : Bytes} (h : ∀ x, m' x ≠ k.mem x → Unused k x) (hp : p ∈ k.procs)
    (hi : i < openFilesLimit) : getProcessFilesTable m' p i = getProcessFilesTable k.mem p i := by
  refine getProcessFilesTable_congr (I.proc p hp) hi fun x h1 h2 => ?_
  by_contra hx
  have := (h x hx).1 p hp
  omega

section Fork

variable {n : Nat} {alloc : Nat → Nat} {k' : Kernel} (hm : ForkMem k this child alloc)
include hm

private theorem Forked.store (h : Forked k this child alloc n k') {k₁ : Kernel} (hn : n < openFilesLimit) (I₁ : Inv k₁)
    (hprocs : k₁.procs = k.procs) (hmem : ∀ x, k₁.mem x ≠ k'.mem x → Unused k x)
    (hchild : ∀ x, child ≤ x → x < child + tableSize → k₁.mem x = k'.mem x)
    (hent : ∀ e ∈ k₁.entries, e ∈ k'.entries ∨ (getProcessFilesTable k.mem this n ≠ 0 ∧ e = alloc n))
    (hsub : ∀ e ∈ k'.entries, e ∈ k₁.entries) (hcopy : getProcessFilesTable k.mem this n ≠ 0 → alloc n ∈ k₁.entries)
    (hv : v = if getProcessFilesTable k.mem this n = 0 then 0 else alloc n) :
    Forked k this child alloc (n + 1) { k₁ with mem := setSlot k₁.mem child n v } := by
  have hv64 : v < 2 ^ 64 := by
    rw [hv]
    split
    · omega
    · next hne =>
      have := (hm.copy n hn hne).1.fits
      unfold pftSize at this
      omega
  refine ⟨I₁.congr_mem (I₁.slots_of_apart (fun x hx => setSlot_of_not_mem hm.pcb.fits hn hx) (hprocs ▸ hm.pcb.proc)),
    hprocs, fun x hx => ?_, fun e he => ?_, fun j hj hne => ?_, fun j hj => ?_⟩
  · by_cases hin : child ≤ x ∧ x < child + tableSize
    · exact hm.pcb.unused hin.1 hin.2
    · dsimp only at hx
      rw [setSlot_of_not_mem hm.pcb.fits hn (by omega)] at hx
      by_cases hx' : k₁.mem x = k'.mem x
      · exact h.unused x (by rwa [← hx'])
      · exact hmem x hx'
  · rcases hent e he with he | ⟨hne, rfl⟩
    · rcases h.entries e he with he | ⟨j, hj, hne, rfl⟩
      · exact Or.inl he
      · exact Or.inr ⟨j, by omega, hne, rfl⟩
    · exact Or.inr ⟨n, by omega, hne, rfl⟩
  · rcases Nat.lt_succ_iff_lt_or_eq.1 hj with hj | rfl
    · exact hsub _ (h.copied j hj hne)
    · exact hcopy hne
  · rw [getProcessFilesTable_setSlot hm.pcb.fits hn (by omega) hv64]
    split
    · next hjn => rw [hjn, hv]
    · rw [getProcessFilesTable_congr hm.pcb.fits (by omega) hchild]
      exact h.slots j (by omega)

private theorem Forked.next (I : Inv k) (hthis : this ∈ k.procs) (h : Forked k this child alloc n k')
    (hn : n < openFilesLimit) : Forked k this child alloc (n + 1) (forkSlot this child alloc k' n) := by
  have hpft := I.slots_of_unused h.unused hthis hn
  unfold forkSlot
  rw [hpft]
  dsimp only
  split
  · next hne =>
    obtain ⟨hfresh, hap⟩ := hm.copy n hn hne
    have hfresh' : Fresh k' (alloc n) pftSize := by
      refine ⟨hfresh.pos, hfresh.fits, h.procs ▸ hfresh.proc, fun e he => ?_⟩
      rcases h.entries e he with he | ⟨j, hj, hj0, rfl⟩
      · exact hfresh.entry e he
      · exact hm.apart n hn j (by omega) (by omega) hne hj0
    refine h.store hm hn (h.inv.alloc hfresh' _ _ _) h.procs (fun x hx => ?_) (fun x h1 h2 => getNew_of_not_mem ?_)
      (fun e he => ?_) (fun e he => mem_cons_of_mem _ he) (fun _ => mem_cons_self) (if_neg hne).symm
    · have hin := mt getNew_of_not_mem hx
      exact hfresh.unused (by omega) (by omega)
    · exact hap.symm.outside h1 h2
    · rcases mem_cons.1 he with rfl | he
      · exact Or.inr ⟨hne, rfl⟩
      · exact Or.inl he
  · next h0 =>
    have h0 := not_not.1 h0
    exact h.store hm hn h.inv h.procs (fun x hx => absurd rfl hx) (fun _ _ _ => rfl) (fun e he => Or.inl he)
      (fun e he => he) (fun hne => absurd h0 hne) (if_pos h0).symm

/-- A fork copies the objects of all slots into memory that was not in use. -/
private theorem forkFiles_spec (I : Inv k) (hthis : this ∈ k.procs) :
    Forked k this child alloc openFilesLimit (forkFiles k this child alloc) := by
  have hloop : ∀ n ≤ openFilesLimit, Forked k this child alloc n
      ((List.range n).foldl (forkSlot this child alloc) k) := by
    intro n hn
    induction n with
    | zero => exact ⟨I, rfl, fun x hx => absurd rfl hx, fun e he => Or.inl he, nofun, nofun⟩
    | succ n ih =>
      rw [range_succ, foldl_append, foldl_cons, foldl_nil]
      exact (ih (by omega)).next hm I hthis (by omega)
  exact hloop openFilesLimit (Nat.le_refl _)

omit hm in
private theorem Forked.new_slot (h : Forked k this child alloc openFilesLimit k') (hi : i < openFilesLimit)
    (hne : getProcessFilesTable k'.mem child i ≠ 0) :
    getProcessFilesTable k.mem this i ≠ 0 ∧ getProcessFilesTable k'.mem child i = alloc i := by
  rw [h.slots i hi] at hne ⊢
  split at hne
  · exact absurd rfl hne
  · next h0 => exact ⟨h0, if_neg h0⟩

private theorem Forked.new_ne_old (I : Inv k) (h : Forked k this child alloc openFilesLimit k') {q j : Nat}
    (hq : q ∈ k.procs) (hj : j < openFilesLimit) (hi : i < openFilesLimit)
    (hne : getProcessFilesTable k'.mem child i ≠ 0) :
    getProcessFilesTable k'.mem child i ≠ getProcessFilesTable k'.mem q j := by
  intro heq
  obtain ⟨h0, hi'⟩ := h.new_slot hi hne
  have hslot := I.slot q hq j hj
  rw [← I.slots_of_unused h.unused hq hj, ← heq, hi'] at hslot
  rw [hi'] at hne
  exact (hm.copy i hi h0).1.not_mem (hslot hne)

private theorem Forked.done (I : Inv k) (h : Forked k this child alloc openFilesLimit k') :
    Inv { k' with procs := child :: k.procs } := by
  refine ⟨h.inv.limit, fun p hp => ?_, fun p hp q hq hne => ?_, h.inv.entry, h.inv.entryApart, fun e he p hp => ?_,
    fun p hp i hi hi0 => ?_, fun p hp q hq i hi j hj hi0 heq => ?_⟩
  · rcases mem_cons.1 hp with rfl | hp
    · exact hm.pcb.fits
    · exact I.proc p hp
  · rcases mem_cons.1 hp with rfl | hpk
    · exact hm.pcb.proc q ((mem_cons.1 hq).resolve_left (Ne.symm hne))
    · rcases mem_cons.1 hq with rfl | hqk
      · exact (hm.pcb.proc p hpk).symm
      · exact I.procApart p hpk q hqk hne
  · rcases mem_cons.1 hp with rfl | hpk
    · rcases h.entries e he with he | ⟨j, hj, hne, rfl⟩
      · exact (hm.pcb.entry e he).symm
      · exact (hm.copy j hj hne).2
    · exact h.inv.entryProc e he p (h.procs ▸ hpk)
  · rcases mem_cons.1 hp with rfl | hpk
    · obtain ⟨h0, hi'⟩ := h.new_slot hi hi0
      rw [hi']
      exact h.copied i hi h0
    · exact h.inv.slot p (h.procs ▸ hpk) i hi hi0
  · rcases mem_cons.1 hp with rfl | hpk
    · rcases mem_cons.1 hq with rfl | hqk
      · refine ⟨rfl, ?_⟩
        by_contra hij
        obtain ⟨h0, hi'⟩ := h.new_slot hi hi0
        obtain ⟨h0', hj'⟩ := h.new_slot hj (heq ▸ hi0)
        rw [hi', hj'] at heq
        exact (hm.apart i hi j hj hij h0 h0').ne (by decide) (by decide) heq
      · exact absurd heq (h.new_ne_old hm I hqk hj hi hi0)
    · rcases mem_cons.1 hq with rfl | hqk
      · exact absurd heq.symm (h.new_ne_old hm I hpk hi hj (heq ▸ hi0))
      · exact h.inv.own p (h.procs ▸ hpk) q (h.procs ▸ hqk) i hi j hj hi0 heq

private theorem sysFork_done (I : Inv k) (hthis : this ∈ k.procs) : ∃ k', Forked k this child alloc openFilesLimit k' ∧
    sysFork k this child alloc .done = { k' with procs := child :: k.procs } :=
  ⟨_, forkFiles_spec hm I hthis, by rw [sysFork]⟩

/-- A fork keeps the invariant, and changes memory only that was not in use. -/
private theorem sysFork_spec (I : Inv k) (hthis : this ∈ k.procs) (how : ForkEnd) :
    Inv (sysFork k this child alloc how) ∧ ∀ x, (sysFork k this child alloc how).mem x ≠ k.mem x → Unused k x := by
  cases how with
  | failsBefore => exact ⟨I, fun x hx => absurd rfl hx⟩
  | failsAfter =>
    have h := forkFiles_spec hm I hthis
    rw [sysFork]
    exact ⟨h.inv, h.unused⟩
  | done =>
    obtain ⟨k', h, heq⟩ := sysFork_done hm I hthis
    rw [heq]
    exact ⟨h.done hm I, h.unused⟩

end Fork

def Call.Opens : Call → Prop
  | .open .. | .opendir .. => True
  | _ => False

/-- What is assumed of a call: names given to `sys_opendir` are not those of files, `kmalloc` returns memory not in
use, and descriptors meet `ok`. -/
def CallOk (ok : BitVec 32 → Prop) (k : Kernel) (c : Nat × Call) : Prop :=
  c.1 ∈ k.procs ∧
    match c.2 with
    | .open found pft => found.isSome → Fresh k pft pftSize
    | .opendir found pft =>
      match found with
      | .error r => r = -1
      | .ok _ => Fresh k pft pftSize
    | .close fd | .closedir fd | .lseek fd _ _ | .read fd _ | .readdir fd _ => ok fd
    | .fork child alloc _ => ForkMem k c.1 child alloc
    | .setrlimit _ => True

/-- A call does to its own table what it should, and nothing to those of others. -/
structure Correct (a : Archive) (k : Kernel) (c : Nat × Call) : Prop where
  opens : c.2.Opens → (call a k c.1 c.2).2 ≠ -1 →
    ∃ fd : Nat, (call a k c.1 c.2).2 = fd ∧ TakesLeast k c.1 (call a k c.1 c.2).1 fd
  fails : c.2.Opens → (call a k c.1 c.2).2 = -1 → SameTable k c.1 (call a k c.1 c.2).1
  others : ∀ p ∈ k.procs, p ≠ c.1 → SameFiles k.mem (call a k c.1 c.2).1.mem p

/-- Every call of every run is correct, if the descriptors that are passed to calls meet the condition `ok`. -/
def AllCorrect (ok : BitVec 32 → Prop) : Prop :=
  ∀ (a : Archive) (k : Kernel), Inv k → ∀ (calls : List (Nat × Call)) (k' : Kernel),
    Permitted (step a) (CallOk ok) k calls → run (step a) k calls = some k' → ∀ c, CallOk ok k' c → Correct a k' c

/-- Every call with descriptors in range keeps the invariant and is correct. -/
private theorem call_spec (I : Inv k) {c : Nat × Call} (hc : CallOk InRange k c) :
    Inv (call a k c.1 c.2).1 ∧ Writes k c.1 (call a k c.1 c.2).1.mem ∧
      (c.2.Opens → OpenResult k c.1 (call a k c.1 c.2)) := by
  obtain ⟨this, c⟩ := c
  obtain ⟨hthis, hc⟩ := hc
  dsimp only at hthis hc ⊢
  have hsame : Writes k this k.mem := fun x hx => absurd rfl hx
  cases c with
  | «open» found pft =>
    cases found with
    | none => exact ⟨I, hsame, fun _ => Or.inr ⟨rfl, fun _ _ => rfl⟩⟩
    | some hd =>
      obtain ⟨h1, h2, h3⟩ := opened I hthis (hc rfl) hd 0 a.tarfsOps
      exact ⟨h1, h2, fun _ => h3⟩
  | opendir found pft =>
    cases found with
    | error r => exact ⟨I, hsame, fun _ => Or.inr ⟨hc, fun _ _ => rfl⟩⟩
    | ok hd =>
      obtain ⟨h1, h2, h3⟩ := opened I hthis hc hd 0 a.tarfsOps
      exact ⟨h1, h2, fun _ => h3⟩
  | close fd =>
    simp only [call, sysClose]
    obtain ⟨h1, h2⟩ := resetProcessFilesTable_spec I hthis hc
    exact ⟨h1, h2, False.elim⟩
  | closedir fd =>
    simp only [call, sysClosedir]
    obtain ⟨h1, h2⟩ := resetProcessFilesTable_spec I hthis hc
    exact ⟨h1, h2, False.elim⟩
  | lseek fd offset whence =>
    simp only [call]
    obtain ⟨h1, h2⟩ := sysLseek_spec I hthis hc offset whence
    exact ⟨h1, h2, False.elim⟩
  | read fd count =>
    simp only [call]
    obtain ⟨h1, h2⟩ := sysRead_spec I hthis hc a.fileSize count
    exact ⟨h1, h2, False.elim⟩
  | readdir fd toRet =>
    simp only [call]
    obtain ⟨h1, h2⟩ := sysReaddir_spec I hthis hc a.hasEntry toRet
    exact ⟨h1, h2, False.elim⟩
  | fork child alloc how =>
    simp only [call]
    obtain ⟨h1, h2⟩ := sysFork_spec hc I hthis how
    exact ⟨h1, fun x hx => Or.inr (Or.inr (h2 x hx)), False.elim⟩
  | setrlimit rlimCur =>
    simp only [call, sysSetrlimit]
    split
    · exact ⟨I, hsame, False.elim⟩
    · next hle => exact ⟨{ I with limit := Nat.le_of_not_gt hle }, hsame, False.elim⟩

private theorem allCorrect_inRange : AllCorrect InRange := by
  intro a k I calls k' hcalls hrun c hc
  have I' : Inv k' := by
    refine run_preserves (fun s c s' I hc hs => ?_) I hcalls hrun
    cases hs
    exact (call_spec I hc).1
  obtain ⟨-, hw, hopen⟩ := call_spec (a := a) I' hc
  refine ⟨fun ho hr => ?_, fun ho hr => ?_, fun p hp hne => hw.others I' hc.1 hp hne⟩
  · exact (hopen ho).resolve_right fun h => hr h.1
  · rcases hopen ho with ⟨fd, hfd, -⟩ | ⟨-, hsame⟩
    · omega
    · exact hsame

private theorem AllCorrect.mono {ok' : BitVec 32 → Prop} (h : ∀ fd, ok' fd → ok fd) (hall : AllCorrect ok) :
    AllCorrect ok' := by
  have hmono : ∀ k c, CallOk ok' k c → CallOk ok k c := by
    rintro k ⟨this, c⟩ ⟨hthis, hc⟩
    refine ⟨hthis, ?_⟩
    cases c with
    | close fd | closedir fd | lseek fd _ _ | read fd _ | readdir fd _ => exact h fd hc
    | _ => exact hc
  exact fun a k I calls k' hcalls hrun c hc => hall a k I calls k' (hcalls.mono hmono) hrun c (hmono k' c hc)

private theorem getProcessFilesTable_zero (p : Nat) (i : Int) : getProcessFilesTable (fun _ => 0) p i = 0 := by
  generalize slotAddr p i = x
  have hzero : ∀ n x, Bytes.readLE (fun _ => 0) x n = 0 := by
    intro n
    induction n with
    | zero => exact fun x => rfl
    | succ n ih =>
      intro x
      rw [Bytes.readLE, ih]
      rfl
  exact hzero 8 x

private def strayWord (x v : Nat) : Kernel where
  mem := Bytes.writeLE (fun _ => 0) x 8 v
  rlimitNofile := rlimitNofileMax
  procs := [2 ^ 40, 2 ^ 50]
  entries := []

private theorem strayWord_slots {x : Nat} (hx : Apart x 8 p tableSize) (hp : p + tableSize ≤ 2 ^ 64)
    (hi : i < openFilesLimit) : getProcessFilesTable (strayWord x v).mem p i = 0 := by
  rw [← getProcessFilesTable_zero p i]
  refine getProcessFilesTable_congr hp hi fun y h1 h2 => ?_
  show Bytes.writeLE (fun _ => 0) x 8 v y = 0
  rw [Bytes.writeLE_of_not_mem (hx.symm.outside h1 h2)]

/-- Every descriptor out of range can do harm: the word at its place is taken for a pointer to an open file. -/
theorem inRange_of_allCorrect (hall : AllCorrect ok) (hok : ok fd) : InRange fd := by
  by_contra hfd
  have h1 := BitVec.le_toInt fd
  have h2 := BitVec.toInt_lt (x := fd)
  unfold InRange openFilesLimit at hfd
  have hap : Apart (slotAddr (2 ^ 40) fd.toInt) 8 (2 ^ 40) tableSize ∧
      Apart (slotAddr (2 ^ 40) fd.toInt) 8 (2 ^ 50) tableSize := by
    unfold Apart slotAddr tableSize openFilesLimit
    omega
  generalize hk : strayWord (slotAddr (2 ^ 40) fd.toInt) (2 ^ 50 - 8) = k
  have hprocs : k.procs = [2 ^ 40, 2 ^ 50] := by rw [← hk]; rfl
  have hslots : ∀ p ∈ k.procs, ∀ i < openFilesLimit, getProcessFilesTable k.mem p i = 0 := by
    intro p hp i hi
    rw [hprocs] at hp
    rw [← hk]
    rcases mem_pair.1 hp with rfl | rfl
    · exact strayWord_slots hap.1 (by decide) hi
    · exact strayWord_slots hap.2 (by decide) hi
  have I : Inv k := by
    have hentries : k.entries = [] := by rw [← hk]; rfl
    have hlimit : k.rlimitNofile = rlimitNofileMax := by rw [← hk]; rfl
    refine ⟨Nat.le_of_eq hlimit, ?_, ?_, ?_, ?_, ?_, fun p hp i hi h => absurd (hslots p hp i hi) h,
      fun p hp q _ i hi j _ h => absurd (hslots p hp i hi) h⟩
    · rw [hprocs]
      decide
    · rw [hprocs]
      decide
    all_goals
      rw [hentries]
      nofun
  have hpft : getProcessFilesTable k.mem (2 ^ 40) fd.toInt = 2 ^ 50 - 8 := by
    rw [← hk]
    exact Bytes.readLE_writeLE_same (by decide)
  have hcorrect := hall ⟨0, fun _ => none, fun _ _ => false⟩ k I [] k trivial rfl (2 ^ 40, .lseek fd 1 0)
    ⟨by rw [hprocs]; exact mem_cons_self, hok⟩
  have hne : (2 : Nat) ^ 50 ≠ 2 ^ 40 := by decide
  have hsame := (hcorrect.others (2 ^ 50) (by rw [hprocs]; decide) hne 0 (by decide)).1
  have hnew : (sysLseek k (2 ^ 40) fd 1 0).1.mem = setOffset k.mem (2 ^ 50 - 8) 1 := by
    unfold sysLseek
    rw [hpft]
    rfl
  have hslot : getProcessFilesTable (setOffset k.mem (2 ^ 50 - 8) 1) (2 ^ 50) 0 = 1 :=
    Bytes.readLE_writeLE_same (by decide)
  dsimp only [call] at hsame
  rw [hnew, hslots (2 ^ 50) (by rw [hprocs]; decide) 0 (by decide)] at hsame
  exact absurd (hslot.symm.trans hsame) (by decide)

/-- Descriptors are allocated and kept apart as they should be, in all runs in which the descriptors passed to calls
meet a condition, if and only if this condition admits indices of `open_files` only. -/
theorem descriptors_correct_iff (ok : BitVec 32 → Prop) : AllCorrect ok ↔ ∀ fd, ok fd → InRange fd :=
  ⟨fun h _ hok => inRange_of_allCorrect h hok, fun h => allCorrect_inRange.mono h⟩

def oneFile (this fd pft : Nat) : Kernel where
  mem := setSlot (fun _ => 0) this fd pft
  rlimitNofile := rlimitNofileMax
  procs := [this]
  entries := [pft]

section OneFile

variable {s pft : Nat} (hthis : this + tableSize ≤ 2 ^ 64) (hs : s < openFilesLimit) (hpos : 0 < pft)
  (hpft : pft + pftSize ≤ 2 ^ 64) (hap : Apart pft pftSize this tableSize)
include hthis hs hpft

private theorem oneFile_slots : ∀ i < openFilesLimit,
    getProcessFilesTable (oneFile this s pft).mem this i = if i = s then pft else 0 := by
  intro i hi
  unfold oneFile
  unfold pftSize at hpft
  rw [getProcessFilesTable_setSlot hthis hs hi (by omega), getProcessFilesTable_zero]

include hpos hap in
private theorem oneFile_inv : Inv (oneFile this s pft) := by
  have hempty : Inv { oneFile this s pft with mem := fun _ => 0 } := by
    refine ⟨Nat.le_refl _, ?_, ?_, ?_, ?_, ?_, fun p _ i _ h => absurd (getProcessFilesTable_zero p i) h,
      fun p _ q _ i _ j _ h => absurd (getProcessFilesTable_zero p i) h⟩
    all_goals simp only [oneFile, mem_singleton, forall_eq]
    · exact hthis
    · exact fun hne => absurd rfl hne
    · exact ⟨hpos, hpft⟩
    · exact fun hne => absurd rfl hne
    · exact hap
  exact hempty.fillSlot mem_cons_self hs mem_cons_self fun q _ j _ h =>
    Nat.ne_of_gt hpos (h.symm.trans (getProcessFilesTable_zero q j))

private theorem oneFile_forkMem (hchild : Fresh (oneFile this s pft) child tableSize)
    (hnew : Fresh (oneFile this s pft) new pftSize) (hap : Apart new pftSize child tableSize) :
    ForkMem (oneFile this s pft) this child fun _ => new := by
  have hslot := oneFile_slots hthis hs hpft
  refine ⟨hchild, fun i _ _ => ⟨hnew, hap⟩, fun i hi j hj hij hi0 hj0 => ?_⟩
  rw [hslot i hi] at hi0
  rw [hslot j hj] at hj0
  exact absurd ((of_not_not fun h => hi0 (if_neg h)).trans (of_not_not fun h => hj0 (if_neg h)).symm) hij

end OneFile

private theorem sysClose_other {s : Nat} (heq : slotAddr this fd.toInt = slotAddr child s)
    (hne : getProcessFilesTable k.mem child s ≠ 0) : getProcessFilesTable (sysClose k this fd).1.mem child s = 0 := by
  have hpft : getProcessFilesTable k.mem this fd.toInt = getProcessFilesTable k.mem child s := by
    unfold getProcessFilesTable
    rw [heq]
  unfold sysClose resetProcessFilesTable
  rw [hpft]
  rw [if_neg hne]
  unfold getProcessFilesTable setSlot
  rw [heq]
  exact Bytes.readLE_writeLE_same (by decide)

private theorem close_after_fork {s pft : Nat} (I : Inv (oneFile this s pft))
    (hm : ForkMem (oneFile this s pft) this child fun _ => new) (hs : s < openFilesLimit)
    (hslot : getProcessFilesTable (oneFile this s pft).mem this s ≠ 0)
    (heq : slotAddr this fd.toInt = slotAddr child s) :
    ∃ k, sysFork (oneFile this s pft) this child (fun _ => new) .done = k ∧ this ∈ k.procs ∧ child ∈ k.procs ∧
      getProcessFilesTable k.mem child s = new ∧ getProcessFilesTable (sysClose k this fd).1.mem child s = 0 := by
  obtain ⟨k', h, hk'⟩ := sysFork_done hm I mem_cons_self
  have hnew : getProcessFilesTable k'.mem child s = new := (h.slots s hs).trans (if_neg hslot)
  refine ⟨_, hk', mem_cons_of_mem _ mem_cons_self, mem_cons_self, hnew, sysClose_other heq ?_⟩
  rw [hnew]
  exact Nat.ne_of_gt (hm.copy s hs hslot).1.pos

/-- A process with an open file forks. When it closes descriptor 1536 afterwards, it empties slot 0 of its child, whose
PCB is `0x3000` bytes behind its own. -/
theorem close_empties_slot_of_child : ¬AllCorrect (fun _ => True) ∧
    ∃ k, sysFork (oneFile 0x100000 0 0x200000) 0x100000 0x103000 (fun _ => 0x300000) .done = k ∧
      getProcessFilesTable k.mem 0x103000 0 = 0x300000 ∧
      getProcessFilesTable (sysClose k 0x100000 1536).1.mem 0x103000 0 = 0 := by
  constructor
  · intro h
    have hrange : InRange 1536 := inRange_of_allCorrect h trivial
    exact absurd hrange.2 (by decide)
  · have hthis : 0x100000 + tableSize ≤ 2 ^ 64 := by decide
    have hs : 0 < openFilesLimit := by decide
    have hpft : 0x200000 + pftSize ≤ 2 ^ 64 := by decide
    have I : Inv (oneFile 0x100000 0 0x200000) := oneFile_inv hthis hs (by decide) hpft (by decide)
    have hm : ForkMem (oneFile 0x100000 0 0x200000) 0x100000 0x103000 fun _ => 0x300000 := by
      refine oneFile_forkMem hthis hs hpft ⟨by decide, by decide, ?_, ?_⟩ ⟨by decide, by decide, ?_, ?_⟩ (by decide)
      all_goals
        decide
    have hslot : getProcessFilesTable (oneFile 0x100000 0 0x200000).mem 0x100000 0 ≠ 0 := by decide
    have heq : slotAddr 0x100000 (1536 : BitVec 32).toInt = slotAddr 0x103000 0 := by decide
    obtain ⟨k, hfork, -, -, hold, hnew⟩ := close_after_fork I hm hs hslot heq
    exact ⟨k, hfork, hold, hnew⟩

end Adix.Descriptors
