import Adix.Scheduler.Wait

/-!
# The terminal (`sys/terminal/terminal_driver.c`)

The keyboard handler puts characters into one buffer, and wakes up whoever reads when a line ends. `terminal_read`
first sleeps until it is woken up and then takes what is in the buffer. There is no mark between lines: one that nobody
waits for stays there, and the next is added to it. The buffer is the memory from `terminal_buffer` on; the echo is
left out.
-/

namespace Adix.Terminal

open Scheduler

/-- `TERMINAL_TYPE`, on which readers sleep. -/
def terminalType : Nat := 10000

def bufferSize : Nat := 1024

def backspace : UInt8 := 0x08

def flushChar : UInt8 := 0x0A

def space : UInt8 := 0x20

structure Buffer where
  mem : BitVec 64 → UInt8
  bufferLen : BitVec 64

namespace Buffer

def set (b : Buffer) (i : BitVec 64) (c : UInt8) : Buffer := { b with mem := fun j => if j = i then c else b.mem j }

/-- `terminal_enqueue`, without the wakeup at the end of a line. -/
def enqueue (b : Buffer) (c : UInt8) : Buffer :=
  if c = backspace then
    let b := b.set b.bufferLen 0
    let b := { b with bufferLen := b.bufferLen - 1 }
    b.set b.bufferLen 0
  else if c = flushChar then b.set b.bufferLen 0
  else if b.bufferLen = 0 ∧ c = space then b
  else { b.set b.bufferLen c with bufferLen := b.bufferLen + 1 }

def bytes (b : Buffer) (n : Nat) : List UInt8 := (List.range n).map fun i => b.mem (BitVec.ofNat 64 i)

/-- What `terminal_read` copies; `memcpy` takes the length as an `unsigned int`. -/
def contents (b : Buffer) : List UInt8 := b.bytes (b.bufferLen.setWidth 32).toNat

end Buffer

/-- The terminal with the scheduler and one process that reads; `reading` says that it is inside `terminal_read`. Typed
keys and returned bytes are recorded. -/
structure State where
  sched : Sched
  buffer : Buffer
  reading : Bool
  typed : List UInt8
  returned : List (List UInt8)

/-- What can happen: a key is typed, the process calls `terminal_read`, the call takes the buffer and returns, or the
scheduler does something else. -/
inductive TermEvent where
  | key (c : UInt8)
  | read
  | copy
  | task (e : Event)
  deriving DecidableEq

/-- `terminal_enqueue`, with `terminal_flush`. -/
def terminalEnqueue (y : State) (c : UInt8) : Option State :=
  let y := { y with buffer := y.buffer.enqueue c, typed := y.typed ++ [c] }
  if c = flushChar then (sysWakeup y.sched terminalType).map fun r => { y with sched := r.1 } else some y

/-- `terminal_read` up to the switch in `sys_sleep`. -/
def terminalRead (y : State) : Option State :=
  (sysSleep y.sched terminalType).map fun s => { y with sched := s, reading := true }

/-- `terminal_read` after the switch. -/
def terminalCopy (y : State) : State :=
  { y with
    buffer := { y.buffer with bufferLen := 0 }
    reading := false
    returned := y.returned ++ [y.buffer.contents] }

def State.step (y : State) : TermEvent → Option State
  | .key c => terminalEnqueue y c
  | .read => terminalRead y
  | .copy => some (terminalCopy y)
  | .task e => (Scheduler.step y.sched e).map fun s => { y with sched := s }

open List Option BitVec

def edit (line : List UInt8) (c : UInt8) : List UInt8 := if c = backspace then line.dropLast else line ++ [c]

/-- The text of a line, with backspaces applied and without leading spaces. -/
def typedLine (keys : List UInt8) : List UInt8 := (keys.foldl edit []).dropWhile (· == space)

/-- The lines so far and the keys of the line that has not ended yet. -/
def addKey (t : List (List UInt8) × List UInt8) (c : UInt8) : List (List UInt8) × List UInt8 :=
  if c = flushChar then (t.1 ++ [typedLine t.2], []) else (t.1, t.2 ++ [c])

def lines (typed : List UInt8) : List (List UInt8) := (typed.foldl addKey ([], [])).1

def currentLine (typed : List UInt8) : List UInt8 := typedLine (typed.foldl addKey ([], [])).2

def push (line : List UInt8) (c : UInt8) : List UInt8 :=
  if c = backspace then line.dropLast else if line = [] ∧ c = space then [] else line ++ [c]

variable {typed keys line l : List UInt8} {c : UInt8} {n : Nat}

private theorem dropWhile_dropLast (p : UInt8 → Bool) (l : List UInt8) :
    l.dropLast.dropWhile p = (l.dropWhile p).dropLast := by
  induction l with
  | nil => rfl
  | cons a l ih =>
    cases l with
    | nil =>
      rw [dropWhile_cons]
      split <;> rfl
    | cons b l =>
      rw [dropLast_cons_cons, dropWhile_cons, dropWhile_cons]
      split
      · exact ih
      · rw [dropLast_cons_cons]

private theorem typedLine_snoc : typedLine (keys ++ [c]) = push (typedLine keys) c := by
  unfold typedLine push
  rw [foldl_append, foldl_cons, foldl_nil]
  generalize keys.foldl edit [] = text
  unfold edit
  split
  · exact dropWhile_dropLast _ _
  · rw [dropWhile_append]
    cases htext : text.dropWhile (· == space) with
    | nil =>
      by_cases hc : c = space
      · simp [hc]
      · simp [hc]
    | cons a rest => simp

private theorem lines_flush : lines (typed ++ [flushChar]) = lines typed ++ [currentLine typed] := by
  unfold lines currentLine
  rw [foldl_append, foldl_cons, foldl_nil, addKey, if_pos rfl]

private theorem currentLine_flush : currentLine (typed ++ [flushChar]) = [] := by
  unfold currentLine
  rw [foldl_append]
  rfl

private theorem lines_snoc (h : c ≠ flushChar) : lines (typed ++ [c]) = lines typed := by
  unfold lines
  rw [foldl_append, foldl_cons, foldl_nil, addKey, if_neg h]

private theorem currentLine_snoc (h : c ≠ flushChar) : currentLine (typed ++ [c]) = push (currentLine typed) c := by
  unfold currentLine
  rw [foldl_append, foldl_cons, addKey, if_neg h]
  exact typedLine_snoc

variable {b : Buffer}

structure Holds (b : Buffer) (line : List UInt8) : Prop where
  len : b.bufferLen.toNat = line.length
  bytes : b.bytes line.length = line
  short : line.length < bufferSize

private theorem bytes_set {i : BitVec 64} (h : n ≤ i.toNat) : (b.set i c).bytes n = b.bytes n := by
  refine map_congr_left fun j hj => ?_
  have hjn := mem_range.1 hj
  refine if_neg fun heq => ?_
  have hval := congrArg BitVec.toNat heq
  rw [toNat_ofNat] at hval
  omega

private theorem bytes_snoc (h : b.bufferLen.toNat = n) : (b.set b.bufferLen c).bytes (n + 1) = b.bytes n ++ [c] := by
  have hlast : BitVec.ofNat 64 n = b.bufferLen := by rw [← h, BitVec.ofNat_toNat, setWidth_eq]
  have hinit : (b.set b.bufferLen c).bytes n = b.bytes n := bytes_set (Nat.le_of_eq h.symm)
  unfold Buffer.bytes at hinit ⊢
  rw [range_succ, map_append, hinit, map_singleton, hlast]
  simp [Buffer.set]

private theorem bytes_pred (h : b.bytes (n + 1) = line) : b.bytes n = line.dropLast := by
  rw [← h]
  unfold Buffer.bytes
  rw [range_succ, map_append, map_singleton, dropLast_concat]

private theorem Holds.enqueue (h : Holds b line) (hc : c ≠ flushChar) (hback : c = backspace → b.bufferLen ≠ 0)
    (hshort : (push line c).length < bufferSize) : Holds (b.enqueue c) (push line c) := by
  have hlen := h.len
  have hsize : bufferSize = 1024 := rfl
  unfold Buffer.enqueue push at *
  by_cases hb : c = backspace
  · rw [if_pos hb] at hshort
    rw [if_pos hb, if_pos hb]
    -- there is a character to be taken back
    have hpos : b.bufferLen.toNat ≠ 0 := fun hz => hback hb (eq_of_toNat_eq hz)
    obtain ⟨n, hn⟩ : ∃ n, line.length = n + 1 := ⟨line.length - 1, by omega⟩
    have hpred : (b.bufferLen - 1).toNat = n := by
      rw [toNat_sub]
      show (2 ^ 64 - 1 + b.bufferLen.toNat) % 2 ^ 64 = n
      omega
    have hlast : line.dropLast.length = n := by rw [length_dropLast, hn, Nat.add_sub_cancel]
    refine ⟨?_, ?_, hshort⟩
    · show (b.bufferLen - 1).toNat = _
      rw [hpred, hlast]
    · rw [hlast]
      rw [bytes_set (by show n ≤ (b.bufferLen - 1).toNat; omega)]
      show (b.set b.bufferLen 0).bytes n = line.dropLast
      rw [bytes_set (by omega)]
      exact bytes_pred (hn ▸ h.bytes)
  · rw [if_neg hb] at hshort
    rw [if_neg hb, if_neg hb, if_neg hc]
    have hempty : b.bufferLen = 0 ↔ line = [] := by
      rw [← length_eq_zero_iff, ← hlen]
      exact ⟨fun hz => by rw [hz]; rfl, fun hz => eq_of_toNat_eq hz⟩
    by_cases hs : line = [] ∧ c = space
    · rw [if_pos ⟨hempty.2 hs.1, hs.2⟩, if_pos hs]
      rw [← hs.1]
      exact h
    · rw [if_neg hs, length_append] at hshort
      rw [if_neg fun hz => hs ⟨hempty.1 hz.1, hz.2⟩, if_neg hs]
      refine ⟨?_, ?_, by simpa using hshort⟩
      · rw [length_append, length_singleton]
        show (b.bufferLen.toNat + 1) % 2 ^ 64 = _
        omega
      · rw [length_append]
        exact (bytes_snoc hlen).trans (by rw [h.bytes])

private theorem Holds.flush (h : Holds b line) : Holds (b.enqueue flushChar) line := by
  have heq : b.enqueue flushChar = b.set b.bufferLen 0 := by
    unfold Buffer.enqueue
    rw [if_neg (by decide), if_pos rfl]
  rw [heq]
  exact ⟨h.len, by rw [bytes_set (Nat.le_of_eq h.len.symm)]; exact h.bytes, h.short⟩

private theorem Holds.contents (h : Holds b line) : b.contents = line := by
  have hlen := h.len
  have hshort := h.short
  have hsize : bufferSize = 1024 := rfl
  unfold Buffer.contents
  rw [toNat_setWidth, Nat.mod_eq_of_lt (by omega), hlen]
  exact h.bytes

private theorem holds_empty (mem : BitVec 64 → UInt8) : Holds ⟨mem, 0⟩ [] := ⟨rfl, rfl, by decide⟩

variable {r u : TaskId} {y : State} {s s' : Sched} {e : Event}

/-- What can happen to a terminal that `r` reads from: lines are shorter than the buffer, only `r` reads, only the end
of a line wakes up readers, and a `terminal_read` that has been woken up can only be preempted. -/
def TermAllowed (r : TaskId) (y : State) : TermEvent → Prop
  | .key c => (currentLine (y.typed ++ [c])).length < bufferSize ∧
      (c = flushChar → (waiting y.sched terminalType).length ≤ maxWaitProc)
  | .read => getCurrentTask y.sched = some r ∧ r ≠ daemon ∧ y.reading = false
  | .copy => getCurrentTask y.sched = some r ∧ y.reading = true
  | .task e => Allowed y.sched e ∧ e ≠ .wakeup terminalType ∧
      (getCurrentTask y.sched = some r ∧ y.reading = true → e = .yield ∨ e = .tick)

instance (r : TaskId) (y : State) : ∀ e, Decidable (TermAllowed r y e)
  | .key _ => inferInstanceAs (Decidable (_ ∧ (_ → _)))
  | .read => inferInstanceAs (Decidable (_ ∧ _ ∧ _))
  | .copy => inferInstanceAs (Decidable (_ ∧ _))
  | .task e => inferInstanceAs (Decidable (Allowed y.sched e ∧ _ ∧ (_ → _)))

def Woken (r : TaskId) (y : State) : Prop := y.reading = true ∧ r ∉ y.sched.waitQueue

instance (r : TaskId) (y : State) : Decidable (Woken r y) := inferInstanceAs (Decidable (_ ∧ _))

/-- The calls of `terminal_read` have returned the first of the typed lines, and all of them unless a call is about to
return. -/
def Delivered (r : TaskId) (y : State) : Prop :=
  y.returned <+: lines y.typed ∧ (¬ Woken r y → y.returned = lines y.typed)

/-- Nothing is typed until a reader that has been woken up has taken the buffer, a line ends only while the reader
sleeps in `terminal_read`, and no backspace comes at the start of a line. -/
def InTurn (r : TaskId) (y : State) : TermEvent → Prop
  | .key c => ¬ Woken r y ∧ (c = flushChar → y.reading = true) ∧ (c = backspace → currentLine y.typed ≠ [])
  | .read | .copy | .task _ => True

instance (r : TaskId) (y : State) : ∀ e, Decidable (InTurn r y e)
  | .key _ => inferInstanceAs (Decidable (_ ∧ (_ → _) ∧ (_ → _)))
  | .read | .copy | .task _ => .isTrue trivial

/-- No process has the id on which readers sleep. -/
def NoTerminalPid (s : Sched) : Prop := ∀ u, pidOf s u ≠ some terminalType

private theorem getNextPid_ne : (getNextPid s).2 ≠ terminalType := by
  by_cases hfree : HasFreePid s
  · obtain ⟨i, hi, -, hlt, -⟩ := getNextPid_some hfree
    have hmax : ulimit = 1000 := rfl
    have hterm : terminalType = 10000 := rfl
    omega
  · rw [(getNextPid_none hfree).1]
    decide

private theorem NoTerminalPid.effect (h : NoTerminalPid s) (heff : Effect s e s') : NoTerminalPid s' := by
  intro u
  cases heff with
  | moves _ hm _ =>
    rw [hm.pidOf]
    exact h u
  | fork _ hf =>
    rw [hf.pidOf]
    split
    · rw [hf.pid]
      exact fun hc => getNextPid_ne (some.inj hc)
    · exact h u
  | exit _ hx =>
    rw [hx.pidOf]
    split
    · exact nofun
    · exact h u

private theorem desc_of_wokenByExit_pid {t : TaskId} {p : Pcb} (hp : s.pcb t = some p) (hu : u ∈ wokenByExit s p) :
    ∃ v, descOf s u = pidOf s v := by
  unfold wokenByExit at hu
  split at hu
  · cases hu
  · rename_i pq hpq
    obtain ⟨q, -, hq⟩ := bind_eq_some_iff.1 hpq
    split at hu
    · obtain ⟨-, pu, hpu, hd⟩ := mem_waiting.1 hu
      exact ⟨q, by rw [descOf, pidOf, hpu, hq, map_some, map_some, hd]⟩
    · obtain ⟨-, pu, hpu, hd⟩ := mem_waiting.1 hu
      exact ⟨t, by rw [descOf, pidOf, hpu, hp, map_some, map_some, hd]⟩

private theorem still_sleeps (hpid : NoTerminalPid s) (heff : Effect s e s') (he : e ≠ .wakeup terminalType)
    (hr : r ∈ s.waitQueue) (hd : descOf s r = some terminalType) : r ∈ s'.waitQueue := by
  rcases heff.still_waits hr with h | ⟨d, rfl, hdesc⟩ | ⟨t, p, -, hx, hmem⟩
  · exact h
  · rw [hd] at hdesc
    exact absurd (congrArg Event.wakeup (some.inj hdesc).symm) he
  · obtain ⟨v, hv⟩ := desc_of_wokenByExit_pid hx.pcb_eq hmem
    exact absurd (hv.symm.trans hd) (hpid v)

structure TermInv (r : TaskId) (y : State) : Prop where
  inv : Inv y.sched
  pids : NoTerminalPid y.sched
  sleeps : y.reading = true → r ∈ y.sched.waitQueue → descOf y.sched r = some terminalType
  typing : ¬ Woken r y → Holds y.buffer (currentLine y.typed) ∧ y.returned = lines y.typed
  taking : Woken r y → currentLine y.typed = [] ∧
    ∃ line, Holds y.buffer line ∧ y.returned ++ [line] = lines y.typed

private theorem TermInv.delivered (h : TermInv r y) : Delivered r y := by
  refine ⟨?_, fun hw => (h.typing hw).2⟩
  by_cases hw : Woken r y
  · obtain ⟨-, line, -, hlines⟩ := h.taking hw
    exact ⟨[line], hlines⟩
  · rw [(h.typing hw).2]

private theorem TermInv.key (h : TermInv r y) (hc : c ≠ flushChar) (ha : TermAllowed r y (.key c))
    (hin : InTurn r y (.key c)) : ∃ y', y.step (.key c) = some y' ∧ TermInv r y' := by
  obtain ⟨hw, -, hback⟩ := hin
  obtain ⟨hholds, hret⟩ := h.typing hw
  refine ⟨{ y with buffer := y.buffer.enqueue c, typed := y.typed ++ [c] }, by rw [State.step, terminalEnqueue,
    if_neg hc], h.inv, h.pids, h.sleeps, fun _ => ?_, fun hw' => absurd hw' hw⟩
  rw [lines_snoc hc, currentLine_snoc hc]
  refine ⟨hholds.enqueue hc (fun hb hz => hback hb ?_) (currentLine_snoc hc ▸ ha.1), hret⟩
  have hlen := hholds.len
  rw [hz] at hlen
  exact length_eq_zero_iff.1 hlen.symm

private theorem TermInv.flush (h : TermInv r y) (ha : TermAllowed r y (.key flushChar))
    (hin : InTurn r y (.key flushChar)) : ∃ y', y.step (.key flushChar) = some y' ∧ TermInv r y' := by
  obtain ⟨hw, hreading, -⟩ := hin
  have hreading := hreading rfl
  obtain ⟨hholds, hret⟩ := h.typing hw
  have hwait : r ∈ y.sched.waitQueue := not_not.1 fun hc => hw ⟨hreading, hc⟩
  have hdesc := h.sleeps hreading hwait
  have hm := ha.2 rfl
  obtain ⟨s', hs', hinv, heff⟩ := wakeup_effect h.inv hm
  have hs'' : s' = woken (waiting y.sched terminalType) y.sched := by
    rw [sysWakeup_eq h.inv.queued hm] at hs'
    exact (some.inj hs').symm
  have hmem : r ∈ waiting y.sched terminalType := by
    obtain ⟨p, hp, hd⟩ := map_eq_some_iff.1 hdesc
    exact mem_waiting.2 ⟨hwait, p, hp, hd⟩
  have hwoken : r ∉ s'.waitQueue := by
    rw [hs'']
    intro hc
    simpa [hmem] using (mem_filter.1 hc).2
  refine ⟨{ y with buffer := y.buffer.enqueue flushChar, typed := y.typed ++ [flushChar], sched := s' }, ?_, hinv,
    h.pids.effect heff, fun _ hc => absurd hc hwoken, fun hc => absurd ⟨hreading, hwoken⟩ hc, fun _ => ?_⟩
  · obtain ⟨res, hres, rfl⟩ := map_eq_some_iff.1 hs'
    rw [State.step, terminalEnqueue]
    rw [hres]
    rfl
  · rw [lines_flush, currentLine_flush, hret]
    exact ⟨rfl, _, hholds.flush, rfl⟩

private theorem TermInv.read (h : TermInv r y) (ha : TermAllowed r y .read) :
    ∃ y', y.step .read = some y' ∧ TermInv r y' := by
  obtain ⟨hcur, hd, hreading⟩ := ha
  have hw : ¬ Woken r y := fun hc => Bool.false_ne_true (hreading.symm.trans hc.1)
  obtain ⟨p, hp⟩ := isSome_iff_exists.1 ((h.inv.pcb_iff r).1 (mem_all_of_run (h.inv.mem_run_of_current hcur)))
  obtain ⟨s', hs', hinv, hmoves, hwait, hself, -⟩ := sysSleep_spec h.inv hcur hd terminalType
  refine ⟨{ y with sched := s', reading := true }, by rw [State.step, terminalRead, hs']; rfl, hinv, fun u => ?_,
    fun _ _ => ?_, fun _ => h.typing hw, fun hc => ?_⟩
  · rw [hmoves.pidOf]
    exact h.pids u
  · rw [descOf, hself, hp]
    rfl
  · refine absurd ?_ hc.2
    rw [hwait]
    exact mem_cons_self

private theorem TermInv.copy (h : TermInv r y) (ha : TermAllowed r y .copy) :
    ∃ y', y.step .copy = some y' ∧ TermInv r y' := by
  obtain ⟨hcur, hreading⟩ := ha
  have hw : Woken r y := ⟨hreading, h.inv.queued.run_wait (h.inv.mem_run_of_current hcur)⟩
  obtain ⟨hnil, line, hholds, hlines⟩ := h.taking hw
  refine ⟨terminalCopy y, rfl, h.inv, h.pids, fun hc => absurd hc Bool.false_ne_true, fun _ => ?_,
    fun hc => absurd hc.1 Bool.false_ne_true⟩
  unfold terminalCopy
  rw [hnil, hholds.contents]
  exact ⟨holds_empty _, hlines⟩

private theorem TermInv.task (h : TermInv r y) (ha : TermAllowed r y (.task e)) :
    ∃ y', y.step (.task e) = some y' ∧ TermInv r y' := by
  obtain ⟨ha, hne, hown⟩ := ha
  obtain ⟨s', hs', hinv, heff⟩ := step_spec h.inv ha
  -- a reader stays where it is
  have hback : y.reading = true → r ∈ s'.waitQueue → r ∈ y.sched.waitQueue ∧ descOf s' r = descOf y.sched r := by
    intro hreading hr
    rcases heff.wait h.inv hr with hold | ⟨d, he, hcur, -⟩
    · exact hold
    · rcases hown ⟨hcur, hreading⟩ with hy | ht
      · rw [he] at hy
        cases hy
      · rw [he] at ht
        cases ht
  have hforth : y.reading = true → r ∈ y.sched.waitQueue → r ∈ s'.waitQueue := fun hreading hr =>
    still_sleeps h.pids heff hne hr (h.sleeps hreading hr)
  have hiff : Woken r { y with sched := s' } ↔ Woken r y :=
    ⟨fun hw => ⟨hw.1, fun hc => hw.2 (hforth hw.1 hc)⟩, fun hw => ⟨hw.1, fun hc => hw.2 (hback hw.1 hc).1⟩⟩
  refine ⟨{ y with sched := s' }, by rw [State.step, hs']; rfl, hinv, h.pids.effect heff, fun hreading hr => ?_,
    fun hw => h.typing (fun hc => hw (hiff.2 hc)), fun hw => h.taking (hiff.1 hw)⟩
  obtain ⟨hr, hd⟩ := hback hreading hr
  rw [hd]
  exact h.sleeps hreading hr

/-- Each event in turn keeps the buffer at the line that is being typed. -/
private theorem TermInv.step {e : TermEvent} (h : TermInv r y) (ha : TermAllowed r y e) (hin : InTurn r y e) :
    ∃ y', y.step e = some y' ∧ TermInv r y' := by
  cases e with
  | key c =>
    by_cases hc : c = flushChar
    · subst hc
      exact h.flush ha hin
    · exact h.key hc ha hin
  | read => exact h.read ha
  | copy => exact h.copy ha
  | task e => exact h.task ha

/-- The terminal before the first key; `memory` is what is in the buffer. -/
def State.start (s : Sched) (memory : BitVec 64 → UInt8) : State := ⟨s, ⟨memory, 0⟩, false, [], []⟩

open State (start)

/-- If lines end only while the reader sleeps in `terminal_read`, nothing is typed until it has taken the line, and no
backspace comes at the start of a line, then the calls return the typed lines one after the other. -/
theorem lines_delivered (around : Nat → Int) (cr3 : Nat) (sh d : Uninit) (memory : BitVec 64 → UInt8) (r : TaskId) :
    ∃ s₀, cooperativeSchedule (boot around) cr3 sh d = some s₀ ∧
      ∀ es, Permitted State.step (fun y e => TermAllowed r y e ∧ InTurn r y e) (start s₀ memory) es →
        ∃ y, run State.step (start s₀ memory) es = some y ∧ Delivered r y := by
  obtain ⟨s₀, hs0, hstart⟩ := cooperativeSchedule_start around cr3 sh d
  refine ⟨s₀, hs0, fun es hes => ?_⟩
  have hpids : NoTerminalPid s₀ := by
    intro u hu
    obtain ⟨p, hp, hpid⟩ := map_eq_some_iff.1 hu
    have hterm : terminalType = 10000 := rfl
    rcases hstart.pids hp with ⟨-, h⟩ | ⟨-, h⟩
    · omega
    · omega
  have h0 : TermInv r (start s₀ memory) :=
    ⟨hstart.inv, hpids, fun hc => absurd hc Bool.false_ne_true, fun _ => ⟨holds_empty memory, rfl⟩,
      fun hc => absurd hc.1 Bool.false_ne_true⟩
  obtain ⟨y, hy, hinv⟩ := run_invariant (fun y e hy ha => hy.step ha.1 ha.2) h0 hes
  exact ⟨y, hy, hinv.delivered⟩

def twoLines : List TermEvent :=
  [.task .yield, .read, .key 97, .key flushChar, .task .yield, .copy, .key space, .key 120,
  .read, .key backspace, .key 98, .key flushChar, .task .yield, .copy]

theorem lines_delivered_two : ∃ y, run State.step (start plainStart fun _ => 0) twoLines = some y ∧
    y.returned = [[97], [98]] ∧ Delivered 0 y := by
  have hrun := at_plainStart (lines_delivered (fun _ => 0) 0x1000 zeroed zeroed (fun _ => 0) 0)
  obtain ⟨y, hy, hret⟩ : ∃ y ∈ checkedRun State.step (fun y e => TermAllowed 0 y e ∧
      InTurn 0 y e) (start plainStart fun _ => 0)
      twoLines, y.returned = [[97], [98]] := by decide +kernel
  obtain ⟨hperm, hrun'⟩ := permitted_of_checkedRun hy
  obtain ⟨y', hy', hdel⟩ := hrun _ hperm
  obtain rfl : y = y' := some.inj (hrun'.symm.trans hy')
  exact ⟨y, hrun', hret, hdel⟩

/-- The line `a` is typed before the shell reads, and the line `b` while it reads: the shell gets one line `ab`. -/
theorem lines_merged : ∃ es y, Permitted State.step (TermAllowed 0) (start plainStart fun _ => 0) es ∧
    run State.step (start plainStart fun _ => 0) es = some y ∧ ¬ Delivered 0 y := by
  obtain ⟨y, hy, hret, hlines⟩ : ∃ y ∈ checkedRun State.step (TermAllowed 0) (start plainStart fun _ => 0)
      [.task .yield, .key 97, .key flushChar, .read, .key 98, .key flushChar, .task .yield, .copy], y.returned =
      [[97, 98]] ∧ lines y.typed = [[97], [98]] := by
    decide +kernel
  obtain ⟨hperm, hrun⟩ := permitted_of_checkedRun hy
  refine ⟨_, y, hperm, hrun, fun h => ?_⟩
  have hprefix := h.1
  rw [hret, hlines] at hprefix
  exact absurd hprefix (by decide)

end Adix.Terminal
