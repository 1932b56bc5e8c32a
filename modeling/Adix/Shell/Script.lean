import Adix.Shell.Strings

/-!
# Scripts (`exec_shell_script`, `get_next_line`, `get_interpreter` of `bin/adsh/adix_shell.c`)

If the first line does not name an interpreter, it is read once more as a command. The loop ends when `chars_read` is
the size of the file; behind a last line that no newline ends it is one more, and the loop goes on in the memory behind
the block. `chars_read` and the size are `int`s; files are smaller than `2 ^ 31` bytes.
-/

namespace Adix.Shell

open List Option Function

def newline : UInt8 := '\n'.toUInt8

def self : List UInt8 := "bin/adsh".toList.map Char.toUInt8

/-- What `get_next_line` has read: the bytes from where the line begins to where it has stopped, both included. -/
structure Line where
  beg : Int
  stop : Int
  deriving DecidableEq

/-- `get_next_line`: the bytes afterwards and the line; `*chars_read` is then the position behind it. -/
def getNextLine (s : Bytes) (fileSize charsRead : Int) : Option (Bytes × Line) := do
  let stop ← skip (fun i => s i ≠ newline && s i ≠ 0 && i ≠ fileSize) addrs charsRead
  return (update s stop 0, ⟨charsRead, stop⟩)

def blank (c : UInt8) : Bool := c == ' '.toUInt8 || c == '\t'.toUInt8

def getInterpreter (s : Bytes) (sheBangLine : Int) : Option (Option Int) := do
  let i ← skip (fun i => blank (s i)) addrs sheBangLine
  return if s i = '#'.toUInt8 ∧ s (i + 1) = '!'.toUInt8 then some (i + 2) else none

/-- What a script does: the lines that `get_next_line` reads, and the strings given to `process_command_str`. -/
structure Run where
  lines : List Line
  commands : List (List UInt8)
  deriving DecidableEq

def Run.read (line : Line) (r : Run) : Run := ⟨line :: r.lines, r.commands⟩

/-- A line of the loop: `temp` is given to `process_command_str` if it is not empty. -/
def Run.command (line : Line) (temp : List UInt8) (r : Run) : Run :=
  ⟨line :: r.lines, if temp = [] then r.commands else temp :: r.commands⟩

/-- The loop of `exec_shell_script`. `temp` is a copy of the line. -/
def lineLoop (fileSize : Int) : Nat → Bytes → Int → Option Run
  | 0, _, _ => none
  | n + 1, s, charsRead =>
    if charsRead = fileSize then some ⟨[], []⟩ else do
      let (s, line) ← getNextLine s fileSize charsRead
      let len ← strlen s line.beg
      let temp := (List.range len.toNat).map fun i : Nat => s (line.beg + i)
      let r ← lineLoop fileSize n s (line.stop + 1)
      return r.command line temp

inductive Outcome
  /-- There is no script. -/
  | empty
  /-- The script is given to the interpreter whose name is here. -/
  | interpreter (name : Int) (line : Line)
  | ran (r : Run)
  deriving DecidableEq

/-- `exec_shell_script`, from the contents of the file on. -/
def execShellScript (n : Nat) (s : Bytes) (fileSize : Int) : Option Outcome :=
  if fileSize = 0 then some .empty else do
    let (s, line) ← getNextLine s fileSize 0
    match ← getInterpreter s line.beg with
    | none =>
      -- Undo the last read.
      let len ← strlen s line.beg
      let charsRead := (BitVec.ofInt 32 (line.stop + 1) - (len + 1)).toInt
      let r ← lineLoop fileSize n s charsRead
      return .ran (r.read line)
    | some interpreter =>
      if (← strEqual s interpreter (ofText self) 0) = false then return .interpreter interpreter line
      let r ← lineLoop fileSize n s (line.stop + 1)
      return .ran (r.read line)

def interpreterOf (line : List UInt8) : Option (List UInt8) :=
  match line.dropWhile blank with
  | c :: d :: name => if c = '#'.toUInt8 ∧ d = '!'.toUInt8 then some name else none
  | _ => none

def scriptInterpreter (text : List UInt8) : Option (List UInt8) := interpreterOf ((text.splitOn newline).headD [])

/-- The commands of a script: its lines that are not empty, except for the one with the interpreter. -/
def commandLines (text : List UInt8) : List (List UInt8) :=
  let lines := text.splitOn newline
  (if scriptInterpreter text = none then lines else lines.tail).filter (· ≠ [])

/-- The script has been run: nothing behind the contents and the NUL there has been read, and the commands are those of
the script. -/
structure Executed (text : List UInt8) (r : Run) : Prop where
  inside : ∀ line ∈ r.lines, line.stop ≤ text.length
  commands : r.commands = commandLines text

def Clean (line : List UInt8) : Prop := ∀ c ∈ line, c ≠ newline ∧ c ≠ 0

private theorem Clean.zero {line : List UInt8} (h : Clean line) : 0 ∉ line := fun hc => (h 0 hc).2 rfl

def unlines (ls : List (List UInt8)) : List UInt8 := ls.flatMap (· ++ [newline])

@[simp] private theorem unlines_cons {l : List UInt8} {ls : List (List UInt8)} :
    unlines (l :: ls) = l ++ [newline] ++ unlines ls := flatMap_cons

private theorem exists_lines {text : List UInt8} (h0 : 0 ∉ text) :
    ∃ (ls : List (List UInt8)) (last : List UInt8), (∀ l ∈ ls, Clean l) ∧ Clean last ∧ text = unlines ls ++ last := by
  induction text with
  | nil => exact ⟨[], [], by simp, by simp [Clean], rfl⟩
  | cons c text ih =>
    rw [mem_cons, not_or] at h0
    obtain ⟨ls, last, hls, hlast, rfl⟩ := ih h0.2
    by_cases hc : c = newline
    · subst hc
      exact ⟨[] :: ls, last, forall_mem_cons.mpr ⟨by simp [Clean], hls⟩, hlast, rfl⟩
    · have hcons : ∀ l, Clean l → Clean (c :: l) := fun l hl =>
        forall_mem_cons.mpr ⟨⟨hc, fun h => h0.1 h.symm⟩, hl⟩
      cases ls with
      | nil => exact ⟨[], c :: last, by simp, hcons last hlast, rfl⟩
      | cons l ls =>
        rw [forall_mem_cons] at hls
        exact ⟨(c :: l) :: ls, last, forall_mem_cons.mpr ⟨hcons l hls.1, hls.2⟩, hlast, rfl⟩

private theorem splitOn_lines {ls : List (List UInt8)} {last : List UInt8} (hls : ∀ l ∈ ls, Clean l)
    (hlast : Clean last) : (unlines ls ++ last).splitOn newline = ls ++ [last] := by
  induction ls with
  | nil => exact splitOn_eq_singleton fun h => (hlast newline h).1 rfl
  | cons l ls ih =>
    rw [forall_mem_cons] at hls
    rw [unlines_cons, List.append_assoc, List.append_assoc, singleton_append, List.splitOn,
      splitOnP_append_cons_of_forall_mem (fun c hc => by simpa using (hls.1 c hc).1) newline (by simp)]
    exact congrArg (l :: ·) (ih hls.2)

section Lines

variable {s : Bytes} {size i : Int} {line : List UInt8} {c : UInt8} {n : Nat}

/-- `get_next_line` looks for the end of a line from `chars_read` on, puts a NUL there, and moves `chars_read` behind
it. -/
private theorem getNextLine_eq (hs : Holds s i (line ++ [c])) (hline : Clean line) (hc : c = newline ∨ c = 0)
    (hsize : i + line.length ≤ size) (hlen : line.length < addrs) :
    getNextLine s size i = some (update s (i + line.length) 0, ⟨i, i + line.length⟩) := by
  rw [holds_append] at hs
  obtain ⟨hs, hend, -⟩ := hs
  have hskip : skip (fun j => s j ≠ newline && s j ≠ 0 && j ≠ size) addrs i = some (i + line.length) := by
    refine skip_eq (fun j hj hj' => ?_) ?_ hlen
    · obtain ⟨h1, h2⟩ := hline (s j) (hs.mem hj hj')
      simp [h1, h2]
      omega
    · rw [hend]
      rcases hc with rfl | rfl <;> simp
  rw [getNextLine, hskip]
  rfl

private theorem le_of_getNextLine {s' : Bytes} {l : Line} (h : getNextLine s size i = some (s', l)) : i ≤ l.stop := by
  obtain ⟨j, hj, hl⟩ := bind_eq_some_iff.mp h
  cases hl
  exact le_of_skip hj

private theorem lineLoop_line (hs : Holds s i (line ++ [c])) (hline : Clean line) (hc : c = newline ∨ c = 0)
    (hsize : i + line.length ≤ size) (hi : i ≠ size) (hlen : line.length < 2 ^ 32) :
    lineLoop size (n + 1) s i = (lineLoop size n (update s (i + line.length) 0) (i + line.length + 1)).map
        (Run.command ⟨i, i + line.length⟩ line) := by
  have hlen' : line.length < addrs := Nat.lt_trans hlen (by decide)
  have hline' := ((holds_append ..).mp hs).1.concat 0
  have htemp := ((holds_append ..).mp hline').1.range
  rw [lineLoop, if_neg hi, getNextLine_eq hs hline hc hsize hlen']
  simp only [bind_eq_bind, bind_some, strlen_eq hline' hline.zero hlen', BitVec.toNat_ofNat, Nat.mod_eq_of_lt hlen,
    htemp]
  cases lineLoop size n (update s (i + line.length) 0) (i + line.length + 1) <;> rfl

private theorem holds_line {rest : List UInt8} (hs : Holds s i (line ++ [newline] ++ rest)) :
    Holds s i (line ++ [newline]) ∧ Holds (update s (i + line.length) 0) (i + line.length + 1) rest := by
  obtain ⟨hfirst, hrest⟩ := (holds_append ..).mp hs
  rw [length_append, Int.natCast_add, ← Int.add_assoc] at hrest
  exact ⟨hfirst, hrest.update (.inl (Int.lt_succ _)) 0⟩

private theorem lineLoop_past {r : Run} (hi : size < i) (h : lineLoop size n s i = some r) :
    ∃ l ∈ r.lines, size < l.stop := by
  cases n with
  | zero => cases h
  | succ n =>
    rw [lineLoop, if_neg (by omega)] at h
    obtain ⟨⟨s', l⟩, hnext, h⟩ := bind_eq_some_iff.mp h
    obtain ⟨len, -, h⟩ := bind_eq_some_iff.mp h
    obtain ⟨r', -, h⟩ := bind_eq_some_iff.mp h
    cases h
    have hle := le_of_getNextLine hnext
    exact ⟨l, mem_cons_self, by omega⟩

end Lines

private theorem lineLoop_ended {size : Int} {ls : List (List UInt8)} (hls : ∀ l ∈ ls, Clean l) {s : Bytes} {i : Int}
    (hs : Holds s i (unlines ls)) (hsize : i + (unlines ls).length = size) (hlen : (unlines ls).length < 2 ^ 32) :
    ∃ n r, lineLoop size n s i = some r ∧ (∀ l ∈ r.lines, l.stop ≤ size) ∧ r.commands = ls.filter (· ≠ []) := by
  induction ls generalizing s i with
  | nil =>
    have hi : i = size := by simpa [unlines] using hsize
    exact ⟨1, ⟨[], []⟩, by rw [lineLoop, if_pos hi], by simp, rfl⟩
  | cons line ls ih =>
    rw [forall_mem_cons] at hls
    rw [unlines_cons] at hs hsize hlen
    simp only [length_append, length_singleton] at hsize hlen
    obtain ⟨hfirst, hrest⟩ := holds_line hs
    obtain ⟨n, r, hrun, hlines, hcmds⟩ := ih hls.2 hrest (by omega) (by omega)
    refine ⟨n + 1, r.command ⟨i, i + line.length⟩ line, ?_, ?_, ?_⟩
    · rw [lineLoop_line hfirst hls.1 (.inl rfl) (by omega) (by omega) (by omega), hrun]
      rfl
    · exact forall_mem_cons.mpr ⟨by simp only; omega, hlines⟩
    · rw [Run.command, hcmds]
      by_cases hl : line = [] <;> simp [hl]

private theorem lineLoop_unended {size : Int} {ls : List (List UInt8)} (hls : ∀ l ∈ ls, Clean l) {last : List UInt8}
    (hlast : Clean last) (hne : last ≠ []) {n : Nat} {s : Bytes} {i : Int} {r : Run}
    (hs : Holds s i (unlines ls ++ last ++ [0])) (hsize : i + (unlines ls ++ last).length = size)
    (hlen : (unlines ls ++ last).length < 2 ^ 32) (h : lineLoop size n s i = some r) :
    ∃ l ∈ r.lines, size < l.stop := by
  induction ls generalizing n s i r with
  | nil =>
    have hpos : 0 < last.length := length_pos_iff.mpr hne
    change Holds s i (last ++ [0]) at hs
    change i + (last.length : Int) = size at hsize
    cases n with
    | zero => cases h
    | succ n =>
      rw [lineLoop_line hs hlast (.inr rfl) (by omega) (by omega) hlen] at h
      obtain ⟨r', hr', rfl⟩ := map_eq_some_iff.mp h
      obtain ⟨l, hl, hstop⟩ := lineLoop_past (by omega) hr'
      exact ⟨l, mem_cons_of_mem _ hl, hstop⟩
  | cons line ls ih =>
    rw [forall_mem_cons] at hls
    rw [unlines_cons] at hs hsize hlen
    simp only [length_append, length_singleton] at hsize hlen
    rw [List.append_assoc, List.append_assoc] at hs
    obtain ⟨hfirst, hrest⟩ := holds_line hs
    rw [← List.append_assoc] at hrest
    cases n with
    | zero => cases h
    | succ n =>
      rw [lineLoop_line hfirst hls.1 (.inl rfl) (by omega) (by omega) (by omega)] at h
      obtain ⟨r', hr', rfl⟩ := map_eq_some_iff.mp h
      obtain ⟨l, hl, hstop⟩ := ih hls.2 hrest (by rw [length_append]; omega) (by rw [length_append]; omega) hr'
      exact ⟨l, mem_cons_of_mem _ hl, hstop⟩

section First

variable {s : Bytes} {size i : Int} {line name : List UInt8} {c : UInt8} {n : Nat}

private theorem skip_blank (hs : Holds s i (line ++ [0])) (hn : line.length < n) :
    ∃ j, skip (fun k => blank (s k)) n i = some j ∧ Holds s j (line.dropWhile blank ++ [0]) := by
  induction line generalizing i n with
  | nil =>
    obtain _ | n := n
    · omega
    refine ⟨i, ?_, hs⟩
    rw [skip, hs.1]
    rfl
  | cons c line ih =>
    obtain _ | n := n
    · omega
    rw [skip, hs.1, dropWhile_cons]
    by_cases hc : blank c = true
    · rw [if_pos hc, if_pos hc]
      exact ih hs.2 (by simpa using hn)
    · rw [if_neg hc, if_neg hc]
      exact ⟨i, rfl, hs⟩

private theorem getInterpreter_none (hs : Holds s i (line ++ [0])) (hlen : line.length < addrs)
    (h : interpreterOf line = none) : getInterpreter s i = some none := by
  obtain ⟨j, hj, hbody⟩ := skip_blank hs hlen
  have hno : ¬(s j = '#'.toUInt8 ∧ s (j + 1) = '!'.toUInt8) := by
    unfold interpreterOf at h
    split at h
    · next c d name hdrop =>
      rw [hdrop] at hbody
      rw [hbody.1, hbody.2.1]
      split at h
      · cases h
      · assumption
    · next hdrop =>
      match hd : line.dropWhile blank with
      | [] =>
        rw [hd] at hbody
        rw [hbody.1]
        exact fun h => absurd h.1 (by decide)
      | [c] =>
        rw [hd] at hbody
        rw [hbody.2.1]
        exact fun h => absurd h.2 (by decide)
      | c :: d :: name => exact absurd hd (hdrop c d name)
  rw [getInterpreter, hj]
  simp only [bind_eq_bind, bind_some, if_neg hno]
  rfl

private theorem getInterpreter_some (hs : Holds s i (line ++ [0])) (hlen : line.length < addrs)
    (h : interpreterOf line = some name) : ∃ j, getInterpreter s i = some (some j) ∧ Holds s j (name ++ [0]) := by
  obtain ⟨j, hj, hbody⟩ := skip_blank hs hlen
  unfold interpreterOf at h
  split at h
  · next c d rest hdrop =>
    rw [hdrop] at hbody
    split at h
    · next hcd =>
      cases h
      refine ⟨j + 2, ?_, ?_⟩
      · rw [getInterpreter, hj]
        simp only [bind_eq_bind, bind_some, hbody.1, hbody.2.1, if_pos hcd]
        rfl
      · have := hbody.2.2
        rwa [Int.add_assoc] at this
    · cases h
  · cases h

private theorem undo_read (line : List UInt8) :
    (BitVec.ofInt 32 ((line.length : Int) + 1) - (BitVec.ofNat 32 line.length + 1)).toInt = 0 := by
  rw [ofNat_add_one, ← BitVec.ofInt_natCast, Int.natCast_add, Int.natCast_one, BitVec.sub_self]
  rfl

structure FirstLine (s : Bytes) (size : Int) (line : List UInt8) : Prop where
  held : ∃ c, (c = newline ∨ c = 0) ∧ Holds s 0 (line ++ [c])
  clean : Clean line
  inside : line.length ≤ size
  pos : 0 < size
  short : line.length + 1 < 2 ^ 31

namespace FirstLine

variable (hf : FirstLine s size line)
include hf

private theorem lt_addrs : line.length < addrs := Nat.lt_trans (Nat.lt_of_succ_lt hf.short) (by decide)

private theorem read : getNextLine s size 0 = some (update s line.length 0, ⟨0, line.length⟩) ∧
    Holds (update s line.length 0) 0 (line ++ [0]) := by
  obtain ⟨c, hc, hs⟩ := hf.held
  have hin : 0 + (line.length : Int) ≤ size := by rw [Int.zero_add]; exact hf.inside
  have hnext := getNextLine_eq hs hf.clean hc hin hf.lt_addrs
  have hline := ((holds_append ..).mp hs).1.concat 0
  rw [Int.zero_add] at hnext hline
  exact ⟨hnext, hline⟩

private theorem unnamed (h : interpreterOf line = none) (n : Nat) : execShellScript n s size =
    (lineLoop size n (update s line.length 0) 0).map fun r => .ran (r.read ⟨0, line.length⟩) := by
  obtain ⟨hnext, hline⟩ := hf.read
  rw [execShellScript, if_neg (Int.ne_of_gt hf.pos), hnext]
  simp only [bind_eq_bind, bind_some, getInterpreter_none hline hf.lt_addrs h,
    strlen_eq hline hf.clean.zero hf.lt_addrs, undo_read line]
  cases lineLoop size n (update s line.length 0) 0 <;> rfl

private theorem again (n : Nat) : lineLoop size (n + 1) (update s line.length 0) 0 =
    (lineLoop size n (update s line.length 0) (line.length + 1)).map (Run.command ⟨0, line.length⟩ line) := by
  have hshort := hf.short
  have hrun := @lineLoop_line _ size 0 line 0 n hf.read.2 hf.clean (.inr rfl) (by rw [Int.zero_add]; exact hf.inside)
    (Int.ne_of_lt hf.pos) (by omega)
  rwa [Int.zero_add, update_idem] at hrun

private theorem named (h : interpreterOf line = some self) (n : Nat) : execShellScript n s size =
    (lineLoop size n (update s line.length 0) (line.length + 1)).map fun r => .ran (r.read ⟨0, line.length⟩) := by
  obtain ⟨hnext, hline⟩ := hf.read
  obtain ⟨j, hj, hname⟩ := getInterpreter_some hline hf.lt_addrs h
  have hself : Holds (ofText self) 0 (self ++ [0]) := by decide
  rw [execShellScript, if_neg (Int.ne_of_gt hf.pos), hnext]
  simp only [bind_eq_bind, bind_some, hj, strEqual_eq hname hself (by decide) (by decide) (by decide) (by decide)]
  cases lineLoop size n (update s line.length 0) (line.length + 1) <;> rfl

variable (hint : interpreterOf line = none ∨ interpreterOf line = some self)
include hint

private theorem exists_ran {r : Run} (h : lineLoop size n (update s line.length 0) (line.length + 1) = some r) :
    ∃ m r', execShellScript m s size = some (.ran r') ∧ (∀ l ∈ r'.lines, l = ⟨0, line.length⟩ ∨ l ∈ r.lines) ∧
      r'.commands = (if interpreterOf line = none ∧ line ≠ [] then line :: r.commands else r.commands) := by
  rcases hint with hint | hint
  · refine ⟨n + 1, (r.command ⟨0, line.length⟩ line).read ⟨0, line.length⟩, ?_, ?_, ?_⟩
    · rw [hf.unnamed hint, hf.again, h]
      rfl
    · simp [Run.read, Run.command]
    · by_cases hl : line = [] <;> simp [Run.read, Run.command, hint, hl]
  · refine ⟨n, r.read ⟨0, line.length⟩, ?_, ?_, ?_⟩
    · rw [hf.named hint, h]
      rfl
    · simp [Run.read]
    · simp [Run.read, hint]

private theorem exists_lineLoop {m : Nat} {r' : Run} (h : execShellScript m s size = some (.ran r')) :
    ∃ n r, lineLoop size n (update s line.length 0) (line.length + 1) = some r ∧ ∀ l ∈ r.lines, l ∈ r'.lines := by
  rcases hint with hint | hint
  · rw [hf.unnamed hint, map_eq_some_iff] at h
    obtain ⟨r1, h1, hr⟩ := h
    cases hr
    cases m with
    | zero => cases h1
    | succ m =>
      rw [hf.again, map_eq_some_iff] at h1
      obtain ⟨r, h, rfl⟩ := h1
      exact ⟨m, r, h, fun l hl => mem_cons_of_mem _ (mem_cons_of_mem _ hl)⟩
  · rw [hf.named hint, map_eq_some_iff] at h
    obtain ⟨r, h, hr⟩ := h
    cases hr
    exact ⟨m, r, h, fun l hl => mem_cons_of_mem _ hl⟩

end FirstLine

end First

private theorem getLast?_lines (ls : List (List UInt8)) (hne : ls ≠ []) : (unlines ls).getLast? = some newline := by
  obtain ⟨ls, l, rfl⟩ := eq_nil_or_concat ls |>.resolve_left hne
  simp [unlines]

section Whole

variable {line last : List UInt8} {ls : List (List UInt8)} {s : Bytes} {size : Int} {c : UInt8}

private theorem commandLines_ended (hline : Clean line) (hls : ∀ l ∈ ls, Clean l) :
      commandLines (unlines (line :: ls)) =
      if interpreterOf line = none ∧ line ≠ [] then line :: ls.filter (· ≠ []) else ls.filter (· ≠ []) := by
  have hsplit := @splitOn_lines (line :: ls) [] (forall_mem_cons.mpr ⟨hline, hls⟩) (by simp [Clean])
  rw [append_nil] at hsplit
  have hfirst : scriptInterpreter (unlines (line :: ls)) = interpreterOf line := by
    rw [scriptInterpreter, hsplit]
    rfl
  rw [commandLines, hfirst, hsplit]
  by_cases hi : interpreterOf line = none
  · rw [if_pos hi]
    by_cases hl : line = [] <;> simp [hi, hl]
  · rw [if_neg hi, if_neg fun h => hi h.1]
    simp

private theorem executed_of_ended (hline : Clean line) (hls : ∀ l ∈ ls, Clean l)
    (hint : interpreterOf line = none ∨ interpreterOf line = some self)
    (hlen : (unlines (line :: ls)).length + 1 < 2 ^ 31) (hs : Holds s 0 (unlines (line :: ls))) :
    ∃ n r, execShellScript n s (unlines (line :: ls)).length = some (.ran r) ∧ Executed (unlines (line :: ls)) r := by
  obtain ⟨hfirst, hrest⟩ := holds_line hs
  rw [Int.zero_add] at hrest
  have hsize : (line.length : Int) + 1 + ((unlines ls).length : Int) = ((unlines (line :: ls)).length : Nat) := by
    simp only [unlines_cons, length_append, length_singleton]
    omega
  obtain ⟨n, r, hrun, hlines, hcmds⟩ := lineLoop_ended hls hrest hsize (by omega)
  obtain ⟨m, r', hrun', hlines', hcmds'⟩ := FirstLine.exists_ran
    ⟨⟨_, .inl rfl, hfirst⟩, hline, by omega, by omega, by omega⟩ hint hrun
  refine ⟨m, r', hrun', fun l hl => ?_, ?_⟩
  · rcases hlines' l hl with rfl | hl
    · simp only
      omega
    · exact hlines l hl
  · rw [hcmds', hcmds, commandLines_ended hline hls]

private theorem past_of_unended (hls : ∀ l ∈ ls, Clean l) (hlast : Clean last) (hne : last ≠ [])
    (hint : interpreterOf ((ls ++ [last]).headD []) = none ∨ interpreterOf ((ls ++ [last]).headD []) = some self)
    (hlen : (unlines ls ++ last).length + 1 < 2 ^ 31) (hs : Holds s 0 (unlines ls ++ last ++ [0])) {n : Nat} {r : Run}
    (hrun : execShellScript n s (unlines ls ++ last).length = some (.ran r)) :
    ∃ l ∈ r.lines, ((unlines ls ++ last).length : Int) < l.stop := by
  have hpos : 0 < last.length := length_pos_iff.mpr hne
  cases ls with
  | nil =>
    obtain ⟨m, r', hrun', hsub⟩ := FirstLine.exists_lineLoop
      ⟨⟨_, .inr rfl, hs⟩, hlast, by simp [unlines], by simp; omega, by simpa [unlines] using hlen⟩ hint hrun
    obtain ⟨l, hl, hstop⟩ := lineLoop_past (by omega) hrun'
    exact ⟨l, hsub l hl, hstop⟩
  | cons line ls =>
    rw [forall_mem_cons] at hls
    rw [unlines_cons, List.append_assoc, List.append_assoc] at hs
    obtain ⟨hfirst, hrest⟩ := holds_line hs
    rw [Int.zero_add] at hrest
    simp only [unlines_cons, length_append, length_singleton] at hlen
    obtain ⟨m, r', hrun', hsub⟩ := FirstLine.exists_lineLoop
      ⟨⟨_, .inl rfl, hfirst⟩, hls.1, by simp; omega, by simp; omega, by omega⟩ hint hrun
    rw [← List.append_assoc] at hrest
    obtain ⟨l, hl, hstop⟩ :=
      lineLoop_unended hls.2 hlast hne hrest (by simp; omega) (by rw [length_append]; omega) hrun'
    exact ⟨l, hsub l hl, hstop⟩

end Whole

/-- Scripts are run to their end, and only what is in the file is run, exactly if the last line ends in a newline. -/
theorem executed_iff_ended (text : List UInt8) (hne : text ≠ []) (h0 : 0 ∉ text) (hlen : text.length + 1 < 2 ^ 31)
    (hint : scriptInterpreter text = none ∨ scriptInterpreter text = some self) (s : Bytes)
    (hs : Holds s 0 (text ++ [0])) :
    (∃ n r, execShellScript n s text.length = some (.ran r) ∧ Executed text r) ↔ text.getLast? = some newline := by
  obtain ⟨ls, last, hls, hlast, rfl⟩ := exists_lines h0
  rw [scriptInterpreter, splitOn_lines hls hlast] at hint
  by_cases hl : last = []
  · subst hl
    rw [append_nil] at hne hlen hs ⊢
    obtain ⟨line, ls, rfl⟩ := exists_cons_of_ne_nil fun h : ls = [] => hne (by rw [h]; rfl)
    rw [forall_mem_cons] at hls
    rw [getLast?_lines _ (cons_ne_nil line ls)]
    exact iff_of_true (executed_of_ended hls.1 hls.2 hint hlen ((holds_append ..).mp hs).1) rfl
  · have hlast? : (unlines ls ++ last).getLast? ≠ some newline := by
      rw [getLast?_append_of_ne_nil _ hl]
      exact fun h => (hlast newline (mem_of_getLast? h)).1 rfl
    refine iff_of_false ?_ hlast?
    rintro ⟨n, r, hrun, hex⟩
    obtain ⟨l, hmem, hstop⟩ := past_of_unended hls hlast hl hint hlen hs hrun
    have hle := hex.inside l hmem
    omega

theorem executed_two_lines : ∃ n r, execShellScript n (ofText ("#!bin/adsh\nls\nps\n".toList.map Char.toUInt8)) 17
      = some (.ran r) ∧ Executed ("#!bin/adsh\nls\nps\n".toList.map Char.toUInt8) r :=
  (executed_iff_ended ("#!bin/adsh\nls\nps\n".toList.map Char.toUInt8) (by decide) (by decide) (by decide)
    (.inr (by decide)) _ (by decide)).mpr (by decide)

/-- A script of one line that no newline ends: `chars_read` goes from 0 to 3, the size is 2. -/
theorem unended_line_reads_on :
    (getNextLine (ofText ("ls".toList.map Char.toUInt8)) 2 0).map (fun r => r.2.stop + 1) = some 3 ∧
    ¬∃ n r, execShellScript n (ofText ("ls".toList.map Char.toUInt8)) 2 = some (.ran r) ∧
      Executed ("ls".toList.map Char.toUInt8) r := by
  refine ⟨by decide +kernel, ?_⟩
  rintro ⟨n, r, hrun, hex⟩
  have hclean : Clean ("ls".toList.map Char.toUInt8) := by
    unfold Clean
    decide +kernel
  obtain ⟨l, hl, hstop⟩ := @past_of_unended ("ls".toList.map Char.toUInt8) [] _ (by simp) hclean (by decide)
    (.inl (by decide)) (by decide) (by decide) n r hrun
  exact absurd (hex.inside l hl) (Int.not_le.mpr hstop)

end Adix.Shell
