import Mathlib.Data.Nat.Find
import Mathlib.Data.List.Basic
import Mathlib.Algebra.Group.Nat.Defs
import Mathlib.Data.List.TakeWhile

/-!
# Formatted output (`libc/sprintf.c`, `libc/printf.c`, `sys/print/printf.c`, `sys/terminal/terminal_driver.c`)

The formatter of libc writes to a buffer, the one of the kernel to the screen; apart from `putch` they are the same, so
the converters are written here once. A format and its arguments are read from a memory that does not overlap with the
buffer. `va_arg` takes the next word, whether the caller has passed one there or not.
-/

namespace Adix.Print

open BitVec
open BitVec (ofNat)

/-! ### Strings -/

/-- What a `char *` points to: the bytes around it, and the number of those before the first NUL. -/
structure CString where
  byte : Int → UInt8
  len : Nat
  nul : byte len = 0
  nonzero : ∀ i < len, byte (i : Nat) ≠ 0

def CString.bytes (s : CString) : List UInt8 := (List.range s.len).map fun i => s.byte (i : Nat)

variable {l : List UInt8}

private theorem getD_takeWhile_length (l : List UInt8) : l.getD (l.takeWhile (· ≠ 0)).length 0 = 0 := by
  induction l with
  | nil => rfl
  | cons c l ih =>
    rw [List.takeWhile_cons]
    split
    · exact ih
    · next hc => simpa using hc

private theorem getD_ne_zero_of_lt {i : Nat} (hi : i < (l.takeWhile (· ≠ 0)).length) : l.getD i 0 ≠ 0 := by
  induction l generalizing i with
  | nil => simp at hi
  | cons c l ih =>
    rw [List.takeWhile_cons] at hi
    split at hi
    · next hc =>
      cases i with
      | zero => simpa using hc
      | succ i => exact ih (Nat.lt_of_succ_lt_succ hi)
    · simp at hi

/-- The string in an array that holds these characters and then a NUL. -/
def CString.ofList (l : List UInt8) : CString where
  byte i := if i < 0 then 0 else l.getD i.toNat 0
  len := (l.takeWhile fun c => decide (c ≠ 0)).length
  nul := by
    rw [if_neg (by omega), Int.toNat_natCast]
    exact getD_takeWhile_length l
  nonzero i hi := by
    rw [if_neg (by omega), Int.toNat_natCast]
    exact getD_ne_zero_of_lt hi

/-- A memory, with a NUL somewhere: reading a string ends. -/
structure Memory where
  byte : BitVec 64 → UInt8
  nul : ∃ a, byte a = 0

theorem Memory.ends (m : Memory) (a : BitVec 64) : ∃ n : Nat, m.byte (a + BitVec.ofInt 64 n) = 0 := by
  obtain ⟨x, hx⟩ := m.nul
  refine ⟨(x - a).toNat, ?_⟩
  rw [ofInt_natCast, BitVec.ofNat_toNat, setWidth_eq, BitVec.add_comm, BitVec.sub_add_cancel]
  exact hx

def Memory.str (m : Memory) (a : BitVec 64) : CString where
  byte i := m.byte (a + BitVec.ofInt 64 i)
  len := Nat.find (m.ends a)
  nul := Nat.find_spec (m.ends a)
  nonzero _ hi := Nat.find_min (m.ends a) hi

def strlen (s : CString) : BitVec 32 := ofNat 32 s.len

/-! ### Converters -/

/-- The words that `va_arg` takes. -/
abbrev VaList := Nat → BitVec 64

def VaList.next (ap : VaList) : VaList := fun i => ap (i + 1)

def decimalBase : Nat := 10

def maxLengthOfStrInt : Nat := 11

def bytesOf {w : Nat} (v : BitVec w) (i : Nat) : UInt8 := UInt8.ofBitVec ((v >>> (8 * i)).setWidth 8)

section Converters

variable {σ : Type} (putch : σ → UInt8 → σ)

/-- `puts`. The index is an `int`, which is compared as an unsigned number. -/
def puts (s : σ) (text : CString) : σ :=
  (List.range (strlen text).toNat).foldl (fun s i => putch s (text.byte (ofNat 32 i).toInt)) s

/-- One round of the loop of `hex_to_string`, with `num_char` and `start_print`. -/
def hexNibble (parg : Nat → UInt8) (st : σ × BitVec 32 × Bool) (nib : Nat) : σ × BitVec 32 × Bool :=
  -- a `char` is signed
  let byte : BitVec 32 := (parg (nib / 2)).toBitVec.signExtend 32
  let c : BitVec 8 :=
    if nib % 2 = 0 then (byte &&& 0x0F).setWidth 8 else ((byte &&& 0xF0).sshiftRight 4).setWidth 8
  let startPrint := if c ≠ 0 then true else st.2.2
  let c := if c.toNat < decimalBase then c + '0'.toUInt8.toBitVec else c + ('a'.toUInt8.toBitVec - ofNat 8 decimalBase)
  if startPrint then (putch st.1 (UInt8.ofBitVec c), st.2.1 + 1, startPrint) else (st.1, st.2.1, startPrint)

def hexToString (parg : Nat → UInt8) (bytes : Nat) (s : σ) : σ × BitVec 32 :=
  let s := puts putch s (CString.ofList ['0'.toUInt8, 'x'.toUInt8])
  let st := (List.range (bytes * 2)).reverse.foldl (hexNibble putch parg) (s, 2, false)
  if st.2.1 = 2 then (putch st.1 '0'.toUInt8, st.2.1 + 1) else (st.1, st.2.1)

def pointerToString (ptr : BitVec 64) (s : σ) : σ × BitVec 32 := hexToString putch (bytesOf ptr) 8 s

def hexnumToString (d : BitVec 32) (s : σ) : σ × BitVec 32 := hexToString putch (bytesOf d) 4 s

private theorem tdiv_ten (z : Int) : z.tdiv 10 = if 0 ≤ z then z / 10 else -(-z / 10) := by
  split
  · next hz => exact Int.tdiv_eq_ediv_of_nonneg hz
  · next hz => rw [← Int.tdiv_eq_ediv_of_nonneg (by omega), Int.neg_tdiv, Int.neg_neg]

theorem toInt_sdiv_base (d : BitVec 32) : (d.sdiv (ofNat 32 decimalBase)).toInt = d.toInt.tdiv 10 := by
  have h1 := le_toInt d
  have h2 := toInt_lt (x := d)
  have h10 : (ofNat 32 decimalBase).toInt = 10 := by decide
  rw [toInt_sdiv, h10, tdiv_ten]
  apply Int.bmod_eq_of_le
  · omega
  · omega

theorem sdiv_lt {d : BitVec 32} (h : 0 < (d.sdiv (ofNat 32 decimalBase)).toInt) :
    (d.sdiv (ofNat 32 decimalBase)).toInt.toNat < d.toInt.toNat := by
  rw [toInt_sdiv_base, tdiv_ten] at h ⊢
  omega

/-- The loop of `int_to_string`: what is in its array from `loc` on. -/
def digitLoop (d : BitVec 32) (loc : List UInt8) : List UInt8 :=
  let c := UInt8.ofBitVec ((d.srem (ofNat 32 decimalBase) + '0'.toUInt8.toBitVec.signExtend 32).setWidth 8)
  if h : 0 < (d.sdiv (ofNat 32 decimalBase)).toInt then
    have := sdiv_lt h
    digitLoop (d.sdiv (ofNat 32 decimalBase)) (c :: loc)
  else c :: loc
termination_by d.toInt.toNat

/-- What `int_to_string` has in its array from `loc` on, up to the NUL at its end. -/
def intText (d : BitVec 32) : List UInt8 :=
  let neg := d.slt 0
  let loc := digitLoop (if neg then d * (-1) else d) []
  if neg then '-'.toUInt8 :: loc else loc

/-- The index `loc - printf_string_buff`. The array has a NUL at its end. -/
def intLoc (d : BitVec 32) : Int := maxLengthOfStrInt - (intText d).length

def intToString (d : BitVec 32) (s : σ) : σ × BitVec 32 :=
  (puts putch s (CString.ofList (intText d)), BitVec.ofInt 32 (maxLengthOfStrInt + 1 - intLoc d))

def charToString (d : BitVec 32) (s : σ) : σ × BitVec 32 := (putch s (UInt8.ofBitVec (d.setWidth 8)), 1)

def stringToString (str : CString) (s : σ) : σ × BitVec 32 := (puts putch s str, strlen str)

def percentToString (s : σ) : σ × BitVec 32 := (putch s '%'.toUInt8, 1)

inductive Conv where
  | intToString
  | charToString
  | stringToString
  | hexnumToString
  | pointerToString
  | percentToString
  deriving DecidableEq

/-- A call of one of these functions. -/
def Conv.toString (m : Memory) (ap : VaList) (s : σ) : Conv → VaList × σ × BitVec 32
  | intToString => (ap.next, Print.intToString putch ((ap 0).setWidth 32) s)
  | charToString => (ap.next, Print.charToString putch ((ap 0).setWidth 32) s)
  | stringToString => (ap.next, Print.stringToString putch (m.str (ap 0)) s)
  | hexnumToString => (ap.next, Print.hexnumToString putch ((ap 0).setWidth 32) s)
  | pointerToString => (ap.next, Print.pointerToString putch (ap 0) s)
  | percentToString => (ap, Print.percentToString putch s)

def formatStrConv : List (UInt8 × Option Conv) :=
  [('d'.toUInt8, some .intToString), ('i'.toUInt8, some .intToString), ('c'.toUInt8, some .charToString),
    ('s'.toUInt8, some .stringToString), ('x'.toUInt8, some .hexnumToString), ('X'.toUInt8, some .hexnumToString),
    ('p'.toUInt8, some .pointerToString), ('%'.toUInt8, some .percentToString), (0, none)]

/-- One round of the loop over `format_str_conv`, with `ap`, the output and `num_char`. -/
def tryConv (m : Memory) (c : UInt8) (st : VaList × σ × BitVec 32) (entry : UInt8 × Option Conv) :
    VaList × σ × BitVec 32 :=
  if entry.1 = c then
    match entry.2 with
    | some conv =>
      let (ap, s, n) := conv.toString putch m st.1 st.2.1
      (ap, s, st.2.2 + n)
    | none => st
  else st

/-- The loop over the format, with `state` (`true` for `PRINTF_ST_PERCENT`), `ap`, the output and `num_char`. -/
def formatLoop (m : Memory) : List UInt8 → Bool → VaList × σ × BitVec 32 → VaList × σ × BitVec 32
  | [], _, st => st
  | c :: format, state, st =>
    if state then formatLoop m format false (formatStrConv.foldl (tryConv putch m c) st)
    else if c = '%'.toUInt8 then formatLoop m format true st
    else formatLoop m format false (st.1, putch st.2.1 c, st.2.2 + 1)

end Converters

/-! ### libc -/

/-- The memory from `buf` on, and `buf_counter`. -/
structure Buffer where
  data : BitVec 64 → UInt8
  counter : BitVec 64

def store (data : BitVec 64 → UInt8) (i : BitVec 64) (c : UInt8) : BitVec 64 → UInt8 :=
  fun x => if x = i then c else data x

def Buffer.putch (b : Buffer) (c : UInt8) : Buffer := ⟨store b.data b.counter c, b.counter + 1⟩

/-- `sprintf_va`: the buffer afterwards, and the number that is returned. -/
def sprintfVa (m : Memory) (buf : BitVec 64 → UInt8) (format : BitVec 64) (ap : VaList) : Buffer × BitVec 32 :=
  let (_, b, numChar) := formatLoop Buffer.putch m (m.str format).bytes false (ap, ⟨buf, 0⟩, 0)
  ({ b with data := store b.data (numChar.signExtend 64) 0 }, numChar)

/-! ### The kernel -/

/-- `printf` of the kernel: what has been sent to the screen, and the number that is returned. -/
def printf (m : Memory) (format : BitVec 64) (ap : VaList) (screen : List UInt8) : List UInt8 × BitVec 32 :=
  (formatLoop (fun s c => s ++ [c]) m (m.str format).bytes false (ap, screen, 0)).2

/-- The store at the start of `terminal_write`. -/
def endAt (m : BitVec 64 → UInt8) (a : BitVec 64) : Memory := ⟨store m a 0, a, if_pos rfl⟩

/-- `terminal_write`: the memory afterwards, what has been sent to the screen, and the number that is returned. -/
def terminalWrite (m : BitVec 64 → UInt8) (buf count : BitVec 64) (ap : VaList) (screen : List UInt8) :
    (BitVec 64 → UInt8) × List UInt8 × BitVec 64 :=
  let m := endAt m (buf + count)
  let (screen, numChar) := printf m buf ap screen
  (m.byte, screen, numChar.signExtend 64)

/-- `printf` of libc, with its buffer at `buffer`: what has been sent to the screen, and the number returned.
`kernelAp` is what the kernel takes for further arguments of its `printf`. -/
def userPrintf (m : Memory) (buffer : BitVec 64) (buf : BitVec 64 → UInt8) (format : BitVec 64) (ap kernelAp : VaList)
    (screen : List UInt8) : List UInt8 × BitVec 32 :=
  let (b, numChar) := sprintfVa m buf format ap
  let user := endAt (fun x => b.data (x - buffer)) (buffer + numChar.signExtend 64)
  let (_, screen, _) := terminalWrite user.byte buffer ((strlen (user.str buffer)).setWidth 64) kernelAp screen
  (screen, numChar)

/-! ### Reading numbers -/

def isNumericChar (x : UInt8) : Bool := '0'.toUInt8 ≤ x ∧ x ≤ '9'.toUInt8

/-- The loop of `atoi`; `none` is the `return 0` in it. -/
def atoiLoop : List UInt8 → BitVec 32 → Option (BitVec 32)
  | [], res => some res
  | c :: str, res =>
    if isNumericChar c then atoiLoop str (res * 10 + c.toBitVec.signExtend 32 - '0'.toUInt8.toBitVec.signExtend 32)
      else none

def atoi (str : List UInt8) : BitVec 32 :=
  match str with
  | [] => 0
  | c :: rest =>
    let (sign, digits) := if c = '-'.toUInt8 then ((-1 : BitVec 32), rest) else (1, str)
    match atoiLoop digits 0 with
    | some res => sign * res
    | none => 0

def atohexLoop : List UInt8 → BitVec 32 → BitVec 32
  | [], value => value
  | c :: str, value =>
    if '0'.toUInt8 ≤ c ∧ c ≤ '9'.toUInt8 then atohexLoop str ((value <<< 4) ||| (c.toBitVec.signExtend 32 &&& 0xF))
    else if ('A'.toUInt8 ≤ c ∧ c ≤ 'F'.toUInt8) ∨ ('a'.toUInt8 ≤ c ∧ c ≤ 'f'.toUInt8) then
      atohexLoop str ((value <<< 4) ||| ((9 + c.toBitVec.signExtend 32) &&& 0xF))
    else value

def atohex (str : List UInt8) : BitVec 32 := atohexLoop str 0

def chars (l : List Char) : List UInt8 := l.map Char.toUInt8

/-! ### What is sent to the output -/

open List

variable {σ : Type} {putch : σ → UInt8 → σ} {s : σ}

/-- The characters of a string that `puts` sends. -/
def putsText (text : CString) : List UInt8 :=
  (List.range (strlen text).toNat).map fun i => text.byte (BitVec.ofNat 32 i).toInt

theorem puts_eq (text : CString) : puts putch s text = (putsText text).foldl putch s := by
  unfold puts putsText
  rw [foldl_map]

theorem length_putsText (text : CString) : (putsText text).length = text.len % 2 ^ 32 := by
  unfold putsText strlen
  rw [length_map, length_range, toNat_ofNat]

theorem CString.length_bytes (text : CString) : text.bytes.length = text.len := by
  unfold CString.bytes
  rw [length_map, length_range]

open CString (ofList bytes length_bytes)

/-- A string of fewer than `2 ^ 31` characters is sent as it is; with a longer one the index overflows. -/
theorem putsText_of_lt {text : CString} (h : text.len < 2 ^ 31) : putsText text = text.bytes := by
  unfold putsText bytes strlen
  rw [toNat_ofNat, Nat.mod_eq_of_lt (by omega)]
  apply map_congr_left
  intro i hi
  rw [mem_range] at hi
  rw [toInt_ofNat', Int.bmod_eq_of_le (by omega) (by omega)]

private theorem CString.bytes_ofList (h : 0 ∉ l) : (ofList l).bytes = l := by
  have hall : l.takeWhile (fun c => decide (c ≠ 0)) = l := by
    rw [takeWhile_eq_self_iff]
    intro c hc
    exact decide_eq_true fun h0 => h (h0 ▸ hc)
  have hlen : (ofList l).len = l.length := congrArg List.length hall
  apply ext_getElem
  · rw [length_bytes, hlen]
  · intro i h1 h2
    have hi : ¬(i : Int) < 0 := by omega
    simp [bytes, ofList, getD_eq_getElem?_getD, h2, hi]

/-- The string at an address. -/
theorem Memory.bytes_str {m : Memory} {a : BitVec 64} (h0 : 0 ∉ l)
    (hl : ∀ i (hi : i < l.length), m.byte (a + BitVec.ofNat 64 i) = l[i])
    (hend : m.byte (a + BitVec.ofNat 64 l.length) = 0) :
    (m.str a).bytes = l := by
  have hbyte : ∀ i : Nat, (m.str a).byte i = m.byte (a + BitVec.ofNat 64 i) := by
    intro i
    rw [← ofInt_natCast]
    rfl
  have hlen : (m.str a).len = l.length := by
    refine (Nat.find_eq_iff (m.ends a)).2 ⟨(hbyte l.length).trans hend, fun i hi hz => h0 ?_⟩
    have hi0 : l[i] = 0 := (hl i hi).symm.trans ((hbyte i).symm.trans hz)
    rw [← hi0]
    exact getElem_mem hi
  apply ext_getElem
  · rw [length_bytes, hlen]
  · intro i h1 h2
    rw [← hl i h2, ← hbyte i]
    simp [bytes]

theorem putsText_ofList (h : 0 ∉ l) (hlen : l.length < 2 ^ 31) : putsText (ofList l) = l := by
  have hbytes := CString.bytes_ofList h
  rw [putsText_of_lt, hbytes]
  rwa [← length_bytes, hbytes]

theorem foldl_screen (l screen : List UInt8) : l.foldl (fun s c => s ++ [c]) screen = screen ++ l := by
  induction l generalizing screen with
  | nil => exact (append_nil screen).symm
  | cons c l ih => rw [foldl_cons, ih, List.append_assoc, singleton_append]

end Adix.Print
