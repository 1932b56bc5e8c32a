import Adix.Print.Format

/-!
# Writing to the console

`terminal_write` stores a NUL behind the bytes that it is given, and uses them as the format of the kernel's `printf`,
without arguments.
-/

namespace Adix.Print

open List
open BitVec (ofNat)

variable {m : Memory} {w : BitVec 64}

/-- The number of characters, with twenty for a `%`: if the words taken for arguments point to an empty string, every
conversion gives less than this for its two characters. -/
def weight (l : List UInt8) : Nat := l.length + 19 * l.count '%'.toUInt8

private theorem weight_append (l l' : List UInt8) : weight (l ++ l') = weight l + weight l' := by
  unfold weight
  rw [length_append, count_append]
  omega

private theorem weight_cons (c : UInt8) (l : List UInt8) :
    weight (c :: l) = weight l + if c = '%'.toUInt8 then 20 else 1 := by
  unfold weight
  rw [length_cons, count_cons]
  split
  · next hc =>
    rw [if_pos (beq_iff_eq.1 hc)]
    omega
  · next hc =>
    rw [if_neg (by simpa using hc)]
    omega

private theorem weight_of_not_mem {l : List UInt8} (h : '%'.toUInt8 ∉ l) : weight l = l.length := by
  unfold weight
  rw [count_eq_zero.2 h]
  omega

/-- Where strings are empty, no conversion is worth more than a `%`. -/
theorem weight_sentFor_le (h : (m.str w).bytes = []) (c : UInt8) : weight (sentFor m c w) ≤ 20 := by
  have hint : ∀ d, weight (intText d) ≤ 20 := by
    intro d
    have h1 := length_intText_le d
    have h2 := length_decimal_le d
    unfold maxLengthOfStrInt at h2
    rw [weight_of_not_mem fun hmem => absurd (mem_intText hmem) (by decide)]
    omega
  have hhex : ∀ n < 16 ^ 16, weight (hex n) ≤ 20 := by
    intro n hn
    have hle := length_hex_le hn (by decide)
    have hdigit : ∀ k < 16, '%'.toUInt8 ≠ k.digitChar.toUInt8 := by decide
    rw [weight_of_not_mem]
    · omega
    · intro hmem
      rcases mem_hex hmem with hx | ⟨k, hk, hx⟩
      · exact absurd hx (by decide)
      · exact hdigit k hk hx
  unfold sentFor
  cases convOf c with
  | none => exact Nat.zero_le _
  | some conv =>
    cases conv with
    | intToString => exact hint _
    | charToString =>
      show weight [_] ≤ 20
      rw [weight_cons]
      split <;> decide
    | stringToString =>
      have hlen : (m.str w).len = 0 := by rw [← CString.length_bytes, h, length_nil]
      show weight (putsText (m.str w)) ≤ 20
      rw [putsText_of_lt (by omega), h]
      decide
    | hexnumToString => exact hhex _ (by omega)
    | pointerToString => exact hhex _ (by omega)
    | percentToString =>
      show weight ['%'.toUInt8] ≤ 20
      decide

section Render

variable {f : UInt8 → BitVec 64 → List UInt8} {format : List UInt8}

private theorem weight_render (hf : ∀ c, weight (f c w) ≤ 20) (format : List UInt8) :
    (weight (render f format false fun _ => w) ≤ weight format ∧
      ('%'.toUInt8 ∈ format → weight (render f format false fun _ => w) < weight format)) ∧
      weight (render f format true fun _ => w) < 20 + weight format := by
  induction format with
  | nil => simp [render, weight]
  | cons c format ih =>
    obtain ⟨⟨hle, hlt⟩, hpercent⟩ := ih
    rw [weight_cons]
    refine ⟨?_, ?_⟩
    · rw [render]
      by_cases hc : c = '%'.toUInt8
      · rw [if_pos hc, if_pos hc]
        exact ⟨by omega, fun _ => by omega⟩
      · rw [if_neg hc, if_neg hc, weight_cons, if_neg hc]
        refine ⟨by omega, fun hmem => ?_⟩
        have := hlt ((mem_cons.1 hmem).resolve_left (Ne.symm hc))
        omega
    · have hap : (if takesArg c then VaList.next fun _ => w else fun _ => w) = fun _ => w := by
        split <;> rfl
      have hone : 1 ≤ if c = '%'.toUInt8 then 20 else 1 := by split <;> decide
      have := hf c
      rw [render, hap, weight_append]
      omega

/-- Bytes without `%` are sent to the screen as they are. -/
theorem render_of_not_mem (h : '%'.toUInt8 ∉ format) (ap : VaList) : render f format false ap = format := by
  induction format with
  | nil => rfl
  | cons c format ih =>
    rw [mem_cons, not_or] at h
    rw [render, if_neg (Ne.symm h.1), ih h.2]

private theorem decimals_of_not_mem (h : '%'.toUInt8 ∉ format) : decimals format false = 0 := by
  induction format with
  | nil => rfl
  | cons c format ih =>
    rw [mem_cons, not_or] at h
    rw [decimals, decide_eq_false (Ne.symm h.1), ih h.2]

end Render

def bytesAt (m : BitVec 64 → UInt8) (a : BitVec 64) (n : Nat) : List UInt8 :=
  (List.range n).map fun i => m (a + ofNat 64 i)

/-- `terminal_write` sends the bytes to the screen, returns their number and keeps the memory, whatever words `printf`
takes for its arguments. -/
structure Literal (m : BitVec 64 → UInt8) (buf count : BitVec 64) : Prop where
  sends : ∀ ap screen, (terminalWrite m buf count ap screen).2.1 = screen ++ bytesAt m buf count.toNat
  returns : ∀ ap screen, (terminalWrite m buf count ap screen).2.2.toInt = count.toNat
  memory : ∀ ap screen, (terminalWrite m buf count ap screen).1 = m

private theorem length_bytesAt (m : BitVec 64 → UInt8) (a : BitVec 64) (n : Nat) : (bytesAt m a n).length = n := by
  rw [bytesAt, length_map, length_range]

private theorem printf_eq (m : Memory) (format : BitVec 64) (ap : VaList) (screen : List UInt8) :
    printf m format ap screen = (screen ++ sent m format ap,
      ofNat 32 ((sent m format ap).length + decimals (m.str format).bytes false)) := by
  unfold printf
  rw [formatLoop_zero, foldl_screen]
  rfl

section Write

variable {m : BitVec 64 → UInt8} {buf count : BitVec 64} (h : ∀ i < count.toNat, m (buf + ofNat 64 i) ≠ 0)
include h

/-- The bytes before the NUL that `terminal_write` stores. -/
theorem bytes_endAt : ((endAt m (buf + count)).str buf).bytes = bytesAt m buf count.toNat := by
  have hlen := length_bytesAt m buf count.toNat
  apply Memory.bytes_str
  · intro h0
    obtain ⟨i, hi, hz⟩ := List.mem_map.1 h0
    exact h i (mem_range.1 hi) hz
  · intro i hi
    rw [hlen] at hi
    have hne : buf + ofNat 64 i ≠ buf + count := by
      bv_omega
    simp only [bytesAt, getElem_map, getElem_range]
    exact if_neg hne
  · rw [hlen, BitVec.ofNat_toNat, BitVec.setWidth_eq]
    exact if_pos rfl

/-- What `terminal_write` sends and returns. -/
private theorem terminalWrite_eq (ap : VaList) (screen : List UInt8) :
    let sent := render (sentFor (endAt m (buf + count))) (bytesAt m buf count.toNat) false ap
    terminalWrite m buf count ap screen = (store m (buf + count) 0, screen ++ sent,
      (ofNat 32 (sent.length + decimals (bytesAt m buf count.toNat) false)).signExtend 64) := by
  have hprintf := printf_eq (endAt m (buf + count)) buf ap screen
  rw [sent, bytes_endAt h] at hprintf
  unfold terminalWrite
  simp only [hprintf]
  rfl

private theorem terminalWrite_of_not_mem (hper : '%'.toUInt8 ∉ bytesAt m buf count.toNat) (ap : VaList)
    (screen : List UInt8) :
    terminalWrite m buf count ap screen = (store m (buf + count) 0, screen ++ bytesAt m buf count.toNat,
      (ofNat 32 count.toNat).signExtend 64) := by
  have heq := terminalWrite_eq h ap screen
  rw [render_of_not_mem hper, decimals_of_not_mem hper] at heq
  dsimp only at heq
  rwa [length_bytesAt, Nat.add_zero] at heq

private theorem weight_terminalWrite (screen : List UInt8) : ∃ out,
    (terminalWrite m buf count (fun _ => buf + count) screen).2.1 = screen ++ out ∧
    weight out ≤ weight (bytesAt m buf count.toNat) ∧
    ('%'.toUInt8 ∈ bytesAt m buf count.toNat → weight out < weight (bytesAt m buf count.toNat)) := by
  have hempty : ((endAt m (buf + count)).str (buf + count)).bytes = [] := by
    refine Memory.bytes_str (by simp) (fun i hi => absurd hi (Nat.not_lt_zero i)) ?_
    exact if_pos (BitVec.add_zero _)
  have heq := terminalWrite_eq h (fun _ => buf + count) screen
  obtain ⟨⟨hle, hlt⟩, -⟩ := weight_render (weight_sentFor_le hempty) (bytesAt m buf count.toNat)
  refine ⟨_, ?_, hle, hlt⟩
  rw [heq]

/-- Console writes are literal if and only if there is no `%` among the bytes, there is a NUL behind them already, and
their number is an `int`. -/
theorem literal_iff : Literal m buf count ↔
    '%'.toUInt8 ∉ bytesAt m buf count.toNat ∧ count.toNat < 2 ^ 31 ∧ m (buf + count) = 0 := by
  constructor
  · intro hl
    have hper : '%'.toUInt8 ∉ bytesAt m buf count.toNat := by
      intro hmem
      obtain ⟨out, hout, -, hlt⟩ := weight_terminalWrite h []
      rw [hl.sends] at hout
      rw [← append_cancel_left hout] at hlt
      exact Nat.lt_irrefl _ (hlt hmem)
    have heq := terminalWrite_of_not_mem h hper (fun _ => 0) []
    refine ⟨hper, ?_, ?_⟩
    · have hret := hl.returns (fun _ => 0) []
      rw [heq, BitVec.toInt_signExtend_of_le (by decide)] at hret
      have := BitVec.toInt_lt (x := ofNat 32 count.toNat)
      omega
    · have hmem := hl.memory (fun _ => 0) []
      rw [heq] at hmem
      rw [← hmem]
      exact if_pos rfl
  · rintro ⟨hper, hlt, hnul⟩
    have heq := terminalWrite_of_not_mem h hper
    refine ⟨fun ap screen => ?_, fun ap screen => ?_, fun ap screen => ?_⟩
    · rw [heq]
    · rw [heq, BitVec.toInt_signExtend_of_le (by decide), BitVec.toInt_ofNat', Int.bmod_eq_of_le (by omega) (by omega)]
    · rw [heq]
      funext x
      show (if x = buf + count then 0 else m x) = m x
      split
      · next hx => rw [hx, hnul]
      · rfl

end Write

def userMemory (m : Memory) (buffer : BitVec 64) (buf : BitVec 64 → UInt8) (format : BitVec 64) (ap : VaList) :
    Memory :=
  let out := sprintfVa m buf format ap
  endAt (fun x => out.1.data (x - buffer)) (buffer + out.2.signExtend 64)

/-- The text that `printf` has produced: the string in its buffer. -/
def userText (m : Memory) (buffer : BitVec 64) (buf : BitVec 64 → UInt8) (format : BitVec 64) (ap : VaList) :
    List UInt8 :=
  ((userMemory m buffer buf format ap).str buffer).bytes

private theorem userPrintf_eq (m : Memory) (buffer : BitVec 64) (buf : BitVec 64 → UInt8) (format : BitVec 64)
    (ap kernelAp : VaList) (screen : List UInt8) : (userPrintf m buffer buf format ap kernelAp screen).1 =
      (terminalWrite (userMemory m buffer buf format ap).byte buffer
        (ofNat 64 ((userText m buffer buf format ap).length % 2 ^ 32)) kernelAp screen).2.1 := by
  have hcount : (strlen ((userMemory m buffer buf format ap).str buffer)).setWidth 64 =
      ofNat 64 ((userText m buffer buf format ap).length % 2 ^ 32) := by
    apply BitVec.eq_of_toNat_eq
    rw [userText, CString.length_bytes, strlen, BitVec.toNat_setWidth, BitVec.toNat_ofNat, BitVec.toNat_ofNat]
  rw [← hcount]
  rfl

private theorem bytesAt_str (m : Memory) (a : BitVec 64) {n : Nat} (hn : n ≤ (m.str a).bytes.length) :
    bytesAt m.byte a n = (m.str a).bytes.take n := by
  apply ext_getElem
  · rw [length_bytesAt, length_take, Nat.min_eq_left hn]
  · intro i h1 h2
    simp [bytesAt, CString.bytes, Memory.str]

private theorem str_ne_zero (m : Memory) (a : BitVec 64) {i : Nat} (hi : i < (m.str a).bytes.length) :
    m.byte (a + ofNat 64 i) ≠ 0 := by
  rw [CString.length_bytes] at hi
  rw [← BitVec.ofInt_natCast]
  exact (m.str a).nonzero i hi

/-- The text of `printf` reaches the screen unchanged if and only if there is no `%` in it, as long as its length is an
`unsigned int`. -/
theorem userPrintf_iff (m : Memory) (buffer : BitVec 64) (buf : BitVec 64 → UInt8) (format : BitVec 64) (ap : VaList) :
    (∀ kernelAp screen, (userPrintf m buffer buf format ap kernelAp screen).1 = screen ++ userText m buffer buf format
      ap) ↔ '%'.toUInt8 ∉ userText m buffer buf format ap ∧ (userText m buffer buf format ap).length < 2 ^ 32 := by
  simp only [userPrintf_eq]
  unfold userText
  generalize userMemory m buffer buf format ap = u
  have hmod : (u.str buffer).bytes.length % 2 ^ 32 ≤ (u.str buffer).bytes.length := Nat.mod_le ..
  have hcount : (ofNat 64 ((u.str buffer).bytes.length % 2 ^ 32)).toNat = (u.str buffer).bytes.length % 2 ^ 32 := by
    rw [BitVec.toNat_ofNat]
    omega
  have hbytes := bytesAt_str u buffer hmod
  have hne : ∀ i < (ofNat 64 ((u.str buffer).bytes.length % 2 ^ 32)).toNat, u.byte (buffer + ofNat 64 i) ≠ 0 := by
    intro i hi
    rw [hcount] at hi
    exact str_ne_zero u buffer (by omega)
  constructor
  · intro h
    obtain ⟨out, hout, hle, hlt⟩ := weight_terminalWrite hne []
    rw [h] at hout
    rw [← append_cancel_left hout, hcount, hbytes] at hle hlt
    -- nothing is left behind the part that is written
    have hsplit := weight_append ((u.str buffer).bytes.take ((u.str buffer).bytes.length % 2 ^ 32))
      ((u.str buffer).bytes.drop ((u.str buffer).bytes.length % 2 ^ 32))
    rw [take_append_drop] at hsplit
    have hdrop : ((u.str buffer).bytes.drop ((u.str buffer).bytes.length % 2 ^ 32)).length = 0 := by
      unfold weight at hsplit hle
      omega
    rw [length_drop] at hdrop
    have hlen : (u.str buffer).bytes.length < 2 ^ 32 := by omega
    rw [Nat.mod_eq_of_lt hlen, take_length] at hlt
    exact ⟨fun hmem => Nat.lt_irrefl _ (hlt hmem), hlen⟩
  · rintro ⟨hper, hlen⟩ kernelAp screen
    rw [Nat.mod_eq_of_lt hlen] at hbytes hcount hne ⊢
    rw [take_length] at hbytes
    have heq := terminalWrite_of_not_mem hne (by rw [hcount, hbytes]; exact hper) kernelAp screen
    rw [heq, hcount, hbytes]

def twoBytes (c d : Char) (rest : UInt8) (x : BitVec 64) : UInt8 :=
  if x = 0x2000 then c.toUInt8 else if x = 0x2001 then d.toUInt8 else rest

end Adix.Print
