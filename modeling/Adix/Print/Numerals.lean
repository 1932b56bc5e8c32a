import Adix.Lib.Digits
import Adix.Print.Defs

/-!
# Decimal and hexadecimal numbers

`int_to_string` writes the decimal numeral of every `int` but the least one, for which `d *= -1` gives the same number
again, and the loop stops after one negative digit. `hex_to_string` looks at the bytes of a number in memory, the last
one first, at the high half before the low one, and leaves out leading zeros.
-/

namespace Adix.Print

open List BitVec
open BitVec (ofNat intMin)
open Nat (toDigits)

variable {σ : Type} {putch : σ → UInt8 → σ} {d : BitVec 32} {n k : Nat} {c : UInt8}

def decimal (d : Int) : List UInt8 := (if d < 0 then ['-'.toUInt8] else []) ++ chars (toDigits 10 d.natAbs)

def digitOf (d : BitVec 32) : UInt8 :=
  UInt8.ofBitVec ((d.srem (ofNat 32 decimalBase) + '0'.toUInt8.toBitVec.signExtend 32).setWidth 8)

private theorem digitOf_of_nonneg (h : 0 ≤ d.toInt) : digitOf d = (d.toInt.toNat % 10).digitChar.toUInt8 := by
  have hrem : d.srem (ofNat 32 decimalBase) = ofNat 32 (d.toInt.toNat % 10) := by
    apply eq_of_toInt_eq
    have h10 : (ofNat 32 decimalBase).toInt = 10 := by decide
    rw [toInt_srem, h10, Int.tmod_eq_emod_of_nonneg h, toInt_ofNat', Int.bmod_eq_of_le (by omega) (by omega)]
    omega
  have hdigit : ∀ c < 10, UInt8.ofBitVec ((ofNat 32 c + '0'.toUInt8.toBitVec.signExtend 32).setWidth 8) =
      c.digitChar.toUInt8 := by decide
  unfold digitOf
  rw [hrem]
  exact hdigit _ (Nat.mod_lt _ (by decide))

/-- The loop writes the digits of a number that is not negative. -/
private theorem digitLoop_eq (h : 0 ≤ d.toInt) (loc : List UInt8) :
    digitLoop d loc = chars (toDigits 10 d.toInt.toNat) ++ loc := by
  fun_induction digitLoop d loc with
  | case1 d loc c hdiv _ ih =>
    have hc : c = (d.toInt.toNat % 10).digitChar.toUInt8 := digitOf_of_nonneg h
    have ih := ih (Int.le_of_lt hdiv)
    rw [toInt_sdiv_base, Int.tdiv_eq_ediv_of_nonneg h] at ih hdiv
    have hdiv10 : (d.toInt / 10).toNat = d.toInt.toNat / 10 := by omega
    rw [ih, hdiv10, hc, Nat.toDigits_eq_if (by decide) (n := d.toInt.toNat), if_neg (by omega)]
    simp [chars]
  | case2 d loc c hdiv =>
    have hc : c = (d.toInt.toNat % 10).digitChar.toUInt8 := digitOf_of_nonneg h
    rw [toInt_sdiv_base, Int.tdiv_eq_ediv_of_nonneg h] at hdiv
    have hlt : d.toInt.toNat < 10 := by omega
    rw [hc, Nat.toDigits_of_lt_base hlt, Nat.mod_eq_of_lt hlt]
    rfl

private theorem digitLoop_intMin : digitLoop (intMin 32) [] = ['('.toUInt8] := by
  rw [digitLoop]
  decide

/-- The text is the decimal numeral. -/
theorem intText_eq (h : d ≠ intMin 32) : intText d = decimal d.toInt := by
  have hneg : d * (-1) = -d := by
    rw [BitVec.mul_neg]
    simp
  unfold intText decimal
  by_cases hd : d.toInt < 0
  · have hslt : d.slt 0 = true := slt_iff_toInt_lt.2 hd
    have habs : (-d).toInt = -d.toInt := toInt_neg_of_ne_intMin h
    have hnat : (-d.toInt).toNat = d.toInt.natAbs := by omega
    simp only [hslt, if_true, hneg]
    rw [digitLoop_eq (by omega), habs, hnat, if_pos hd]
    simp
  · have hslt : d.slt 0 = false := by
      rw [Bool.eq_false_iff]
      exact fun hlt => hd (slt_iff_toInt_lt.1 hlt)
    have hnat : d.toInt.toNat = d.toInt.natAbs := by omega
    simp only [hslt, Bool.false_eq_true, if_false]
    rw [digitLoop_eq (by omega), hnat, if_neg hd]
    simp

private theorem intText_intMin : intText (intMin 32) = ['-'.toUInt8, '('.toUInt8] := by
  have hslt : (intMin 32).slt 0 = true := by decide
  have hneg : intMin 32 * (-1) = intMin 32 := by decide
  unfold intText
  simp only [hslt, if_true, hneg, digitLoop_intMin]

private theorem exists_of_mem_digits (h : c ∈ chars (toDigits 10 n)) : ∃ k < 10, c = k.digitChar.toUInt8 := by
  obtain ⟨x, hx, rfl⟩ := List.mem_map.1 h
  obtain ⟨k, hk, rfl⟩ := exists_of_mem_toDigits (by decide) hx
  exact ⟨k, hk, rfl⟩

theorem mem_intText (h : c ∈ intText d) : c ∈ chars ['-', '(', '0', '1', '2', '3', '4', '5', '6', '7', '8', '9'] := by
  by_cases hd : d = intMin 32
  · rw [hd, intText_intMin] at h
    exact mem_append_left _ h
  · have hdigit : ∀ k < 10, k.digitChar.toUInt8 ∈ chars
      ['-', '(', '0', '1', '2', '3', '4', '5', '6', '7', '8', '9'] := by decide
    rw [intText_eq hd] at h
    rcases mem_append.1 h with h | h
    · split at h
      · rw [mem_singleton.1 h]
        decide
      · cases h
    · obtain ⟨k, hk, rfl⟩ := exists_of_mem_digits h
      exact hdigit k hk

private theorem zero_not_mem_intText (d : BitVec 32) : 0 ∉ intText d := fun h => absurd (mem_intText h) (by decide)

theorem length_decimal_le (d : BitVec 32) : (decimal d.toInt).length ≤ maxLengthOfStrInt := by
  have h1 := le_toInt d
  have h2 := toInt_lt (x := d)
  have hdigits : (toDigits 10 d.toInt.natAbs).length ≤ 10 :=
    (Nat.length_toDigits_le_iff (by decide) (by decide)).2 (by omega)
  unfold decimal maxLengthOfStrInt chars
  rw [length_append, length_map]
  split
  · rw [length_singleton]
    omega
  · rw [length_nil]
    omega

theorem length_intText_le (d : BitVec 32) : (intText d).length ≤ (decimal d.toInt).length := by
  by_cases hd : d = intMin 32
  · rw [hd, intText_intMin]
    decide
  · rw [intText_eq hd]

theorem length_intText_pos (d : BitVec 32) : 0 < (intText d).length := by
  by_cases hd : d = intMin 32
  · rw [hd, intText_intMin]
    decide
  · have hdigits : 0 < (toDigits 10 d.toInt.natAbs).length := Nat.length_toDigits_pos
    rw [intText_eq hd, decimal, length_append, chars, length_map]
    omega

/-- The number returned is one more than the number of characters. -/
theorem intToString_eq (d : BitVec 32) (s : σ) :
    intToString putch d s = ((intText d).foldl putch s, ofNat 32 ((intText d).length + 1)) := by
  have h1 := length_intText_le d
  have h2 := length_decimal_le d
  unfold maxLengthOfStrInt at h2
  unfold intToString intLoc
  rw [puts_eq, putsText_ofList (zero_not_mem_intText d) (by omega), ← ofInt_natCast]
  congr 2
  omega

private theorem atoiLoop_append (l l' : List UInt8) (res : BitVec 32) :
    atoiLoop (l ++ l') res = (atoiLoop l res).bind (atoiLoop l') := by
  induction l generalizing res with
  | nil => rfl
  | cons c l ih =>
    rw [List.cons_append, atoiLoop, atoiLoop]
    split
    · exact ih _
    · rfl

private theorem atoiLoop_digit {c : Nat} (hc : c < 10) (res : BitVec 32) :
    atoiLoop [c.digitChar.toUInt8] res = some (res * 10 + ofNat 32 c) := by
  have hdigit : ∀ c < 10, isNumericChar c.digitChar.toUInt8 = true ∧
      c.digitChar.toUInt8.toBitVec.signExtend 32 - '0'.toUInt8.toBitVec.signExtend 32 = ofNat 32 c := by decide
  obtain ⟨h1, h2⟩ := hdigit c hc
  rw [atoiLoop, if_pos h1, atoiLoop, BitVec.sub_eq_add_neg, BitVec.add_assoc, ← BitVec.sub_eq_add_neg, h2]

private theorem atoiLoop_digits (n : Nat) : atoiLoop (chars (toDigits 10 n)) 0 = some (ofNat 32 n) := by
  refine toDigits_rec (P := fun n l => atoiLoop (chars l) 0 = some (ofNat 32 n)) (by decide) ?_ ?_ n
  · intro c hc
    rw [chars, map_singleton, atoiLoop_digit hc]
    simp
  · intro n l c hc ih
    rw [chars, map_append, map_singleton, atoiLoop_append]
    unfold chars at ih
    rw [ih, Option.bind_some, atoiLoop_digit hc, ofNat_add, Nat.mul_comm, ofNat_mul]
    rfl

private theorem atoi_decimal (d : BitVec 32) : atoi (decimal d.toInt) = d := by
  unfold decimal
  by_cases hd : d.toInt < 0
  · have habs : d = -ofNat 32 d.toInt.natAbs := by
      rw [← ofInt_natCast, ← ofInt_neg]
      have hint : -(d.toInt.natAbs : Int) = d.toInt := by omega
      rw [hint, ofInt_toInt]
    have hsign : ∀ x : BitVec 32, -1 * x = -x := fun x => by
      rw [BitVec.neg_mul]
      simp
    rw [if_pos hd, singleton_append]
    simp only [atoi, if_true, atoiLoop_digits, hsign]
    exact habs.symm
  · have habs : d = ofNat 32 d.toInt.natAbs := by
      rw [← ofInt_natCast]
      have hint : (d.toInt.natAbs : Int) = d.toInt := by omega
      rw [hint, ofInt_toInt]
    rw [if_neg hd, nil_append]
    have hloop := atoiLoop_digits d.toInt.natAbs
    cases hl : chars (toDigits 10 d.toInt.natAbs) with
    | nil =>
      have hpos : 0 < (toDigits 10 d.toInt.natAbs).length := Nat.length_toDigits_pos
      rw [← length_map (f := Char.toUInt8)] at hpos
      exact absurd (congrArg List.length hl) (Nat.ne_of_gt hpos)
    | cons c rest =>
      -- a digit is no sign
      have hsign : ∀ k < 10, k.digitChar.toUInt8 ≠ '-'.toUInt8 := by decide
      obtain ⟨k, hk, hck⟩ := exists_of_mem_digits (c := c) (by rw [hl]; exact mem_cons_self)
      have hc : c ≠ '-'.toUInt8 := hck ▸ hsign k hk
      rw [hl] at hloop
      simp only [atoi, hc, if_false, hloop]
      exact (BitVec.one_mul _).trans habs.symm

/-- `int_to_string`, of libc and of the kernel, writes the decimal numeral of `d` and stays inside its array, and
`atoi` returns `d` for what has been written. -/
structure DecimalRoundTrip (d : BitVec 32) : Prop where
  libc : ∀ b, (intToString Buffer.putch d b).1 = (decimal d.toInt).foldl Buffer.putch b
  kernel : ∀ screen, (intToString (fun s c => s ++ [c]) d screen).1 = screen ++ decimal d.toInt
  fits : 0 ≤ intLoc d
  reads : atoi (intToString (fun s c => s ++ [c]) d []).1 = d

/-- Decimal numbers are written and read back correctly, except for the least `int`. -/
theorem decimal_round_trip_iff (d : BitVec 32) : DecimalRoundTrip d ↔ d ≠ intMin 32 := by
  constructor
  · rintro h rfl
    have hkernel := h.kernel []
    rw [intToString_eq, foldl_screen, intText_intMin] at hkernel
    exact absurd hkernel (by decide)
  · intro h
    have htext := intText_eq h
    refine ⟨fun b => ?_, fun screen => ?_, ?_, ?_⟩
    · rw [intToString_eq, htext]
    · rw [intToString_eq, foldl_screen, htext]
    · have := length_decimal_le d
      unfold intLoc
      rw [htext]
      omega
    · rw [intToString_eq, foldl_screen, htext]
      exact atoi_decimal d

/-- For the least `int` the text is `-(`, and `atoi` returns `0` for it. -/
theorem least_int_not_written : ¬DecimalRoundTrip (intMin 32) ∧
    (intToString (fun s c => s ++ [c]) (intMin 32) []).1 = ['-'.toUInt8, '('.toUInt8] ∧
    atoi ['-'.toUInt8, '('.toUInt8] = 0 := by
  have htext : (intToString (fun s c => s ++ [c]) (intMin 32) []).1 = ['-'.toUInt8, '('.toUInt8] := by
    rw [intToString_eq, foldl_screen, intText_intMin]
    rfl
  refine ⟨fun h => ?_, htext, by decide⟩
  have hkernel := h.kernel []
  rw [htext] at hkernel
  exact absurd hkernel (by decide)

/-! ### Hexadecimal numbers -/

variable {w j bytes n : Nat}

def hex (n : Nat) : List UInt8 := chars ['0', 'x'] ++ chars (toDigits 16 n)

private theorem toNat_bytesOf (v : BitVec w) (i : Nat) :
    (bytesOf v i).toBitVec.toNat = v.toNat / 16 ^ (2 * i) % 256 := by
  have hpow : 2 ^ (8 * i) = 16 ^ (2 * i) := by
    rw [Nat.pow_mul, Nat.pow_mul]
  unfold bytesOf
  rw [toNat_setWidth, toNat_ushiftRight, Nat.shiftRight_eq_div_pow, hpow]

private theorem low_half : ∀ b : BitVec 8, (b.signExtend 32 &&& 0x0F).setWidth 8 = ofNat 8 (b.toNat % 16) := by decide

private theorem high_half :
    ∀ b : BitVec 8, ((b.signExtend 32 &&& 0xF0).sshiftRight 4).setWidth 8 = ofNat 8 (b.toNat / 16) := by
  decide

private theorem half_bytesOf (v : BitVec w) (nib : Nat) :
    (if nib % 2 = 0 then ((bytesOf v (nib / 2)).toBitVec.signExtend 32 &&& 0x0F).setWidth 8
      else (((bytesOf v (nib / 2)).toBitVec.signExtend 32 &&& 0xF0).sshiftRight 4).setWidth 8) =
      ofNat 8 (v.toNat / 16 ^ nib % 16) := by
  split
  · next heven =>
    rw [low_half, toNat_bytesOf]
    have hnib : 2 * (nib / 2) = nib := by omega
    rw [hnib, Nat.mod_mod_of_dvd _ (by decide)]
  · next hodd =>
    rw [high_half, toNat_bytesOf]
    have hnib : 16 ^ nib = 16 ^ (2 * (nib / 2)) * 16 := by
      rw [← Nat.pow_succ]
      congr 1
      omega
    rw [hnib, ← Nat.div_div_eq_div_mul]
    congr 1
    omega

private theorem char_of_half : ∀ k < 16, UInt8.ofBitVec (if (ofNat 8 k).toNat < decimalBase
    then ofNat 8 k + '0'.toUInt8.toBitVec
    else ofNat 8 k + ('a'.toUInt8.toBitVec - ofNat 8 decimalBase)) = k.digitChar.toUInt8 := by decide

private theorem half_eq_zero : ∀ k < 16, ofNat 8 k = 0 ↔ k = 0 := by decide

private theorem hexNibble_eq (v : BitVec w) (s : σ) (n : BitVec 32) (started : Bool) (nib : Nat) :
    hexNibble putch (bytesOf v) (s, n, started) nib = if started = true ∨ v.toNat / 16 ^ nib % 16 ≠ 0
      then (putch s (v.toNat / 16 ^ nib % 16).digitChar.toUInt8, n + 1, true) else (s, n, false) := by
  have hk : v.toNat / 16 ^ nib % 16 < 16 := Nat.mod_lt _ (by decide)
  unfold hexNibble
  dsimp only
  rw [half_bytesOf]
  generalize v.toNat / 16 ^ nib % 16 = k at hk ⊢
  rw [char_of_half k hk]
  by_cases h0 : k = 0
  · have hzero : ofNat 8 k = 0 := (half_eq_zero k hk).2 h0
    cases started with
    | false => simp [h0]
    | true => simp [hzero]
  · have hne : ofNat 8 k ≠ 0 := fun h => h0 ((half_eq_zero k hk).1 h)
    rw [if_pos hne, if_pos rfl, if_pos (Or.inr h0)]

private theorem foldl_hexNibble_started (v : BitVec w) (l : List Nat) (s : σ) (n : BitVec 32) :
    l.foldl (hexNibble putch (bytesOf v)) (s, n, true) =
      ((chars (l.map fun i => (v.toNat / 16 ^ i % 16).digitChar)).foldl putch s, n + ofNat 32 l.length, true) := by
  induction l generalizing s n with
  | nil => simp [chars]
  | cons i l ih =>
    rw [foldl_cons, hexNibble_eq, if_pos (Or.inl rfl), ih]
    simp only [chars, map_cons, foldl_cons, length_cons, Prod.mk.injEq, true_and, and_true]
    rw [BitVec.add_assoc, Nat.add_comm, ofNat_add]
    rfl

private theorem foldl_hexNibble (v : BitVec w) (l : List Nat) (s : σ) (n : BitVec 32) :
    let out := (l.map fun i => v.toNat / 16 ^ i % 16).dropWhile (· = 0)
    l.foldl (hexNibble putch (bytesOf v)) (s, n, false) =
      ((chars (out.map Nat.digitChar)).foldl putch s, n + ofNat 32 out.length, !out.isEmpty) := by
  induction l with
  | nil => simp [chars]
  | cons i l ih =>
    rw [foldl_cons, hexNibble_eq]
    by_cases h0 : v.toNat / 16 ^ i % 16 = 0
    · rw [if_neg (by simp [h0]), ih]
      simp [h0]
    · rw [if_pos (Or.inr h0), foldl_hexNibble_started]
      have hcount : n + 1 + ofNat 32 l.length = n + ofNat 32 (l.length + 1) := by
        rw [BitVec.add_assoc, Nat.add_comm, ofNat_add]
        rfl
      rw [map_cons, dropWhile_cons_of_neg (by simpa using h0), hcount]
      simp [chars, Function.comp_def]

def hexDigits (n : Nat) : List Char := if n = 0 then [] else toDigits 16 n

private theorem hexLoop_eq {v : BitVec w} (hv : v.toNat < 16 ^ j) (s : σ) (n : BitVec 32) :
    let st := (List.range j).reverse.foldl (hexNibble putch (bytesOf v)) (s, n, false)
    st.1 = (chars (hexDigits v.toNat)).foldl putch s ∧ st.2.1 = n + ofNat 32 (hexDigits v.toNat).length := by
  have hdigits : ((places 16 j v.toNat).dropWhile (· = 0)).map Nat.digitChar = hexDigits v.toNat :=
    dropWhile_places (by decide) hv
  rw [← hdigits, length_map, foldl_hexNibble]
  exact ⟨rfl, rfl⟩

private theorem toNat_lt_places (v : BitVec (bytes * 8)) : v.toNat < 16 ^ (bytes * 2) := by
  have hpow : 2 ^ (bytes * 8) = 16 ^ (bytes * 2) := by
    rw [Nat.mul_comm, Nat.pow_mul, Nat.mul_comm, Nat.pow_mul]
  rw [← hpow]
  exact v.isLt

private theorem length_hexDigits_le (h : n < 16 ^ j) : (hexDigits n).length ≤ j := by
  unfold hexDigits
  split
  · exact Nat.zero_le j
  · next h0 =>
    have hj : 0 < j := by
      by_contra hj
      obtain rfl : j = 0 := by omega
      rw [Nat.pow_zero] at h
      omega
    exact (Nat.length_toDigits_le_iff (by decide) hj).2 h

/-- The text is `0x` and the numeral. -/
theorem hexToString_eq (v : BitVec (bytes * 8)) (hb : bytes < 2 ^ 30) (s : σ) :
    hexToString putch (bytesOf v) bytes s = ((hex v.toNat).foldl putch s, ofNat 32 (hex v.toNat).length) := by
  have hv := toNat_lt_places v
  have hstart : puts putch s (CString.ofList ['0'.toUInt8, 'x'.toUInt8]) = (chars ['0', 'x']).foldl putch s := by
    rw [puts_eq, putsText_ofList (by decide) (by decide)]
    rfl
  obtain ⟨hout, hcount⟩ := hexLoop_eq hv ((chars ['0', 'x']).foldl putch s) 2
  have hle := length_hexDigits_le hv
  unfold hexToString hex
  rw [hstart]
  dsimp only
  rw [hout, hcount, foldl_append]
  by_cases h0 : v.toNat = 0
  · -- all digits have been left out
    rw [hexDigits, if_pos h0, h0]
    rfl
  · have hpos : 0 < (hexDigits v.toNat).length := by
      rw [hexDigits, if_neg h0]
      exact Nat.length_toDigits_pos
    have hdigits : toDigits 16 v.toNat = hexDigits v.toNat := (if_neg h0).symm
    rw [if_neg (by bv_omega), hdigits, length_append, ofNat_add]
    simp [chars]

theorem length_hex_le (h : n < 16 ^ j) (hj : 0 < j) : (hex n).length ≤ j + 2 := by
  have hdigits := (Nat.length_toDigits_le_iff (by decide) hj).2 h
  simp only [hex, chars, length_append, length_map, length_cons, length_nil]
  omega

theorem mem_hex (h : c ∈ hex n) : c = 'x'.toUInt8 ∨ ∃ k < 16, c = k.digitChar.toUInt8 := by
  rcases mem_append.1 h with h | h
  · simp only [chars, map_cons, map_nil, mem_cons, not_mem_nil, or_false] at h
    rcases h with rfl | rfl
    · exact Or.inr ⟨0, by decide, rfl⟩
    · exact Or.inl rfl
  · obtain ⟨x, hx, rfl⟩ := List.mem_map.1 h
    obtain ⟨k, hk, rfl⟩ := exists_of_mem_toDigits (by decide) hx
    exact Or.inr ⟨k, hk, rfl⟩

private theorem shiftLeft_or_digit (value : BitVec 32) (hk : k < 16) :
    value <<< 4 ||| ofNat 32 k = value * 16 + ofNat 32 k := by
  apply eq_of_toNat_eq
  have hshift : value.toNat <<< 4 % 2 ^ 32 = (value.toNat % 2 ^ 28) <<< 4 := by
    rw [Nat.shiftLeft_eq, Nat.shiftLeft_eq]
    omega
  have hor := Nat.shiftLeft_add_eq_or_of_lt (i := 4) hk (value.toNat % 2 ^ 28)
  rw [toNat_or, toNat_shiftLeft, hshift, toNat_ofNat, Nat.mod_eq_of_lt (a := k) (by omega), ← hor,
    Nat.shiftLeft_eq, BitVec.toNat_add, toNat_mul, toNat_ofNat]
  have h16 : (16 : BitVec 32).toNat = 16 := rfl
  rw [h16]
  omega

private theorem decimal_digit : ∀ k < 10, ('0'.toUInt8 ≤ k.digitChar.toUInt8 ∧ k.digitChar.toUInt8 ≤ '9'.toUInt8) ∧
    k.digitChar.toUInt8.toBitVec.signExtend 32 &&& 0xF = ofNat 32 k := by decide

private theorem letter_digit :
    ∀ k < 6, ¬('0'.toUInt8 ≤ (k + 10).digitChar.toUInt8 ∧ (k + 10).digitChar.toUInt8 ≤ '9'.toUInt8) ∧
    ('a'.toUInt8 ≤ (k + 10).digitChar.toUInt8 ∧ (k + 10).digitChar.toUInt8 ≤ 'f'.toUInt8) ∧
    (9 + (k + 10).digitChar.toUInt8.toBitVec.signExtend 32) &&& 0xF = ofNat 32 (k + 10) := by decide

private theorem atohexLoop_digit (hk : k < 16) (rest : List UInt8) (value : BitVec 32) :
    atohexLoop (k.digitChar.toUInt8 :: rest) value = atohexLoop rest (value * 16 + ofNat 32 k) := by
  rw [← shiftLeft_or_digit value hk, atohexLoop]
  by_cases h10 : k < 10
  · obtain ⟨hrange, hdigit⟩ := decimal_digit k h10
    rw [if_pos hrange, hdigit]
  · obtain ⟨j, rfl⟩ : ∃ j, k = j + 10 := ⟨k - 10, by omega⟩
    obtain ⟨hnot, hrange, hdigit⟩ := letter_digit j (by omega)
    rw [if_neg hnot, if_pos (Or.inr hrange), hdigit]

private theorem atohexLoop_digits (n : Nat) (rest : List UInt8) :
    atohexLoop (chars (toDigits 16 n) ++ rest) 0 = atohexLoop rest (ofNat 32 n) := by
  refine toDigits_rec (P := fun n l => ∀ rest, atohexLoop (chars l ++ rest) 0 = atohexLoop rest (ofNat 32 n))
    (by decide) ?_ ?_ n rest
  · intro k hk rest
    rw [chars, map_singleton, singleton_append, atohexLoop_digit hk]
    simp
  · intro n l k hk ih rest
    have hvalue : ofNat 32 n * 16 + ofNat 32 k = ofNat 32 (16 * n + k) := by
      rw [ofNat_add, Nat.mul_comm, ofNat_mul]
      rfl
    unfold chars at ih ⊢
    rw [map_append, map_singleton, List.append_assoc, ih, singleton_append, atohexLoop_digit hk, hvalue]

private theorem atohex_digits (v : BitVec 32) : atohex (chars (toDigits 16 v.toNat)) = v := by
  have h := atohexLoop_digits v.toNat []
  rw [append_nil, BitVec.ofNat_toNat, setWidth_eq] at h
  exact h

/-- `hex_to_string`, of libc and of the kernel, writes `0x` and the numeral of `v` and returns the number of
characters. -/
structure HexWritten (bytes : Nat) (v : BitVec w) : Prop where
  libc : ∀ b, (hexToString Buffer.putch (bytesOf v) bytes b).1 = (hex v.toNat).foldl Buffer.putch b
  kernel : ∀ screen, (hexToString (fun s c => s ++ [c]) (bytesOf v) bytes screen).1 = screen ++ hex v.toNat
  libcCount : ∀ b, (hexToString Buffer.putch (bytesOf v) bytes b).2.toInt = (hex v.toNat).length
  kernelCount : ∀ screen, (hexToString (fun s c => s ++ [c]) (bytesOf v) bytes screen).2.toInt = (hex v.toNat).length

private theorem hexWritten (v : BitVec (bytes * 8)) (hpos : 0 < bytes) (hb : bytes < 2 ^ 29) : HexWritten bytes v := by
  have hcount : (ofNat 32 (hex v.toNat).length).toInt = (hex v.toNat).length := by
    have hle := length_hex_le (toNat_lt_places v) (by omega)
    rw [toInt_ofNat', Int.bmod_eq_of_le (by omega) (by omega)]
  refine ⟨fun b => ?_, fun screen => ?_, fun b => ?_, fun screen => ?_⟩
  · rw [hexToString_eq v (by omega)]
  · rw [hexToString_eq v (by omega), foldl_screen]
  · rw [hexToString_eq v (by omega), hcount]
  · rw [hexToString_eq v (by omega), hcount]

/-- Numbers of 4 and of 8 bytes are written in hexadecimal, and `atohex` returns a number of 4 bytes for the digits
that have been written. -/
theorem hex_round_trip :
    (∀ v : BitVec 32, HexWritten 4 v ∧ atohex ((hexToString (fun s c => s ++ [c]) (bytesOf v) 4 []).1.drop 2) = v) ∧
      ∀ v : BitVec 64, HexWritten 8 v := by
  refine ⟨fun v => ?_, fun v => @hexWritten 8 v (by decide) (by decide)⟩
  have hw : HexWritten 4 v := @hexWritten 4 v (by decide) (by decide)
  refine ⟨hw, ?_⟩
  rw [hw.kernel]
  exact atohex_digits v

end Adix.Print
