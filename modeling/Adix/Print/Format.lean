import Adix.Print.Numerals

/-!
# Formats

A format is rendered character by character, with what a conversion stands for as a parameter: what its converter sends
(`sentFor`), or what it should expand to (`expansion`). The two differ for the least `int` and for strings of `2 ^ 31`
characters or more.
-/

namespace Adix.Print

open List
open BitVec (toNat_ofNat toInt_ofNat' ofNat_add)

variable {σ : Type} {putch : σ → UInt8 → σ} {m : Memory} {c : UInt8} {ap : VaList} {table : List (UInt8 × Option Conv)}
  {w : BitVec 64} {k n : Nat}

def Conv.text (m : Memory) (w : BitVec 64) : Conv → List UInt8
  | intToString => intText (w.setWidth 32)
  | charToString => [UInt8.ofBitVec ((w.setWidth 32).setWidth 8)]
  | stringToString => putsText (m.str w)
  | hexnumToString => hex (w.setWidth 32).toNat
  | pointerToString => hex w.toNat
  | percentToString => ['%'.toUInt8]

def Conv.rest (ap : VaList) : Conv → VaList
  | percentToString => ap
  | _ => ap.next

def Conv.excess : Conv → Nat
  | intToString => 1
  | _ => 0

private theorem Conv.toString_eq (conv : Conv) (s : σ) : conv.toString putch m ap s =
      (conv.rest ap, (conv.text m (ap 0)).foldl putch s,
        BitVec.ofNat 32 ((conv.text m (ap 0)).length + conv.excess)) := by
  cases conv with
  | intToString => simp only [toString, rest, text, excess, intToString_eq]
  | charToString => rfl
  | stringToString =>
    have hlen : BitVec.ofNat 32 (m.str (ap 0)).len = BitVec.ofNat 32 ((m.str (ap 0)).len % 2 ^ 32) := by
      apply BitVec.eq_of_toNat_eq
      rw [toNat_ofNat, toNat_ofNat, Nat.mod_mod]
    simp only [toString, rest, text, excess, Print.stringToString, puts_eq, length_putsText, strlen, Nat.add_zero, hlen]
  | hexnumToString =>
    have hhex := @hexToString_eq σ putch 4 ((ap 0).setWidth 32) (by decide) s
    simp only [toString, rest, text, excess, Print.hexnumToString, Nat.add_zero]
    rw [hhex]
  | pointerToString =>
    have hhex := @hexToString_eq σ putch 8 (ap 0) (by decide) s
    simp only [toString, rest, text, excess, Print.pointerToString, Nat.add_zero]
    rw [hhex]
  | percentToString => rfl

def convOf (c : UInt8) : Option Conv := (formatStrConv.lookup c).join

def callConv (putch : σ → UInt8 → σ) (m : Memory) (st : VaList × σ × BitVec 32) : Option Conv → VaList × σ × BitVec 32
  | some conv =>
    let (ap, s, n) := conv.toString putch m st.1 st.2.1
    (ap, s, st.2.2 + n)
  | none => st

private theorem callConv_some (conv : Conv) (ap : VaList) (s : σ) (n : BitVec 32) :
    callConv putch m (ap, s, n) (some conv) = (conv.rest ap, (conv.text m (ap 0)).foldl putch s,
      n + BitVec.ofNat 32 ((conv.text m (ap 0)).length + conv.excess)) := by
  simp only [callConv, Conv.toString_eq]

private theorem foldl_tryConv_of_not_mem (h : c ∉ table.map Prod.fst) (st : VaList × σ × BitVec 32) :
    table.foldl (tryConv putch m c) st = st := by
  induction table with
  | nil => rfl
  | cons entry table ih =>
    simp only [map_cons, mem_cons, not_or] at h
    rw [foldl_cons, tryConv, if_neg (Ne.symm h.1)]
    exact ih h.2

private theorem foldl_tryConv (h : (table.map Prod.fst).Nodup) (st : VaList × σ × BitVec 32) :
    table.foldl (tryConv putch m c) st = callConv putch m st (table.lookup c).join := by
  induction table generalizing st with
  | nil => rfl
  | cons entry table ih =>
    obtain ⟨spec, conv⟩ := entry
    rw [map_cons, nodup_cons] at h
    rw [foldl_cons, List.lookup_cons]
    by_cases hc : spec = c
    · subst hc
      rw [foldl_tryConv_of_not_mem h.1, beq_self_eq_true]
      cases conv with
      | none => simp [tryConv, callConv]
      | some conv => simp [tryConv, callConv]
    · have hbeq : (c == spec) = false := beq_eq_false_iff_ne.2 (Ne.symm hc)
      rw [hbeq, tryConv, if_neg hc]
      exact ih h.2 st

def isDecimal (c : UInt8) : Bool := c = 'd'.toUInt8 ∨ c = 'i'.toUInt8

def takesArg (c : UInt8) : Bool := c ∈ chars ['d', 'i', 'c', 's', 'x', 'X', 'p']

/-- What a conversion stands for. -/
def expansion (m : Memory) (c : UInt8) (w : BitVec 64) : List UInt8 :=
  if c = 'd'.toUInt8 ∨ c = 'i'.toUInt8 then decimal (w.setWidth 32).toInt
  else if c = 'c'.toUInt8 then [UInt8.ofBitVec (w.setWidth 8)]
  else if c = 's'.toUInt8 then (m.str w).bytes
  else if c = 'x'.toUInt8 ∨ c = 'X'.toUInt8 then hex (w.setWidth 32).toNat
  else if c = 'p'.toUInt8 then hex w.toNat
  else if c = '%'.toUInt8 then ['%'.toUInt8]
  else []

def render (f : UInt8 → BitVec 64 → List UInt8) : List UInt8 → Bool → VaList → List UInt8
  | [], _, _ => []
  | c :: format, true, ap => f c (ap 0) ++ render f format false (if takesArg c then ap.next else ap)
  | c :: format, false, ap => if c = '%'.toUInt8 then render f format true ap else c :: render f format false ap

def decimals : List UInt8 → Bool → Nat
  | [], _ => 0
  | c :: format, true => (if isDecimal c then 1 else 0) + decimals format false
  | c :: format, false => decimals format (c = '%'.toUInt8)

def sentFor (m : Memory) (c : UInt8) (w : BitVec 64) : List UInt8 := ((convOf c).map (Conv.text m w)).getD []

@[elab_as_elim]
private theorem convOf_cases {P : UInt8 → Prop} (d : P 'd'.toUInt8) (i : P 'i'.toUInt8) (char : P 'c'.toUInt8)
    (str : P 's'.toUInt8) (hex : P 'x'.toUInt8) (upper : P 'X'.toUInt8) (ptr : P 'p'.toUInt8) (percent : P '%'.toUInt8)
    (other : ∀ c, convOf c = none → takesArg c = false → isDecimal c = false → (∀ m w, expansion m c w = []) → P c)
    (c : UInt8) : P c := by
  by_cases h : c ∈ chars ['d', 'i', 'c', 's', 'x', 'X', 'p', '%']
  · simp only [chars, map_cons, map_nil, mem_cons, not_mem_nil, or_false] at h
    rcases h with rfl | rfl | rfl | rfl | rfl | rfl | rfl | rfl
    all_goals assumption
  · simp only [chars, map_cons, map_nil, mem_cons, not_mem_nil, or_false, not_or] at h
    obtain ⟨hd, hi, hc, hs, hx, hX, hp, hper⟩ := h
    apply other
    · by_cases h0 : c = 0
      · rw [h0]
        decide
      · have hnone : formatStrConv.lookup c = none := by
          rw [lookup_eq_none_iff]
          simp [formatStrConv, *]
        rw [convOf, hnone]
        rfl
    · simp [takesArg, chars, *]
    · simp [isDecimal, *]
    · intro m w
      simp [expansion, *]

/-- A conversion sends its text, and counts one character too many if it is `%d` or `%i`. -/
private theorem callConv_eq (c : UInt8) (ap : VaList) (s : σ) (n : BitVec 32) :
    callConv putch m (ap, s, n) (convOf c) = (if takesArg c then ap.next else ap, (sentFor m c (ap 0)).foldl putch s,
      n + BitVec.ofNat 32 ((sentFor m c (ap 0)).length + if isDecimal c then 1 else 0)) := by
  cases c using convOf_cases with
  | other c hnone harg hdec _ =>
    rw [sentFor, hnone, harg, hdec]
    simp [callConv]
  | d | i => exact callConv_some .intToString ap s n
  | char => exact callConv_some .charToString ap s n
  | str => exact callConv_some .stringToString ap s n
  | hex | upper => exact callConv_some .hexnumToString ap s n
  | ptr => exact callConv_some .pointerToString ap s n
  | percent => exact callConv_some .percentToString ap s n

/-- The loop sends the rendered format and counts its characters. -/
private theorem formatLoop_eq (format : List UInt8) (state : Bool) (ap : VaList) (s : σ) (n : BitVec 32) :
    (formatLoop putch m format state (ap, s, n)).2 = ((render (sentFor m) format state ap).foldl putch s,
      n + BitVec.ofNat 32 ((render (sentFor m) format state ap).length + decimals format state)) := by
  induction format generalizing state ap s n with
  | nil => simp [formatLoop, render, decimals]
  | cons c format ih =>
    cases state with
    | true =>
      have htable : (formatStrConv.map Prod.fst).Nodup := by decide
      rw [formatLoop, if_pos rfl, foldl_tryConv htable]
      change (formatLoop putch m format false (callConv putch m (ap, s, n) (convOf c))).2 = _
      rw [callConv_eq, ih, render, decimals, foldl_append, length_append, BitVec.add_assoc, ← ofNat_add]
      congr 3
      omega
    | false =>
      rw [formatLoop, if_neg Bool.false_ne_true, render, decimals]
      by_cases hc : c = '%'.toUInt8
      · rw [if_pos hc, if_pos hc, ih]
        simp [hc]
      · rw [if_neg hc, if_neg hc, ih, decide_eq_false hc, foldl_cons, length_cons, BitVec.add_assoc]
        congr 2
        have hone : ∀ x, (1 : BitVec 32) + BitVec.ofNat 32 x = BitVec.ofNat 32 (x + 1) := fun x => by
          rw [ofNat_add, BitVec.add_comm]
          rfl
        rw [Nat.add_right_comm, ← hone]

/-- The number returned is the number of characters, plus one for each `%d` and `%i`. -/
theorem formatLoop_zero (format : List UInt8) (ap : VaList) (s : σ) :
    (formatLoop putch m format false (ap, s, 0)).2 = ((render (sentFor m) format false ap).foldl putch s,
      BitVec.ofNat 32 ((render (sentFor m) format false ap).length + decimals format false)) := by
  rw [formatLoop_eq]
  congr 1
  exact BitVec.zero_add _

private theorem length_sentFor_le (m : Memory) (c : UInt8) (w : BitVec 64) :
    (sentFor m c w).length ≤ (expansion m c w).length := by
  cases c using convOf_cases with
  | d | i => exact length_intText_le _
  | str =>
    show (putsText (m.str w)).length ≤ (m.str w).bytes.length
    rw [length_putsText, CString.length_bytes]
    exact Nat.mod_le ..
  | other c hnone _ _ _ =>
    rw [sentFor, hnone]
    exact Nat.zero_le _
  | char | hex | upper | ptr | percent => exact Nat.le_refl _

private theorem sentFor_eq (hdec : isDecimal c = false) (h : (expansion m c w).length < 2 ^ 31) :
    sentFor m c w = expansion m c w := by
  cases c using convOf_cases with
  | d | i => cases hdec
  | char =>
    show [UInt8.ofBitVec ((w.setWidth 32).setWidth 8)] = [UInt8.ofBitVec (w.setWidth 8)]
    rw [BitVec.setWidth_setWidth_of_le w (by decide)]
  | str => exact putsText_of_lt (by rwa [← CString.length_bytes])
  | other c hnone _ _ hexp =>
    rw [hexp, sentFor, hnone]
    rfl
  | hex | upper | ptr | percent => rfl

private theorem length_sentFor_pos (hdec : isDecimal c = true) : 0 < (sentFor m c w).length := by
  have hconv : convOf c = some .intToString := by
    rcases of_decide_eq_true hdec with rfl | rfl <;> rfl
  rw [sentFor, hconv]
  exact length_intText_pos _

section Render

variable {f g : UInt8 → BitVec 64 → List UInt8}

private theorem length_render_le (h : ∀ c w, (f c w).length ≤ (g c w).length) (format : List UInt8) (state : Bool)
    (ap : VaList) : (render f format state ap).length ≤ (render g format state ap).length := by
  induction format generalizing state ap with
  | nil => exact Nat.le_refl _
  | cons c format ih =>
    cases state with
    | true =>
      rw [render, render, length_append, length_append]
      exact Nat.add_le_add (h c (ap 0)) (ih _ _)
    | false =>
      rw [render, render]
      split
      · exact ih _ _
      · exact Nat.succ_le_succ (ih _ _)

private theorem render_congr {N : Nat} (h : ∀ c w, isDecimal c = false → (g c w).length < N → f c w = g c w)
    {format : List UInt8} {state : Bool} (hdec : decimals format state = 0)
    (hlen : (render g format state ap).length < N) :
    render f format state ap = render g format state ap := by
  induction format generalizing state ap with
  | nil => rfl
  | cons c format ih =>
    cases state with
    | true =>
      rw [render, length_append] at hlen
      rw [decimals, Nat.add_eq_zero_iff] at hdec
      rw [render, render, ih hdec.2 (by omega), h c (ap 0) (by simpa using hdec.1) (by omega)]
    | false =>
      rw [decimals] at hdec
      rw [render] at hlen
      rw [render, render]
      split
      · next hc =>
        rw [if_pos hc] at hlen
        rw [decide_eq_true hc] at hdec
        exact ih hdec hlen
      · next hc =>
        rw [if_neg hc, length_cons] at hlen
        rw [decide_eq_false hc] at hdec
        rw [ih hdec (by omega)]

private theorem decimals_le (h : ∀ c w, isDecimal c = true → 0 < (f c w).length) (format : List UInt8) (state : Bool)
    (ap : VaList) : decimals format state ≤ (render f format state ap).length := by
  induction format generalizing state ap with
  | nil => exact Nat.le_refl _
  | cons c format ih =>
    cases state with
    | true =>
      rw [decimals, render, length_append]
      refine Nat.add_le_add ?_ (ih _ _)
      split
      · next hc => exact h c _ hc
      · exact Nat.zero_le _
    | false =>
      rw [decimals, render]
      by_cases hc : c = '%'.toUInt8
      · rw [if_pos hc, decide_eq_true hc]
        exact ih _ _
      · rw [if_neg hc, decide_eq_false hc]
        exact Nat.le_succ_of_le (ih _ _)

end Render

private theorem foldl_putch (text : List UInt8) (data : BitVec 64 → UInt8) (h : k + text.length < 2 ^ 64) :
    let b := text.foldl Buffer.putch ⟨data, BitVec.ofNat 64 k⟩
    b.counter = BitVec.ofNat 64 (k + text.length) ∧ (∀ i (hi : i < text.length), b.data (BitVec.ofNat 64 (k + i)) =
      text[i]) ∧ ∀ x : BitVec 64, x.toNat < k ∨ k + text.length ≤ x.toNat → b.data x = data x := by
  induction text generalizing data k with
  | nil => exact ⟨rfl, nofun, fun x _ => rfl⟩
  | cons c text ih =>
    rw [length_cons] at h
    have hnext : BitVec.ofNat 64 k + 1 = BitVec.ofNat 64 (k + 1) := (ofNat_add ..).symm
    obtain ⟨hcounter, htext, hother⟩ := ih (store data (BitVec.ofNat 64 k) c) (k := k + 1) (by omega)
    rw [foldl_cons, Buffer.putch, hnext]
    refine ⟨?_, ?_, ?_⟩
    · rw [hcounter, length_cons]
      congr 1
      omega
    · intro i hi
      cases i with
      | zero =>
        rw [hother _ (Or.inl (by rw [toNat_ofNat]; omega))]
        exact if_pos rfl
      | succ i =>
        rw [← Nat.add_assoc, Nat.add_right_comm]
        exact htext i (Nat.lt_of_succ_lt_succ hi)
    · intro x hx
      rw [length_cons] at hx
      rw [hother x (by omega)]
      exact if_neg fun heq => by
        rw [heq, toNat_ofNat] at hx
        omega

def expand (m : Memory) (format : BitVec 64) (ap : VaList) : List UInt8 :=
  render (expansion m) (m.str format).bytes false ap

def sent (m : Memory) (format : BitVec 64) (ap : VaList) : List UInt8 :=
  render (sentFor m) (m.str format).bytes false ap

/-- `sprintf_va` writes the expansion of the format from the start of the buffer on, returns the number of characters
and has the NUL behind them. -/
structure Measured (m : Memory) (buf : BitVec 64 → UInt8) (format : BitVec 64) (ap : VaList) : Prop where
  text : ∀ i (h : i < (expand m format ap).length),
    (sprintfVa m buf format ap).1.data (BitVec.ofNat 64 i) = (expand m format ap)[i]
  written : (sprintfVa m buf format ap).1.counter.toNat = (expand m format ap).length
  count : (sprintfVa m buf format ap).2.toInt = (expand m format ap).length
  nul : (sprintfVa m buf format ap).1.data (BitVec.ofNat 64 (expand m format ap).length) = 0

private theorem sprintfVa_eq (m : Memory) (buf : BitVec 64 → UInt8) (format : BitVec 64) (ap : VaList) :
    let b := (sent m format ap).foldl Buffer.putch ⟨buf, 0⟩
    let n := BitVec.ofNat 32 ((sent m format ap).length + decimals (m.str format).bytes false)
    sprintfVa m buf format ap = ({ b with data := store b.data (n.signExtend 64) 0 }, n) := by
  have hloop := @formatLoop_zero Buffer Buffer.putch m (m.str format).bytes ap ⟨buf, 0⟩
  unfold sprintfVa
  rcases hres : formatLoop Buffer.putch m (m.str format).bytes false (ap, ⟨buf, 0⟩, 0) with ⟨ap', b, n⟩
  rw [hres] at hloop
  cases hloop
  rfl

private theorem signExtend_ofNat (h : n < 2 ^ 31) : (BitVec.ofNat 32 n).signExtend 64 = BitVec.ofNat 64 n := by
  apply BitVec.eq_of_toInt_eq
  rw [BitVec.toInt_signExtend_of_le (by decide), toInt_ofNat', toInt_ofNat',
    Int.bmod_eq_of_le (by omega) (by omega), Int.bmod_eq_of_le (by omega) (by omega)]

private theorem eq_zero_of_count (hn : n < 2 ^ 31) (hk : k ≤ n) (h : (BitVec.ofNat 32 (n + k)).toInt = n) : k = 0 := by
  rw [toInt_ofNat'] at h
  have := Int.bmod_emod (x := ((n + k : Nat) : Int)) (m := 2 ^ 32)
  rw [h] at this
  omega

/-- Formatted output is measured correctly if and only if there is no `%d` or `%i` in the format, as long as the number
of characters is an `int`. -/
theorem sprintfVa_measured_iff (m : Memory) (buf : BitVec 64 → UInt8) (format : BitVec 64) (ap : VaList) :
    Measured m buf format ap ↔ decimals (m.str format).bytes false = 0 ∧ (expand m format ap).length < 2 ^ 31 := by
  have heq := sprintfVa_eq m buf format ap
  dsimp only at heq
  have hle : (sent m format ap).length ≤ (expand m format ap).length := length_render_le (length_sentFor_le m) ..
  have hdec : decimals (m.str format).bytes false ≤ (sent m format ap).length :=
    decimals_le (fun c w h => length_sentFor_pos h) ..
  constructor
  · intro h
    have hcount := h.count
    have hwritten := h.written
    rw [heq] at hcount hwritten
    dsimp only at hcount hwritten
    have hlt : (expand m format ap).length < 2 ^ 31 := by
      have := BitVec.toInt_lt (x := BitVec.ofNat 32 ((sent m format ap).length + decimals (m.str format).bytes false))
      omega
    obtain ⟨hcounter, -⟩ := foldl_putch (sent m format ap) buf (k := 0) (by omega)
    rw [Nat.zero_add] at hcounter
    have hsame : (sent m format ap).length = (expand m format ap).length := by
      rw [← hwritten, BitVec.ofNat_eq_ofNat, hcounter, toNat_ofNat]
      omega
    rw [← hsame] at hcount
    exact ⟨eq_zero_of_count (by omega) hdec hcount, hlt⟩
  · rintro ⟨hzero, hlt⟩
    have hsent : sent m format ap = expand m format ap := render_congr (fun c w => sentFor_eq) hzero hlt
    rw [hsent, hzero, Nat.add_zero, signExtend_ofNat hlt] at heq
    obtain ⟨hcounter, htext, -⟩ := foldl_putch (expand m format ap) buf (k := 0) (by omega)
    refine ⟨fun i hi => ?_, ?_, ?_, ?_⟩
    · have hne : BitVec.ofNat 64 i ≠ BitVec.ofNat 64 (expand m format ap).length := by
        intro h
        have := congrArg BitVec.toNat h
        rw [toNat_ofNat, toNat_ofNat] at this
        omega
      have hi' := htext i hi
      rw [Nat.zero_add] at hi'
      rw [heq]
      exact (if_neg hne).trans hi'
    · rw [heq]
      rw [BitVec.ofNat_eq_ofNat, hcounter, toNat_ofNat]
      omega
    · rw [heq, toInt_ofNat', Int.bmod_eq_of_le (by omega) (by omega)]
    · rw [heq]
      exact if_pos rfl

def percentD : Memory where
  byte x := if x = 0x1000 then '%'.toUInt8 else if x = 0x1001 then 'd'.toUInt8 else 0
  nul := ⟨0, by decide⟩

/-- For the format `%d` and the argument 7, one character is written and 2 is returned; the byte behind it keeps its
value, and the NUL is behind that. -/
theorem percentD_not_measured :
    let out := sprintfVa percentD (fun _ => 0xFF) 0x1000 (fun _ => 7)
    ¬Measured percentD (fun _ => 0xFF) 0x1000 (fun _ => 7) ∧
      out.2 = 2 ∧ out.1.counter = 1 ∧ out.1.data 0 = '7'.toUInt8 ∧ out.1.data 1 = 0xFF ∧ out.1.data 2 = 0 := by
  have hformat : (percentD.str 0x1000).bytes = ['%'.toUInt8, 'd'.toUInt8] := by
    refine Memory.bytes_str (by decide) (fun i hi => ?_) (by decide)
    match i, hi with
    | 0, _ => rfl
    | 1, _ => rfl
  have htext : intText 7 = ['7'.toUInt8] := by
    rw [intText_eq (by decide)]
    decide
  have hsent : sent percentD 0x1000 (fun _ => 7) = ['7'.toUInt8] := by
    rw [sent, hformat]
    show intText 7 ++ [] = ['7'.toUInt8]
    rw [htext, append_nil]
  have hexpand : (expand percentD 0x1000 fun _ => 7).length = 1 := by
    rw [expand, hformat]
    decide
  have heq := sprintfVa_eq percentD (fun _ => 0xFF) 0x1000 (fun _ => 7)
  rw [hsent, hformat] at heq
  intro out
  have hout : out = sprintfVa percentD (fun _ => 0xFF) 0x1000 (fun _ => 7) := rfl
  rw [heq] at hout
  refine ⟨fun h => ?_, ?_⟩
  · have hcount := h.count
    rw [hexpand, heq] at hcount
    exact absurd hcount (by decide)
  · rw [hout]
    decide

end Adix.Print
