import Mathlib.Algebra.GroupWithZero.Nat
import Mathlib.Data.List.Induction
import Mathlib.Data.List.Flatten
import Mathlib.Data.List.Nodup

/-!
# The keyboard (`sys/input/keyboard.c`, `sys/utils/utils.c`)

The controller sends a byte for each event: the number of a key, with the top bit set when it has been released. The
handler keeps a bitmap of the keys that are down. It takes the plain character for a key if no other key is marked, and
otherwise looks for shift and control at their places in the word of the key, which for the second word are those of
other keys.
-/

namespace Adix.Keyboard

/-- `keys` of `gKbKeyState`; the array has two words. -/
abbrev KeyState := Nat → BitVec 64

def released : KeyState := fun _ => 0

def keyScancode (scancode : BitVec 8) : Nat := (scancode &&& 0x7f).toNat

def isRelease (scancode : BitVec 8) : Bool := scancode &&& 0x80 != 0

def KeyState.bit (s : KeyState) (k : Nat) : Bool := (s (k / 64)).getLsbD (k % 64)

def KeyState.press (s : KeyState) (k : Nat) : KeyState :=
  Function.update s (k / 64) (s (k / 64) ||| 0x1#64 <<< (k % 64))

def KeyState.release (s : KeyState) (k : Nat) : KeyState :=
  Function.update s (k / 64) (s (k / 64) &&& 0xfffffffffffffffe#64 <<< (k % 64))

def KeyState.byte (s : KeyState) (n : Nat) : BitVec 8 := (s (n / 8) >>> (8 * (n % 8))).setWidth 8

open KeyState (bit byte press release)

def bitsOfByte (p : BitVec 8) : BitVec 8 := p - ((p >>> 1 &&& 0x77) + (p >>> 2 &&& 0x33) + (p >>> 3 &&& 0x11))

def numOfBitsSet (pBitmap : Nat → BitVec 8) (bytes : Nat) : Nat :=
  (List.range bytes).foldl (fun bitsCnt i => bitsCnt + (bitsOfByte (pBitmap i)).toNat % 15) 0

/-- `kbdus` up to its last entry that is not zero. -/
def kbdusEntries : List Char :=
  ['\x00', '\x1b', '1', '2', '3', '4', '5', '6', '7', '8', '9', '0', '-', '=', '\x08',
    '\t', 'q', 'w', 'e', 'r', 't', 'y', 'u', 'i', 'o', 'p', '[', ']', '\n',
    '\x00', 'a', 's', 'd', 'f', 'g', 'h', 'j', 'k', 'l', ';', '\x27', '\x60', '\x00',
    '\x5c', 'z', 'x', 'c', 'v', 'b', 'n', 'm', ',', '.', '/', '\x00', '*', '\x00', ' ',
    '\x00', '\x00', '\x00', '\x00', '\x00', '\x00', '\x00', '\x00',
    '\x00', '\x00', '\x00', '\x00', '\x00', '\x00', '\x00', '\x00',
    '-', '\x00', '\x00', '\x00', '+']

def shiftKbdusEntries : List Char :=
  ['\x00', '\x1b', '!', '@', '#', '$', '%', '^', '&', '*', '(', ')', '_', '+', '\x08',
    '\t', 'Q', 'W', 'E', 'R', 'T', 'Y', 'U', 'I', 'O', 'P', '\x7b', '\x7d', '\n',
    '\x00', 'A', 'S', 'D', 'F', 'G', 'H', 'J', 'K', 'L', ':', '\x22', '~', '\x00',
    '|', 'Z', 'X', 'C', 'V', 'B', 'N', 'M', '<', '>', '?', '\x00', '*', '\x00', ' ',
    '\x00', '\x00', '\x00', '\x00', '\x00', '\x00', '\x00', '\x00',
    '\x00', '\x00', '\x00', '\x00', '\x00', '\x00', '\x00', '\x00',
    '-', '\x00', '\x00', '\x00', '+']

def kbdus (k : Nat) : Char := kbdusEntries.getD k '\x00'

def shiftKbdus (k : Nat) : Char := shiftKbdusEntries.getD k '\x00'

/-- What the handler does besides the bitmap: the character for `terminal_enqueue`, and the two characters that it
writes to the screen. -/
structure Output where
  enqueued : Option Char
  shown : Option (Char × Char)

/-- `c1` and `c2` for a key, from the bitmap in which it is already marked. -/
def translate (s : KeyState) (k : Nat) : Char × Char :=
  if numOfBitsSet s.byte 16 = 1 then (' ', kbdus k)
  else
    let shiftPressed := s (k / 64) >>> 42 &&& 0x1
    let controlPressed := s (k / 64) >>> 29 &&& 0x1
    if shiftPressed = 0x1 then (' ', shiftKbdus k)
    else if controlPressed = 0x1 then ('^', shiftKbdus k)
    else (' ', ' ')

/-- `keyboard_handler`, for the byte read from the controller. -/
def keyboardHandler (s : KeyState) (scancode : BitVec 8) : KeyState × Output :=
  let k := keyScancode scancode
  if isRelease scancode then (s.release k, ⟨none, none⟩)
  else
    let s := s.press k
    let (c1, c2) := translate s k
    (s, ⟨if k ≠ 42 ∧ k ≠ 54 then some c2 else none, if c2 ≠ '\n' ∧ c2 ≠ '\t' then some (c1, c2) else none⟩)

def stateAfter (codes : List (BitVec 8)) : KeyState := codes.foldl (fun s c => (keyboardHandler s c).1) released

open List
open BitVec hiding or_self or_assoc

variable {s : KeyState} {j k n : Nat} {c : BitVec 8} {codes : List (BitVec 8)}

private theorem bit_press : (s.press k).bit j = (s.bit j || decide (j = k)) := by
  unfold press bit
  by_cases hw : j / 64 = k / 64
  · have hk : k % 64 < 64 := Nat.mod_lt k (by decide)
    have hplace : j % 64 = k % 64 ↔ j = k := by omega
    rw [hw, Function.update_self, getLsbD_or, ← twoPow_eq, getLsbD_twoPow]
    simp [hk, hplace, eq_comm]
  · have hne : j ≠ k := fun h => hw (by rw [h])
    simp [Function.update_of_ne hw, hne]

private theorem bit_release : (s.release k).bit j = (s.bit j && !decide (j / 64 = k / 64 ∧ j ≤ k)) := by
  unfold release bit
  by_cases hw : j / 64 = k / 64
  · have hones : ∀ n, n < 64 → (0xfffffffffffffffe#64).getLsbD n = !decide (n = 0) := by decide
    have hj : j % 64 < 64 := Nat.mod_lt j (by decide)
    rw [hw, Function.update_self, getLsbD_and, getLsbD_shiftLeft, hones _ (by omega)]
    by_cases hlt : j % 64 < k % 64
    · simp [hlt, show j ≤ k by omega]
    · have hplace : j % 64 - k % 64 = 0 ↔ j ≤ k := by omega
      simp [hj, hlt, hplace]
  · simp [hw]

private theorem bit_keyboardHandler : (keyboardHandler s c).1.bit j =
    if isRelease c then s.bit j && !decide (j / 64 = keyScancode c / 64 ∧ j ≤ keyScancode c)
    else s.bit j || decide (j = keyScancode c) := by
  unfold keyboardHandler
  split
  · exact bit_release
  · exact bit_press

def lastEvent (codes : List (BitVec 8)) (k : Nat) : Option (BitVec 8) := codes.reverse.find? fun c => keyScancode c == k

/-- The last event for the key was that it has been pressed. -/
def Held (codes : List (BitVec 8)) (k : Nat) : Prop := ∃ c, lastEvent codes k = some c ∧ isRelease c = false

/-- The events since the last event for a key, the last one first. -/
def eventsSince (codes : List (BitVec 8)) (k : Nat) : List (BitVec 8) :=
  codes.reverse.takeWhile fun c => keyScancode c != k

/-- A key above `k` in its word has been released since the last event for `k`. -/
def Swept (codes : List (BitVec 8)) (k : Nat) : Prop :=
  ∃ c ∈ eventsSince codes k, isRelease c = true ∧ k < keyScancode c ∧ k / 64 = keyScancode c / 64

private theorem lastEvent_snoc :
    lastEvent (codes ++ [c]) k = if keyScancode c = k then some c else lastEvent codes k := by
  unfold lastEvent
  rw [List.reverse_append, reverse_singleton, singleton_append]
  by_cases h : keyScancode c = k
  · rw [if_pos h, find?_cons_of_pos (by simp [h])]
  · rw [if_neg h, find?_cons_of_neg (by simp [h])]

private theorem eventsSince_snoc :
    eventsSince (codes ++ [c]) k = if keyScancode c = k then [] else c :: eventsSince codes k := by
  unfold eventsSince
  rw [List.reverse_append, reverse_singleton, singleton_append, takeWhile_cons]
  by_cases h : keyScancode c = k <;> simp [h]

private theorem held_snoc :
    Held (codes ++ [c]) k ↔ if keyScancode c = k then isRelease c = false else Held codes k := by
  unfold Held
  rw [lastEvent_snoc]
  split <;> simp

private theorem swept_snoc : Swept (codes ++ [c]) k ↔
    keyScancode c ≠ k ∧ (isRelease c = true ∧ k < keyScancode c ∧ k / 64 = keyScancode c / 64 ∨ Swept codes k) := by
  unfold Swept
  rw [eventsSince_snoc]
  split <;> simp [*]

private theorem stateAfter_snoc : stateAfter (codes ++ [c]) = (keyboardHandler (stateAfter codes) c).1 := by
  unfold stateAfter
  rw [foldl_append]
  rfl

/-- A key is marked if and only if it has been pressed last and no key above it in its word has been released since: the
mask for a released key takes out all keys below it too. -/
private theorem bit_stateAfter : (stateAfter codes).bit k = true ↔ Held codes k ∧ ¬Swept codes k := by
  -- from the last event to the first one
  induction codes using List.reverseRecOn with
  | nil => simp [stateAfter, released, bit, Held, lastEvent]
  | append_singleton codes c ih =>
    rw [stateAfter_snoc, bit_keyboardHandler, held_snoc, swept_snoc]
    by_cases hk : keyScancode c = k
    · cases hc : isRelease c <;> simp [hk]
    · cases hc : isRelease c with
      | false => simp [ih, hk, Ne.symm hk]
      | true =>
        have hle : k ≤ keyScancode c ↔ k < keyScancode c := by omega
        simp only [if_true, Bool.and_eq_true, Bool.not_eq_true', decide_eq_false_iff_not, ih, hle, hk, if_false, ne_eq,
          not_false_eq_true, true_and]
        tauto

/-- The bitmap says whether the last event for a key was a press, unless a key above it in its word has been released
while it was down. -/
theorem key_state_iff (codes : List (BitVec 8)) (k : Fin 128) :
    ((stateAfter codes).bit k = true ↔ Held codes k) ↔ (Held codes k → ¬Swept codes k) := by
  rw [bit_stateAfter]
  tauto

/-- `a` and `s` are pressed and `s` is released: `a` is still down and not marked any more. -/
theorem release_sweeps_lower_key : Held [30, 31, 0x9f] 30 ∧ (stateAfter [30, 31, 0x9f]).bit 30 = false :=
  ⟨⟨30, by decide, rfl⟩, by decide⟩

private theorem bitsOfByte_mod : ∀ p : BitVec 8, (bitsOfByte p).toNat % 15 = (List.range 8).countP p.getLsbD := by
  decide +kernel

private theorem getLsbD_byte {i : Nat} (hi : i < 8) : (s.byte n).getLsbD i = s.bit (8 * n + i) := by
  unfold byte bit
  have hw : (8 * n + i) / 64 = n / 8 := by omega
  have hb : (8 * n + i) % 64 = 8 * (n % 8) + i := by omega
  rw [hw, hb, BitVec.getLsbD_setWidth, BitVec.getLsbD_ushiftRight]
  simp [hi]

private theorem foldl_add_eq_sum (f : Nat → Nat) (l : List Nat) (n : Nat) :
    l.foldl (fun m i => m + f i) n = n + (l.map f).sum := by
  induction l generalizing n with
  | nil => rfl
  | cons i l ih => rw [foldl_cons, ih, map_cons, sum_cons, Nat.add_assoc]

private theorem numOfBitsSet_byte (s : KeyState) : numOfBitsSet s.byte 16 = (List.range 128).countP s.bit := by
  have hbyte : ∀ n, (bitsOfByte (s.byte n)).toNat % 15 = ((List.range 8).map (8 * n + ·)).countP s.bit := by
    intro n
    rw [bitsOfByte_mod, countP_map]
    apply countP_congr
    intro i hi
    rw [getLsbD_byte (mem_range.1 hi)]
    rfl
  have hrange : List.range 128 = (List.range 16).flatMap fun n => (List.range 8).map (8 * n + ·) := by decide
  rw [hrange, countP_flatMap, numOfBitsSet, foldl_add_eq_sum, Nat.zero_add]
  congr 1
  exact map_congr_left fun n _ => hbyte n

private theorem countP_eq_one_iff {p : Nat → Bool} {l : List Nat} (hl : l.Nodup) (hk : k ∈ l) (hp : p k = true) :
    l.countP p = 1 ↔ ∀ j ∈ l, p j = true → j = k := by
  obtain ⟨l1, l2, rfl⟩ := append_of_mem hk
  have hnot : ∀ j ∈ l1 ++ l2, j ≠ k := by
    rintro j hj rfl
    exact (nodup_middle.1 hl).notMem hj
  have hsum : (l1 ++ k :: l2).countP p = (l1 ++ l2).countP p + 1 := by
    simp [countP_append, hp]
    omega
  rw [hsum, Nat.add_eq_right, countP_eq_zero]
  constructor
  · intro h j hj hpj
    by_contra hne
    refine h j ?_ hpj
    simpa [hne] using hj
  · intro h j hj hpj
    refine hnot j hj (h j ?_ hpj)
    rw [mem_append] at hj
    rw [mem_append, mem_cons]
    tauto

def Marked (codes : List (BitVec 8)) (k : Nat) : Prop := Held codes k ∧ ¬Swept codes k

instance : Decidable (Held codes k) :=
  decidable_of_iff ((lastEvent codes k).any (fun c => !isRelease c) = true) (by simp [Held, Option.any_eq_true])

instance : Decidable (Swept codes k) := inferInstanceAs (Decidable (∃ c ∈ eventsSince codes k, _ ∧ _ ∧ _))

instance : Decidable (Marked codes k) := inferInstanceAs (Decidable (_ ∧ _))

def Alone (codes : List (BitVec 8)) (k : Nat) : Prop := ∀ j < 128, Marked codes j → j = k

instance : Decidable (Alone codes k) := inferInstanceAs (Decidable (∀ j < 128, _ → _))

def ShiftHeld (codes : List (BitVec 8)) : Prop := Held codes 42 ∨ Held codes 54

instance : Decidable (ShiftHeld codes) := inferInstanceAs (Decidable (_ ∨ _))

def wanted (codes : List (BitVec 8)) (k : Nat) : Char := if ShiftHeld codes then shiftKbdus k else kbdus k

def Printable (c : Char) : Prop := 0x20 ≤ c.toNat ∧ c.toNat ≤ 0x7e

instance (c : Char) : Decidable (Printable c) := inferInstanceAs (Decidable (_ ∧ _))

private theorem marked_iff : Marked codes k ↔ (stateAfter codes).bit k = true := bit_stateAfter.symm

private theorem numOfBitsSet_press (hk : k < 128) :
    numOfBitsSet ((stateAfter codes).press k).byte 16 = 1 ↔ Alone codes k := by
  have hbit : ((stateAfter codes).press k).bit k = true := by simp [bit_press]
  rw [numOfBitsSet_byte, countP_eq_one_iff nodup_range (mem_range.2 hk) hbit]
  simp only [mem_range, bit_press, Bool.or_eq_true, decide_eq_true_eq, ← marked_iff]
  constructor
  · exact fun h j hj hm => h j hj (.inl hm)
  · exact fun h j hj hm => hm.elim (h j hj) id

private theorem and_one_eq_one {w : BitVec 64} : w >>> n &&& 0x1 = 0x1 ↔ w.getLsbD n = true := by
  show w >>> n &&& 1#64 = 1#64 ↔ _
  rw [BitVec.and_one_eq_setWidth_ofBool_getLsbD, BitVec.getLsbD_ushiftRight, Nat.add_zero]
  cases w.getLsbD n <;> decide

private theorem bit_press_word (hn : n < 64) (hne : k % 64 ≠ n) :
    (((stateAfter codes).press k) (k / 64)).getLsbD n = true ↔ Marked codes (64 * (k / 64) + n) := by
  have hbit : ((stateAfter codes).press k).bit (64 * (k / 64) + n) =
      (((stateAfter codes).press k) (k / 64)).getLsbD n := by
    unfold bit
    rw [show (64 * (k / 64) + n) / 64 = k / 64 by omega, show (64 * (k / 64) + n) % 64 = n by omega]
  have hother : 64 * (k / 64) + n ≠ k := by omega
  rw [← hbit, bit_press, marked_iff]
  simp [hother]

private theorem translate_snd (hk : k < 128) (hshift : k % 64 ≠ 42) (hcontrol : k % 64 ≠ 29) :
    (translate ((stateAfter codes).press k) k).2 = if Alone codes k then kbdus k
      else if Marked codes (64 * (k / 64) + 42) ∨ Marked codes (64 * (k / 64) + 29) then shiftKbdus k else ' ' := by
  unfold translate
  simp only [numOfBitsSet_press hk, and_one_eq_one, bit_press_word (by decide) hshift,
    bit_press_word (by decide) hcontrol]
  by_cases halone : Alone codes k
  · simp [halone]
  · by_cases h42 : Marked codes (64 * (k / 64) + 42)
    · simp [halone, h42]
    · by_cases h29 : Marked codes (64 * (k / 64) + 29) <;> simp [halone, h42, h29]

private theorem tables :
    ∀ k : Fin 128, Printable (kbdus k) → (k : Nat) % 64 ≠ 42 ∧ (k : Nat) % 64 ≠ 29 ∧ (k : Nat) ≠ 54 ∧
    (kbdus k = ' ' ↔ (k : Nat) = 57) ∧ (shiftKbdus k = ' ' ↔ (k : Nat) = 57) ∧
    (64 ≤ (k : Nat) → kbdus k = shiftKbdus k) := by
  decide +kernel

private theorem keyboardHandler_press (k : Fin 128) : (keyboardHandler s (BitVec.ofNat 8 k)).2.enqueued =
    if (k : Nat) ≠ 42 ∧ (k : Nat) ≠ 54 then some (translate (s.press k) k).2 else none := by
  have hcodes : ∀ k : Fin 128, keyScancode (BitVec.ofNat 8 k) = k ∧
    isRelease (BitVec.ofNat 8 k) = false := by decide +kernel
  obtain ⟨hkey, hpress⟩ := hcodes k
  unfold keyboardHandler
  simp [hkey, hpress]

private theorem translate_lower {k : Fin 128} (hk : Printable (kbdus k)) (hcontrol : ¬Held codes 29)
    (hlow : (k : Nat) < 64) : (translate ((stateAfter codes).press k) k).2 = wanted codes k ↔
      (k : Nat) = 57 ∨ Marked codes 42 ∨ Alone codes k ∧ (¬ShiftHeld codes ∨ kbdus k = shiftKbdus k) := by
  obtain ⟨h42, h29, -, hspace, hspace', -⟩ := tables k hk
  have hword : (k : Nat) / 64 = 0 := Nat.div_eq_of_lt hlow
  have hcontrol' : ¬Marked codes 29 := fun h => hcontrol h.1
  rw [translate_snd k.isLt h42 h29, hword, Nat.mul_zero, Nat.zero_add, Nat.zero_add]
  unfold wanted
  by_cases hmark : Marked codes 42
  · have hshift : ShiftHeld codes := .inl hmark.1
    have halone : ¬Alone codes k := fun h => h42 (by rw [← h 42 (by decide) hmark])
    simp [hmark, hshift, halone]
  · by_cases halone : Alone codes k
    · by_cases hshift : ShiftHeld codes
      · simp only [halone, hmark, hshift, if_true, false_or, true_and, not_true_eq_false]
        exact ⟨.inr, fun h => h.elim (fun h => (hspace.2 h).trans (hspace'.2 h).symm) id⟩
      · simp [halone, hshift]
    · simp only [halone, hmark, hcontrol', if_false, or_self, false_and, or_false]
      split
      · exact ⟨fun h => hspace'.1 h.symm, fun h => (hspace'.2 h).symm⟩
      · exact ⟨fun h => hspace.1 h.symm, fun h => (hspace.2 h).symm⟩

private theorem translate_upper {k : Fin 128} (hk : Printable (kbdus k)) (hup : 64 ≤ (k : Nat)) :
    (translate ((stateAfter codes).press k) k).2 = wanted codes k ↔ Marked codes 93 ∨ Marked codes 106 ∨
    Alone codes k := by
  obtain ⟨h42, h29, -, hspace, -, hsame⟩ := tables k hk
  have hword : (k : Nat) / 64 = 1 := by omega
  have hwanted : wanted codes k = kbdus k := by
    unfold wanted
    rw [hsame hup, ite_self]
  have hne : ' ' ≠ kbdus k := fun h => absurd (hspace.1 h.symm) (by omega)
  rw [translate_snd k.isLt h42 h29, hword, hwanted, hsame hup, Nat.mul_one]
  rw [hsame hup] at hne
  by_cases halone : Alone codes k
  · simp [halone]
  · by_cases h106 : Marked codes 106
    · simp [halone, h106]
    · by_cases h93 : Marked codes 93 <;> simp [halone, h106, h93, hne]

/-- With control up, a key gives the wanted character only in these cases: it is the space bar; left shift is marked
and the key is of the first word; key 93 or 106 is marked and it is of the second; or no other key is marked, and shift
is up or makes no difference. -/
theorem typed_char_iff (codes : List (BitVec 8)) (k : Fin 128) (hk : Printable (kbdus k)) (hcontrol : ¬Held codes 29) :
    (keyboardHandler (stateAfter codes) (BitVec.ofNat 8 k)).2.enqueued = some (wanted codes k) ↔
      (k : Nat) = 57 ∨ (k : Nat) < 64 ∧ Marked codes 42 ∨ 64 ≤ (k : Nat) ∧ (Marked codes 93 ∨ Marked codes 106) ∨
        Alone codes k ∧ (¬ShiftHeld codes ∨ kbdus k = shiftKbdus k) := by
  obtain ⟨h42, -, h54, -, -, hsame⟩ := tables k hk
  have h42' : (k : Nat) ≠ 42 := fun h => h42 (by rw [h])
  rw [keyboardHandler_press, if_pos ⟨h42', h54⟩, Option.some.injEq]
  rcases Nat.lt_or_ge k 64 with hlow | hup
  · rw [translate_lower hk hcontrol hlow]
    simp [hlow, Nat.not_le.2 hlow]
  · rw [translate_upper hk hup]
    have h57 : (k : Nat) ≠ 57 := by omega
    simp [hup, Nat.not_lt.2 hup, h57, hsame hup, or_assoc]

theorem typed_char_shift : Printable (kbdus 30) ∧ ¬Held [42] 29 ∧
    (keyboardHandler (stateAfter [42]) 30).2.enqueued = some 'A' :=
  ⟨by decide, by decide, (typed_char_iff [42] 30 (by decide) (by decide)).2 (.inr (.inl ⟨by decide, by decide⟩))⟩

/-- `s` is pressed while `a` is still down, and a space is typed. -/
theorem second_key_gives_space :
    wanted [30] 31 = 's' ∧ (keyboardHandler (stateAfter [30]) 31).2.enqueued = some ' ' := by
  decide +kernel

end Adix.Keyboard
