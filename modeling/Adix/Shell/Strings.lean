import Mathlib.Data.List.Basic
import Mathlib.Algebra.Group.Nat.Defs
import Mathlib.Algebra.Group.Int.Defs

/-!
# Strings in memory (`libc/string.c`)

The shell writes into the strings that it scans, and goes on reading from there, so a string is no value of its own
here: a pointer is a position in a block of bytes. A scan that has gone through `addrs` bytes, as many as there are
addresses, is one that does not end.
-/

namespace Adix.Shell

open List Option
open BitVec (ofNat)

abbrev Bytes := Int → UInt8

def addrs : Nat := 2 ^ 64

def skip (p : Int → Bool) : Nat → Int → Option Int
  | 0, _ => none
  | n + 1, i => if p i then skip p n (i + 1) else some i

def strlen (s : Bytes) (str : Int) : Option (BitVec 32) :=
  (skip (fun i => s i ≠ 0) addrs str).map fun i => BitVec.ofInt 32 (i - str)

def strEqual (s : Bytes) (src : Int) (t : Bytes) (dst : Int) : Option Bool := do
  let srcLen ← strlen s src
  let dstLen ← strlen t dst
  if srcLen ≠ dstLen then return false
  let i ← skip (fun i => s i ≠ 0 && s i == t (dst + (i - src))) addrs src
  return s i == 0

/-- `strncmp`, from the position `i` on: whether the next bytes are the same. -/
def strncmp (src dst : Bytes) : Nat → Int → Bool
  | 0, _ => true
  | n + 1, i => if src i = dst i then strncmp src dst n (i + 1) else false

/-- `memcpy` to the position `i` of a block, from the beginning of another. -/
def memcpy (dest : Bytes) (i : Int) (src : Bytes) (count : BitVec 32) : Bytes :=
  fun j => if i ≤ j ∧ j < i + count.toNat then src (j - i) else dest j

/-- What `strtok` leaves behind: the bytes, the token or `NULL`, and its static variable `last`. -/
structure Token where
  mem : Bytes
  tok : Option Int
  last : Option Int

/-- `strtok`, with the value of `last` when it is called. -/
def strtok (s : Bytes) (last str : Option Int) (delim : List UInt8) : Option Token :=
  match str.or last with
  | none => some ⟨s, none, last⟩
  | some i => do
    let tok ← skip (fun j => s j ∈ delim) addrs i
    if s tok = 0 then return ⟨s, none, none⟩
    let stop ← skip (fun j => s j ≠ 0 && s j ∉ delim) addrs (tok + 1)
    if s stop = 0 then return ⟨s, some tok, none⟩
    return ⟨Function.update s stop 0, some tok, some (stop + 1)⟩

theorem ofNat_add_one (n : Nat) : ofNat 32 n + 1 = ofNat 32 (n + 1) := by
  rw [BitVec.ofNat_add]
  rfl

theorem toInt_ofNat {n : Nat} (h : n < 2 ^ 31) : (ofNat 32 n).toInt = n := by
  have hn : (ofNat 32 n).toNat = n := by
    rw [BitVec.toNat_ofNat]
    omega
  rw [BitVec.toInt_eq_toNat_of_lt (by omega), hn]

/-- The bytes `l` are at `i`. -/
def Holds (s : Bytes) : Int → List UInt8 → Prop
  | _, [] => True
  | i, c :: l => s i = c ∧ Holds s (i + 1) l

@[simp] private theorem holds_nil (s : Bytes) (i : Int) : Holds s i [] := trivial

@[simp] theorem holds_cons (s : Bytes) (i : Int) (c : UInt8) (l : List UInt8) :
    Holds s i (c :: l) ↔ s i = c ∧ Holds s (i + 1) l := Iff.rfl

instance Holds.decidable (s : Bytes) : ∀ (i : Int) (l : List UInt8), Decidable (Holds s i l)
  | _, [] => .isTrue trivial
  | i, _ :: l => @instDecidableAnd _ _ _ (Holds.decidable s (i + 1) l)

theorem holds_append (s : Bytes) (i : Int) (l l' : List UInt8) :
    Holds s i (l ++ l') ↔ Holds s i l ∧ Holds s (i + l.length) l' := by
  induction l generalizing i with
  | nil => simp
  | cons c l ih =>
    have hi : i + 1 + (l.length : Int) = i + ((c :: l).length : Int) := by simp; omega
    rw [List.cons_append, holds_cons, ih, holds_cons, hi, and_assoc]

theorem Holds.congr {s s' : Bytes} {i : Int} {l : List UInt8} (h : Holds s i l)
    (heq : ∀ j, i ≤ j → j < i + l.length → s' j = s j) : Holds s' i l := by
  induction l generalizing i with
  | nil => trivial
  | cons c l ih =>
    obtain ⟨hc, hl⟩ := h
    have hlen : i + 1 + (l.length : Int) = i + ((c :: l).length : Int) := by simp; omega
    exact ⟨(heq i (by omega) (by omega)).trans hc, ih hl fun j hj hj' => heq j (by omega) (by omega)⟩

theorem Holds.update {s : Bytes} {i j : Int} {l : List UInt8} (h : Holds s i l) (hj : j < i ∨ i + l.length ≤ j)
    (c : UInt8) : Holds (Function.update s j c) i l :=
  h.congr fun k hk hk' => Function.update_of_ne (by omega) c s

theorem Holds.concat {s : Bytes} {i : Int} {l : List UInt8} (h : Holds s i l) (c : UInt8) :
    Holds (Function.update s (i + l.length) c) i (l ++ [c]) :=
  (holds_append ..).mpr ⟨h.update (.inr (Int.le_refl _)) c, Function.update_self .., trivial⟩

theorem holds_shift (s : Bytes) (d i : Int) (l : List UInt8) : Holds (fun j => s (j + d)) i l ↔ Holds s (i + d) l := by
  induction l generalizing i with
  | nil => rfl
  | cons c l ih =>
    rw [holds_cons, holds_cons, ih, show i + 1 + d = i + d + 1 by omega]

theorem holds_memcpy {dest src : Bytes} {count : BitVec 32} {l : List UInt8} (i : Int) (h : Holds src 0 l)
    (hcount : count.toNat = l.length) : Holds (memcpy dest i src count) i l := by
  have hsrc : Holds (fun j => src (j + -i)) i l := by rwa [holds_shift, Int.add_right_neg]
  exact hsrc.congr fun j hj hj' => if_pos ⟨hj, by omega⟩

theorem Holds.memcpy {dest src : Bytes} {count : BitVec 32} {i j : Int} {l : List UInt8} (h : Holds dest i l)
    (hj : i + l.length ≤ j) : Holds (memcpy dest j src count) i l :=
  h.congr fun _ _ hk => if_neg (by omega)

/-- A scan ends at the first byte that it looks for. -/
theorem skip_eq {p : Int → Bool} {n d : Nat} {i : Int} (hp : ∀ j, i ≤ j → j < i + d → p j = true)
    (hstop : p (i + d) = false) (hn : d < n) : skip p n i = some (i + d) := by
  induction d generalizing i n with
  | zero =>
    obtain _ | n := n
    · omega
    rw [Int.natCast_zero, Int.add_zero] at hstop ⊢
    rw [skip, if_neg (by simp [hstop])]
  | succ d ih =>
    obtain _ | n := n
    · omega
    have hi : i + ((d + 1 : Nat) : Int) = i + 1 + d := by omega
    rw [hi] at hstop ⊢
    rw [skip, if_pos (hp i (by omega) (by omega))]
    exact ih (fun j hj hj' => hp j (by omega) (by omega)) hstop (by omega)

theorem le_of_skip {p : Int → Bool} {n : Nat} {i j : Int} (h : skip p n i = some j) : i ≤ j := by
  induction n generalizing i with
  | zero => cases h
  | succ n ih =>
    rw [skip] at h
    split at h
    · have := ih h
      omega
    · cases h
      exact Int.le_refl _

theorem Holds.mem {s : Bytes} {i j : Int} {l : List UInt8} (h : Holds s i l) (hj : i ≤ j) (hj' : j < i + l.length) :
    s j ∈ l := by
  induction l generalizing i with
  | nil =>
    simp at hj'
    omega
  | cons c l ih =>
    rw [length_cons] at hj'
    by_cases hij : j = i
    · rw [hij, h.1]
      exact mem_cons_self
    · exact mem_cons_of_mem c (ih h.2 (by omega) (by omega))

theorem Holds.range {s : Bytes} {i : Int} {l : List UInt8} (h : Holds s i l) :
    (List.range l.length).map (fun k : Nat => s (i + k)) = l := by
  induction l generalizing i with
  | nil => rfl
  | cons c l ih =>
    rw [length_cons, range_succ_eq_map, map_cons, List.map_map]
    congr 1
    · simpa using h.1
    · refine Eq.trans (map_congr_left fun k _ => ?_) (ih h.2)
      exact congrArg s (by omega)

private theorem skip_bytes {q : UInt8 → Bool} {s : Bytes} {i : Int} {l : List UInt8} (h : Holds s i l)
    (hq : ∀ c ∈ l, q c = true) (hstop : q (s (i + l.length)) = false) (hl : l.length < addrs) :
    skip (fun j => q (s j)) addrs i = some (i + l.length) :=
  skip_eq (fun j hj hj' => hq (s j) (h.mem hj hj')) hstop hl

/-- `strlen` counts the bytes before the NUL. -/
theorem strlen_eq {s : Bytes} {i : Int} {l : List UInt8} (h : Holds s i (l ++ [0])) (h0 : 0 ∉ l)
    (hl : l.length < addrs) : strlen s i = some (ofNat 32 l.length) := by
  rw [holds_append] at h
  have hskip : skip (fun j => s j ≠ 0) addrs i = some (i + l.length) :=
    @skip_bytes (fun c => c ≠ 0) s i l h.1 (fun c hc => by simpa using fun h : c = 0 => h0 (h ▸ hc))
      (by simpa using h.2.1) hl
  rw [strlen, hskip, map_some, Int.add_comm, Int.add_sub_cancel, BitVec.ofInt_natCast]

private theorem skip_equal {s t : Bytes} {src dst : Int} {n : Nat} {i : Int} {a b : List UInt8}
    (hs : Holds s i (a ++ [0])) (ht : Holds t (dst + (i - src)) (b ++ [0])) (ha : 0 ∉ a) (hlen : a.length = b.length)
    (hn : a.length < n) :
    ∃ k, skip (fun i => s i ≠ 0 && s i == t (dst + (i - src))) n i = some k ∧ (s k = 0 ↔ a = b) := by
  induction a generalizing i b n with
  | nil =>
    obtain rfl : b = [] := length_eq_zero_iff.mp hlen.symm
    obtain _ | n := n
    · omega
    refine ⟨i, ?_, by simp [hs.1]⟩
    rw [skip, if_neg (by simp [hs.1])]
  | cons x a ih =>
    obtain ⟨y, b, rfl⟩ : ∃ y b', b = y :: b' := exists_cons_of_length_eq_add_one hlen.symm
    obtain _ | n := n
    · omega
    rw [mem_cons, not_or] at ha
    have hx : x ≠ 0 := fun h => ha.1 h.symm
    by_cases hxy : x = y
    · subst hxy
      have ht' : Holds t (dst + (i + 1 - src)) (b ++ [0]) := by
        rw [show dst + (i + 1 - src) = dst + (i - src) + 1 by omega]
        exact ht.2
      obtain ⟨k, hk, heq⟩ := ih hs.2 ht' ha.2 (by simpa using hlen) (by simpa using hn)
      refine ⟨k, ?_, by simpa using heq⟩
      rw [skip, if_pos (by simp [hs.1, ht.1, hx])]
      exact hk
    · refine ⟨i, ?_, by simp [hs.1, hx, hxy]⟩
      rw [skip, if_neg (by simp [hs.1, ht.1, hxy])]

/-- `str_equal` compares two strings. -/
theorem strEqual_eq {s t : Bytes} {i j : Int} {a b : List UInt8} (hs : Holds s i (a ++ [0])) (ht : Holds t j (b ++ [0]))
    (ha : 0 ∉ a) (hb : 0 ∉ b) (hal : a.length < 2 ^ 32) (hbl : b.length < 2 ^ 32) :
    strEqual s i t j = some (decide (a = b)) := by
  have hla : a.length < addrs := Nat.lt_trans hal (by decide)
  have hlb : b.length < addrs := Nat.lt_trans hbl (by decide)
  have heq : ofNat 32 a.length = ofNat 32 b.length ↔ a.length = b.length := by
    rw [← BitVec.toNat_inj, BitVec.toNat_ofNat, BitVec.toNat_ofNat, Nat.mod_eq_of_lt hal, Nat.mod_eq_of_lt hbl]
  by_cases hlen : a.length = b.length
  · obtain ⟨k, hk, hiff⟩ := @skip_equal s t i j addrs i a b hs (by rwa [Int.sub_self, Int.add_zero]) ha hlen hla
    simp only [strEqual, strlen_eq hs ha hla, strlen_eq ht hb hlb, bind_eq_bind, bind_some,
      if_neg (not_not_intro (heq.mpr hlen)), hk]
    simp [← hiff]
    rfl
  · have hab : a ≠ b := fun h => hlen (congrArg List.length h)
    simp only [strEqual, strlen_eq hs ha hla, strlen_eq ht hb hlb, bind_eq_bind, bind_some,
      if_pos (fun h => hlen (heq.mp h)), decide_eq_false hab]
    rfl

/-- `strncmp` looks whether one string begins with the other. -/
theorem strncmp_eq {s t : Bytes} {i : Int} {a b : List UInt8} (hs : Holds s i a) (ht : Holds t i (b ++ [0]))
    (ha : 0 ∉ a) : strncmp s t a.length i = decide (a <+: b) := by
  induction a generalizing i b with
  | nil => simp [strncmp]
  | cons x a ih =>
    rw [mem_cons, not_or] at ha
    rw [length_cons, strncmp, hs.1]
    cases b with
    | nil =>
      rw [ht.1, if_neg fun h => ha.1 h.symm]
      simp
    | cons y b =>
      rw [ht.1]
      by_cases hxy : x = y
      · rw [ih hs.2 ht.2 ha.2]
        simp [cons_prefix_cons, hxy]
      · simp [cons_prefix_cons, hxy]

def ofText (l : List UInt8) : Bytes := fun i => if i < 0 then 0 else l.getD i.toNat 0

section Strtok

variable {s : Bytes} (last : Option Int) {i : Int} {delim gap word : List UInt8} {c : UInt8}

private theorem skip_gap (hs : Holds s i (gap ++ [c])) (hgap : ∀ d ∈ gap, d ∈ delim) (hc : c ∉ delim)
    (hlen : gap.length < addrs) : skip (fun j => s j ∈ delim) addrs i = some (i + gap.length) := by
  rw [holds_append] at hs
  refine @skip_bytes (fun d => d ∈ delim) s i gap hs.1 (fun d hd => by simpa using hgap d hd) ?_ hlen
  rw [hs.2.1]
  simpa using hc

/-- `strtok` finds no word in spaces. -/
theorem strtok_gap (hs : Holds s i (gap ++ [0])) (hgap : ∀ d ∈ gap, d ∈ delim) (hdelim : 0 ∉ delim)
    (hlen : gap.length < addrs) : strtok s last (some i) delim = some ⟨s, none, none⟩ := by
  have h0 := ((holds_append s i gap [0]).mp hs).2.1
  simp [strtok, skip_gap hs hgap hdelim hlen, h0]

/-- `strtok` skips the spaces before a word and puts a NUL behind it. -/
theorem strtok_word (hs : Holds s i (gap ++ word ++ [c])) (hgap : ∀ d ∈ gap, d ∈ delim) (hne : word ≠ [])
    (hword : ∀ d ∈ word, d ≠ 0 ∧ d ∉ delim) (hc : c = 0 ∨ c ∈ delim) (hlen : gap.length + word.length < addrs) :
    ∃ last', strtok s last (some i) delim
      = some ⟨Function.update s (i + gap.length + word.length) 0, some (i + gap.length), last'⟩ := by
  obtain ⟨d, word, rfl⟩ := exists_cons_of_ne_nil hne
  obtain ⟨hd0, hd⟩ := hword d (by simp)
  rw [List.append_assoc, holds_append, List.cons_append, holds_cons, holds_append] at hs
  obtain ⟨hgaps, hfirst, hrest, hend, -⟩ := hs
  have hstop : i + gap.length + 1 + (word.length : Int) = i + gap.length + ((d :: word).length : Int) := by
    simp only [length_cons]
    omega
  have h1 : skip (fun j => s j ∈ delim) addrs i = some (i + gap.length) :=
    skip_gap ((holds_append ..).mpr ⟨hgaps, hfirst, trivial⟩) hgap hd (by omega)
  have h2 : skip (fun j => s j ≠ 0 && s j ∉ delim) addrs (i + gap.length + 1) =
      some (i + gap.length + 1 + word.length) := by
    refine @skip_bytes (fun e => e ≠ 0 && e ∉ delim) s _ word hrest (fun e he => ?_) ?_ (by omega)
    · simpa using hword e (by simp [he])
    · rw [hend]
      simpa [or_iff_not_imp_left] using hc
  rw [hstop] at h2 hend
  have h0 : s (i + gap.length) ≠ 0 := hfirst ▸ hd0
  by_cases hc0 : c = 0
  · -- The string ends here, and nothing is written.
    have hsame : Function.update s (i + gap.length + ((d :: word).length : Int)) 0 = s := by
      rw [← hc0, ← hend, Function.update_eq_self]
    refine ⟨none, ?_⟩
    simp only [strtok, some_or, h1, h2, bind_eq_bind, bind_some, if_neg h0, if_pos (hend.trans hc0), hsame]
    rfl
  · refine ⟨some (i + gap.length + ((d :: word).length : Int) + 1), ?_⟩
    simp only [strtok, some_or, h1, h2, bind_eq_bind, bind_some, if_neg h0, if_neg (hend ▸ hc0)]
    rfl

end Strtok

end Adix.Shell
