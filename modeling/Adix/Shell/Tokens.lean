import Mathlib.Data.List.TakeWhile
import Adix.Shell.Strings

/-!
# The words of a command (`parse_shell_command_args` of `bin/adsh/adix_shell.c`)

The loop around `strtok` goes on from the place where it has called it, by the length of the word and one byte more;
skipped spaces are not counted. So after a word with one space before it the loop ends, and where no word follows, the
length of the string at `NULL` is asked for.
-/

namespace Adix.Shell

open List Option Function
open List (replicate append_assoc cons_append)

def space : UInt8 := ' '.toUInt8

def DELIM : List UInt8 := [space]

/-- The loop of `parse_shell_command_args`: the pointers that are stored, and the bytes afterwards. -/
def parseLoop : Nat → Option Int → Bytes → Int → Option (List Int × Bytes)
  | 0, _, _, _ => none
  | n + 1, last, s, buffer =>
    if s buffer = 0 then some ([], s) else do
      let t ← strtok s last (some buffer) DELIM
      let tok ← t.tok
      let len ← strlen t.mem tok
      let r ← parseLoop n t.last t.mem (buffer + (len + 1).toInt)
      return (tok :: r.1, r.2)

/-- What `parse_shell_command_args` leaves behind. -/
structure Parsed where
  /-- The array, a `NULL` included. -/
  childArgv : List (Option Int)
  /-- The return value. -/
  count : Nat
  mem : Bytes

def parseShellCommandArgs (n : Nat) (last : Option Int) (s : Bytes) (buffer : Int) : Option Parsed :=
  (parseLoop n last s buffer).map fun r => ⟨r.1.map some ++ [none], r.1.length, r.2⟩

/-- The positions of a text where a character other than a space follows a space, the text being preceded by `c`. -/
def startsAfter (c : UInt8) (l : List UInt8) : List Nat :=
  (List.range l.length).filter fun i => l[i]? ≠ some space ∧ (c :: l)[i]? = some space

/-- The positions where the maximal runs of characters other than spaces begin. -/
def wordStarts (l : List UInt8) : List Nat := startsAfter space l

def wordAt (l : List UInt8) (i : Nat) : List UInt8 := (l.drop i).takeWhile fun c => c ≠ space

/-- The array holds a pointer to each of the runs in order and then `NULL`, the number is that of the runs, and a NUL
follows each run. -/
structure Tokenised (text : List UInt8) (p : Parsed) : Prop where
  argv : p.childArgv = (wordStarts text).map (fun i : Nat => some (i : Int)) ++ [none]
  count : p.count = (wordStarts text).length
  words : ∀ i ∈ wordStarts text, Holds p.mem i (wordAt text i ++ [0])

structure Word (w : List UInt8) : Prop where
  ne_nil : w ≠ []
  ne_space : ∀ c ∈ w, c ≠ space

variable {l tail : List UInt8} {s' : Bytes}

private theorem startsAfter_cons (c d : UInt8) (l : List UInt8) :
    startsAfter c (d :: l) = (if d ≠ space ∧ c = space then [0] else []) ++ (startsAfter d l).map Nat.succ := by
  unfold startsAfter
  rw [length_cons, range_succ_eq_map, filter_cons, List.filter_map]
  simp only [getElem?_cons_zero, comp_def, getElem?_cons_succ, some.injEq, ne_eq, decide_eq_true_eq]
  split <;> rfl

private theorem startsAfter_word {c : UInt8} (hc : c ≠ space) {w : List UInt8} (hw : ∀ d ∈ w, d ≠ space) :
    startsAfter c w = [] := by
  induction w generalizing c with
  | nil => rfl
  | cons d w ih =>
    rw [startsAfter_cons, if_neg (fun h => hc h.2), ih (hw d (by simp)) fun e he => hw e (by simp [he])]
    rfl

private theorem startsAfter_word_space {c : UInt8} (hc : c ≠ space) {w : List UInt8} (hw : ∀ d ∈ w, d ≠ space)
    (l : List UInt8) : startsAfter c (w ++ space :: l) = (wordStarts l).map (w.length + 1 + ·) := by
  induction w generalizing c with
  | nil =>
    rw [nil_append, startsAfter_cons]
    exact map_congr_left fun i _ => by simp; omega
  | cons d w ih =>
    rw [cons_append, startsAfter_cons, if_neg (fun h => hc h.2), ih (hw d (by simp)) (fun e he => hw e (by simp [he])),
      List.map_map]
    exact map_congr_left fun i _ => by simp; omega

private theorem wordStarts_space (l : List UInt8) : wordStarts (space :: l) = (wordStarts l).map (1 + ·) := by
  rw [wordStarts, startsAfter_cons]
  exact map_congr_left fun i _ => by omega

private theorem wordStarts_spaces (k : Nat) (l : List UInt8) :
    wordStarts (replicate k space ++ l) = (wordStarts l).map (k + ·) := by
  induction k with
  | zero => simp
  | succ k ih =>
    rw [List.replicate_succ, cons_append, wordStarts_space, ih, List.map_map]
    exact map_congr_left fun i _ => by simp; omega

private theorem wordStarts_word {w : List UInt8} (hw : Word w) : wordStarts w = [0] := by
  obtain ⟨c, w, rfl⟩ := exists_cons_of_ne_nil hw.ne_nil
  have hc := hw.ne_space c (by simp)
  rw [wordStarts, startsAfter_cons, if_pos ⟨hc, rfl⟩, startsAfter_word hc fun d hd => hw.ne_space d (by simp [hd])]
  rfl

private theorem wordStarts_word_space {w : List UInt8} (hw : Word w) (l : List UInt8) :
    wordStarts (w ++ space :: l) = 0 :: (wordStarts l).map (w.length + 1 + ·) := by
  obtain ⟨c, w, rfl⟩ := exists_cons_of_ne_nil hw.ne_nil
  have hc := hw.ne_space c (by simp)
  rw [cons_append, wordStarts, startsAfter_cons, if_pos ⟨hc, rfl⟩,
    startsAfter_word_space hc (fun d hd => hw.ne_space d (by simp [hd])), List.map_map, singleton_append]
  congr 1
  exact map_congr_left fun i _ => by simp; omega

def pointers (i : Int) (l : List UInt8) : List Int := (wordStarts l).map fun j : Nat => i + j

private theorem pointers_spaces (i : Int) (k : Nat) (l : List UInt8) :
    pointers i (replicate k space ++ l) = pointers (i + k) l := by
  rw [pointers, wordStarts_spaces, List.map_map]
  exact map_congr_left fun j _ => by simp; omega

private theorem pointers_space (i : Int) (l : List UInt8) : pointers i (space :: l) = pointers (i + 1) l :=
  pointers_spaces i 1 l

private theorem pointers_word (i : Int) {w : List UInt8} (hw : Word w) : pointers i w = [i] := by
  simp [pointers, wordStarts_word hw]

private theorem pointers_word_space (i : Int) {w : List UInt8} (hw : Word w) (l : List UInt8) :
    pointers i (w ++ space :: l) = i :: pointers (i + (w.length + 1)) l := by
  rw [pointers, wordStarts_word_space hw, map_cons, List.map_map, Int.natCast_zero, Int.add_zero]
  congr 1
  exact map_congr_left fun j _ => by simp; omega

def Ends (tail : List UInt8) : Prop := tail = [] ∨ ∃ rest, tail = space :: rest

private theorem Ends.next (h : Ends tail) (l : List UInt8) : ∃ c t, tail ++ 0 :: l = c :: t ∧ (c = 0 ∨ c = space) := by
  obtain rfl | ⟨rest, rfl⟩ := h
  · exact ⟨0, l, rfl, .inl rfl⟩
  · exact ⟨space, rest ++ 0 :: l, rfl, .inr rfl⟩

private theorem ends_spaces (k : Nat) : Ends (replicate k space) := by
  cases k with
  | zero => exact .inl rfl
  | succ k => exact .inr ⟨_, rfl⟩

private theorem pointers_word_append (i : Int) {w : List UInt8} (hw : Word w) (htail : Ends tail) :
    pointers i (w ++ tail) = i :: pointers (i + w.length) tail := by
  obtain rfl | ⟨rest, rfl⟩ := htail
  · rw [append_nil, pointers_word i hw]
    rfl
  · rw [pointers_word_space i hw, pointers_space, Int.add_assoc]

private theorem exists_split (l : List UInt8) : ∃ k, l = replicate k space ∨
    ∃ w tail, Word w ∧ Ends tail ∧ l = replicate k space ++ w ++ tail := by
  induction l with
  | nil => exact ⟨0, .inl rfl⟩
  | cons c l ih =>
    obtain ⟨k, ih⟩ := ih
    by_cases hc : c = space
    · subst hc
      refine ⟨k + 1, ih.imp (fun h => by rw [h]; rfl) ?_⟩
      rintro ⟨w, tail, hw, htail, rfl⟩
      exact ⟨w, tail, hw, htail, rfl⟩
    · refine ⟨0, .inr ?_⟩
      have hone : Word [c] := ⟨by simp, by simpa using hc⟩
      cases k with
      | zero =>
        rcases ih with rfl | ⟨w, tail, hw, htail, rfl⟩
        · exact ⟨[c], [], hone, .inl rfl, rfl⟩
        · refine ⟨c :: w, tail, ⟨by simp, fun d hd => ?_⟩, htail, rfl⟩
          exact (mem_cons.mp hd).elim (fun h => h ▸ hc) (hw.ne_space d)
      | succ k =>
        -- The text behind `c` begins with a space.
        refine ⟨[c], l, hone, .inr ?_, rfl⟩
        rcases ih with rfl | ⟨w, tail, -, -, rfl⟩ <;> exact ⟨_, rfl⟩

section Steps

variable {s : Bytes} {last : Option Int} {i : Int} {w : List UInt8} {c : UInt8} {k n : Nat}

private theorem parseLoop_nul (h : s i = 0) (n : Nat) : parseLoop (n + 1) last s i = some ([], s) := by
  rw [parseLoop, if_pos h]

private theorem ne_zero_of_holds (hs : Holds s i l) (hne : l ≠ []) (h0 : 0 ∉ l) : s i ≠ 0 := by
  obtain ⟨d, l, rfl⟩ := exists_cons_of_ne_nil hne
  exact fun h => h0 (by rw [← h, hs.1]; simp)

private theorem zero_notMem_spaces (k : Nat) : (0 : UInt8) ∉ replicate k space :=
  fun h => absurd (eq_of_mem_replicate h) (by decide)

private theorem mem_DELIM : c ∈ DELIM ↔ c = space := mem_singleton

private theorem mem_DELIM_of_mem (k : Nat) : ∀ d ∈ replicate k space, d ∈ DELIM :=
  fun _ hd => mem_DELIM.mpr (eq_of_mem_replicate hd)

private theorem parseLoop_spaces (hs : Holds s i (replicate (k + 1) space ++ [0])) (hk : k + 1 < addrs) :
    parseLoop n last s i = none := by
  cases n with
  | zero => rfl
  | succ n =>
    have hne : s i ≠ 0 := ne_zero_of_holds ((holds_append ..).mp hs).1 (by simp) (zero_notMem_spaces (k + 1))
    have hgap : strtok s last (some i) DELIM = some ⟨s, none, none⟩ :=
      strtok_gap last hs (mem_DELIM_of_mem (k + 1)) (by decide) (by simpa using hk)
    rw [parseLoop, if_neg hne, hgap]
    rfl

private theorem parseLoop_word (hs : Holds s i (replicate k space ++ w ++ [c])) (hw : Word w) (h0 : 0 ∉ w)
    (hc : c = 0 ∨ c = space) (hk : k < 2 ^ 31) (hlen : w.length + 1 < 2 ^ 31) :
    ∃ last', ∀ n, parseLoop (n + 1) last s i =
        (parseLoop n last' (update s (i + k + w.length) 0) (i + (w.length + 1))).map fun r =>
          ((i + k) :: r.1, r.2) := by
  obtain ⟨last', htok⟩ :
      ∃ last', strtok s last (some i) DELIM = some ⟨update s (i + k + w.length) 0, some (i + k), last'⟩ := by
    have hword : ∀ d ∈ w, d ≠ 0 ∧ d ∉ DELIM := fun d hd =>
      ⟨fun h => h0 (h ▸ hd), fun h => hw.ne_space d hd (mem_DELIM.mp h)⟩
    have h := strtok_word last hs (mem_DELIM_of_mem k) hw.ne_nil hword (hc.imp id mem_DELIM.mpr)
      (by rw [length_replicate]; unfold addrs; omega)
    simpa only [length_replicate] using h
  rw [holds_append, holds_append, length_replicate] at hs
  obtain ⟨⟨hgap, hword⟩, -⟩ := hs
  have hne : s i ≠ 0 := by
    refine ne_zero_of_holds ((holds_append s i (replicate k space) w).mpr ⟨hgap, by simpa using hword⟩) ?_ ?_
    · simp [hw.ne_nil]
    · simp only [mem_append, not_or]
      exact ⟨zero_notMem_spaces k, h0⟩
  have hstr : strlen (update s (i + k + w.length) 0) (i + k) = some (BitVec.ofNat 32 w.length) :=
    strlen_eq (hword.concat 0) h0 (by unfold addrs; omega)
  refine ⟨last', fun n => ?_⟩
  rw [parseLoop, if_neg hne, htok]
  simp only [bind_eq_bind, bind_some, hstr, ofNat_add_one, toInt_ofNat hlen, Int.natCast_add, Int.natCast_one]
  cases parseLoop n last' (update s (i + k + w.length) 0) (i + (w.length + 1)) <;> rfl

private theorem parseLoop_word_here (hs : Holds s i (w ++ [c])) (hw : Word w) (h0 : 0 ∉ w) (hc : c = 0 ∨ c = space)
    (hlen : w.length + 1 < 2 ^ 31) : ∃ last', ∀ n, parseLoop (n + 1) last s i =
      (parseLoop n last' (update s (i + w.length) 0) (i + (w.length + 1))).map fun r => (i :: r.1, r.2) := by
  have h := @parseLoop_word s last i w c 0 hs hw h0 hc (by decide) hlen
  rwa [Int.natCast_zero, Int.add_zero] at h

private theorem update_end : update s (i + (1 : Nat) + w.length) 0 (i + (w.length + 1)) = 0 := by
  rw [show i + ((w.length : Int) + 1) = i + (1 : Nat) + w.length by omega, update_self]

end Steps

/-- Each word but the last is followed by one space; or there is one word, with one space before it. -/
inductive Spaced : List UInt8 → Prop
  | nil : Spaced []
  | last {w : List UInt8} (hw : Word w) : Spaced w
  | word {w rest : List UInt8} (hw : Word w) (hrest : Spaced rest) : Spaced (w ++ space :: rest)
  | gap {w : List UInt8} (hw : Word w) (k : Nat) : Spaced (space :: w ++ replicate k space)

private theorem wordAt_append (l l' : List UInt8) (i : Nat) : wordAt (l ++ l') (l.length + i) = wordAt l' i := by
  rw [wordAt, drop_length_add_append, wordAt]

private theorem wordAt_word {w : List UInt8} (hw : Word w) : wordAt w 0 = w := by
  rw [wordAt, drop_zero, takeWhile_eq_self_iff]
  exact fun c hc => by simpa using hw.ne_space c hc

private theorem wordAt_word_space {w : List UInt8} (hw : Word w) (l : List UInt8) : wordAt (w ++ space :: l) 0 = w := by
  rw [wordAt, drop_zero, takeWhile_append_of_pos fun c hc => by simpa using hw.ne_space c hc]
  simp

private theorem wordStarts_word_spaces {w : List UInt8} (hw : Word w) (k : Nat) :
    wordStarts (w ++ replicate k space) = [0] ∧ wordAt (w ++ replicate k space) 0 = w := by
  cases k with
  | zero =>
    rw [List.replicate_zero, append_nil]
    exact ⟨wordStarts_word hw, wordAt_word hw⟩
  | succ k =>
    have hnone := wordStarts_spaces k []
    rw [append_nil] at hnone
    rw [List.replicate_succ, wordStarts_word_space hw, hnone]
    exact ⟨rfl, wordAt_word_space hw _⟩

private theorem Spaced.parseLoop (hl : Spaced l) (h0 : 0 ∉ l) (hlen : l.length + 1 < 2 ^ 31) (s : Bytes)
    (last : Option Int) (i : Int) (hs : Holds s i (l ++ [0, 0])) :
    ∃ n s', Shell.parseLoop n last s i = some (pointers i l, s') ∧
      (∀ j ∈ wordStarts l, Holds s' (i + (j : Int)) (wordAt l j ++ [0])) ∧ ∀ j < i, s' j = s j := by
  induction hl generalizing s last i with
  | nil => exact ⟨1, s, parseLoop_nul hs.1 0, by simp [wordStarts, startsAfter], fun j _ => rfl⟩
  | @last w hw =>
    obtain ⟨hword, hnul, hnul', -⟩ := (holds_append ..).mp hs
    obtain ⟨last', hstep⟩ := @parseLoop_word_here s last i w 0 ((holds_append ..).mpr ⟨hword, hnul, trivial⟩) hw h0
      (.inl rfl) hlen
    have hend : update s (i + w.length) 0 (i + (w.length + 1)) = 0 := by
      rw [update_of_ne (by omega), ← Int.add_assoc]
      exact hnul'
    refine ⟨2, update s (i + w.length) 0, ?_, ?_, fun j hj => ?_⟩
    · rw [hstep, parseLoop_nul hend, pointers_word i hw]
      rfl
    · simpa [wordStarts_word hw, wordAt_word hw] using hword.concat 0
    · exact update_of_ne (by omega) ..
  | @word w rest hw hrest ih =>
    rw [append_assoc, holds_append] at hs
    obtain ⟨hword, hsp, hrests⟩ := hs
    rw [length_append, length_cons] at hlen
    rw [mem_append, mem_cons, not_or, not_or] at h0
    obtain ⟨h0w, -, h0rest⟩ := h0
    obtain ⟨last', hstep⟩ := @parseLoop_word_here s last i w space ((holds_append ..).mpr ⟨hword, hsp, trivial⟩) hw h0w
      (.inr rfl) (by omega)
    have hrests' : Holds (update s (i + w.length) 0) (i + (w.length + 1)) (rest ++ [0, 0]) := by
      rw [← Int.add_assoc]
      exact hrests.update (.inl (by omega)) 0
    obtain ⟨n, s', hrun, hwords, hframe⟩ := ih h0rest (by omega) _ last' _ hrests'
    refine ⟨n + 1, s', ?_, ?_, fun j hj => ?_⟩
    · rw [hstep, hrun, pointers_word_space i hw]
      rfl
    · rw [wordStarts_word_space hw, forall_mem_cons, wordAt_word_space hw, List.forall_mem_map]
      constructor
      · rw [Int.natCast_zero, Int.add_zero]
        exact (hword.concat 0).congr fun j _ hj => hframe j (by simp at hj; omega)
      · intro j hj
        have hat : wordAt (w ++ space :: rest) (w.length + 1 + j) = wordAt rest j := by
          have h := wordAt_append (w ++ [space]) rest j
          rwa [append_assoc, length_append] at h
        have hpos : i + ((w.length + 1 + j : Nat) : Int) = i + (w.length + 1) + j := by omega
        rw [hat, hpos]
        exact hwords j hj
    · rw [hframe j (by omega), update_of_ne (by omega)]
  | @gap w hw k =>
    obtain ⟨hstarts, hat⟩ := wordStarts_word_spaces hw k
    have hstarts' : wordStarts (space :: w ++ replicate k space) = [1] := by
      rw [cons_append, wordStarts_space, hstarts]
      rfl
    obtain ⟨c, t, hct, hc⟩ := (ends_spaces k).next [0]
    rw [append_assoc, hct, cons_append, holds_cons, holds_append] at hs
    obtain ⟨hsp, hword, hnext, -⟩ := hs
    rw [length_append, length_cons] at hlen
    have h0w : 0 ∉ w := fun h => h0 (by simp [h])
    obtain ⟨last', hstep⟩ := @parseLoop_word s last i w c 1
      ⟨hsp, (holds_append ..).mpr ⟨hword, hnext, trivial⟩⟩ hw h0w hc (by decide) (by omega)
    refine ⟨2, update s (i + (1 : Nat) + w.length) 0, ?_, ?_, fun j hj => ?_⟩
    · rw [hstep, parseLoop_nul update_end, pointers, hstarts']
      rfl
    · have hat' : wordAt (space :: w ++ replicate k space) 1 = w := (wordAt_append [space] _ 0).trans hat
      rw [hstarts', forall_mem_singleton, hat']
      exact hword.concat 0
    · exact update_of_ne (by omega) ..

private theorem le_of_mem_pointers {i t : Int} (h : t ∈ pointers i l) : i ≤ t := by
  obtain ⟨j, -, rfl⟩ := List.mem_map.mp h
  omega

private theorem eq_spaces_of_pointers {i : Int} (h : pointers i l = []) : ∃ k, l = replicate k space := by
  obtain ⟨k, rfl | ⟨w, tail, hw, htail, rfl⟩⟩ := exists_split l
  · exact ⟨k, rfl⟩
  · rw [append_assoc, pointers_spaces, pointers_word_append _ hw htail] at h
    cases h

/-- Behind a word with two spaces or more before it the loop finds the rest of these spaces and of the word. -/
private theorem holds_again {s : Bytes} {i : Int} {w : List UInt8} {k : Nat} (hw : Word w)
    (hs : Holds s i (replicate (k + 2) space ++ w ++ [0])) :
    ∃ k' w', Word w' ∧ (∀ c ∈ w', c ∈ w) ∧ k' + w'.length = k + 1 ∧ w'.length ≤ w.length ∧
      Holds s (i + (w.length + 1)) (replicate k' space ++ w' ++ [0]) := by
  by_cases hk : k + 1 ≤ w.length
  · -- The loop is in the word.
    have hlen : (w.drop (w.length - (k + 1))).length = k + 1 := by simp; omega
    refine ⟨0, w.drop (w.length - (k + 1)), ⟨fun h => ?_, fun c hc => hw.ne_space c (mem_of_mem_drop hc)⟩,
      fun c hc => mem_of_mem_drop hc, by omega, by omega, ?_⟩
    · rw [h] at hlen
      simp at hlen
    · rw [append_assoc, holds_append, ← take_append_drop (w.length - (k + 1)) w, append_assoc, holds_append] at hs
      have hpos : i + ((replicate (k + 2) space).length : Int) + ((w.take (w.length - (k + 1))).length : Int)
          = i + (w.length + 1) := by
        simp
        omega
      rw [hpos] at hs
      exact hs.2.2
  · -- The loop is in the spaces.
    refine ⟨k + 1 - w.length, w, hw, fun c hc => hc, by omega, Nat.le_refl _, ?_⟩
    have hsplit : replicate (k + 2) space
        = replicate (w.length + 1) space ++ replicate (k + 1 - w.length) space := by
      rw [replicate_append_replicate]
      congr 1
      omega
    rw [hsplit, append_assoc, append_assoc, holds_append, length_replicate, ← append_assoc] at hs
    exact hs.2

/-- So the next pointer is into the same word. -/
private theorem parseLoop_again {n : Nat} {last : Option Int} {s : Bytes} {i : Int} {w : List UInt8} {k : Nat}
    {argv : List Int} (hw : Word w) (h0 : 0 ∉ w) (hlen : w.length + 1 < 2 ^ 31) (hk : k + 2 < 2 ^ 31)
    (hs : Holds s i (replicate (k + 2) space ++ w ++ [0]))
    (h : parseLoop n last s (i + (w.length + 1)) = some (argv, s')) : ∃ t ∈ argv, t < i + (k + 2 : Nat) + w.length := by
  obtain ⟨k', w', hw', hmem, hsum, hle, hs'⟩ := holds_again hw hs
  cases n with
  | zero => cases h
  | succ n =>
    obtain ⟨last', hstep⟩ := @parseLoop_word s last _ w' 0 k' hs' hw' (fun h => h0 (hmem 0 h)) (.inl rfl) (by omega)
      (by omega)
    rw [hstep, map_eq_some_iff] at h
    obtain ⟨r, -, hr⟩ := h
    have hpos : 0 < w'.length := length_pos_iff.mpr hw'.ne_nil
    refine ⟨i + (w.length + 1) + k', ?_, by omega⟩
    rw [← (Prod.mk.inj hr).1]
    exact mem_cons_self

private theorem spaced_of_parseLoop {n : Nat} {last : Option Int} {s : Bytes} {i : Int}
    (hs : Holds s i (l ++ [0])) (h0 : 0 ∉ l) (hlen : l.length + 1 < 2 ^ 31)
    (h : parseLoop n last s i = some (pointers i l, s')) : Spaced l := by
  induction n generalizing last s i l with
  | zero => cases h
  | succ n ih =>
    obtain ⟨k, rfl | ⟨w, tail, hw, htail, rfl⟩⟩ := exists_split l
    · cases k with
      | zero => exact .nil
      | succ k =>
        rw [parseLoop_spaces hs (by rw [length_replicate] at hlen; unfold addrs; omega)] at h
        cases h
    · obtain ⟨c, t, hct, hc⟩ := htail.next []
      simp only [length_append, length_replicate] at hlen
      simp only [mem_append, not_or] at h0
      obtain ⟨⟨-, h0w⟩, h0tail⟩ := h0
      rw [append_assoc, hct, append_cons, holds_append] at hs
      obtain ⟨last', hstep⟩ := @parseLoop_word s last i w c k hs.1 hw h0w hc (by omega) (by omega)
      rw [hstep, append_assoc, pointers_spaces, pointers_word_append _ hw htail, map_eq_some_iff] at h
      obtain ⟨⟨argv, s1⟩, hrun, hr⟩ := h
      simp only [Prod.mk.injEq, cons.injEq, true_and] at hr
      obtain ⟨rfl, rfl⟩ := hr
      match k with
      | 0 =>
        -- The loop goes on with the rest of the text.
        obtain rfl | ⟨rest, rfl⟩ := htail
        · rw [append_nil]
          exact .last hw
        · simp only [length_cons] at hlen
          obtain ⟨rfl, rfl⟩ := cons.inj hct
          rw [pointers_space, Int.natCast_zero, Int.add_zero, Int.add_assoc] at hrun
          refine .word hw (ih ?_ (fun h => h0tail (by simp [h])) (by omega) hrun)
          have hpos : i + ((replicate 0 space ++ w ++ [space]).length : Int) = i + (w.length + 1) := by simp
          rw [hpos] at hs
          exact hs.2.update (.inl (by omega)) 0
      | 1 =>
        -- The loop has ended, so there are only spaces left.
        cases n with
        | zero => cases hrun
        | succ n =>
          rw [parseLoop_nul update_end, some.injEq, Prod.mk.injEq] at hrun
          obtain ⟨m, rfl⟩ := eq_spaces_of_pointers hrun.1.symm
          exact .gap hw m
      | k + 2 =>
        have hs' := (holds_append ..).mp hs.1
        have hnul : Holds (update s (i + (k + 2 : Nat) + w.length) 0) i (replicate (k + 2) space ++ w ++ [0]) := by
          have hend : i + ((replicate (k + 2) space ++ w).length : Int) = i + (k + 2 : Nat) + w.length := by
            simp
            omega
          rw [← hend]
          exact hs'.1.concat 0
        obtain ⟨t, ht, hlt⟩ := parseLoop_again hw h0w (by omega) (by omega) hnul hrun
        have hge := le_of_mem_pointers ht
        omega

/-- The words of a command are found exactly if the spaces are as in `Spaced`. The bytes behind the command are two
NULs. -/
theorem tokenised_iff_spaced (text : List UInt8) (h0 : 0 ∉ text) (hlen : text.length + 1 < 2 ^ 31) (s : Bytes)
    (hs : Holds s 0 (text ++ [0, 0])) (last : Option Int) :
    (∃ n p, parseShellCommandArgs n last s 0 = some p ∧ Tokenised text p) ↔ Spaced text := by
  constructor
  · rintro ⟨n, p, hp, ht⟩
    obtain ⟨⟨argv, s'⟩, hrun, rfl⟩ := map_eq_some_iff.mp hp
    have hargv : argv.map some = (pointers 0 text).map some := by
      rw [append_cancel_right ht.argv, pointers, List.map_map]
      exact map_congr_left fun j _ => by simp
    rw [(List.map_inj_right fun _ _ h => some.inj h).mp hargv] at hrun
    refine spaced_of_parseLoop ?_ h0 hlen hrun
    rw [append_cons, holds_append] at hs
    exact hs.1
  · intro h
    obtain ⟨n, s', hrun, hwords, -⟩ := h.parseLoop h0 hlen s last 0 hs
    refine ⟨n, _, by rw [parseShellCommandArgs, hrun]; rfl, ?_, ?_, ?_⟩
    · simp [pointers]
    · simp [pointers]
    · simpa using hwords

theorem tokenised_ls : ∃ n p, parseShellCommandArgs n none (ofText ("ls -l".toList.map Char.toUInt8)) 0 = some p ∧
    Tokenised ("ls -l".toList.map Char.toUInt8) p := by
  refine (tokenised_iff_spaced ("ls -l".toList.map Char.toUInt8) (by decide) (by decide) _ (by decide) none).mpr ?_
  have hls : Word ("ls".toList.map Char.toUInt8) := ⟨by decide, by decide +kernel⟩
  have hl : Word ("-l".toList.map Char.toUInt8) := ⟨by decide, by decide +kernel⟩
  exact .word hls (.last hl)

/-- With two spaces behind the first of three words, the third word is lost. -/
theorem two_spaces_lose_word : wordStarts ("a  b c".toList.map Char.toUInt8) = [0, 3, 5] ∧
    ∃ n p, parseShellCommandArgs n none (ofText ("a  b c".toList.map Char.toUInt8)) 0 = some p ∧
      p.childArgv = [some 0, some 3, none] ∧ p.count = 2 := by
  refine ⟨by decide, 3, ?_⟩
  have hrun : (parseShellCommandArgs 3 none (ofText ("a  b c".toList.map Char.toUInt8)) 0).map
      (fun p => (p.childArgv, p.count)) = some ([some 0, some 3, none], 2) := by
    decide +kernel
  obtain ⟨p, hp, hargv⟩ := map_eq_some_iff.mp hrun
  exact ⟨p, hp, (Prod.mk.inj hargv).1, (Prod.mk.inj hargv).2⟩

end Adix.Shell
