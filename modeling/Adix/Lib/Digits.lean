import Mathlib.Data.Nat.Digits.Defs
import Mathlib.Data.List.Basic

/-!
# Numerals

`Nat.toDigits b n` is the numeral of `n` in base `b`, without leading zeros.
-/

namespace Adix

open List

variable {b n : Nat}

/-- Induction over the digits, the last one taken off first. -/
theorem toDigits_rec (hb : 1 < b) {P : Nat → List Char → Prop} (one : ∀ c < b, P c [c.digitChar])
    (snoc : ∀ n l, ∀ c < b, P n l → P (b * n + c) (l ++ [c.digitChar])) (n : Nat) : P n (b.toDigits n) := by
  induction n using Nat.strongRecOn with
  | _ n ih =>
    rw [Nat.toDigits_eq_if hb]
    split
    · next hn => exact one n hn
    · next hn =>
      have hstep := snoc (n / b) _ (n % b) (Nat.mod_lt n (by omega)) (ih (n / b) (Nat.div_lt_self (by omega) hb))
      rwa [Nat.div_add_mod] at hstep

theorem exists_of_mem_toDigits (hb : 1 < b) {c : Char} (h : c ∈ b.toDigits n) : ∃ k < b, c = k.digitChar := by
  refine toDigits_rec (P := fun _ l => ∀ c ∈ l, ∃ k < b, c = k.digitChar) hb ?_ ?_ n c h
  · intro k hk c hc
    exact ⟨k, hk, mem_singleton.1 hc⟩
  · intro n l k hk ih c hc
    rcases mem_append.1 hc with hc | hc
    · exact ih c hc
    · exact ⟨k, hk, mem_singleton.1 hc⟩

/-- The last `j` digits of `n`, with zeros in front. -/
def places (b j n : Nat) : List Nat := (List.range j).reverse.map fun i => n / b ^ i % b

private theorem places_succ (j n : Nat) : places b (j + 1) n = places b j (n / b) ++ [n % b] := by
  unfold places
  rw [range_succ_eq_map, reverse_cons, map_append, ← map_reverse, List.map_map]
  congr 1
  · apply map_congr_left
    intro i _
    show n / b ^ (i + 1) % b = n / b / b ^ i % b
    rw [Nat.pow_succ, Nat.mul_comm, Nat.div_div_eq_div_mul]
  · simp

/-- A fixed number of digits, without the zeros in front, is the numeral. -/
theorem dropWhile_places (hb : 1 < b) {j : Nat} (hn : n < b ^ j) :
    ((places b j n).dropWhile (· = 0)).map Nat.digitChar = if n = 0 then [] else b.toDigits n := by
  induction j generalizing n with
  | zero =>
    rw [if_pos (by simpa using hn)]
    rfl
  | succ j ih =>
    have hdiv : n / b < b ^ j := by
      rw [Nat.div_lt_iff_lt_mul (by omega)]
      rwa [Nat.pow_succ] at hn
    have ih := ih hdiv
    rw [places_succ, dropWhile_append]
    by_cases hlt : n < b
    · -- the last digit is the only one
      rw [Nat.div_eq_of_lt hlt, if_pos rfl, map_eq_nil_iff] at ih
      rw [Nat.div_eq_of_lt hlt, ih, if_pos isEmpty_nil, Nat.mod_eq_of_lt hlt]
      by_cases h0 : n = 0
      · simp [h0]
      · simp [h0, Nat.toDigits_of_lt_base hlt]
    · have hpos : n / b ≠ 0 := by
        rw [Ne, Nat.div_eq_zero_iff]
        omega
      rw [if_neg hpos] at ih
      have hne : (places b j (n / b)).dropWhile (· = 0) ≠ [] := by
        intro h
        rw [h] at ih
        exact absurd (congrArg List.length ih) (Nat.ne_of_lt Nat.length_toDigits_pos)
      have hdigits : b.toDigits n = b.toDigits (n / b) ++ [(n % b).digitChar] := by
        rw [Nat.toDigits_eq_if hb, if_neg hlt]
      rw [if_neg (by simpa using hne), map_append, ih, if_neg (by omega), hdigits, map_singleton]

end Adix
