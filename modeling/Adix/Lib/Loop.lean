import Mathlib.Data.List.Basic

/-!
# Loops that are left at the first failure

`forEach` runs a body over a list of indices; the body returns a state and a code, and the loop is left when the code is
`bad`.
-/

namespace Adix.Loop

variable {ι σ ρ : Type} [DecidableEq ρ]

/-- Run `body` over the indices and return `ok`, or leave the loop with `bad`. -/
def forEach (bad ok : ρ) (body : ι → σ → σ × ρ) : List ι → σ → σ × ρ
  | [], s => (s, ok)
  | i :: is, s =>
    let (s, r) := body i s
    if r = bad then (s, bad) else forEach bad ok body is s

variable {bad ok r : ρ} {body : ι → σ → σ × ρ} {l : List ι} {s s' : σ}

/-- The rule for a loop that did not fail; `P done s` speaks of the indices done so far. -/
theorem forEach_invariant {P : List ι → σ → Prop}
    (step : ∀ done i rest s s' r, l = done ++ i :: rest → P done s → body i s = (s', r) → r ≠ bad → P (done ++ [i]) s')
    (h0 : P [] s) (hrun : forEach bad ok body l s = (s', r)) (hr : r ≠ bad) : P l s' := by
  suffices h : ∀ rest done s, l = done ++ rest → P done s → forEach bad ok body rest s = (s', r) → P l s' from
    h l [] s rfl h0 hrun
  intro rest
  induction rest with
  | nil =>
    intro done s hl hP hrun
    cases hrun
    rw [hl, List.append_nil]
    exact hP
  | cons i rest ih =>
    intro done s hl hP hrun
    unfold forEach at hrun
    rcases hb : body i s with ⟨s1, r1⟩
    rw [hb] at hrun
    dsimp only at hrun
    by_cases hbad : r1 = bad
    · rw [if_pos hbad] at hrun
      exact absurd (Prod.mk.inj hrun).2.symm hr
    · rw [if_neg hbad] at hrun
      exact ih (done ++ [i]) s1 (by rw [hl, List.append_assoc]; rfl) (step done i rest s s1 r1 hl hP hb hbad) hrun

end Adix.Loop
