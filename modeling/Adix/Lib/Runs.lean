import Mathlib.Logic.Basic

/-!
# Runs of a step function

`run step s as` takes the actions `as` from `s` one after the other; it fails when one of them does.
-/

namespace Adix

open Option

variable {σ α : Type} {pre : σ → α → Prop} {s s' : σ} {as bs : List α} {Inv : σ → Prop} {step : σ → α → Option σ}

def run (step : σ → α → Option σ) : σ → List α → Option σ
  | s, [] => some s
  | s, a :: as => (step s a).bind fun s' => run step s' as

/-- Each action of the run meets its precondition in the state in which it is taken. -/
def Permitted (step : σ → α → Option σ) (pre : σ → α → Prop) : σ → List α → Prop
  | _, [] => True
  | s, a :: as => pre s a ∧ ∀ s', step s a = some s' → Permitted step pre s' as

instance decidablePermitted (step : σ → α → Option σ) (pre : σ → α → Prop) [∀ s a, Decidable (pre s a)] :
    ∀ (s : σ) (as : List α), Decidable (Permitted step pre s as)
  | _, [] => .isTrue trivial
  | s, a :: as =>
    match hs : step s a with
    | none => decidable_of_iff (pre s a) ⟨fun h => ⟨h, fun s' h' => by rw [hs] at h'; cases h'⟩, fun h => h.1⟩
    | some s' =>
      have := decidablePermitted step pre s' as
      decidable_of_iff (pre s a ∧ Permitted step pre s' as)
        ⟨fun h => ⟨h.1, fun s'' h' => by rw [hs] at h'; cases h'; exact h.2⟩, fun h => ⟨h.1, h.2 s' hs⟩⟩

theorem Permitted.mono {pre' : σ → α → Prop} (h : ∀ s a, pre s a → pre' s a) (has : Permitted step pre s as) :
    Permitted step pre' s as := by
  induction as generalizing s with
  | nil => trivial
  | cons a as ih => exact ⟨h s a has.1, fun s' hs => ih (has.2 s' hs)⟩

theorem run_append : run step s (as ++ bs) = (run step s as).bind fun s' => run step s' bs := by
  induction as generalizing s with
  | nil => rfl
  | cons a as ih =>
    rw [List.cons_append, run, run]
    cases step s a with
    | none => rfl
    | some s' => exact ih

theorem Permitted.right
    (h : Permitted step pre s (as ++ bs)) (hs : run step s as = some s') : Permitted step pre s' bs := by
  induction as generalizing s with
  | nil =>
    cases hs
    exact h
  | cons a as ih =>
    obtain ⟨s1, h1, h2⟩ := bind_eq_some_iff.1 hs
    exact ih (h.2 s1 h1) h2

theorem Permitted.left (h : Permitted step pre s (as ++ bs)) : Permitted step pre s as := by
  induction as generalizing s with
  | nil => trivial
  | cons a as ih => exact ⟨h.1, fun s' hs => ih (h.2 s' hs)⟩

theorem Permitted.append
    (h : Permitted step pre s as) (hbs : ∀ s', run step s as = some s' → Permitted step pre s' bs) :
    Permitted step pre s (as ++ bs) := by
  induction as generalizing s with
  | nil => exact hbs s rfl
  | cons a as ih => exact ⟨h.1, fun s' hs => ih (h.2 s' hs) fun s'' hs' => hbs s'' (by rw [run, hs]; exact hs')⟩

/-- An invariant that every permitted action keeps, and under which no permitted action fails, holds after every
permitted run. -/
theorem run_invariant (hstep : ∀ s a, Inv s → pre s a → ∃ s', step s a = some s' ∧ Inv s')
    (h0 : Inv s) (has : Permitted step pre s as) : ∃ s', run step s as = some s' ∧ Inv s' := by
  induction as generalizing s with
  | nil => exact ⟨s, rfl, h0⟩
  | cons a as ih =>
    obtain ⟨s1, h1, hi⟩ := hstep s a h0 has.1
    obtain ⟨s2, h2, hi2⟩ := ih hi (has.2 s1 h1)
    exact ⟨s2, by rw [run, h1]; exact h2, hi2⟩

/-- The same for runs that succeed, if actions may fail. -/
theorem run_preserves (hstep : ∀ s a s', Inv s → pre s a → step s a = some s' → Inv s')
    (h0 : Inv s) (has : Permitted step pre s as) (hrun : run step s as = some s') : Inv s' := by
  induction as generalizing s with
  | nil =>
    cases hrun
    exact h0
  | cons a as ih =>
    obtain ⟨s1, h1, h2⟩ := bind_eq_some_iff.1 hrun
    exact ih (hstep s a s1 h0 has.1 h1) (has.2 s1 h1) h2

/-- Two machines that stay related permit the same runs if they permit the same actions in related states. -/
theorem permitted_iff_of_related {τ : Type} {step : σ → α → σ} {step' : τ → α → τ} {pre' : τ → α → Prop}
    {R : σ → τ → Prop} (hpre : ∀ s t a, R s t → (pre s a ↔ pre' t a))
    (hstep : ∀ s t a, R s t → pre s a → R (step s a) (step' t a)) {t : τ} (h0 : R s t) :
    Permitted (fun s a => some (step s a)) pre s as ↔ Permitted (fun t a => some (step' t a)) pre' t as := by
  induction as generalizing s t with
  | nil => exact Iff.rfl
  | cons a as ih =>
    constructor
    · rintro ⟨ha, has⟩
      refine ⟨(hpre s t a h0).1 ha, fun t' ht' => ?_⟩
      cases ht'
      exact (ih (hstep s t a h0 ha)).1 (has _ rfl)
    · rintro ⟨ha, has⟩
      have ha' := (hpre s t a h0).2 ha
      refine ⟨ha', fun s' hs' => ?_⟩
      cases hs'
      exact (ih (hstep s t a h0 ha')).2 (has _ rfl)

/-- The state after the actions `as` from `s`, if each of them meets its precondition. -/
def checkedRun (step : σ → α → Option σ) (pre : σ → α → Prop) [∀ s a, Decidable (pre s a)] : σ → List α → Option σ
  | s, [] => some s
  | s, a :: as => if pre s a then (step s a).bind fun s' => checkedRun step pre s' as else none

/-- A run with tests can be evaluated. -/
theorem permitted_of_checkedRun [∀ s a, Decidable (pre s a)] (h : checkedRun step pre s as = some s') :
    Permitted step pre s as ∧ run step s as = some s' := by
  induction as generalizing s with
  | nil => exact ⟨trivial, h⟩
  | cons a as ih =>
    unfold checkedRun at h
    split at h
    · rename_i hpre
      obtain ⟨s1, h1, h2⟩ := bind_eq_some_iff.1 h
      obtain ⟨hperm, hrun⟩ := ih h2
      refine ⟨⟨hpre, fun s'' hs'' => ?_⟩, by rw [run, h1]; exact hrun⟩
      cases h1.symm.trans hs''
      exact hperm
    · cases h

end Adix
