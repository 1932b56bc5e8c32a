import Mathlib.Data.List.Basic
import Mathlib.Data.Option.Basic

/-!
# Radix trees in a memory

A memory gives every node `p : F` and index `i : I` an entry, and a `Format` says whether an entry is present and to
which node it points. `walk` follows a path of indices from a node.
-/

namespace Adix.Radix

open List Option

structure Format (F E : Type) where
  present : E → Bool
  next : E → F

variable {F I E : Type} {ρ : List I}

def Format.link (fmt : Format F E) (e : E) : Option F := if fmt.present e then some (fmt.next e) else none

def walk (fmt : Format F E) (m : F → I → E) : F → List I → Option F
  | p, [] => some p
  | p, i :: is => (fmt.link (m p i)).bind fun q => walk fmt m q is

/-- The word at index `i` of the node at the end of a path, present or not. -/
def word (fmt : Format F E) (m : F → I → E) (p : F) (σ : List I) (i : I) : Option E :=
  (walk fmt m p σ).map fun q => m q i

/-- The entry at index `i` of the node at the end of a path, if it is present. -/
def lookup (fmt : Format F E) (m : F → I → E) (p : F) (σ : List I) (i : I) : Option E :=
  (word fmt m p σ i).filter fmt.present

/-- The entry that is found from the entry `e` along a path. -/
def read (fmt : Format F E) (m : F → I → E) : E → List I → Option E
  | e, [] => if fmt.present e then some e else none
  | e, i :: is => (fmt.link e).bind fun q => read fmt m (m q i) is

variable {fmt : Format F E} {m m' : F → I → E} {p q r t f : F} {σ τ π : List I} {i j : I} {e : E}

theorem Format.link_eq_some : fmt.link e = some q ↔ fmt.present e = true ∧ fmt.next e = q := by
  unfold Format.link
  split <;> simp_all

theorem Format.link_eq_none : fmt.link e = none ↔ fmt.present e = false := by
  unfold Format.link
  split <;> simp_all

theorem Format.bind_link {α : Type} (g : F → Option α) :
    (fmt.link e).bind g = if fmt.present e then g (fmt.next e) else none := by
  unfold Format.link
  split <;> rfl

@[simp] theorem walk_nil : walk fmt m p ([] : List I) = some p := rfl

theorem walk_cons : walk fmt m p (i :: σ) = (fmt.link (m p i)).bind fun q => walk fmt m q σ := rfl

theorem walk_singleton : walk fmt m p [i] = fmt.link (m p i) := by
  rw [walk_cons]
  cases fmt.link (m p i) <;> rfl

theorem walk_append : walk fmt m p (σ ++ τ) = (walk fmt m p σ).bind fun q => walk fmt m q τ := by
  induction σ generalizing p with
  | nil => rfl
  | cons i σ ih =>
    rw [List.cons_append, walk_cons, walk_cons, bind_assoc]
    congr
    funext q
    exact ih

theorem walk_snoc : walk fmt m p (σ ++ [i]) = (walk fmt m p σ).bind fun q => fmt.link (m q i) := by
  rw [walk_append]
  congr
  funext q
  exact walk_singleton

theorem lookup_nil : lookup fmt m p [] i = if fmt.present (m p i) then some (m p i) else none := filter_some

theorem lookup_cons : lookup fmt m p (j :: σ) i = (fmt.link (m p j)).bind fun q => lookup fmt m q σ i := by
  unfold lookup word
  rw [walk_cons]
  cases fmt.link (m p j) <;> rfl

theorem lookup_eq_some :
    lookup fmt m p σ i = some e ↔ ∃ q, walk fmt m p σ = some q ∧ m q i = e ∧ fmt.present e = true := by
  unfold lookup word
  rw [filter_eq_some_iff, map_eq_some_iff]
  constructor
  · rintro ⟨⟨q, hq, he⟩, hp⟩
    exact ⟨q, hq, he, hp⟩
  · rintro ⟨q, hq, he, hp⟩
    exact ⟨⟨q, hq, he⟩, hp⟩

private theorem read_eq_lookup (h : τ ++ [i] = j :: ρ) : read fmt m (m p j) ρ = lookup fmt m p τ i := by
  induction τ generalizing p j ρ with
  | nil =>
    obtain ⟨rfl, rfl⟩ := cons.inj h
    rfl
  | cons k τ ih =>
    rw [List.cons_append] at h
    obtain ⟨rfl, rfl⟩ := cons.inj h
    obtain ⟨k', ρ', hρ⟩ : ∃ k' ρ', τ ++ [i] = k' :: ρ' := by
      cases τ with
      | nil => exact ⟨i, [], rfl⟩
      | cons k' τ => exact ⟨k', τ ++ [i], rfl⟩
    rw [lookup_cons, hρ, read]
    congr
    funext q
    exact ih hρ

theorem read_eq_some {e' : E} (h : read fmt m e ρ = some e') : fmt.present e = true := by
  cases ρ with
  | nil =>
    unfold read at h
    split at h
    · assumption
    · cases h
  | cons i ρ =>
    obtain ⟨q, hq, -⟩ := bind_eq_some_iff.1 h
    exact (Format.link_eq_some.1 hq).1

/-- A lookup goes on from any entry on its way. -/
theorem lookup_split (h : π ++ [i] = σ ++ j :: ρ) (hw : walk fmt m p σ = some q) :
    lookup fmt m p π i = read fmt m (m q j) ρ := by
  induction σ generalizing p π with
  | nil =>
    obtain rfl : p = q := some.inj hw
    exact (read_eq_lookup h).symm
  | cons k σ ih =>
    cases π with
    | nil =>
      have hlen := congrArg List.length h
      simp at hlen
    | cons k' π =>
      obtain ⟨rfl, h'⟩ := cons.inj h
      obtain ⟨r, hr, hw⟩ := bind_eq_some_iff.1 hw
      rw [lookup_cons, hr]
      exact ih h' hw

theorem lookup_passes (h : π ++ [i] = σ ++ j :: ρ) (he : lookup fmt m p π i = some e) :
    ∃ q, walk fmt m p σ = some q ∧ fmt.present (m q j) = true := by
  cases hw : walk fmt m p σ with
  | some q =>
    rw [lookup_split h hw] at he
    exact ⟨q, rfl, read_eq_some he⟩
  | none =>
    induction σ generalizing p π with
    | nil => cases hw
    | cons k σ ih =>
      cases π with
      | nil =>
        have hlen := congrArg List.length h
        simp at hlen
      | cons k' π =>
        obtain ⟨rfl, h'⟩ := cons.inj h
        rw [lookup_cons] at he
        obtain ⟨r, hr, he⟩ := bind_eq_some_iff.1 he
        rw [walk_cons, hr] at hw
        exact ih h' he hw

/-- A lookup that fails ends at an entry that is not present. -/
theorem lookup_eq_none (h : lookup fmt m p π i = none) :
    ∃ σ j ρ q, π ++ [i] = σ ++ j :: ρ ∧ walk fmt m p σ = some q ∧ fmt.present (m q j) = false := by
  induction π generalizing p with
  | nil =>
    refine ⟨[], i, [], p, rfl, rfl, ?_⟩
    cases hp : fmt.present (m p i) with
    | false => rfl
    | true => exact absurd (h.symm.trans (lookup_eq_some.2 ⟨p, rfl, rfl, hp⟩)) (by simp)
  | cons k π ih =>
    rw [lookup_cons] at h
    cases hl : fmt.link (m p k) with
    | none => exact ⟨[], k, π ++ [i], p, rfl, rfl, Format.link_eq_none.1 hl⟩
    | some q =>
      rw [hl] at h
      obtain ⟨σ, j, ρ, q', he, hw, hp⟩ := ih h
      refine ⟨k :: σ, j, ρ, q', by rw [List.cons_append, he]; rfl, ?_, hp⟩
      rw [walk_cons, hl]
      exact hw

/-- A walk depends on the entries on its way. -/
theorem walk_congr (h : ∀ τ i ρ q, σ = τ ++ i :: ρ → walk fmt m p τ = some q → fmt.link (m' q i) = fmt.link (m q i)) :
    walk fmt m' p σ = walk fmt m p σ := by
  induction σ generalizing p with
  | nil => rfl
  | cons i σ ih =>
    have h0 := h [] i σ p rfl rfl
    rw [walk_cons, walk_cons, h0]
    cases hl : fmt.link (m p i) with
    | none => rfl
    | some q =>
      refine ih fun τ j ρ q' hσ hq' => h (i :: τ) j ρ q' (by rw [hσ]; rfl) ?_
      rw [walk_cons, hl]
      exact hq'

theorem lookup_congr (hw : walk fmt m' p σ = walk fmt m p σ)
    (h : ∀ q, walk fmt m p σ = some q → m' q i = m q i) : lookup fmt m' p σ i = lookup fmt m p σ i := by
  unfold lookup word
  rw [hw]
  cases hq : walk fmt m p σ with
  | none => rfl
  | some q => simp [h q hq]

/-- The paths in `D` lead from the roots in `R` to distinct nodes. -/
structure Forest (fmt : Format F E) (m : F → I → E) (R : F → Prop) (D : List I → Prop) : Prop where
  root_eq : ∀ {r r' σ τ q}, R r → R r' → D σ → D τ → walk fmt m r σ = some q → walk fmt m r' τ = some q → r = r'
  path_eq : ∀ {r r' σ τ q}, R r → R r' → D σ → D τ → walk fmt m r σ = some q → walk fmt m r' τ = some q → σ = τ

variable {R : F → Prop} {D : List I → Prop}

theorem Forest.congr (hf : Forest fmt m R D) (h : ∀ {r σ}, R r → D σ → walk fmt m' r σ = walk fmt m r σ) :
    Forest fmt m' R D where
  root_eq hr hr' hσ hτ hq hq' := hf.root_eq hr hr' hσ hτ ((h hr hσ).symm.trans hq) ((h hr' hτ).symm.trans hq')
  path_eq hr hr' hσ hτ hq hq' := hf.path_eq hr hr' hσ hτ ((h hr hσ).symm.trans hq) ((h hr' hτ).symm.trans hq')

/-- The node `q` is one of the forest. -/
def Reaches (fmt : Format F E) (m : F → I → E) (R : F → Prop) (D : List I → Prop) (q : F) : Prop :=
  ∃ r σ, R r ∧ D σ ∧ walk fmt m r σ = some q

/-- When only the entry `i` of the node at the end of `π` changes its link, the walks through it are the only ones to
change. -/
theorem Forest.walk_eq (hf : Forest fmt m R D) (hD : ∀ σ τ, D (σ ++ τ) → D σ) (hr : R r) (hπ : D π)
    (ht : walk fmt m r π = some t)
    (hm : ∀ q j, Reaches fmt m R D q → (q = t → j ≠ i) → fmt.link (m' q j) = fmt.link (m q j)) {r' : F} (hr' : R r')
    (hσ : D σ) (hnot : r' = r → ¬ π ++ [i] <+: σ) : walk fmt m' r' σ = walk fmt m r' σ := by
  refine walk_congr fun τ j ρ q hτ hq => ?_
  subst hτ
  have hDτ := hD _ _ hσ
  refine hm q j ⟨r', τ, hr', hDτ, hq⟩ ?_
  -- a walk that passes the entry comes along `π`
  rintro rfl rfl
  obtain rfl := hf.root_eq hr' hr hDτ hπ hq ht
  obtain rfl := hf.path_eq hr' hr' hDτ hπ hq ht
  exact hnot rfl ⟨ρ, by simp⟩

/-- The memory `m'` is `m` with the fresh node `f`, whose entries are not present, attached at the entry `i` of the node
at the end of `π`. -/
structure Attached (fmt : Format F E) (m : F → I → E) (R : F → Prop) (D : List I → Prop) (r : F) (π : List I) (i : I)
    (f : F) (m' : F → I → E) : Prop where
  root : R r
  path : D π
  entry : ∃ t, walk fmt m r π = some t ∧ fmt.link (m t i) = none ∧ fmt.link (m' t i) = some f ∧
    ∀ q j, Reaches fmt m R D q → (q = t → j ≠ i) → m' q j = m q j
  fresh : ¬ Reaches fmt m R D f
  empty : ∀ j, fmt.link (m' f j) = none

namespace Attached

variable {r' : F} (h : Attached fmt m R D r π i f m') (hf : Forest fmt m R D) (hD : ∀ σ τ, D (σ ++ τ) → D σ)
include h

theorem walk_old : walk fmt m r (π ++ i :: τ) = none := by
  obtain ⟨t, ht, hn, -, -⟩ := h.entry
  rw [walk_append, ht, bind_some, walk_cons, hn]
  rfl

include hf hD

theorem walk_eq (hr' : R r') (hσ : D σ) (hnot : r' = r → ¬ π ++ [i] <+: σ) : walk fmt m' r' σ = walk fmt m r' σ := by
  obtain ⟨t, ht, -, -, hm⟩ := h.entry
  exact hf.walk_eq hD h.root h.path ht (fun q j hq hj => by rw [hm q j hq hj]) hr' hσ hnot

theorem walk_new : walk fmt m' r (π ++ [i]) = some f ∧ ∀ j τ, walk fmt m' r (π ++ i :: j :: τ) = none := by
  obtain ⟨t, ht, -, hl, -⟩ := h.entry
  have hπ : walk fmt m' r π = some t := by
    rw [h.walk_eq hf hD h.root h.path, ht]
    rintro - ⟨ρ, hρ⟩
    have hlen := congrArg List.length hρ
    simp at hlen
  constructor
  · rw [walk_snoc, hπ]
    exact hl
  · intro j τ
    rw [walk_append, hπ, bind_some, walk_cons, hl, bind_some, walk_cons, h.empty j]
    rfl

/-- A walk is an old one, or the one to the new node. -/
theorem walk_cases (hr' : R r') (hσ : D σ) (hw : walk fmt m' r' σ = some q) :
    walk fmt m r' σ = some q ∨ r' = r ∧ σ = π ++ [i] ∧ q = f := by
  by_cases hthrough : r' = r ∧ π ++ [i] <+: σ
  · obtain ⟨rfl, ρ, rfl⟩ := hthrough
    obtain ⟨h1, h2⟩ := h.walk_new hf hD
    cases ρ with
    | nil =>
      rw [append_nil, h1] at hw
      exact .inr ⟨rfl, by simp, (some.inj hw).symm⟩
    | cons j ρ =>
      rw [List.append_assoc] at hw
      exact absurd (hw.symm.trans (h2 j ρ)) (by simp)
  · left
    rw [← h.walk_eq hf hD hr' hσ fun he hpre => hthrough ⟨he, hpre⟩]
    exact hw

/-- The nodes are still distinct. -/
theorem forest : Forest fmt m' R D := by
  have key : ∀ {r1 r2 σ τ q}, R r1 → R r2 → D σ → D τ → walk fmt m' r1 σ = some q → walk fmt m' r2 τ = some q →
      r1 = r2 ∧ σ = τ := by
    intro r1 r2 σ τ q h1 h2 hσ hτ w1 w2
    obtain w1 | ⟨rfl, rfl, rfl⟩ := h.walk_cases hf hD h1 hσ w1
    · obtain w2 | ⟨-, -, rfl⟩ := h.walk_cases hf hD h2 hτ w2
      · exact ⟨hf.root_eq h1 h2 hσ hτ w1 w2, hf.path_eq h1 h2 hσ hτ w1 w2⟩
      · exact absurd ⟨r1, σ, h1, hσ, w1⟩ h.fresh
    · obtain w2 | ⟨rfl, rfl, -⟩ := h.walk_cases hf hD h2 hτ w2
      · exact absurd ⟨r2, τ, h2, hτ, w2⟩ h.fresh
      · exact ⟨rfl, rfl⟩
  exact ⟨fun h1 h2 hσ hτ w1 w2 => (key h1 h2 hσ hτ w1 w2).1, fun h1 h2 hσ hτ w1 w2 => (key h1 h2 hσ hτ w1 w2).2⟩

theorem reaches (hq : Reaches fmt m' R D q) : Reaches fmt m R D q ∨ q = f := by
  obtain ⟨r', σ, hr', hσ, hw⟩ := hq
  obtain hw | ⟨-, -, rfl⟩ := h.walk_cases hf hD hr' hσ hw
  · exact .inl ⟨r', σ, hr', hσ, hw⟩
  · exact .inr rfl

end Attached

end Adix.Radix
