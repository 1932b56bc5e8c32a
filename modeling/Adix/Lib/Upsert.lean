import Mathlib.Data.List.Induction
import Mathlib.Data.List.Nodup

/-!
# Tables with keys

`upsert` replaces the entry of a list with the key of `x` by `x`, or adds `x` at the end if there is none, and `upserts`
does so with the entries of a list.
-/

namespace Adix

open List

section Upsert

variable {α κ : Type*} [DecidableEq κ] (key : α → κ)

def upsert (x : α) : List α → List α
  | [] => [x]
  | y :: l => if key y = key x then x :: l else y :: upsert x l

def upserts (l : List α) : List α := l.foldl (fun t x => upsert key x t) []

theorem upserts_concat (l : List α) (x : α) : upserts key (l ++ [x]) = upsert key x (upserts key l) := by
  simp [upserts, foldl_append]

private theorem find?_upsert (x : α) (l : List α) (k : κ) :
    (upsert key x l).find? (fun y => key y = k) = if key x = k then some x else l.find? fun y => key y = k := by
  induction l with
  | nil =>
    unfold upsert
    by_cases h : key x = k <;> simp [h]
  | cons y l ih =>
    unfold upsert
    by_cases hxy : key y = key x
    · by_cases h : key x = k <;> simp [hxy, h]
    · by_cases h : key y = k
      · have hx : key x ≠ k := fun hx => hxy (h.trans hx.symm)
        rw [if_neg hxy, if_neg hx]
        simp [h]
      · simp [hxy, h, ih]

theorem map_key_upsert (x : α) (l : List α) :
    (upsert key x l).map key = if key x ∈ l.map key then l.map key else l.map key ++ [key x] := by
  induction l with
  | nil => rfl
  | cons y l ih =>
    unfold upsert
    by_cases hxy : key y = key x
    · simp [hxy]
    · have hyx : key x ≠ key y := fun h => hxy h.symm
      rw [if_neg hxy, map_cons, ih]
      by_cases h : key x ∈ l.map key <;> simp [h, hyx]

theorem length_upsert_le (x : α) (l : List α) : l.length ≤ (upsert key x l).length := by
  have h := congrArg List.length (map_key_upsert key x l)
  rw [length_map] at h
  rw [h]
  split <;> simp

/-- The table has the keys in the order in which they have come first. -/
theorem map_key_upserts [BEq κ] [LawfulBEq κ] (l : List α) : (upserts key l).map key = (l.map key).eraseDups := by
  induction l using List.reverseRecOn with
  | nil => rfl
  | append_singleton l x ih =>
    rw [upserts_concat, map_key_upsert, ih, map_append, map_singleton, eraseDups_append, List.removeAll,
      filter_cons, elem_eq_mem]
    by_cases h : key x ∈ l.map key
    · rw [if_pos (mem_eraseDups.mpr h), decide_eq_true h]
      simp
    · rw [if_neg fun hx => h (mem_eraseDups.mp hx), decide_eq_false h]
      rfl

private theorem nodup_map_key_upserts (l : List α) : ((upserts key l).map key).Nodup := by
  induction l using List.reverseRecOn with
  | nil => exact nodup_nil
  | append_singleton l x ih =>
    rw [upserts_concat, map_key_upsert]
    split
    · exact ih
    · next hx =>
      rw [← concat_eq_append]
      exact ih.concat hx

theorem find?_of_mem_upserts {l : List α} {x : α} (hx : x ∈ upserts key l) :
    (upserts key l).find? (fun y => key y = key x) = some x := by
  obtain ⟨y, hy⟩ : ∃ y, (upserts key l).find? (fun y => key y = key x) = some y :=
    Option.isSome_iff_exists.mp (find?_isSome.mpr ⟨x, hx, by simp⟩)
  have hkey : key y = key x := by simpa using find?_some hy
  rw [hy, inj_on_of_nodup_map (nodup_map_key_upserts key l) (mem_of_find?_eq_some hy) hx hkey]

/-- Under each key it has the entry that has come last. -/
theorem find?_upserts (l : List α) (k : κ) :
    (upserts key l).find? (fun y => key y = k) = l.reverse.find? fun y => key y = k := by
  induction l using List.reverseRecOn with
  | nil => rfl
  | append_singleton l x ih =>
    rw [upserts_concat, find?_upsert, ih]
    by_cases h : key x = k <;> simp [h]

/-- In an array the operation writes one cell. -/
theorem set_upsert {β : Type*} (f : α → β) (x : α) (l : List α) (free : β) (rest : List β) :
    (l.map f ++ free :: rest).set (l.findIdx fun y => key y = key x) (f x) =
      (upsert key x l).map f ++ if key x ∈ l.map key then free :: rest else rest := by
  induction l with
  | nil => rfl
  | cons y l ih =>
    unfold upsert
    by_cases hxy : key y = key x
    · simp [findIdx_cons, hxy]
    · have hyx : key x ≠ key y := fun h => hxy h.symm
      simp [findIdx_cons, hxy, hyx] at ih ⊢
      exact ih

end Upsert

end Adix
