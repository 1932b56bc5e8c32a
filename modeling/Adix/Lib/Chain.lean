import Mathlib.Data.List.Basic

/-!
# Singly linked lists in memory

`next x` is the link stored in the node `x`, a nonzero number. A list that ends in `NULL` is a segment that ends at `0`.
-/

namespace Adix

open List

variable {p q x : Nat} {l l' l1 l2 : List Nat}

/-- Following `next` from `p` visits the nodes `l`, in this order, and then stands at `q`. -/
def Seg (next : Nat → Nat) : Nat → List Nat → Nat → Prop
  | p, [], q => p = q
  | p, x :: l, q => p = x ∧ Seg next (next x) l q

@[simp] private theorem seg_nil {next : Nat → Nat} : Seg next p [] q ↔ p = q := Iff.rfl

@[simp] private theorem seg_cons {next : Nat → Nat} : Seg next p (x :: l) q ↔ p = x ∧ Seg next (next x) l q := Iff.rfl

/-- Segments are put together where one ends and the other begins. -/
theorem seg_append {next : Nat → Nat} : Seg next p (l1 ++ l2) q ↔ ∃ r, Seg next p l1 r ∧ Seg next r l2 q := by
  induction l1 generalizing p with
  | nil => simp
  | cons x l1 ih =>
    simp only [List.cons_append, seg_cons, ih]
    constructor
    · rintro ⟨h, r, h1, h2⟩; exact ⟨r, ⟨h, h1⟩, h2⟩
    · rintro ⟨r, ⟨h, h1⟩, h2⟩; exact ⟨h, r, h1, h2⟩

theorem Seg.congr {next next' : Nat → Nat} (h : Seg next p l q) (hn : ∀ x ∈ l, next' x = next x) : Seg next' p l q := by
  induction l generalizing p with
  | nil => exact h
  | cons x l ih =>
    refine ⟨h.1, ?_⟩
    rw [hn x (by simp)]
    exact ih h.2 (fun y hy => hn y (by simp [hy]))

theorem Seg.relink {next : Nat → Nat} (h : Seg next p (l ++ [x]) q) (next' : Nat → Nat)
    (hn : ∀ y ∈ l, next' y = next y) : Seg next' p (l ++ [x]) (next' x) := by
  rw [seg_append] at h ⊢
  obtain ⟨r, h1, h2⟩ := h
  exact ⟨r, h1.congr hn, h2.1, rfl⟩

theorem Seg.head_eq {next : Nat → Nat} (h : Seg next p l q) : p = l.headD q := by
  cases l with
  | nil => exact h
  | cons x l => exact h.1

/-- There is one list from a node to `NULL`. -/
theorem Seg.unique {next : Nat → Nat} (h : Seg next p l 0) (h' : Seg next p l' 0)
    (hl : ∀ x ∈ l, x ≠ 0) (hl' : ∀ x ∈ l', x ≠ 0) : l = l' := by
  induction l generalizing p l' with
  | nil =>
    cases l' with
    | nil => rfl
    | cons y l' => exact absurd (h'.1.symm.trans h) (hl' y (by simp))
  | cons x l ih =>
    cases l' with
    | nil => exact absurd (h.1.symm.trans h') (hl x (by simp))
    | cons y l' =>
      obtain rfl : x = y := h.1.symm.trans h'.1
      rw [ih h.2 h'.2 (fun z hz => hl z (by simp [hz])) (fun z hz => hl' z (by simp [hz]))]

/-- What the links lead to is on the list. -/
theorem Seg.mem_of_reaches {next : Nat → Nat} (h : Seg next p l 0)
    (h' : Seg next p (l' ++ [x]) q) (h0 : ∀ y ∈ l' ++ [x], y ≠ 0) : x ∈ l := by
  induction l' generalizing p l with
  | nil =>
    cases l with
    | nil => exact absurd (h'.1.symm.trans h) (h0 x (by simp))
    | cons z l => simp [h'.1.symm.trans h.1]
  | cons y l' ih =>
    cases l with
    | nil => exact absurd (h'.1.symm.trans h) (h0 y (by simp))
    | cons z l =>
      obtain rfl : y = z := h'.1.symm.trans h.1
      exact mem_cons_of_mem y (ih h.2 h'.2 fun w hw => h0 w (mem_cons_of_mem y hw))

/-- The walk from `node` to the first node with the property `stop`, or `0` if there is none; and the node before it,
or `prev`. -/
def search (next : Nat → Nat) (stop : Nat → Bool) : Nat → Nat → Nat → Option (Nat × Nat)
  | 0, _, _ => none
  | fuel + 1, node, prev =>
    if node = 0 then some (0, prev)
    else if stop node then some (node, prev)
    else search next stop fuel (next node) node

/-- On a list `l₁ ++ l₂` where no node of `l₁` has the property and the first node of `l₂`, if any, has it, the walk
ends at the first node of `l₂`. -/
theorem search_eq {next : Nat → Nat} {stop : Nat → Bool} (fuel prev : Nat)
    (h : Seg next p (l1 ++ l2) 0) (h0 : ∀ x ∈ l1 ++ l2, x ≠ 0) (hl1 : ∀ x ∈ l1, stop x = false)
    (hl2 : ∀ x ∈ l2.head?, stop x = true) (hf : l1.length < fuel) :
    search next stop fuel p prev = some (l2.headD 0, l1.getLastD prev) := by
  induction l1 generalizing p prev fuel with
  | nil =>
    obtain _ | fuel := fuel
    · omega
    cases l2 with
    | nil =>
      obtain rfl : p = 0 := h
      simp [search]
    | cons y l2 =>
      obtain rfl : p = y := h.1
      simp [search, h0 p (by simp), hl2 p (by simp)]
  | cons x l1 ih =>
    obtain _ | fuel := fuel
    · omega
    obtain rfl : p = x := h.1
    have hx : p ≠ 0 := h0 p (by simp)
    have hs : stop p = false := hl1 p (by simp)
    rw [search, if_neg hx, hs, if_neg (by simp), ih _ _ h.2 (fun y hy => h0 y (by tauto))
      (fun y hy => hl1 y (by simp [hy])) (by simpa using hf), getLastD_cons]

theorem exists_split (stop : Nat → Bool) (l : List Nat) :
    ∃ l1 l2, l = l1 ++ l2 ∧ (∀ x ∈ l1, stop x = false) ∧ ∀ x ∈ l2.head?, stop x = true := by
  induction l with
  | nil => exact ⟨[], [], rfl, by simp, by simp⟩
  | cons x l ih =>
    by_cases hx : stop x = true
    · exact ⟨[], x :: l, rfl, by simp, by simpa using hx⟩
    · obtain ⟨l1, l2, rfl, h1, h2⟩ := ih
      refine ⟨x :: l1, l2, rfl, ?_, h2⟩
      intro y hy
      rcases mem_cons.1 hy with rfl | hy
      · simpa using hx
      · exact h1 y hy

theorem Seg.next_mem {next : Nat → Nat} (h : Seg next p l q) : ∀ x ∈ l, next x ∈ l ∨ next x = q := by
  induction l generalizing p with
  | nil => simp
  | cons y l ih =>
    intro x hx
    rcases mem_cons.1 hx with rfl | hx
    · cases l with
      | nil => exact .inr h.2
      | cons z l => exact .inl (by simp [h.2.1])
    · exact (ih h.2 x hx).imp (mem_cons_of_mem y) id

section Closed

variable {next : Nat → Nat} {S : Nat → Prop} (hS : ∀ x, S x → x ≠ 0 ∧ S (next x))
include hS

/-- From a set of nodes that the links do not leave, no list ends. -/
theorem not_seg_of_closed (hp : S p) (l : List Nat) : ¬ Seg next p l 0 := by
  induction l generalizing p with
  | nil => exact (hS p hp).1
  | cons x l ih =>
    rintro ⟨rfl, h⟩
    exact ih (hS p hp).2 h

end Closed

theorem length_le_of_ascending {a b : Nat} (hl : l.Pairwise (· < ·)) (hab : ∀ x ∈ l, a ≤ x ∧ x < b) :
    l.length ≤ b - a := by
  induction l generalizing a with
  | nil => simp
  | cons x l ih =>
    rw [pairwise_cons] at hl
    have hx := hab x (by simp)
    have := ih hl.2 (a := x + 1) (fun y hy => ⟨hl.1 y hy, (hab y (by simp [hy])).2⟩)
    simp only [length_cons]
    omega

end Adix
