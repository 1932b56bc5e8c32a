import Adix.PhysPages.Defs
import Mathlib.Data.List.Basic

/-!
# Runs of pages

`Ordered l` is the shape of the free list. To take pages off a list it is enough that no two runs overlap (`Apart l`):
the chunks of an unsorted memory map give such a list.
-/

namespace Adix.PhysPages

open List

def PhysFree.Has (r : PhysFree) (a : Nat) : Prop := ∃ i, i < r.count ∧ a = r.addr + sizeofPage * i

/-- The page `a` belongs to one of the runs `l`. -/
def Covers (l : List PhysFree) (a : Nat) : Prop := ∃ r ∈ l, r.Has a

/-- The runs are not empty, and each ends before the next one begins. -/
structure Ordered (l : List PhysFree) : Prop where
  nonempty : ∀ r ∈ l, 0 < r.count
  ascending : l.Pairwise fun r t => r.stop ≤ t.addr

structure Apart (l : List PhysFree) : Prop where
  nonempty : ∀ r ∈ l, 0 < r.count
  apart : l.Pairwise fun r t => r.stop ≤ t.addr ∨ t.stop ≤ r.addr

variable {l l' l₁ l₂ : List PhysFree} {r t : PhysFree} {a n b : Nat}

@[simp] theorem not_covers_nil : ¬ Covers [] a := by simp [Covers]

@[simp] theorem covers_cons : Covers (r :: l) a ↔ r.Has a ∨ Covers l a := by simp [Covers]

@[simp] theorem covers_append : Covers (l₁ ++ l₂) a ↔ Covers l₁ a ∨ Covers l₂ a := by
  simp only [Covers, mem_append]
  constructor
  · rintro ⟨r, h | h, hr⟩
    · exact .inl ⟨r, h, hr⟩
    · exact .inr ⟨r, h, hr⟩
  · rintro (⟨r, h, hr⟩ | ⟨r, h, hr⟩)
    · exact ⟨r, .inl h, hr⟩
    · exact ⟨r, .inr h, hr⟩

theorem PhysFree.has_addr (h : 0 < r.count) : r.Has r.addr := ⟨0, h, by simp⟩

open PhysFree (stop has_addr)

theorem PhysFree.Has.bounds (h : r.Has a) : r.addr ≤ a ∧ a + sizeofPage ≤ r.stop := by
  obtain ⟨i, hi, rfl⟩ := h
  unfold stop sizeofPage
  omega

theorem Ordered.nil : Ordered [] := ⟨by simp, List.Pairwise.nil⟩

theorem Ordered.cons (h : Ordered l) (hr : 0 < r.count) (hl : ∀ b, Covers l b → r.stop ≤ b) : Ordered (r :: l) := by
  refine ⟨?_, pairwise_cons.2 ⟨?_, h.ascending⟩⟩
  · intro t ht
    rcases mem_cons.1 ht with rfl | ht
    · exact hr
    · exact h.nonempty t ht
  · intro t ht
    exact hl t.addr ⟨t, ht, has_addr (h.nonempty t ht)⟩

theorem Ordered.tail (h : Ordered (r :: l)) : Ordered l :=
  ⟨fun t ht => h.nonempty t (by simp [ht]), (pairwise_cons.1 h.ascending).2⟩

theorem Ordered.stop_le (h : Ordered (r :: l)) (hb : Covers l b) : r.stop ≤ b := by
  obtain ⟨t, ht, hb⟩ := hb
  have h1 := (pairwise_cons.1 h.ascending).1 t ht
  have h2 := hb.bounds.1
  omega

private theorem Ordered.append (h₁ : Ordered l₁) (h₂ : Ordered l₂) (h : ∀ b c, Covers l₁ b → Covers l₂ c → b < c)
    (hal : ∀ b, Covers (l₁ ++ l₂) b → b % sizeofPage = 0) : Ordered (l₁ ++ l₂) := by
  induction l₁ with
  | nil => exact h₂
  | cons r l₁ ih =>
    have hr := h₁.nonempty r (by simp)
    have ho := ih h₁.tail (fun b c hb hc => h b c (by simp [hb]) hc) (fun b hb => hal b (by
      simp only [List.cons_append, covers_cons]; exact .inr hb))
    refine ho.cons hr ?_
    intro b hb
    rcases covers_append.1 hb with hb | hb
    · exact h₁.stop_le hb
    · -- the last page of `r` lies below `b`, and both are aligned
      have hlast : r.Has (r.addr + sizeofPage * (r.count - 1)) := ⟨r.count - 1, by omega, rfl⟩
      have h1 := h _ b (covers_cons.2 (.inl hlast)) hb
      have h2 := hal _ (show Covers (r :: l₁ ++ l₂) _ by
        simp only [List.cons_append, covers_cons]; exact .inl hlast)
      have h3 := hal b (show Covers (r :: l₁ ++ l₂) b by simp [hb])
      unfold stop
      unfold sizeofPage at *
      omega

private theorem Ordered.left (h : Ordered (l₁ ++ l₂)) : Ordered l₁ :=
  ⟨fun r hr => h.nonempty r (by simp [hr]), (pairwise_append.1 h.ascending).1⟩

private theorem Ordered.right (h : Ordered (l₁ ++ l₂)) : Ordered l₂ :=
  ⟨fun r hr => h.nonempty r (by simp [hr]), (pairwise_append.1 h.ascending).2.1⟩

private theorem Ordered.covers_lt (h : Ordered (l₁ ++ l₂)) {c : Nat} (hb : Covers l₁ b) (hc : Covers l₂ c) : b < c := by
  obtain ⟨r, hr, hb⟩ := hb
  obtain ⟨t, ht, hc⟩ := hc
  have h1 := (pairwise_append.1 h.ascending).2.2 r hr t ht
  have h2 := hb.bounds.2
  have h3 := hc.bounds.1
  unfold sizeofPage at h2
  omega

theorem Ordered.apart (h : Ordered l) : Apart l := ⟨h.nonempty, h.ascending.imp Or.inl⟩

theorem Apart.nil : Apart [] := ⟨by simp, List.Pairwise.nil⟩

private theorem Apart.tail (h : Apart (r :: l)) : Apart l :=
  ⟨fun t ht => h.nonempty t (by simp [ht]), (pairwise_cons.1 h.apart).2⟩

private theorem Apart.cons (h : Apart l) (hr : 0 < r.count) (hl : ∀ t ∈ l, r.stop ≤ t.addr ∨ t.stop ≤ r.addr) :
    Apart (r :: l) := by
  refine ⟨?_, pairwise_cons.2 ⟨hl, h.apart⟩⟩
  intro t ht
  rcases mem_cons.1 ht with rfl | ht
  · exact hr
  · exact h.nonempty t ht

private theorem Apart.not_covers (h : Apart (r :: l)) (hb : r.Has b) : ¬ Covers l b := by
  intro ⟨t, ht, hb'⟩
  have h1 := (pairwise_cons.1 h.apart).1 t ht
  have h2 := hb.bounds
  have h3 := hb'.bounds
  unfold sizeofPage at h2 h3
  omega

private theorem has_rest (hn : n ≤ r.count) :
    (⟨r.addr + n * sizeofPage, r.count - n⟩ : PhysFree).Has b ↔ r.Has b ∧ ¬ (⟨r.addr, n⟩ : PhysFree).Has b := by
  unfold PhysFree.Has
  constructor
  · rintro ⟨i, hi, rfl⟩
    dsimp only at hi ⊢
    refine ⟨⟨n + i, by omega, by rw [Nat.mul_add, Nat.mul_comm n]; omega⟩, ?_⟩
    rintro ⟨j, hj, he⟩
    unfold sizeofPage at he
    omega
  · rintro ⟨⟨i, hi, rfl⟩, hnot⟩
    dsimp only at hnot ⊢
    have hni : n ≤ i := by
      by_contra hlt
      exact hnot ⟨i, by omega, rfl⟩
    refine ⟨i - n, by omega, ?_⟩
    unfold sizeofPage
    omega

private theorem rest_stop (hlt : r.stop < addrSpace) (hn : ¬ r.count < n) :
    (r.addr + n * sizeofPage) % addrSpace = r.addr + n * sizeofPage ∧
      (⟨r.addr + n * sizeofPage, r.count - n⟩ : PhysFree).stop = r.stop := by
  unfold stop at hlt ⊢
  unfold sizeofPage at hlt ⊢
  dsimp only
  rw [Nat.mod_eq_of_lt (by omega)]
  omega

private theorem takeRun_within (hlt : ∀ r ∈ l, r.stop < addrSpace) (h : takeRun n l = some (a, l')) :
    ∀ t' ∈ l', ∃ t ∈ l, t.addr ≤ t'.addr ∧ t'.stop ≤ t.stop := by
  induction l generalizing l' with
  | nil => cases h
  | cons r rs ih =>
    have hself : ∀ t' ∈ rs, ∃ t ∈ r :: rs, t.addr ≤ t'.addr ∧ t'.stop ≤ t.stop :=
      fun t' ht' => ⟨t', mem_cons_of_mem _ ht', Nat.le_refl _, Nat.le_refl _⟩
    unfold takeRun at h
    split at h
    · obtain ⟨⟨a', rs'⟩, hrs, he⟩ := Option.map_eq_some_iff.1 h
      cases he
      intro t' ht'
      rcases mem_cons.1 ht' with rfl | ht'
      · exact ⟨t', mem_cons_self .., Nat.le_refl _, Nat.le_refl _⟩
      · obtain ⟨t, ht, hle⟩ := ih (fun t ht => hlt t (by simp [ht])) hrs t' ht'
        exact ⟨t, mem_cons_of_mem _ ht, hle⟩
    · rename_i hn
      obtain ⟨hmod, hstop⟩ := rest_stop (hlt r (by simp)) hn
      split at h
      · cases h
        exact hself
      · cases h
        intro t' ht'
        rcases mem_cons.1 ht' with rfl | ht'
        · rw [hmod]
          exact ⟨r, mem_cons_self .., Nat.le_add_right _ _, Nat.le_of_eq hstop⟩
        · exact hself t' ht'

/-- The pages taken were on the list, and exactly these are not any more. -/
theorem takeRun_spec (ho : Apart l) (hlt : ∀ r ∈ l, r.stop < addrSpace) (h : takeRun n l = some (a, l')) :
    (∀ b, (⟨a, n⟩ : PhysFree).Has b → Covers l b) ∧ Apart l' ∧
      ∀ b, Covers l' b ↔ Covers l b ∧ ¬ (⟨a, n⟩ : PhysFree).Has b := by
  induction l generalizing l' with
  | nil => cases h
  | cons r rs ih =>
    unfold takeRun at h
    have hbd := hlt r (by simp)
    by_cases h1 : r.count < n
    · rw [if_pos h1, Option.map_eq_some_iff] at h
      obtain ⟨⟨a', rs'⟩, hrs, he⟩ := h
      cases he
      have hlt' : ∀ t ∈ rs, t.stop < addrSpace := fun t ht => hlt t (by simp [ht])
      obtain ⟨i1, i2, i3⟩ := ih ho.tail hlt' hrs
      refine ⟨fun b hb => covers_cons.2 (.inr (i1 b hb)), ?_, ?_⟩
      · refine i2.cons (ho.nonempty r (by simp)) fun t' ht' => ?_
        obtain ⟨t, ht, hle⟩ := takeRun_within hlt' hrs t' ht'
        have hrt := (pairwise_cons.1 ho.apart).1 t ht
        omega
      · intro b
        rw [covers_cons, covers_cons, i3 b]
        constructor
        · rintro (hb | ⟨hb, hnot⟩)
          · exact ⟨.inl hb, fun hhas => ho.not_covers hb (i1 b hhas)⟩
          · exact ⟨.inr hb, hnot⟩
        · rintro ⟨hb | hb, hnot⟩
          · exact .inl hb
          · exact .inr ⟨hb, hnot⟩
    · have hfar : ∀ b, (⟨r.addr, n⟩ : PhysFree).Has b → r.Has b := by
        rintro b ⟨i, hi, rfl⟩
        dsimp only at hi
        exact ⟨i, by omega, rfl⟩
      have hrest : ∀ b, Covers rs b → ¬ (⟨r.addr, n⟩ : PhysFree).Has b :=
        fun b hb hhas => ho.not_covers (hfar b hhas) hb
      rw [if_neg h1] at h
      by_cases h2 : n = r.count
      · rw [if_pos h2, Option.some.injEq, Prod.mk.injEq] at h
        obtain ⟨rfl, rfl⟩ := h
        subst h2
        refine ⟨fun b hb => covers_cons.2 (.inl hb), ho.tail, ?_⟩
        intro b
        rw [covers_cons]
        constructor
        · intro hb
          exact ⟨.inr hb, hrest b hb⟩
        · rintro ⟨hb | hb, hnot⟩
          · exact absurd hb hnot
          · exact hb
      · rw [if_neg h2, Option.some.injEq, Prod.mk.injEq] at h
        obtain ⟨rfl, rfl⟩ := h
        obtain ⟨hmod, hstop⟩ := rest_stop hbd h1
        rw [hmod]
        have hr := fun b => has_rest (r := r) (n := n) (b := b) (by omega)
        refine ⟨fun b hb => covers_cons.2 (.inl (hfar b hb)), ?_, ?_⟩
        · refine ho.tail.cons (show 0 < r.count - n by omega) fun t ht => ?_
          have h3 := (pairwise_cons.1 ho.apart).1 t ht
          rw [hstop]
          exact h3.imp_right fun h4 => Nat.le_trans h4 (Nat.le_add_right _ _)
        · intro b
          rw [covers_cons, covers_cons, hr b]
          constructor
          · rintro (⟨hb, hnot⟩ | hb)
            · exact ⟨.inl hb, hnot⟩
            · exact ⟨.inr hb, hrest b hb⟩
          · rintro ⟨hb | hb, hnot⟩
            · exact .inl ⟨hb, hnot⟩
            · exact .inr hb

/-- The list stays in order. -/
theorem takeRun_ordered (ho : Ordered l) (hlt : ∀ r ∈ l, r.stop < addrSpace) (h : takeRun n l = some (a, l')) :
    Ordered l' := by
  refine ⟨(takeRun_spec ho.apart hlt h).2.1.nonempty, ?_⟩
  induction l generalizing l' with
  | nil => cases h
  | cons r rs ih =>
    have hrs := pairwise_cons.1 ho.ascending
    have hlt' : ∀ t ∈ rs, t.stop < addrSpace := fun t ht => hlt t (by simp [ht])
    unfold takeRun at h
    split at h
    · obtain ⟨⟨a', rs'⟩, htake, he⟩ := Option.map_eq_some_iff.1 h
      cases he
      refine pairwise_cons.2 ⟨fun t' ht' => ?_, ih ho.tail hlt' htake⟩
      obtain ⟨t, ht, hle, -⟩ := takeRun_within hlt' htake t' ht'
      exact Nat.le_trans (hrs.1 t ht) hle
    · rename_i hn
      obtain ⟨hmod, hstop⟩ := rest_stop (hlt r (by simp)) hn
      split at h
      · cases h
        exact hrs.2
      · cases h
        rw [hmod]
        exact pairwise_cons.2 ⟨fun t ht => Nat.le_trans (Nat.le_of_eq hstop) (hrs.1 t ht), hrs.2⟩

theorem has_one : (⟨a, 1⟩ : PhysFree).Has b ↔ b = a := by
  constructor
  · rintro ⟨i, hi, rfl⟩
    obtain rfl : i = 0 := by dsimp only at hi; omega
    simp
  · rintro rfl
    exact ⟨0, by simp, by simp⟩

theorem has_concat (h : t.addr = r.stop) : (⟨r.addr, r.count + t.count⟩ : PhysFree).Has b ↔ r.Has b ∨ t.Has b := by
  unfold stop at h
  constructor
  · rintro ⟨i, hi, rfl⟩
    dsimp only at hi ⊢
    by_cases hir : i < r.count
    · exact .inl ⟨i, hir, rfl⟩
    · refine .inr ⟨i - r.count, by omega, ?_⟩
      rw [h]
      unfold sizeofPage
      omega
  · rintro (⟨i, hi, rfl⟩ | ⟨i, hi, rfl⟩)
    · exact ⟨i, by dsimp only; omega, rfl⟩
    · refine ⟨r.count + i, by dsimp only; omega, ?_⟩
      dsimp only
      rw [h]
      unfold sizeofPage
      omega

/-- The bounds under which no sum of the free list overflows. -/
def Bounded (l : List PhysFree) : Prop := ∀ r ∈ l, r.stop < addrSpace ∧ r.count < 2 ^ 31

/-- A page below all runs is added to the list. -/
private theorem mergeNext_spec (ho : Ordered l) (hb : Bounded l) (hfit : a + sizeofPage < addrSpace)
    (hlt : ∀ b, Covers l b → a + sizeofPage ≤ b) :
    ∃ l', mergeNext true a l = some l' ∧ Ordered l' ∧ ∀ b, Covers l' b ↔ b = a ∨ Covers l b := by
  have hone : (⟨a, 1⟩ : PhysFree).stop = a + sizeofPage := by simp [stop]
  have hnew : Ordered (⟨a, 1⟩ :: l) := ho.cons (by simp) fun b hb => by rw [hone]; exact hlt b hb
  cases l with
  | nil => exact ⟨_, rfl, hnew, fun b => by rw [covers_cons, has_one]⟩
  | cons next rest =>
    simp only [mergeNext, Nat.mod_eq_of_lt hfit]
    by_cases hn : next.addr = a + sizeofPage
    · have hc := (hb next (by simp)).2
      have hmod : (next.count + 1) % 2 ^ 32 = 1 + next.count := by omega
      have hcat := fun b => has_concat (r := ⟨a, 1⟩) (t := next) (b := b) (by rw [hone]; exact hn)
      have hstop : (⟨a, 1 + next.count⟩ : PhysFree).stop = next.stop := by
        simp only [stop, hn, sizeofPage]
        omega
      rw [if_pos hn, hmod]
      refine ⟨_, rfl, ho.tail.cons (show 0 < 1 + next.count by omega) ?_, ?_⟩
      · intro b hb'
        rw [hstop]
        exact ho.stop_le hb'
      · intro b
        rw [covers_cons, covers_cons, hcat b, has_one, or_assoc]
    · rw [if_neg hn, if_pos trivial]
      exact ⟨_, rfl, hnew, fun b => by rw [covers_cons, has_one]⟩

/-- A run that grows by a page is merged with the next one if they touch. -/
private theorem mergePrev_spec (ho : Ordered (r :: l)) (hb : Bounded (r :: l)) (hfit : r.stop + sizeofPage < addrSpace)
    (hlt : ∀ b, Covers l b → r.stop + sizeofPage ≤ b) :
    Ordered (mergePrev { r with count := r.count + 1 } r.stop l) ∧
      ∀ b, Covers (mergePrev { r with count := r.count + 1 } r.stop l) b ↔ b = r.stop ∨ Covers (r :: l) b := by
  have hr := (hb r (by simp)).2
  have hcat := fun b => has_concat (r := r) (t := ⟨r.stop, 1⟩) (b := b) rfl
  have hstop : (⟨r.addr, r.count + 1⟩ : PhysFree).stop = r.stop + sizeofPage := by
    simp only [stop, sizeofPage]
    omega
  have hgrown : Ordered (⟨r.addr, r.count + 1⟩ :: l) := ho.tail.cons (by simp) fun b hb => by rw [hstop]; exact hlt b hb
  have hcov : ∀ b, Covers (⟨r.addr, r.count + 1⟩ :: l) b ↔ b = r.stop ∨ Covers (r :: l) b := by
    intro b
    rw [covers_cons, covers_cons, hcat b, has_one, or_comm (a := r.Has b), or_assoc]
  cases l with
  | nil => exact ⟨hgrown, hcov⟩
  | cons next rest =>
    simp only [mergePrev, Nat.mod_eq_of_lt hfit]
    by_cases hn : next.addr = r.stop + sizeofPage
    · have hnc := (hb next (by simp)).2
      have hmod : (r.count + 1 + next.count) % 2 ^ 32 = r.count + 1 + next.count := by omega
      have hcat' := fun b => has_concat (r := ⟨r.addr, r.count + 1⟩) (t := next) (b := b) (by rw [hstop]; exact hn)
      rw [if_pos hn, hmod]
      constructor
      · refine ho.tail.tail.cons (show 0 < r.count + 1 + next.count by omega) fun b hb' => ?_
        have h1 := ho.tail.stop_le hb'
        simp only [stop, sizeofPage] at hn h1 ⊢
        omega
      · intro b
        rw [← hcov b, covers_cons, covers_cons, covers_cons, hcat' b, or_assoc]
    · rw [if_neg hn]
      exact ⟨hgrown, hcov⟩

private theorem placePage_spec {prev : Option PhysFree} (ho : Ordered (prev.toList ++ l))
    (hb : Bounded (prev.toList ++ l)) (hfit : a + sizeofPage < addrSpace) (hbelow : ∀ p ∈ prev, p.stop ≤ a)
    (habove : ∀ b, Covers l b → a + sizeofPage ≤ b) : ∃ l', placePage true a prev l = some l' ∧ Ordered l' ∧
      ∀ b, Covers l' b ↔ b = a ∨ Covers (prev.toList ++ l) b := by
  obtain ⟨l', e1, e2, e3⟩ := mergeNext_spec ho.right (fun r hr => hb r (by simp [hr])) hfit habove
  cases prev with
  | none => exact ⟨l', e1, e2, fun b => by simpa using e3 b⟩
  | some p =>
    have hp := hb p (by simp)
    have hmod : (p.addr + p.count * sizeofPage) % addrSpace = p.stop := by
      rw [Nat.mul_comm]
      exact Nat.mod_eq_of_lt hp.1
    have hmod' : (p.count + 1) % 2 ^ 32 = p.count + 1 := by omega
    simp only [placePage, hmod, hmod']
    by_cases htouch : p.stop = a
    · subst htouch
      rw [if_pos rfl]
      exact ⟨_, rfl, mergePrev_spec ho hb hfit habove⟩
    · rw [if_neg htouch, e1]
      refine ⟨_, rfl, e2.cons (ho.nonempty p (by simp)) ?_, ?_⟩
      · intro b hcb
        rcases (e3 b).1 hcb with rfl | hcb
        · exact hbelow p rfl
        · exact Ordered.stop_le ho hcb
      · intro b
        show Covers (p :: l') b ↔ b = a ∨ Covers (p :: l) b
        rw [covers_cons, e3 b, covers_cons, or_left_comm]

private theorem stop_le_of_not_has (hal : r.addr % sizeofPage = 0) (ha : a % sizeofPage = 0) (hle : r.addr ≤ a)
    (hnot : ¬ r.Has a) : r.stop ≤ a := by
  by_contra hgt
  simp only [stop, sizeofPage] at hgt
  refine hnot ⟨(a - r.addr) / sizeofPage, ?_, ?_⟩
  · unfold sizeofPage
    omega
  · unfold sizeofPage at *
    omega

/-- A page that is not on the list is added to it at its place. -/
theorem insertPage_spec (prev : Option PhysFree) (ho : Ordered (prev.toList ++ l)) (hb : Bounded (prev.toList ++ l))
    (hal : ∀ b, Covers (prev.toList ++ l) b → b % sizeofPage = 0) (ha : a % sizeofPage = 0)
    (hfit : a + sizeofPage < addrSpace) (hnot : ¬ Covers (prev.toList ++ l) a) (hbelow : ∀ p ∈ prev, p.stop ≤ a) :
    ∃ l', insertPage true a prev l = some l' ∧ Ordered l' ∧ ∀ b, Covers l' b ↔ b = a ∨ Covers (prev.toList ++ l) b := by
  induction l generalizing prev with
  | nil => exact placePage_spec ho hb hfit hbelow (by simp)
  | cons next rest ih =>
    have hsub : ∀ b, Covers (next :: rest) b → Covers (prev.toList ++ next :: rest) b :=
      fun b hcb => covers_append.2 (.inr hcb)
    have hcn : Covers (next :: rest) next.addr := covers_cons.2 (.inl (has_addr (ho.nonempty next (by simp))))
    have hna := hal next.addr (hsub _ hcn)
    unfold insertPage
    by_cases hlt : a < next.addr
    · rw [if_pos hlt]
      refine placePage_spec ho hb hfit hbelow fun b hcb => ?_
      have h1 : next.addr ≤ b := by
        rcases covers_cons.1 hcb with hcb | hcb
        · exact hcb.bounds.1
        · have h2 := ho.right.stop_le hcb
          unfold stop at h2
          omega
      unfold sizeofPage at *
      omega
    · rw [if_neg hlt]
      have hnext : next.stop ≤ a :=
        stop_le_of_not_has hna ha (by omega) fun hh => hnot (hsub a (covers_cons.2 (.inl hh)))
      obtain ⟨l', e1, e2, e3⟩ := ih (some next) ho.right (fun r hr => hb r (mem_append_right _ hr))
        (fun b hcb => hal b (hsub b hcb)) (fun hc => hnot (hsub a hc)) (by rintro p ⟨⟩; exact hnext)
      rw [e1]
      have hal' : ∀ b, Covers (prev.toList ++ l') b → b % sizeofPage = 0 := by
        intro b hcb
        rcases covers_append.1 hcb with hcb | hcb
        · exact hal b (covers_append.2 (.inl hcb))
        · rcases (e3 b).1 hcb with rfl | hcb
          · exact ha
          · exact hal b (hsub b hcb)
      refine ⟨_, rfl, Ordered.append ho.left e2 ?_ hal', ?_⟩
      · intro b c hcb hcc
        rcases (e3 c).1 hcc with rfl | hcc
        · obtain ⟨p, hp, hbp⟩ := hcb
          have h1 := hbelow p (Option.mem_toList.1 hp)
          have h2 := hbp.bounds.2
          unfold sizeofPage at h2
          omega
        · exact ho.covers_lt hcb hcc
      · intro b
        show Covers (prev.toList ++ l') b ↔ _
        rw [covers_append, e3 b, or_left_comm]
        exact or_congr_right covers_append.symm

end Adix.PhysPages
