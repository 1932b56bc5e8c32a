import Mathlib.Data.Set.Card

/-!
# Frames shared until they are written

Processes map places `V` to frames `F`. A process that is forked maps the frames of its parent, both without write
permission; a shared frame is replaced by a copy before it is written, and a frame with one owner is made writable
again.
-/

namespace Adix.Sharing

open Option (map_some)

variable {V F C : Type}

/-- Processes `0, …, procs - 1` with their mappings, and for each frame a count, a flag and what it contains. -/
structure State (V F C : Type) where
  procs : Nat
  map : Nat → V → Option (F × Bool)
  count : F → Nat
  flagged : F → Prop
  data : F → C

/-- What a step does to the processes' view of memory. -/
inductive Label (V C : Type) where
  | silent
  | demand (p : Nat) (v : V) (c : C)
  | write (p : Nat) (v : V) (g : C → C)
  | fork (p : Nat)

def State.owners (s : State V F C) (f : F) : Set (Nat × V) := {x | ∃ w, s.map x.1 x.2 = some (f, w)}

def State.Uses (s : State V F C) (f : F) : Prop := ∃ p v w, s.map p v = some (f, w)

def lower (x : F × Bool) : F × Bool := (x.1, false)

structure Kept (s s' : State V F C) (f : F) : Prop where
  count : s'.count f = s.count f
  flagged : s'.flagged f ↔ s.flagged f
  data : s'.data f = s.data f

/-- A frame is mapped at one place, its count is the number of mappings to it, and a frame with several owners is
flagged and nobody may write it. -/
structure Inv (s : State V F C) : Prop where
  inside : ∀ {p v x}, s.map p v = some x → p < s.procs
  place : ∀ {p q v u f w w'}, s.map p v = some (f, w) → s.map q u = some (f, w') → v = u
  count : ∀ {f}, s.Uses f → s.count f = (s.owners f).ncard
  guard : ∀ {f}, s.Uses f → 1 < s.count f → s.flagged f ∧ ∀ p v w, s.map p v = some (f, w) → w = false

variable [DecidableEq V]

/-- The mappings after one of them has been replaced. -/
def State.Remaps (s s' : State V F C) (p : Nat) (v : V) (x : F × Bool) : Prop :=
  s'.procs = s.procs ∧ ∀ q u, s'.map q u = if q = p ∧ u = v then some x else s.map q u

/-- The steps of the machine. They say nothing about frames that are not mapped. -/
inductive Step (s s' : State V F C) : Label V C → Prop
  /-- Nothing that is mapped changes. -/
  | idle (hp : s'.procs = s.procs) (hm : ∀ q u, s'.map q u = s.map q u) (hk : ∀ g, s.Uses g → Kept s s' g) :
      Step s s' .silent
  /-- A frame is mapped where there was none. -/
  | demand {p v f w} (hp : p < s.procs) (hv : s.map p v = none) (hf : ¬ s.Uses f) (hm : s.Remaps s' p v (f, w))
      (hc : s'.count f = 1) (hk : ∀ g, s.Uses g → Kept s s' g) : Step s s' (.demand p v (s'.data f))
  /-- A frame is written. -/
  | write {p v f g} (hv : s.map p v = some (f, true)) (hp : s'.procs = s.procs) (hm : ∀ q u, s'.map q u = s.map q u)
      (hc : ∀ h, s.Uses h → s'.count h = s.count h ∧ (s'.flagged h ↔ s.flagged h)) (hf : s'.data f = g (s.data f))
      (hd : ∀ h, s.Uses h → h ≠ f → s'.data h = s.data h) : Step s s' (.write p v g)
  /-- A process is forked. -/
  | fork {p} (hp : p < s.procs) (hn : s'.procs = s.procs + 1)
      (hm : ∀ q u, s'.map q u = if q = p ∨ q = s.procs then (s.map p u).map lower else s.map q u)
      (hs : ∀ v f w, s.map p v = some (f, w) → s'.count f = s.count f + 1 ∧ s'.flagged f ∧ s'.data f = s.data f)
      (hk : ∀ f, s.Uses f → (∀ v w, s.map p v ≠ some (f, w)) → Kept s s' f) : Step s s' (.fork p)
  /-- A shared frame is replaced by a copy. -/
  | copy {p v f w₀ f' w} (hv : s.map p v = some (f, w₀)) (hf : 1 < s.count f) (hf' : ¬ s.Uses f')
      (hm : s.Remaps s' p v (f', w)) (hc : s'.count f' = 1) (hd : s'.data f' = s.data f)
      (hcf : s'.count f + 1 = s.count f) (hff : s'.flagged f ↔ s.flagged f) (hdf : s'.data f = s.data f)
      (hk : ∀ g, s.Uses g → g ≠ f → Kept s s' g) : Step s s' .silent
  /-- The permission of a frame with one owner is changed. -/
  | retain {p v f w₀ w} (hv : s.map p v = some (f, w₀)) (hf : s.count f ≤ 1) (hm : s.Remaps s' p v (f, w))
      (hcf : s'.count f = s.count f) (hdf : s'.data f = s.data f) (hk : ∀ g, s.Uses g → g ≠ f → Kept s s' g) :
      Step s s' .silent

variable {s s' : State V F C} {p q : Nat} {v u : V} {f g : F} {w w' : Bool} {x : F × Bool} {l : Label V C}

omit [DecidableEq V] in
private theorem State.mem_owners : (p, v) ∈ s.owners f ↔ ∃ w, s.map p v = some (f, w) := Iff.rfl

omit [DecidableEq V] in
theorem State.Uses.of_map (h : s.map p v = some (f, w)) : s.Uses f := ⟨p, v, w, h⟩

omit [DecidableEq V] in
theorem Inv.finite (h : Inv s) (f : F) : (s.owners f).Finite := by
  by_cases hf : s.Uses f
  · obtain ⟨p, v, w, hv⟩ := hf
    refine Set.Finite.subset ((Set.finite_lt_nat s.procs).prod (Set.finite_singleton v)) ?_
    rintro ⟨q, u⟩ ⟨w', hu⟩
    exact ⟨h.inside hu, h.place hu hv⟩
  · have hempty : s.owners f = ∅ := by
      ext ⟨q, u⟩
      exact ⟨fun ⟨w', hu⟩ => hf ⟨q, u, w', hu⟩, False.elim⟩
    rw [hempty]
    exact Set.finite_empty

omit [DecidableEq V] in
private theorem Inv.single (h : Inv s) (hv : s.map p v = some (f, w)) (hu : s.map q u = some (f, w'))
    (hc : s.count f ≤ 1) : (q, u) = (p, v) := by
  rw [h.count (.of_map hv), Set.ncard_le_one (h.finite f)] at hc
  exact hc _ ⟨w', hu⟩ _ ⟨w, hv⟩

omit [DecidableEq V] in
private theorem Inv.single_of_writable (h : Inv s) (hv : s.map p v = some (f, true)) (hu : s.map q u = some (f, w)) :
    (q, u) = (p, v) := by
  refine h.single hv hu (Nat.le_of_not_lt fun hlt => ?_)
  exact absurd ((h.guard (.of_map hv) hlt).2 p v true hv) (by decide)

private theorem State.Remaps.owners_self (h : s.Remaps s' p v (f, w)) : s'.owners f = insert (p, v) (s.owners f) := by
  ext ⟨q, u⟩
  rw [Set.mem_insert_iff, State.mem_owners, State.mem_owners, h.2]
  split
  · rename_i he
    simp [he]
  · rename_i he
    simp [he]

private theorem State.Remaps.owners_other (h : s.Remaps s' p v (f, w)) (hg : g ≠ f) :
    s'.owners g = s.owners g \ {(p, v)} := by
  ext ⟨q, u⟩
  rw [Set.mem_sdiff, State.mem_owners, State.mem_owners, h.2]
  split
  · rename_i he
    simp [he, hg.symm]
  · rename_i he
    simp [he]

theorem State.Remaps.uses (h : s.Remaps s' p v (f, w)) (hu : s'.map q u = some (g, w')) :
    (q = p ∧ u = v ∧ g = f ∧ w' = w) ∨ s.map q u = some (g, w') := by
  rw [h.2] at hu
  split at hu
  · rename_i he
    cases hu
    exact .inl ⟨he.1, he.2, rfl, rfl⟩
  · exact .inr hu

private theorem Inv.remap (h : Inv s) (hm : s.Remaps s' p v (f, w)) (hp : p < s.procs)
    (hf : ∀ q u w', s.map q u = some (f, w') → u = v) (hcf : s'.count f = (s'.owners f).ncard) (hone : s'.count f ≤ 1)
    (hk : ∀ g, s.Uses g → g ≠ f → s'.count g = (s'.owners g).ncard ∧
      (1 < s'.count g → 1 < s.count g ∧ (s.flagged g → s'.flagged g))) : Inv s' := by
  have huses : ∀ {g}, s'.Uses g → g ≠ f → s.Uses g := by
    rintro g ⟨q, u, w', hu⟩ hg
    obtain ⟨-, -, rfl, -⟩ | hu := hm.uses hu
    · exact absurd rfl hg
    · exact ⟨q, u, w', hu⟩
  refine ⟨?_, ?_, ?_, ?_⟩
  · intro q u x hu
    rw [hm.1]
    obtain ⟨rfl, -⟩ | hu := hm.uses hu
    · exact hp
    · exact h.inside hu
  · intro q r u u' g w1 w2 h1 h2
    obtain ⟨-, rfl, rfl, -⟩ | h1 := hm.uses h1
    · obtain ⟨-, rfl, -, -⟩ | h2 := hm.uses h2
      · rfl
      · exact (hf r u' w2 h2).symm
    · obtain ⟨-, rfl, rfl, -⟩ | h2 := hm.uses h2
      · exact hf q u w1 h1
      · exact h.place h1 h2
  · intro g hg
    by_cases hgf : g = f
    · rw [hgf]
      exact hcf
    · exact (hk g (huses hg hgf) hgf).1
  · intro g hg hlt
    have hgf : g ≠ f := by
      rintro rfl
      omega
    obtain ⟨-, hguard⟩ := hk g (huses hg hgf) hgf
    obtain ⟨hlt', hflag⟩ := hguard hlt
    obtain ⟨h1, h2⟩ := h.guard (huses hg hgf) hlt'
    refine ⟨hflag h1, fun q u w' hu => ?_⟩
    obtain ⟨-, -, rfl, -⟩ | hu := hm.uses hu
    · exact absurd rfl hgf
    · exact h2 q u w' hu

omit [DecidableEq V] in
theorem Inv.of_map_eq (h : Inv s) (hp : s'.procs = s.procs) (hm : ∀ q u, s'.map q u = s.map q u)
    (hc : ∀ g, s.Uses g → s'.count g = s.count g ∧ (s'.flagged g ↔ s.flagged g)) : Inv s' := by
  have huses : ∀ {g}, s'.Uses g → s.Uses g := by
    rintro g ⟨q, u, w, hu⟩
    rw [hm] at hu
    exact ⟨q, u, w, hu⟩
  have howners : ∀ g, s'.owners g = s.owners g := by
    intro g
    unfold State.owners
    simp only [hm]
  refine ⟨?_, ?_, ?_, ?_⟩
  · intro q u x hu
    rw [hm] at hu
    rw [hp]
    exact h.inside hu
  · intro q r u u' g w1 w2 h1 h2
    rw [hm] at h1 h2
    exact h.place h1 h2
  · intro g hg
    rw [howners, (hc g (huses hg)).1]
    exact h.count (huses hg)
  · intro g hg hlt
    obtain ⟨h1, h2⟩ := hc g (huses hg)
    rw [h1] at hlt
    obtain ⟨h3, h4⟩ := h.guard (huses hg) hlt
    refine ⟨h2.2 h3, fun q u w hu => h4 q u w ?_⟩
    rw [← hm]
    exact hu

section Fork

variable (h : Inv s) (hp : p < s.procs)
  (hm : ∀ q u, s'.map q u = if q = p ∨ q = s.procs then (s.map p u).map lower else s.map q u)
include hm

omit [DecidableEq V] in
private theorem fork_origin (hu : s'.map q u = some (f, w)) :
    (q = p ∨ q = s.procs) ∧ w = false ∧ (∃ w0, s.map p u = some (f, w0)) ∨
      ¬ (q = p ∨ q = s.procs) ∧ s.map q u = some (f, w) := by
  rw [hm] at hu
  split at hu
  · rename_i hq
    obtain ⟨⟨f', w0⟩, h1, h2⟩ := Option.map_eq_some_iff.1 hu
    cases h2
    exact .inl ⟨hq, rfl, w0, h1⟩
  · rename_i hq
    exact .inr ⟨hq, hu⟩

include h hp

omit [DecidableEq V] in
private theorem fork_owners (hv : s.map p v = some (f, w)) : s'.owners f = insert (s.procs, v) (s.owners f) := by
  ext ⟨q, u⟩
  rw [Set.mem_insert_iff, State.mem_owners, State.mem_owners, Prod.mk.injEq]
  constructor
  · rintro ⟨w', hu⟩
    obtain ⟨hq, -, w0, hp'⟩ | ⟨-, hq⟩ := fork_origin hm hu
    · rcases hq with rfl | rfl
      · exact .inr ⟨w0, hp'⟩
      · exact .inl ⟨rfl, h.place hp' hv⟩
    · exact .inr ⟨w', hq⟩
  · rintro (⟨rfl, rfl⟩ | ⟨w', hu⟩)
    · exact ⟨false, by rw [hm, if_pos (.inr rfl), hv]; rfl⟩
    · by_cases hq : q = p ∨ q = s.procs
      · have hqp : q = p := hq.resolve_right (Nat.ne_of_lt (h.inside hu))
        rw [hqp] at hu
        exact ⟨false, by rw [hm, if_pos hq, hu]; rfl⟩
      · exact ⟨w', by rw [hm, if_neg hq]; exact hu⟩

omit [DecidableEq V] in
private theorem fork_owners_other (hf : ∀ v w, s.map p v ≠ some (f, w)) : s'.owners f = s.owners f := by
  ext ⟨q, u⟩
  rw [State.mem_owners, State.mem_owners]
  constructor
  · rintro ⟨w', hu⟩
    obtain ⟨-, -, w0, hu⟩ | ⟨-, hu⟩ := fork_origin hm hu
    · exact absurd hu (hf u w0)
    · exact ⟨w', hu⟩
  · rintro ⟨w', hu⟩
    refine ⟨w', ?_⟩
    rw [hm, if_neg, hu]
    rintro (rfl | rfl)
    · exact hf u w' hu
    · exact absurd (h.inside hu) (Nat.lt_irrefl _)

omit [DecidableEq V] in
private theorem fork_inv (hn : s'.procs = s.procs + 1)
    (hs : ∀ v f w, s.map p v = some (f, w) → s'.count f = s.count f + 1 ∧ s'.flagged f)
    (hk : ∀ f, s.Uses f → (∀ v w, s.map p v ≠ some (f, w)) → s'.count f = s.count f ∧ (s'.flagged f ↔ s.flagged f)) :
    Inv s' := by
  have huses : ∀ {g q u w}, s'.map q u = some (g, w) → ∃ q0 w0, s.map q0 u = some (g, w0) := by
    intro g q u w hu
    obtain ⟨-, -, w0, hu⟩ | ⟨-, hu⟩ := fork_origin hm hu
    · exact ⟨p, w0, hu⟩
    · exact ⟨q, w, hu⟩
  refine ⟨?_, ?_, ?_, ?_⟩
  · intro q u x hu
    rw [hn]
    obtain ⟨hq, -⟩ | ⟨-, hu⟩ := fork_origin hm hu
    · omega
    · have := h.inside hu
      omega
  · intro q r u u' g w1 w2 h1 h2
    obtain ⟨q0, w0, h1⟩ := huses h1
    obtain ⟨r0, w0', h2⟩ := huses h2
    exact h.place h1 h2
  · rintro g ⟨q, u, w, hu⟩
    obtain ⟨q0, w0, hu⟩ := huses hu
    by_cases hg : ∃ v w, s.map p v = some (g, w)
    · obtain ⟨v, w', hv⟩ := hg
      have hnot : (s.procs, v) ∉ s.owners g := by
        rintro ⟨w'', hv'⟩
        exact absurd (h.inside hv') (Nat.lt_irrefl _)
      rw [fork_owners h hp hm hv, Set.ncard_insert_of_notMem hnot (h.finite g), (hs v g w' hv).1, h.count (.of_map hv)]
    · have hg' : ∀ v w, s.map p v ≠ some (g, w) := fun v w hv => hg ⟨v, w, hv⟩
      rw [fork_owners_other h hp hm hg', (hk g (.of_map hu) hg').1, h.count (.of_map hu)]
  · rintro g ⟨q, u, w, hu⟩ hlt
    obtain ⟨q0, w0, hu⟩ := huses hu
    by_cases hg : ∃ v w, s.map p v = some (g, w)
    · obtain ⟨v, w', hv⟩ := hg
      refine ⟨(hs v g w' hv).2, fun r u' w1 hr => ?_⟩
      obtain ⟨-, rfl, -⟩ | ⟨hne, hr⟩ := fork_origin hm hr
      · rfl
      · -- the frame is shared with another process, so that it is not writable before
        refine (h.guard (.of_map hv) (Nat.lt_of_not_le fun hle => ?_)).2 r u' w1 hr
        exact hne (.inl (Prod.mk.inj (h.single hv hr hle)).1)
    · have hg' : ∀ v w, s.map p v ≠ some (g, w) := fun v w hv => hg ⟨v, w, hv⟩
      obtain ⟨h1, h2⟩ := hk g (.of_map hu) hg'
      rw [h1] at hlt
      obtain ⟨h3, h4⟩ := h.guard (.of_map hu) hlt
      refine ⟨h2.2 h3, fun r u' w1 hr => ?_⟩
      obtain ⟨-, rfl, -⟩ | ⟨-, hr⟩ := fork_origin hm hr
      · rfl
      · exact h4 r u' w1 hr

end Fork

/-- Every step keeps the counts right. -/
theorem Step.inv (h : Inv s) (hstep : Step s s' l) : Inv s' := by
  cases hstep with
  | idle hp hm hk => exact h.of_map_eq hp hm fun g hg => ⟨(hk g hg).count, (hk g hg).flagged⟩
  | write hv hp hm hc hf hd => exact h.of_map_eq hp hm hc
  | fork hp hn hm hs hk =>
    refine fork_inv h hp hm hn (fun v f w hv => ?_) fun f hf hnot => ⟨(hk f hf hnot).count, (hk f hf hnot).flagged⟩
    obtain ⟨h1, h2, -⟩ := hs v f w hv
    exact ⟨h1, h2⟩
  | @demand p v f w hp hv hf hm hc hk =>
    have hempty : s.owners f = ∅ := by
      ext ⟨q, u⟩
      exact ⟨fun ⟨w', hu⟩ => hf ⟨q, u, w', hu⟩, False.elim⟩
    refine h.remap hm hp (fun q u w' hu => absurd (.of_map hu) hf) ?_ (by omega) fun g hg hgf => ?_
    · rw [hm.owners_self, hempty, hc]
      simp
    · have hnot : (p, v) ∉ s.owners g := by
        rintro ⟨w', hv'⟩
        rw [hv] at hv'
        cases hv'
      rw [hm.owners_other hgf, Set.sdiff_singleton_eq_self hnot, (hk g hg).count, (hk g hg).flagged]
      exact ⟨h.count hg, fun hlt => ⟨hlt, id⟩⟩
  | @copy p v f w0 f' w hv hf hf' hm hc hd hcf hff hdf hk =>
    have hempty : s.owners f' = ∅ := by
      ext ⟨q, u⟩
      exact ⟨fun ⟨w', hu⟩ => hf' ⟨q, u, w', hu⟩, False.elim⟩
    refine h.remap hm (h.inside hv) (fun q u w' hu => absurd (.of_map hu) hf') ?_ (by omega) fun g hg hgf => ?_
    · rw [hm.owners_self, hempty, hc]
      simp
    · rw [hm.owners_other hgf]
      by_cases hgf' : g = f
      · subst hgf'
        have hmem : (p, v) ∈ s.owners g := ⟨w0, hv⟩
        rw [Set.ncard_sdiff_singleton_of_mem hmem, ← h.count hg, hff]
        exact ⟨by omega, fun _ => ⟨hf, id⟩⟩
      · have hnot : (p, v) ∉ s.owners g := by
          rintro ⟨w', hv'⟩
          rw [hv] at hv'
          exact hgf' (Prod.mk.inj (Option.some.inj hv')).1.symm
        rw [Set.sdiff_singleton_eq_self hnot, (hk g hg hgf').count, (hk g hg hgf').flagged]
        exact ⟨h.count hg, fun hlt => ⟨hlt, id⟩⟩
  | @retain p v f w0 w hv hf hm hcf hdf hk =>
    refine h.remap hm (h.inside hv) (fun q u w' hu => h.place hu hv) ?_ (by omega) fun g hg hgf => ?_
    · have hmem : (p, v) ∈ s.owners f := ⟨w0, hv⟩
      rw [hm.owners_self, Set.insert_eq_of_mem hmem, hcf]
      exact h.count (.of_map hv)
    · have hnot : (p, v) ∉ s.owners g := by
        rintro ⟨w', hv'⟩
        rw [hv] at hv'
        exact hgf (Prod.mk.inj (Option.some.inj hv')).1.symm
      rw [hm.owners_other hgf, Set.sdiff_singleton_eq_self hnot, (hk g hg hgf).count, (hk g hg hgf).flagged]
      exact ⟨h.count hg, fun hlt => ⟨hlt, id⟩⟩

/-- A frame in use stays in use. -/
theorem Step.uses (h : Inv s) (hstep : Step s s' l) (hf : s.Uses f) : s'.Uses f := by
  obtain ⟨q, u, w, hu⟩ := hf
  -- a mapping other than the one replaced
  have hkept : ∀ {p v x}, s.Remaps s' p v x → ∀ {q u}, (q, u) ∈ s.owners f → (q, u) ≠ (p, v) → s'.Uses f := by
    rintro p v x hm q u ⟨w, hu⟩ hne
    refine ⟨q, u, w, (hm.2 q u).trans ?_⟩
    rw [if_neg fun he => hne (Prod.mk.injEq .. ▸ he)]
    exact hu
  cases hstep with
  | idle hp hm hk => exact ⟨q, u, w, (hm q u).trans hu⟩
  | write hv hp hm hc hf hd => exact ⟨q, u, w, (hm q u).trans hu⟩
  | @demand p v g w' hp hv hf hm hc hk =>
    refine hkept hm ⟨w, hu⟩ ?_
    rintro ⟨⟩
    rw [hv] at hu
    cases hu
  | @fork p hp hn hm hs hk =>
    by_cases hq : q = p ∨ q = s.procs
    · obtain rfl : q = p := hq.resolve_right (Nat.ne_of_lt (h.inside hu))
      exact ⟨q, u, false, by rw [hm, if_pos hq, hu]; rfl⟩
    · exact ⟨q, u, w, by rw [hm, if_neg hq]; exact hu⟩
  | @copy p v g w0 g' w' hv hg hg' hm hc hd hcf hff hdf hk =>
    by_cases hfg : f = g
    · subst hfg
      rw [h.count (.of_map hv)] at hg
      obtain ⟨⟨q', u'⟩, hmem, hne⟩ := Set.exists_ne_of_one_lt_ncard hg (p, v)
      exact hkept hm hmem hne
    · refine hkept hm ⟨w, hu⟩ ?_
      rintro ⟨⟩
      rw [hv] at hu
      exact hfg (Prod.mk.inj (Option.some.inj hu)).1.symm
  | @retain p v g w0 w' hv hg hm hcf hdf hk =>
    by_cases hfg : f = g
    · subst hfg
      exact ⟨p, v, w', (hm.2 p v).trans (if_pos ⟨rfl, rfl⟩)⟩
    · refine hkept hm ⟨w, hu⟩ ?_
      rintro ⟨⟩
      rw [hv] at hu
      exact hfg (Prod.mk.inj (Option.some.inj hu)).1.symm

/-- A process gives up one mapping. -/
structure Releases (s s' : State V F C) (p : Nat) (v : V) (f : F) : Prop where
  mapped : (p, v) ∈ s.owners f
  procs_eq : s'.procs = s.procs
  map_eq : ∀ q u, s'.map q u = if q = p ∧ u = v then none else s.map q u
  count : s'.Uses f → s'.count f + 1 = s.count f ∧ (s'.flagged f ↔ s.flagged f)
  kept : ∀ g, s'.Uses g → g ≠ f → s'.count g = s.count g ∧ (s'.flagged g ↔ s.flagged g)

private theorem Releases.map_of (h : Releases s s' p v f) (hu : s'.map q u = some x) : s.map q u = some x := by
  rw [h.map_eq] at hu
  split at hu
  · cases hu
  · exact hu

theorem Releases.uses (h : Releases s s' p v f) (hg : s'.Uses g) : s.Uses g := by
  obtain ⟨q, u, w, hu⟩ := hg
  exact ⟨q, u, w, h.map_of hu⟩

private theorem Releases.owners (h : Releases s s' p v f) : s'.owners g = s.owners g \ {(p, v)} := by
  ext ⟨q, u⟩
  rw [Set.mem_sdiff, State.mem_owners, State.mem_owners, h.map_eq]
  split
  · rename_i he
    simp [he]
  · rename_i he
    simp [he]

/-- The counts stay right when a mapping is given up. -/
theorem Releases.inv (hs : Inv s) (h : Releases s s' p v f) : Inv s' := by
  have hother : ∀ g, g ≠ f → s'.owners g = s.owners g := by
    intro g hg
    rw [h.owners, Set.sdiff_singleton_eq_self]
    rintro ⟨w, hw⟩
    obtain ⟨w', hw'⟩ := h.mapped
    rw [hw] at hw'
    exact hg (Prod.mk.inj (Option.some.inj hw')).1
  -- a count that is above `1` was above `1` before
  have hcount : ∀ g, s'.Uses g → s'.count g = (s'.owners g).ncard ∧ s'.count g ≤ s.count g ∧
      (s'.flagged g ↔ s.flagged g) := by
    intro g hg
    have hold := hs.count (h.uses hg)
    by_cases hgf : g = f
    · subst hgf
      obtain ⟨h1, h2⟩ := h.count hg
      refine ⟨?_, by omega, h2⟩
      rw [h.owners, Set.ncard_sdiff_singleton_of_mem h.mapped]
      omega
    · obtain ⟨h1, h2⟩ := h.kept g hg hgf
      refine ⟨?_, by omega, h2⟩
      rw [hother g hgf]
      omega
  refine ⟨?_, ?_, fun hg => (hcount _ hg).1, ?_⟩
  · intro q u x hu
    rw [h.procs_eq]
    exact hs.inside (h.map_of hu)
  · intro q r u u' g w1 w2 h1 h2
    exact hs.place (h.map_of h1) (h.map_of h2)
  · intro g hg hlt
    obtain ⟨-, hle, hflag⟩ := hcount g hg
    obtain ⟨h1, h2⟩ := hs.guard (h.uses hg) (by omega)
    exact ⟨hflag.2 h1, fun q u w hu => h2 q u w (h.map_of hu)⟩

/-- The machine in which each process has memory of its own. -/
structure Eager (V C : Type) where
  procs : Nat
  mem : Nat → V → Option C

/-- A step of the machine that copies at once: it touches the memory of one process, and a fork copies all of it. -/
def Eager.step (e : Eager V C) : Label V C → Eager V C
  | .silent => e
  | .demand p v c => { e with mem := fun q u => if q = p ∧ u = v then some c else e.mem q u }
  | .write p v g => { e with mem := fun q u => if q = p ∧ u = v then (e.mem p v).map g else e.mem q u }
  | .fork p => ⟨e.procs + 1, fun q u => if q = e.procs then e.mem p u else e.mem q u⟩

def State.view (s : State V F C) : Eager V C := ⟨s.procs, fun p v => (s.map p v).map fun x => s.data x.1⟩

omit [DecidableEq V] in
private theorem view_eq {m : Nat → V → Option C} (hm : ∀ q u, (s'.map q u).map (fun x => s'.data x.1) = m q u) :
    s'.view = ⟨s'.procs, m⟩ := by
  unfold State.view
  congr
  funext q u
  exact hm q u

omit [DecidableEq V] in
private theorem view_kept {o : Option (F × Bool)} (hd : ∀ x, o = some x → s'.data x.1 = s.data x.1) :
    o.map (fun x => s'.data x.1) = o.map fun x => s.data x.1 := by
  cases o with
  | none => rfl
  | some x => rw [map_some, map_some, hd x rfl]

private theorem State.Remaps.view (hm : s.Remaps s' p v x)
    (hd : ∀ q u y, ¬ (q = p ∧ u = v) → s.map q u = some y → s'.data y.1 = s.data y.1) :
    s'.view = ⟨s.procs, fun q u => if q = p ∧ u = v then some (s'.data x.1) else s.view.mem q u⟩ := by
  rw [← hm.1]
  refine view_eq fun q u => ?_
  rw [hm.2]
  by_cases he : q = p ∧ u = v
  · rw [if_pos he, if_pos he, map_some]
  · rw [if_neg he, if_neg he]
    exact view_kept fun y hy => hd q u y he hy

private theorem State.Remaps.view_same (hm : s.Remaps s' p v x) (hv : s.map p v = some (f, w))
    (hx : s'.data x.1 = s.data f) (hd : ∀ q u y, ¬ (q = p ∧ u = v) → s.map q u = some y → s'.data y.1 = s.data y.1) :
    s'.view = s.view := by
  rw [hm.view hd]
  congr
  funext q u
  split
  · rename_i he
    rw [he.1, he.2, hv, hx, map_some]
  · rfl

/-- What the processes see is what they see on the machine that copies at once. -/
theorem Step.view (h : Inv s) (hstep : Step s s' l) : s'.view = s.view.step l := by
  cases hstep with
  | idle hp hm hk =>
    rw [view_eq (m := s.view.mem) fun q u => ?_, hp]
    · rfl
    · rw [hm]
      exact view_kept fun y hy => (hk y.1 (.of_map hy)).data
  | demand hp hv hf hm hc hk => exact hm.view fun q u y _ hy => (hk y.1 (.of_map hy)).data
  | @write p v f g hv hp hm hc hf hd =>
    rw [view_eq (m := (s.view.step (.write p v g)).mem) fun q u => ?_, hp]
    · rfl
    · rw [hm]
      show _ = if q = p ∧ u = v then ((s.map p v).map fun x => s.data x.1).map g else _
      split
      · rename_i he
        rw [he.1, he.2, hv, map_some, map_some, map_some, hf]
      · rename_i he
        refine view_kept fun y hy => hd y.1 (.of_map hy) fun hyf => he ?_
        -- nobody else maps the frame that is written
        rcases y with ⟨f', w⟩
        obtain rfl : f' = f := hyf
        exact Prod.mk.inj (h.single_of_writable hv hy)
  | @fork p hp hn hm hs hk =>
    have hdata : ∀ q u y, s.map q u = some y → s'.data y.1 = s.data y.1 := by
      rintro q u ⟨f, w⟩ hy
      by_cases hf : ∃ v w, s.map p v = some (f, w)
      · obtain ⟨v, w', hv⟩ := hf
        exact (hs v f w' hv).2.2
      · exact (hk f (.of_map hy) fun v w' hv => hf ⟨v, w', hv⟩).data
    have hlower : ∀ u, ((s.map p u).map lower).map (fun x => s'.data x.1) = (s.map p u).map fun x => s.data x.1 := by
      intro u
      rw [Option.map_map]
      exact view_kept fun y hy => hdata p u y hy
    rw [view_eq (m := (s.view.step (.fork p)).mem) fun q u => ?_, hn]
    · rfl
    · rw [hm]
      show _ = if q = s.procs then (s.map p u).map (fun x => s.data x.1) else (s.map q u).map fun x => s.data x.1
      by_cases hq : q = s.procs
      · rw [if_pos (.inr hq), if_pos hq]
        exact hlower u
      · split
        · rename_i hqp
          rw [hqp.resolve_right hq]
          exact hlower u
        · exact view_kept fun y hy => hdata q u y hy
  | @copy p v f w0 f' w hv hf hf' hm hc hd hcf hff hdf hk =>
    refine hm.view_same hv hd fun q u y _ hy => ?_
    by_cases hyf : y.1 = f
    · rw [hyf]
      exact hdf
    · exact (hk y.1 (.of_map hy) hyf).data
  | @retain p v f w0 w hv hf hm hcf hdf hk =>
    refine hm.view_same hv hdf fun q u y _ hy => ?_
    by_cases hyf : y.1 = f
    · rw [hyf]
      exact hdf
    · exact (hk y.1 (.of_map hy) hyf).data

end Adix.Sharing
