import Adix.Vma.Layout

/-!
# Searching the list of areas

`find_vma_intersection` compares with the list head when no area ends above the interval. The gap search of `mmap` takes
the first gap that has one byte more than it is asked for.
-/

namespace Adix.Vma

open List Option BitVec
open BitVec (toNat_add)

variable {env : Env} {head v w : VmArea} {l l' : List VmArea} {addr len a s e : BitVec 64}

def VmArea.Overlaps (w : VmArea) (s e : BitVec 64) : Prop := ∃ a, (w.vmStart ≤ a ∧ a < w.vmEnd) ∧ s ≤ a ∧ a < e

def Clear (l : List VmArea) (s e : BitVec 64) : Prop := ∀ w ∈ l, ¬ w.Overlaps s e

theorem VmArea.Overlaps.mono {s' e' : BitVec 64} (h : w.Overlaps s e) (hs : s' ≤ s) (he : e ≤ e') :
    w.Overlaps s' e' := by
  obtain ⟨a, hw, h1, h2⟩ := h
  exact ⟨a, hw, BitVec.le_trans hs h1, Nat.lt_of_lt_of_le h2 he⟩

private theorem overlaps_iff (hw : w.vmStart < w.vmEnd) (hse : s < e) :
    w.Overlaps s e ↔ w.vmStart < e ∧ s < w.vmEnd := by
  constructor
  · rintro ⟨a, ⟨h1, h2⟩, h3, h4⟩
    exact ⟨Nat.lt_of_le_of_lt h1 h4, Nat.lt_of_le_of_lt h3 h2⟩
  · rintro ⟨h1, h2⟩
    by_cases hle : s ≤ w.vmStart
    · exact ⟨w.vmStart, ⟨BitVec.le_refl _, hw⟩, hle, h1⟩
    · exact ⟨s, ⟨BitVec.le_of_lt (BitVec.not_le.1 hle), h2⟩, BitVec.le_refl _, hse⟩

/-- An interval is clear if it lies on one side of each area. -/
theorem clear_iff (h : Valid l) (hse : s < e) : Clear l s e ↔ ∀ w ∈ l, e ≤ w.vmStart ∨ w.vmEnd ≤ s := by
  refine forall₂_congr fun w hw => ?_
  rw [overlaps_iff (h.proper w hw) hse, not_and_or, BitVec.not_lt, BitVec.not_lt]

private theorem insertVma_complete (head : VmArea) (prev : Option VmArea) (h : Valid l) (hne : l ≠ [])
    (hprev : ∀ p ∈ prev, p.vmEnd ≤ v.vmStart) (hclear : ∀ w ∈ l, v.vmEnd ≤ w.vmStart ∨ w.vmEnd ≤ v.vmStart) :
    (insertVma head v prev l).isSome := by
  induction l generalizing prev with
  | nil => exact absurd rfl hne
  | cons node rest ih =>
    rw [insertVma]
    split
    · rfl
    · next hfirst =>
      split
      · rfl
      · next hlast =>
        split
        · rfl
        · next hbetween =>
          -- the area is behind the node, so the scan goes on
          have hbehind : node.vmEnd ≤ v.vmStart := by
            refine (hclear node (by simp)).resolve_left fun hle => ?_
            cases prev with
            | none => exact hfirst ⟨rfl, hle⟩
            | some p => exact hbetween ⟨hprev p rfl, hle⟩
          have hrest : rest ≠ [] := fun hnil => hlast ⟨by simp [hnil], hbehind⟩
          rw [isSome_map]
          exact ih (some node) h.tail hrest (by rintro p ⟨⟩; exact hbehind) fun w hw => hclear w (by simp [hw])

private theorem insertVma_head (head head' : VmArea) (prev : Option VmArea) :
    insertVma head v prev l = insertVma head' v prev l := by
  induction l generalizing prev with
  | nil => rfl
  | cons node rest ih =>
    rw [insertVma, insertVma, ih]
    cases prev with
    | some p => rfl
    | none =>
      by_cases hle : v.vmEnd ≤ node.vmStart
      · simp [hle]
      · simp [hle]

private theorem addVmaGrowable_accepts {prot maxSize : BitVec 64} {flags : BitVec 32} (h : Valid l)
    (hok : env.kmallocOk = true) (hlt : s < e) (hclear : Clear l s e) :
    (addVmaGrowable env l s e prot flags maxSize).2 = 0 := by
  unfold addVmaGrowable
  rw [if_neg (BitVec.not_le.2 hlt), hok]
  cases l with
  | nil => rfl
  | cons node rest =>
    obtain ⟨l', hl'⟩ := isSome_iff_exists.1 (insertVma_complete (v := ⟨s, e, prot, flags, maxSize⟩)
      env.head none h (by simp) (by simp) ((clear_iff h hlt).1 hclear))
    rw [hl']
    rfl

/-- `add_vma_growable` accepts an area if and only if it is not empty and overlaps no other, and then inserts it at its
place; otherwise the list is as before. The bytes at the list head do not matter. -/
theorem add_vma_accepts_iff (l : List VmArea) (h : Valid l) (env : Env) (hok : env.kmallocOk = true)
    (startAddr endAddr prot : BitVec 64) (flags : BitVec 32) (maxSize : BitVec 64) :
    ((addVmaGrowable env l startAddr endAddr prot flags maxSize).2 = 0 ↔ startAddr < endAddr ∧
    Clear l startAddr endAddr) ∧
    ((addVmaGrowable env l startAddr endAddr prot flags maxSize).2 = 0 ∧
        Inserted ⟨startAddr, endAddr, prot, flags, maxSize⟩ l
          (addVmaGrowable env l startAddr endAddr prot flags maxSize).1 ∨
      addVmaGrowable env l startAddr endAddr prot flags maxSize = (l, -1)) ∧
    ∀ head, addVmaGrowable { env with head := head } l startAddr endAddr prot flags maxSize =
      addVmaGrowable env l startAddr endAddr prot flags maxSize := by
  refine ⟨⟨fun hzero => ?_, fun ⟨hlt, hclear⟩ => ?_⟩, ?_, fun head => ?_⟩
  · obtain he | ⟨hlt, l', -, l1, l2, rfl, -, hbelow, habove⟩ :=
      addVmaGrowable_spec h env startAddr endAddr prot flags maxSize
    · rw [he] at hzero
      cases hzero
    · refine ⟨hlt, (clear_iff h hlt).2 fun w hw => ?_⟩
      rcases mem_append.1 hw with hw | hw
      · exact .inr (hbelow w hw)
      · exact .inl (habove w hw)
  · exact addVmaGrowable_accepts h hok hlt hclear
  · obtain he | ⟨-, l', he, hi⟩ := addVmaGrowable_spec h env startAddr endAddr prot flags maxSize
    · exact .inr he
    · rw [he]
      exact .inl ⟨rfl, hi⟩
  · unfold addVmaGrowable
    dsimp only
    rw [insertVma_head head env.head]

private def pageBetween : List VmArea := [⟨0x1000, 0x2000, 6, 0, -1⟩, ⟨0x3000, 0x4000, 6, 0, -1⟩]

private theorem valid_pageBetween : Valid pageBetween := ⟨by decide, by decide⟩

theorem add_vma_accepts_page : Valid pageBetween ∧
    (addVmaGrowable ⟨true, ⟨0, 0, 0, 0, 0⟩⟩ pageBetween 0x2000 0x3000 6 0 (-1)).2 = 0 ∧
    0x2000#64 < 0x3000#64 ∧ Clear pageBetween 0x2000 0x3000 := by
  have hzero : (addVmaGrowable ⟨true, ⟨0, 0, 0, 0, 0⟩⟩ pageBetween 0x2000 0x3000 6 0 (-1)).2 = 0 := by decide
  exact ⟨valid_pageBetween, hzero, (add_vma_accepts_iff _ valid_pageBetween _ rfl _ _ _ _ _).1.1 hzero⟩

def Fits (l : List VmArea) (len a : BitVec 64) : Prop := a.toNat + len.toNat < 2 ^ 64 ∧ Clear l a (a + len)

/-- The lowest address from `addr` on where `len` bytes fit. -/
structure LowestFit (l : List VmArea) (addr len a : BitVec 64) : Prop where
  hint_le : addr ≤ a
  fits : Fits l len a
  le : ∀ b, addr ≤ b → Fits l len b → a ≤ b

private theorem Fits.iff_bounds (h : Valid l) (hlen : 0 < len) : Fits l len a ↔
    a.toNat + len.toNat < 2 ^ 64 ∧ ∀ w ∈ l, a.toNat + len.toNat ≤ w.vmStart.toNat ∨ w.vmEnd.toNat ≤ a.toNat := by
  refine and_congr_right fun hwrap => ?_
  have hto : (a + len).toNat = a.toNat + len.toNat := by
    rw [toNat_add]
    exact Nat.mod_eq_of_lt hwrap
  have hpos : 0 < len.toNat := lt_def.1 hlen
  rw [clear_iff h (lt_def.2 (by omega))]
  simp only [le_def, hto]

open Fits (iff_bounds)

/-- The search from `addr` on, over areas that end above it, finds the lowest fit unless an area begins right behind
that. -/
theorem searchGap_eq_iff (h : Valid l) (hlen : 0 < len) (habove : ∀ w ∈ l, addr < w.vmEnd)
    (hlow : LowestFit l addr len a) : searchGap len addr l = a ↔ ∀ w ∈ l, w.vmStart.toNat ≠ a.toNat + len.toNat := by
  obtain ⟨hle, hfits, hleast⟩ := hlow
  obtain ⟨hwrap, hclear⟩ := (iff_bounds h hlen).1 hfits
  have hleNat := le_def.1 hle
  induction l generalizing addr with
  | nil =>
    have hback : a ≤ addr := hleast addr (BitVec.le_refl _) ((iff_bounds h hlen).2 ⟨by omega, by simp⟩)
    simpa [searchGap] using BitVec.le_antisymm hle hback
  | cons node rest ih =>
    have hto : (addr + len).toNat = addr.toNat + len.toNat := by
      rw [toNat_add]
      exact Nat.mod_eq_of_lt (by omega)
    have hnode := lt_def.1 (h.proper node (by simp))
    have hbehind : ∀ w ∈ rest, node.vmEnd.toNat ≤ w.vmStart.toNat := fun w hw => le_def.1 (h.head_le w hw)
    have hend := lt_def.1 (habove node (by simp))
    -- if the first gap is large enough, this is the lowest fit
    have hhere : addr.toNat + len.toNat ≤ node.vmStart.toNat → a = addr := by
      intro hgap
      refine BitVec.le_antisymm (hleast addr (BitVec.le_refl _) ((iff_bounds h hlen).2 ⟨by omega, ?_⟩)) hle
      intro w hw
      rcases mem_cons.1 hw with rfl | hw
      · exact .inl hgap
      · have := hbehind w hw
        exact .inl (by omega)
    unfold searchGap
    by_cases hgap : addr + len < node.vmStart
    · rw [if_pos hgap]
      rw [lt_def, hto] at hgap
      obtain rfl := hhere (by omega)
      refine iff_of_true rfl fun w hw => ?_
      rcases mem_cons.1 hw with rfl | hw
      · omega
      · have := hbehind w hw
        omega
    · rw [if_neg hgap]
      rw [lt_def, hto] at hgap
      have habove' : ∀ w ∈ rest, node.vmEnd < w.vmEnd := by
        intro w hw
        have h1 := hbehind w hw
        have h2 := lt_def.1 (h.proper w (by simp [hw]))
        exact lt_def.2 (by omega)
      by_cases hexact : addr.toNat + len.toNat = node.vmStart.toNat
      · -- the gap is filled exactly, and the search goes past the area
        obtain rfl := hhere (by omega)
        refine iff_of_false (fun heq => ?_) fun hnot => hnot node (by simp) hexact.symm
        have hpast : node.vmEnd ≤ searchGap len node.vmEnd rest :=
          le_searchGap h.tail fun w hw => BitVec.le_of_lt (habove' w hw)
        rw [heq, le_def] at hpast
        omega
      · have hpast : node.vmEnd.toNat ≤ a.toNat := (hclear node (by simp)).resolve_left (by omega)
        have hleast' : ∀ b, node.vmEnd ≤ b → Fits rest len b → a ≤ b := by
          -- what fits behind the area fits the whole list
          intro b hb hfit
          have hb' := le_def.1 hb
          obtain ⟨hwrap', hclear'⟩ := (iff_bounds h.tail hlen).1 hfit
          refine hleast b (le_def.2 (by omega)) ((iff_bounds h hlen).2 ⟨hwrap', fun w hw => ?_⟩)
          rcases mem_cons.1 hw with rfl | hw
          · exact .inr hb'
          · exact hclear' w hw
        have hiff := ih h.tail habove' (le_def.2 hpast) ⟨hwrap, fun w hw => hfits.2 w (by simp [hw])⟩ hleast'
          (fun w hw => hclear w (by simp [hw])) hpast
        refine hiff.trans ?_
        rw [forall_mem_cons]
        exact (and_iff_right (by omega)).symm

/-- For a list of areas in order: if `a` is the lowest address from the hint on where the bytes fit, `mmap` returns it
if and only if no area begins right behind them. -/
theorem mmap_first_fit_iff (l : List VmArea) (h : Valid l) (env : Env) (hok : env.kmallocOk = true)
    (addr len prot : BitVec 64) (flags : BitVec 32) (hlen : 0 < len) (a : BitVec 64) (hlow : LowestFit l addr len a) :
    (mmap env l addr len prot flags).2 = a ↔ ∀ w ∈ l, w.vmStart.toNat ≠ a.toNat + len.toNat := by
  have hpos : 0 < len.toNat := lt_def.1 hlen
  obtain ⟨hwrap, hclear⟩ := hlow.fits
  have hle := le_def.1 hlow.hint_le
  have hlt : a < a + len := by
    rw [lt_def, toNat_add, Nat.mod_eq_of_lt hwrap]
    omega
  have hne : a ≠ -1 := by
    rintro rfl
    rw [show (-1 : BitVec 64).toNat = 2 ^ 64 - 1 from rfl] at hwrap
    omega
  -- the areas that end below the hint play no part
  have hsearch : getUnmappedArea l addr len = a ↔ ∀ w ∈ l, w.vmStart.toNat ≠ a.toNat + len.toNat := by
    have hsub : (fromVma addr l).Sublist l := fromVma_sublist
    have hlow' : LowestFit (fromVma addr l) addr len a := by
      refine ⟨hlow.hint_le, ⟨hwrap, fun w hw => hclear w (hsub.subset hw)⟩, fun b hb hfit => hlow.le b hb ?_⟩
      obtain ⟨hwrap', hclear'⟩ := (iff_bounds (h.sublist hsub) hlen).1 hfit
      refine (iff_bounds h hlen).2 ⟨hwrap', fun w hw => ?_⟩
      obtain hbelow | hw : w.vmEnd ≤ addr ∨ w ∈ fromVma addr l := fromVma_below hw
      · exact .inr (le_def.1 (BitVec.le_trans hbelow hb))
      · exact hclear' w hw
    have hiff := searchGap_eq_iff (h.sublist hsub) hlen (fromVma_above h) hlow'
    refine hiff.trans ⟨fun hall w hw => ?_, fun hall w hw => hall w (hsub.subset hw)⟩
    obtain hbelow | hw : w.vmEnd ≤ addr ∨ w ∈ fromVma addr l := fromVma_below hw
    · have h1 := le_def.1 hbelow
      have h2 := lt_def.1 (h.proper w hw)
      omega
    · exact hall w hw
  rw [← hsearch]
  unfold mmap mmapGrowable
  dsimp only
  constructor
  · intro heq
    split at heq
    · exact absurd heq.symm hne
    · exact heq
  · intro heq
    have hzero : (addVmaGrowable env l a (a + len) prot flags (-1)).2 = 0 := addVmaGrowable_accepts h hok hlt hclear
    rw [heq, hzero]
    rfl

private theorem lowestFit_pageBetween (hfits : 0x2000 ≤ a.toNat ∧ a.toNat + len.toNat ≤ 0x3000)
    (hlen : 0 < len) (hle : addr ≤ a) (hgap : addr.toNat < 0x2000 ∧ a.toNat = 0x2000 ∨ a = addr)
    (haddr : 0x1000 ≤ addr.toNat) :
    LowestFit pageBetween addr len a := by
  have hpos : 0 < len.toNat := lt_def.1 hlen
  refine ⟨hle, (iff_bounds valid_pageBetween hlen).2 ⟨by omega, ?_⟩, fun b hb hfit => ?_⟩
  · simp only [pageBetween, forall_mem_cons]
    exact ⟨.inr hfits.1, .inl hfits.2, by simp⟩
  · obtain ⟨-, hclear⟩ := (iff_bounds valid_pageBetween hlen).1 hfit
    rcases hgap with ⟨hlow, heq⟩ | rfl
    · have hfirst : b.toNat + len.toNat ≤ 0x1000 ∨ 0x2000 ≤ b.toNat :=
        hclear ⟨0x1000, 0x2000, 6, 0, -1⟩ (by simp [pageBetween])
      have := le_def.1 hb
      exact le_def.2 (by omega)
    · exact hb

theorem mmap_first_fit_behind : LowestFit pageBetween 0x1800 0x800 0x2000 ∧
    (mmap ⟨true, ⟨0, 0, 0, 0, 0⟩⟩ pageBetween 0x1800 0x800 6 0).2 = 0x2000 := by
  have hlow : LowestFit pageBetween 0x1800 0x800 0x2000 :=
    lowestFit_pageBetween (by decide) (by decide) (by decide) (by decide) (by decide)
  exact ⟨hlow, (mmap_first_fit_iff _ valid_pageBetween _ rfl _ _ _ _ (by decide) _ hlow).2 (by decide)⟩

/-- A page that fills the gap is free at the hint, but it is placed behind both areas. -/
theorem mmap_first_fit_exact : ¬ ∀ l, Valid l → ∀ env : Env, env.kmallocOk = true →
    ∀ (addr len prot : BitVec 64) (flags : BitVec 32), 0 < len → ∀ a, LowestFit l addr len a →
      (mmap env l addr len prot flags).2 = a := by
  intro h
  have hlow : LowestFit pageBetween 0x2000 0x1000 0x2000 :=
    lowestFit_pageBetween (by decide) (by decide) (by decide) (by decide) (by decide)
  have hplaced := h pageBetween valid_pageBetween ⟨true, ⟨0, 0, 0, 0, 0⟩⟩ rfl 0x2000 0x1000 6 0 (by decide) _ hlow
  exact absurd hplaced (by decide)

/-- The pointer that `find_vma_intersection` returns: `none` for `NULL`, and `some none` for the list head. -/
def vmaIntersection (env : Env) (mmap : List VmArea) (startAddr endAddr : BitVec 64) : Option (Option VmArea) :=
  let node := findVma mmap startAddr
  if endAddr ≤ (node.getD env.head).vmStart then none else some node

private theorem findVmaIntersection_eq : findVmaIntersection env l s e = (vmaIntersection env l s e).isSome := by
  unfold findVmaIntersection vmaIntersection
  by_cases hle : e ≤ ((findVma l s).getD env.head).vmStart
  · simp [hle]
  · simp [hle]

/-- The answer is `NULL` if no area overlaps the interval, and the lowest one that does otherwise. -/
structure FindsLowest (env : Env) (l : List VmArea) (s e : BitVec 64) : Prop where
  null_iff : vmaIntersection env l s e = none ↔ Clear l s e
  lowest : ¬ Clear l s e → ∃ w ∈ l, vmaIntersection env l s e = some (some w) ∧ w.Overlaps s e ∧
    ∀ w' ∈ l, w'.Overlaps s e → w.vmStart ≤ w'.vmStart

private theorem findVma_eq_some (h : Valid l) (hv : findVma l addr = some v) : v ∈ l ∧ addr < v.vmEnd ∧
    ∀ w ∈ l, w.vmEnd ≤ addr ∨ w = v ∨ v.vmEnd ≤ w.vmStart := by
  have hvalid : Valid (fromVma addr l) := h.sublist fromVma_sublist
  have habove : ∀ w ∈ fromVma addr l, addr < w.vmEnd := fromVma_above h
  obtain ⟨rest, hrest⟩ : ∃ rest, fromVma addr l = v :: rest := head?_eq_some_iff.1 hv
  refine ⟨fromVma_sublist.subset (by rw [hrest]; simp), habove v (by rw [hrest]; simp), fun w hw => ?_⟩
  refine (fromVma_below hw).imp id fun hw => ?_
  rw [hrest] at hw hvalid
  rcases mem_cons.1 hw with rfl | hw
  · exact .inl rfl
  · exact .inr (hvalid.head_le w hw)

private theorem findVma_eq_none (h : findVma l addr = none) : ∀ w ∈ l, w.vmEnd ≤ addr := by
  intro w hw
  refine (fromVma_below hw).resolve_right fun hw => ?_
  rw [head?_eq_none_iff.1 h] at hw
  cases hw

private theorem findsLowest_of_some (h : Valid l) (hse : s < e) (hv : findVma l s = some v) :
    FindsLowest env l s e := by
  obtain ⟨hmem, habove, hothers⟩ := findVma_eq_some h hv
  have hproper := h.proper v hmem
  have hanswer : vmaIntersection env l s e = if e ≤ v.vmStart then none else some (some v) := by
    unfold vmaIntersection
    rw [hv]
    rfl
  have hclear : Clear l s e ↔ e ≤ v.vmStart := by
    rw [clear_iff h hse]
    constructor
    · intro hall
      exact (hall v hmem).resolve_right (BitVec.not_le.2 habove)
    · intro hle w hw
      rcases hothers w hw with hbelow | rfl | hbehind
      · exact .inr hbelow
      · exact .inl hle
      · exact .inl (BitVec.le_trans hle (BitVec.le_of_lt (Nat.lt_of_lt_of_le hproper hbehind)))
  refine ⟨by rw [hanswer, hclear]; split <;> simp [*], fun hnot => ⟨v, hmem, ?_, ?_, fun w hw hover => ?_⟩⟩
  · rw [hclear] at hnot
    rw [hanswer, if_neg hnot]
  · rw [hclear] at hnot
    exact (overlaps_iff hproper hse).2 ⟨BitVec.not_le.1 hnot, habove⟩
  · obtain ⟨-, hlt⟩ := (overlaps_iff (h.proper w hw) hse).1 hover
    rcases hothers w hw with hbelow | rfl | hbehind
    · exact absurd hbelow (BitVec.not_le.2 hlt)
    · exact BitVec.le_refl _
    · exact BitVec.le_of_lt (Nat.lt_of_lt_of_le hproper hbehind)

/-- As long as an area ends above the start of the interval, the answer is right. -/
theorem findVmaIntersection_eq_false (h : Valid l) (hse : s < e) (hw : w ∈ l) (hlt : s < w.vmEnd) :
    findVmaIntersection env l s e = false ↔ Clear l s e := by
  cases hv : findVma l s with
  | none => exact absurd (findVma_eq_none hv w hw) (BitVec.not_le.2 hlt)
  | some v => rw [findVmaIntersection_eq, isSome_eq_false_iff, isNone_iff_eq_none,
    (findsLowest_of_some h hse hv).null_iff]

private theorem vmaIntersection_of_none (hv : findVma l s = none) :
    vmaIntersection env l s e = if e ≤ env.head.vmStart then none else some none := by
  unfold vmaIntersection
  rw [hv]
  rfl

/-- For a list of areas in order: the answer is right if and only if an area ends above the start of the interval, or
the word that is read at the list head happens to be at least its end; only in the first case does it depend on the
areas alone. -/
theorem find_intersection_iff (l : List VmArea) (h : Valid l) (s e : BitVec 64) (hse : s < e) (env : Env) :
    (FindsLowest env l s e ↔ (∃ w ∈ l, s < w.vmEnd) ∨ e ≤ env.head.vmStart) ∧
    ((∀ head, vmaIntersection { env with head := head } l s e = vmaIntersection env l s e) ↔ ∃ w ∈ l, s < w.vmEnd) := by
  cases hv : findVma l s with
  | some v =>
    obtain ⟨hmem, habove, -⟩ := findVma_eq_some h hv
    refine ⟨iff_of_true (findsLowest_of_some h hse hv) (.inl ⟨v, hmem, habove⟩), iff_of_true (fun head => ?_)
      ⟨v, hmem, habove⟩⟩
    unfold vmaIntersection
    rw [hv]
    rfl
  | none =>
    have hbelow := findVma_eq_none hv
    have hnone : ¬ ∃ w ∈ l, s < w.vmEnd := by
      rintro ⟨w, hw, hlt⟩
      exact absurd (hbelow w hw) (BitVec.not_le.2 hlt)
    have hclear : Clear l s e := (clear_iff h hse).2 fun w hw => .inr (hbelow w hw)
    refine ⟨?_, iff_of_false (fun hall => ?_) hnone⟩
    · rw [or_iff_right hnone]
      constructor
      · intro hfinds
        have hnull := hfinds.null_iff.2 hclear
        rw [vmaIntersection_of_none hv] at hnull
        by_contra hlt
        rw [if_neg hlt] at hnull
        cases hnull
      · intro hle
        refine ⟨iff_of_true ?_ hclear, fun hnot => absurd hclear hnot⟩
        rw [vmaIntersection_of_none hv, if_pos hle]
    · -- two heads, with a word above the interval and with a zero
      have h1 := hall ⟨e, 0, 0, 0, 0⟩
      have h2 := hall ⟨0, 0, 0, 0, 0⟩
      rw [← h2, vmaIntersection_of_none hv, vmaIntersection_of_none hv, if_pos (BitVec.le_refl e), if_neg] at h1
      · cases h1
      · exact BitVec.not_le.2 (Nat.lt_of_le_of_lt (Nat.zero_le _) hse)

theorem find_intersection_below : FindsLowest ⟨true, ⟨0, 0, 0, 0, 0⟩⟩ pageBetween 0x2800 0x3800 :=
  ((find_intersection_iff pageBetween valid_pageBetween 0x2800 0x3800 (by decide) _).1).2
    (.inl ⟨⟨0x3000, 0x4000, 6, 0, -1⟩, by decide, by decide⟩)

/-- With zeros before the list head, the list head is returned for every interval above the areas. -/
theorem find_intersection_above :
    ¬ ∀ (env : Env) (l : List VmArea), Valid l → ∀ s e, s < e → FindsLowest env l s e := by
  intro h
  have hfinds := h ⟨true, ⟨0, 0, 0, 0, 0⟩⟩ pageBetween valid_pageBetween 0x5000 0x6000 (by decide)
  have hclear : Clear pageBetween 0x5000 0x6000 := (clear_iff valid_pageBetween (by decide)).2 (by decide)
  exact absurd (hfinds.null_iff.2 hclear) (by decide)

end Adix.Vma
