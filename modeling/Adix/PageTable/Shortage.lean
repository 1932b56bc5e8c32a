import Adix.PageTable.SelfRef

/-!
# Mapping without free pages

`alloc_phys_pages` fails with `0`, and the callers of `get_zeroed_page_trans_obj` test the address `VIRTUAL_ADDR(0)` for
`NULL`. So the failure is seen only while `phys_mem_virt_map_base` is `0`, and page `0` is cleared before it is seen.
-/

namespace Adix.PageTable

open List Option
open PhysPages (Listed freeCount)

variable {s s' u : Mach} {pml4 t q f : Nat} {virt phys perm entry : Word} {σ π ρ : List Index} {i : Index}

/-- The pages on the free list are pages of the map of physical memory. -/
structure Mapped (s : Mach) : Prop where
  listed : Listed s.pages
  addr : ∀ q, Free s q → PageAddr q
  window : ∀ q, Free s q → q + s.base.toNat < 2 ^ 64

/-- The page translation objects on the way to the entry for `virt` are pages of their own: none is page `0`, and none
is free. -/
structure Owned (s : Mach) (pml4 : Nat) (virt : Word) : Prop extends Mapped s where
  object : ∀ σ q, σ <+: tablePath virt → Radix.walk entryFormat s.mem pml4 σ = some q → PageAddr q ∧ q ≠ 0 ∧ ¬ Free s q

/-- The objects of a well-formed table are pages of their own. -/
theorem WellFormed.owned {K : Index → Prop} {R : Nat → Prop} (hw : WellFormed K s R) (hr : R pml4)
    (hK : K (indexPml4e virt)) : Owned s pml4 virt where
  listed := hw.listed
  addr := hw.free
  window := hw.window
  object := by
    rintro σ q ⟨ρ, hρ⟩ hq
    refine hw.table q ⟨pml4, σ, hr, TablePath.left σ ρ ?_, hq⟩
    rw [hρ]
    exact tablePath_ok hK

/-- While the map of physical memory does not begin at `0`, no allocation seems to fail. -/
private theorem Mapped.getZeroed (hm : Mapped s) (hb : s.base ≠ 0) :
    (getZeroedPageTransObj s).1.virtualAddr (getZeroedPageTransObj s).2 ≠ 0 ∧ Mapped (getZeroedPageTransObj s).1 ∧
      (getZeroedPageTransObj s).1.base = s.base := by
  have hz := getZeroed_spec hm.listed
  generalize getZeroedPageTransObj s = g at hz ⊢
  obtain ⟨u, z⟩ := g
  have hsub : ∀ q, Free u q → Free s q := fun q hq => ((hz.free_iff q).1 hq).1
  refine ⟨?_, ⟨hz.listed, fun q hq => hm.addr q (hsub q hq), fun q hq => ?_⟩, hz.base_eq⟩
  · obtain ⟨rfl, -⟩ | ⟨h0, hf, -⟩ := hz.page
    · rw [virtualAddr_zero, hz.base_eq]
      exact hb
    · refine virtualAddr_ne_zero ?_ (hm.addr z hf) h0
      rw [hz.base_eq]
      exact hm.window z hf
  · rw [hz.base_eq]
    exact hm.window q (hsub q hq)

private theorem nextTable_isSome (hm : Mapped s) (hb : s.base ≠ 0) (t : Nat) (i : Index) :
    ∃ s' t', nextTable s t i = (s', some t') ∧ Mapped s' ∧ s'.base ≠ 0 := by
  obtain ⟨hne, hm', hbase⟩ := hm.getZeroed hb
  unfold nextTable
  by_cases hp : s.mem t i &&& pageTransPresent = 0
  · generalize getZeroedPageTransObj s = g at hne hm' hbase ⊢
    obtain ⟨u, z⟩ := g
    refine ⟨u.store t i (tableEntry z), z, ?_, ⟨hm'.listed, hm'.addr, hm'.window⟩, ?_⟩
    · rw [if_pos hp]
      exact if_neg hne
    · exact fun h0 => hb (hbase.symm.trans h0)
  · exact ⟨s, _, if_neg hp, hm, hb⟩

private theorem nextEntry_true (hm : Mapped s) (hb : s.base ≠ 0) (hphys : phys ≠ 0) {ok : Bool}
    (he : nextEntry s pml4 entry phys = some (s', ok)) : ok = true ∧ Mapped s' ∧ s'.base ≠ 0 := by
  obtain ⟨hne, hm', hbase⟩ := hm.getZeroed hb
  obtain ⟨e, -, he⟩ := bind_eq_some_iff.1 he
  by_cases hp : e &&& pageTransPresent = 0
  · rw [if_pos hp, if_neg hphys] at he
    generalize getZeroedPageTransObj s = g at hne hm' hbase he
    obtain ⟨u, z⟩ := g
    dsimp only at hne hm' hbase he
    rw [if_neg hne] at he
    unfold storeAt at he
    rw [Option.map_map] at he
    obtain ⟨q, -, hq⟩ := map_eq_some_iff.1 he
    cases hq
    exact ⟨rfl, ⟨hm'.listed, hm'.addr, hm'.window⟩, fun h0 => hb (hbase.symm.trans h0)⟩
  · rw [if_neg hp] at he
    cases he
    exact ⟨rfl, hm, hb⟩

/-- Then `update_page_table_idmap` never returns `-1`, … -/
theorem updatePageTableIdmap_unnoticed (hm : Mapped s) (hb : s.base ≠ 0) (pml4 : Nat) (phys virt perm : Word) :
    (updatePageTableIdmap s pml4 phys virt perm).2 = 0 := by
  unfold updatePageTableIdmap
  obtain ⟨s1, pdp, he, hm1, hb1⟩ := nextTable_isSome hm hb pml4 (indexPml4e virt)
  rw [he]
  dsimp only
  obtain ⟨s2, pd, he, hm2, hb2⟩ := nextTable_isSome hm1 hb1 pdp (indexPdpe virt)
  rw [he]
  dsimp only
  obtain ⟨s3, pt, he, -, -⟩ := nextTable_isSome hm2 hb2 pd (indexPde virt)
  rw [he]

/-- … and `update_curr_page_table` returns `0` if it returns. -/
theorem updateCurrPageTable_unnoticed (hm : Mapped s) (hb : s.base ≠ 0) (hphys : phys ≠ 0) {n : Int}
    (he : updateCurrPageTable s pml4 phys virt perm = some (s', n)) : n = 0 := by
  obtain ⟨⟨s1, ok⟩, h1, he⟩ := bind_eq_some_iff.1 he
  obtain ⟨rfl, hm1, hb1⟩ := nextEntry_true hm hb hphys h1
  obtain ⟨⟨s2, ok⟩, h2, he⟩ := bind_eq_some_iff.1 he
  obtain ⟨rfl, hm2, hb2⟩ := nextEntry_true hm1 hb1 hphys h2
  obtain ⟨⟨s3, ok⟩, h3, he⟩ := bind_eq_some_iff.1 he
  obtain ⟨rfl, -, -⟩ := nextEntry_true hm2 hb2 hphys h3
  obtain ⟨e, -, he⟩ := bind_eq_some_iff.1 he
  rw [if_neg hphys] at he
  obtain ⟨q, -, hq⟩ := map_eq_some_iff.1 he
  exact (Prod.mk.inj hq).2.symm

private theorem Owned.onWay (ho : Owned s pml4 virt) (n : Nat) : OnWay n s pml4 virt := by
  refine ⟨ho.listed, ho.addr, fun σ q hσ hq => ?_⟩
  obtain ⟨haddr, h0, hnot⟩ := ho.object σ q hσ hq
  exact ⟨haddr, hnot, fun _ => h0⟩

private theorem Made.owned (hmade : Made s s' t i f) (ho : Owned s pml4 virt) (hb : s.base = 0)
    (hnone : entryFormat.link (s.mem t i) = none) (hpre : π ++ [i] <+: tablePath virt)
    (ht : Radix.walk entryFormat s.mem pml4 π = some t) : Owned s' pml4 virt := by
  have hf : f ≠ 0 := hmade.page.elim (fun h => absurd hb h.2.1) And.left
  have hway := hmade.onWay (ho.onWay 3) hnone (by decide) hpre ht fun _ => hf
  refine ⟨⟨hway.listed, hway.addr, fun q hq => ?_⟩, fun σ q hσ hq => ?_⟩
  · rw [hmade.base_eq]
    exact ho.window q ((hmade.free_iff q).1 hq).1
  · obtain ⟨haddr, hnot, h0⟩ := hway.object σ q hσ hq
    exact ⟨haddr, h0 hσ.length_le, hnot⟩

private theorem Mapped.freeCount_eq (hm : Mapped s)
    (hv : (getZeroedPageTransObj s).1.virtualAddr (getZeroedPageTransObj s).2 = 0) : freeCount s.pages = 0 := by
  have hz := getZeroed_spec hm.listed
  obtain ⟨-, hc, -⟩ | ⟨h0, hf, -⟩ := hz.page
  · exact hc
  · refine absurd hv (virtualAddr_ne_zero ?_ (hm.addr _ hf) h0)
    rw [hz.base_eq]
    exact hm.window _ hf

private theorem updateCurrPageTable_base_zero (ho : Owned s pml4 virt) (hself : SelfRef s pml4) (hb : s.base = 0)
    (hphys : phys ≠ 0) :
    updateCurrPageTable s pml4 phys virt perm = some (updatePageTableIdmap s pml4 phys virt perm) := by
  refine updateCurr_eq_idmap (ho.onWay 1) hself hphys fun h => ?_
  exact ((nextTable_eq_zero (ho.onWay 1)).1 h).1 hb

def descend (s : Mach) (t : Nat) : List Index → Mach × Option Nat
  | [] => (s, some t)
  | i :: ρ =>
    match nextTable s t i with
    | (s, none) => (s, none)
    | (s, some t) => descend s t ρ

/-- The update goes down the levels and stores a word. -/
theorem updatePageTableIdmap_descend :
    updatePageTableIdmap s pml4 phys virt perm = match descend s pml4 (tablePath virt) with
    | (s, none) => (s, -1) | (s, some pt) => (s.store pt (indexPte virt) (leafEntry phys perm), 0) := by
  unfold updatePageTableIdmap tablePath
  simp only [descend]
  rcases nextTable s pml4 (indexPml4e virt) with ⟨s1, _ | pdp⟩
  · rfl
  dsimp only
  rcases nextTable s1 pdp (indexPdpe virt) with ⟨s2, _ | pd⟩
  · rfl
  dsimp only
  rcases nextTable s2 pd (indexPde virt) with ⟨s3, _ | pt⟩
  · rfl
  · rfl

def lacking (m : Memory) (t : Nat) : List Index → Nat
  | [] => 0
  | i :: ρ =>
    match entryFormat.link (m t i) with
    | none => ρ.length + 1
    | some q => lacking m q ρ

private theorem lacking_le (m : Memory) (t : Nat) (ρ : List Index) : lacking m t ρ ≤ ρ.length := by
  induction ρ generalizing t with
  | nil => exact Nat.le_refl 0
  | cons i ρ ih =>
    rw [lacking, length_cons]
    split
    · exact Nat.le_refl _
    · next q _ => exact Nat.le_succ_of_le (ih q)

private theorem lacking_of_empty {m : Memory} (h : ∀ j, m t j = 0) : lacking m t ρ = ρ.length := by
  cases ρ with
  | nil => rfl
  | cons i ρ =>
    rw [lacking, h, link_zero]
    rfl

theorem missing_eq_lacking (m : Memory) : missing m pml4 virt = lacking m pml4 (tablePath virt) := by
  unfold missing lack tablePath
  simp only [lacking, Radix.walk_cons, Radix.walk_nil]
  cases entryFormat.link (m pml4 (indexPml4e virt)) with
  | none => rfl
  | some pdp =>
    simp only [bind_some]
    cases entryFormat.link (m pdp (indexPdpe virt)) with
    | none => rfl
    | some pd =>
      simp only [bind_some]
      cases entryFormat.link (m pd (indexPde virt)) <;> rfl

/-- With too few free pages the levels are made until the free list is empty; the level after that clears page `0` and
gives up. -/
theorem descend_short (ho : Owned s pml4 virt) (hb : s.base = 0) (hpath : π ++ ρ = tablePath virt)
    (ht : Radix.walk entryFormat s.mem pml4 π = some t) (hc : freeCount s.pages < lacking s.mem t ρ) :
    ∃ u, descend s t ρ = (u.zero 0, none) ∧ Owned u pml4 virt ∧ Radix.walk entryFormat u.mem pml4
        (π ++ ρ.take (ρ.length - lacking s.mem t ρ + freeCount s.pages + 1)) = none := by
  induction ρ generalizing s t π with
  | nil => exact absurd hc (Nat.not_lt_zero _)
  | cons i ρ ih =>
    have hpre : π ++ [i] <+: tablePath virt := ⟨ρ, by rw [← hpath]; simp⟩
    have hpath' : (π ++ [i]) ++ ρ = tablePath virt := by rw [← hpath]; simp
    rw [descend]
    rcases nextTable_cases ho.listed t i with ⟨q, hq, he⟩ | ⟨hnone, ⟨hv, he⟩ | ⟨s', f, he, hmade⟩⟩
    · -- the object is there
      have hl : lacking s.mem t (i :: ρ) = lacking s.mem q ρ := by rw [lacking, hq]
      have hle := lacking_le s.mem q ρ
      rw [hl] at hc
      rw [he, hl]
      obtain ⟨u, hd, hou, hw⟩ := ih ho hb hpath' (by rw [Radix.walk_snoc, ht]; exact hq) hc
      refine ⟨u, hd, hou, ?_⟩
      rw [length_cons, Nat.succ_sub hle, Nat.succ_add, Nat.succ_add, take_succ_cons]
      rwa [List.append_assoc] at hw
    · -- no page is left
      have hl : lacking s.mem t (i :: ρ) = (i :: ρ).length := by rw [lacking, hnone]; rfl
      have h0 := ho.toMapped.freeCount_eq hv
      rw [he, getZeroed_empty h0]
      refine ⟨s, rfl, ho, ?_⟩
      rw [hl, h0, Nat.sub_self, Nat.zero_add, take_succ_cons, take_zero, Radix.walk_snoc, ht]
      exact hnone
    · -- a new object, behind which all levels are missing
      have hπ : π <+: tablePath virt := (prefix_append π [i]).trans hpre
      have hl : lacking s.mem t (i :: ρ) = (i :: ρ).length := by rw [lacking, hnone]; rfl
      have hl' : lacking s'.mem f ρ = ρ.length := lacking_of_empty (hmade.empty (ho.onWay 3) hπ ht hπ.length_le)
      obtain ⟨-, hbase, -⟩ | ⟨-, -, hcount⟩ := hmade.page
      · exact absurd hb hbase
      rw [hl, length_cons] at hc
      rw [he, hl, Nat.sub_self, Nat.zero_add, ← hcount, take_succ_cons]
      obtain ⟨u, hd, hou, hw⟩ := ih (hmade.owned ho hb hnone hpre ht) (hmade.base_eq.trans hb) hpath'
        (hmade.walk_new (ho.onWay 3) hnone (by decide) hpre ht) (by omega)
      refine ⟨u, hd, hou, ?_⟩
      rw [hl', Nat.sub_self, Nat.zero_add, List.append_assoc] at hw
      exact hw

/-- The path to the first missing object for which there is no page any more. -/
def unavailable (s : Mach) (pml4 : Nat) (virt : Word) : List Index :=
  (tablePath virt).take (3 - missing s.mem pml4 virt + freeCount s.pages + 1)

/-- The update of `s` returned `-1`, the object for which there was no page is still missing, and page `0` has its
contents. -/
def FailsCleanly (s : Mach) (pml4 : Nat) (virt : Word) (res : Option (Mach × Int)) : Prop :=
  ∃ s', res = some (s', -1) ∧ Radix.walk entryFormat s'.mem pml4 (unavailable s pml4 virt) = none ∧
    ∀ j, s'.mem 0 j = s.mem 0 j

/-- The failure is seen while the map of physical memory is at `0`; page `0` is cleared all the same. -/
private theorem updatePageTableIdmap_short (ho : Owned s pml4 virt) (hb : s.base = 0)
    (hc : freeCount s.pages < missing s.mem pml4 virt) (phys perm : Word) :
    ∃ s', updatePageTableIdmap s pml4 phys virt perm = (s', -1) ∧
      Radix.walk entryFormat s'.mem pml4 (unavailable s pml4 virt) = none ∧ ∀ j, s'.mem 0 j = 0 := by
  unfold unavailable
  rw [missing_eq_lacking] at hc ⊢
  obtain ⟨u, hd, hou, hw⟩ := descend_short ho hb (nil_append _) rfl hc
  refine ⟨u.zero 0, ?_, ?_, fun j => rfl⟩
  · rw [updatePageTableIdmap_descend, hd]
  · rw [← hw]
    refine Radix.walk_congr fun τ k ρ q hτ hq => ?_
    have hpre : τ <+: tablePath virt := by
      refine (prefix_append τ (k :: ρ)).trans ?_
      rw [← hτ]
      exact take_prefix _ _
    rw [Mach.zero_mem, if_neg (hou.object τ q hpre hq).2.1]

/-- With too few pages for the objects that are missing, an update fails cleanly just when the map of physical memory
is at `0`, as it is early in the boot, and page `0` holds zeros. -/
theorem shortage_clean_iff (s : Mach) (pml4 : Nat) (virt phys perm : Word) (ho : Owned s pml4 virt)
    (hself : SelfRef s pml4) (hphys : phys ≠ 0) (hc : freeCount s.pages < missing s.mem pml4 virt) :
    (FailsCleanly s pml4 virt (some (updatePageTableIdmap s pml4 phys virt perm)) ↔ s.base = 0 ∧ ∀ j, s.mem 0 j = 0) ∧
      (FailsCleanly s pml4 virt (updateCurrPageTable s pml4 phys virt perm) ↔ s.base = 0 ∧ ∀ j, s.mem 0 j = 0) := by
  by_cases hb : s.base = 0
  · rw [updateCurrPageTable_base_zero ho hself hb hphys, and_self]
    obtain ⟨s', he, hw, hzero⟩ := updatePageTableIdmap_short ho hb hc phys perm
    rw [he]
    constructor
    · rintro ⟨u, hu, -, hkeep⟩
      cases hu
      exact ⟨hb, fun j => (hkeep j).symm.trans (hzero j)⟩
    · rintro ⟨-, hz⟩
      exact ⟨s', rfl, hw, fun j => (hzero j).trans (hz j).symm⟩
  · constructor
    · refine iff_of_false ?_ fun h => hb h.1
      rintro ⟨u, hu, -⟩
      have hret := updatePageTableIdmap_unnoticed ho.toMapped hb pml4 phys virt perm
      rw [some.inj hu] at hret
      cases hret
    · refine iff_of_false ?_ fun h => hb h.1
      rintro ⟨u, hu, -⟩
      cases updateCurrPageTable_unnoticed ho.toMapped hb hphys hu

theorem shortage_clean_early :
        missing (emptyMach [] 0).mem 0x1000 0x200000 = 3 ∧ FailsCleanly (emptyMach [] 0) 0x1000 0x200000
        (some (updatePageTableIdmap (emptyMach [] 0) 0x1000 0x7000 0x200000 6)) ∧
      FailsCleanly (emptyMach [] 0) 0x1000 0x200000
        (updateCurrPageTable (emptyMach [] 0) 0x1000 0x7000 0x200000 6) := by
  have ho : Owned (emptyMach [] 0) 0x1000 0x200000 := (wellFormed_emptyMach_nil 0).owned rfl (by decide)
  have hz : ∀ j, (emptyMach [] 0).mem 0 j = 0 := fun j => rfl
  obtain ⟨h1, h2⟩ := shortage_clean_iff (emptyMach [] 0) 0x1000 0x200000 0x7000 6 ho (selfRef_emptyMach _ _)
    (by decide) (by decide +kernel)
  exact ⟨by decide +kernel, h1.2 ⟨rfl, hz⟩, h2.2 ⟨rfl, hz⟩⟩

/-- With the map of physical memory at its final place, `update_page_table_idmap` returns `0` with page `0` as the
object of all levels, and `update_curr_page_table` faults. -/
theorem shortage_unseen :
    Owned (emptyMach [] 0xffffffffc0000000) 0x1000 0x200000 ∧ SelfRef (emptyMach [] 0xffffffffc0000000) 0x1000 ∧
      freeCount (emptyMach [] 0xffffffffc0000000).pages < missing (emptyMach [] 0xffffffffc0000000).mem 0x1000
        0x200000 ∧
      (updatePageTableIdmap (emptyMach [] 0xffffffffc0000000) 0x1000 0x7000 0x200000 6).2 = 0 ∧
      ¬ FailsCleanly (emptyMach [] 0xffffffffc0000000) 0x1000 0x200000
        (some (updatePageTableIdmap (emptyMach [] 0xffffffffc0000000) 0x1000 0x7000 0x200000 6)) ∧
      ¬ FailsCleanly (emptyMach [] 0xffffffffc0000000) 0x1000 0x200000
        (updateCurrPageTable (emptyMach [] 0xffffffffc0000000) 0x1000 0x7000 0x200000 6) := by
  have ho : Owned (emptyMach [] 0xffffffffc0000000) 0x1000 0x200000 :=
    (wellFormed_emptyMach_nil _).owned rfl (by decide)
  have hret : (updatePageTableIdmap (emptyMach [] 0xffffffffc0000000) 0x1000 0x7000 0x200000 6).2 = 0 :=
    updatePageTableIdmap_unnoticed ho.toMapped (by decide) _ _ _ _
  refine ⟨ho, selfRef_emptyMach _ _, by decide +kernel, hret, ?_, ?_⟩
  · rintro ⟨u, hu, -⟩
    rw [some.inj hu] at hret
    cases hret
  · rintro ⟨u, hu, -⟩
    cases updateCurrPageTable_unnoticed ho.toMapped (by decide) (by decide) hu

end Adix.PageTable
