import Adix.PageTable.Mapping
import Mathlib.Data.List.Induction

/-!
# The self reference

The hardware resolves the addresses of the `SELF_REF_*` macros by going through slot 256 of the PML4 one to four times.
Hence the functions on the current page table do what those with access to physical memory do, as long as the walk that
found an entry still finds it when it is written. That fails only when page `0` is used for two levels.
-/

namespace Adix.PageTable

open List Option
open Radix (walk walk_nil walk_cons walk_snoc walk_singleton walk_append walk_congr word)
open PhysPages (Listed freeCount)
open TablePath (left nil)
open Mach (zero_mem store_mem)

variable {s u u1 : Mach} {pml4 t t' q z : Nat} {virt phys perm a entry e : Word} {σ : List Index} {i : Index}
  {K : Index → Prop} {R : Nat → Prop}

private def Selects (v : Word) (σ : List Index) (i : Index) : Prop :=
  [indexPml4e v, indexPdpe v, indexPde v, indexPte v] = σ ∧ indexWord v = i

private theorem indices_pml4e :
    Selects (selfRefPml4e a) [selfRefEntry, selfRefEntry, selfRefEntry, selfRefEntry] (indexPml4e a) := by
  simp only [Selects, cons.injEq, and_true, indexPml4e, indexPdpe, indexPde, indexPte, indexWord, selfRefPml4e,
    indexBits, selfRefAddrBit63To48, selfRefEntry]
  refine ⟨⟨?_, ?_, ?_, ?_⟩, ?_⟩ <;> (ext k hk; interval_cases k <;> simp)

private theorem indices_pdpe :
    Selects (selfRefPdpe a) [selfRefEntry, selfRefEntry, selfRefEntry, indexPml4e a] (indexPdpe a) := by
  simp only [Selects, cons.injEq, and_true, indexPml4e, indexPdpe, indexPde, indexPte, indexWord, selfRefPdpe,
    indexBits, selfRefAddrBit63To48, selfRefEntry]
  refine ⟨⟨?_, ?_, ?_, ?_⟩, ?_⟩ <;> (ext k hk; interval_cases k <;> simp)

private theorem indices_pde :
    Selects (selfRefPde a) [selfRefEntry, selfRefEntry, indexPml4e a, indexPdpe a] (indexPde a) := by
  simp only [Selects, cons.injEq, and_true, indexPml4e, indexPdpe, indexPde, indexPte, indexWord, selfRefPde, indexBits,
    selfRefAddrBit63To48, selfRefEntry]
  refine ⟨⟨?_, ?_, ?_, ?_⟩, ?_⟩ <;> (ext k hk; interval_cases k <;> simp)

private theorem indices_pte :
    Selects (selfRefPte a) [selfRefEntry, indexPml4e a, indexPdpe a, indexPde a] (indexPte a) := by
  simp only [Selects, cons.injEq, and_true, indexPml4e, indexPdpe, indexPde, indexPte, indexWord, selfRefPte, indexBits,
    selfRefAddrBit63To48, selfRefEntry]
  refine ⟨⟨?_, ?_, ?_, ?_⟩, ?_⟩ <;> (ext k hk; interval_cases k <;> simp)

def SelfRef (s : Mach) (pml4 : Nat) : Prop := hardwareFormat.link (s.mem pml4 selfRefEntry) = some pml4

theorem SelfRef.congr (h : SelfRef s pml4) (hm : u.mem pml4 selfRefEntry = s.mem pml4 selfRefEntry) :
    SelfRef u pml4 := by
  unfold SelfRef
  rw [hm]
  exact h

theorem Grows.selfRef_store {r r' pt : Nat} {w : Word} (hg : Grows K R s u) (hr : R r)
    (hv : K (indexPml4e virt)) (hpt : walk entryFormat u.mem r (tablePath virt) = some pt) (hr' : R r')
    (hK : ¬ K selfRefEntry) (hself : SelfRef s r') : SelfRef (u.store pt (indexPte virt) w) r' := by
  have hne : ¬ (r' = pt ∧ selfRefEntry = indexPte virt) := by
    rintro ⟨rfl, -⟩
    cases hg.wf.forest.path_eq hr' hr nil (tablePath_ok hv) rfl hpt
  exact hself.congr ((if_neg hne).trans (hg.slots hr' hK))

private theorem walk_selfRef (h : SelfRef s pml4) :
    walk hardwareFormat s.mem pml4 (selfRefEntry :: σ) = walk hardwareFormat s.mem pml4 σ := by
  rw [walk_cons, h, bind_some]

/-- The address for an entry of the PML4 leads to the PML4. -/
theorem hardwareWalk_pml4e (h : SelfRef s pml4) (virt : Word) :
    hardwareWalk s pml4 (selfRefPml4e virt) = some pml4 := by
  unfold hardwareWalk
  rw [indices_pml4e.1, walk_selfRef h, walk_selfRef h, walk_selfRef h, walk_selfRef h]
  rfl

private theorem hardwareWalk_pdpe (h : SelfRef s pml4) (virt : Word) : hardwareWalk s pml4 (selfRefPdpe virt) =
    walk hardwareFormat s.mem pml4 [indexPml4e virt] := by
  unfold hardwareWalk
  rw [indices_pdpe.1, walk_selfRef h, walk_selfRef h, walk_selfRef h]

private theorem hardwareWalk_pde (h : SelfRef s pml4) (virt : Word) : hardwareWalk s pml4 (selfRefPde virt) =
    walk hardwareFormat s.mem pml4 [indexPml4e virt, indexPdpe virt] := by
  unfold hardwareWalk
  rw [indices_pde.1, walk_selfRef h, walk_selfRef h]

private theorem hardwareWalk_pte (h : SelfRef s pml4) (virt : Word) : hardwareWalk s pml4 (selfRefPte virt) =
    walk hardwareFormat s.mem pml4 (tablePath virt) := by
  unfold hardwareWalk
  rw [indices_pte.1, walk_selfRef h]
  rfl

private theorem hardware_walk_of_lt (h : ∀ τ q, τ <+: σ → walk entryFormat s.mem pml4 τ = some q → q < 2 ^ 51) :
    walk hardwareFormat s.mem pml4 σ = walk entryFormat s.mem pml4 σ := by
  induction σ using List.reverseRecOn with
  | nil => rfl
  | append_singleton σ i ih =>
    rw [walk_snoc, walk_snoc, ih fun τ q hτ => h τ q (hτ.trans (prefix_append _ _))]
    cases ht : walk entryFormat s.mem pml4 σ with
    | none => rfl
    | some t =>
      refine hardware_link fun q hq => h (σ ++ [i]) q prefix_rfl ?_
      rw [walk_snoc, ht]
      exact hq

/-- Kernel and hardware find the same objects. -/
theorem hardware_walk_eq (hw : WellFormed K s (· = pml4)) (hσ : TablePath K σ) :
    walk hardwareFormat s.mem pml4 σ = walk entryFormat s.mem pml4 σ := by
  refine hardware_walk_of_lt fun τ q hτ hq => ?_
  obtain ⟨ρ, rfl⟩ := hτ
  exact (hw.table q ⟨pml4, τ, rfl, left _ _ hσ, hq⟩).1.lt

theorem hardwareWalk_of_entry (hw : WellFormed K s (· = pml4)) (hv : K (indexPml4e a))
    (he : leaf s.mem pml4 a = some e) (hlt : entryFormat.next e < 2 ^ 51) :
    hardwareWalk s pml4 a = some (entryFormat.next e) := by
  obtain ⟨pt, hpt, rfl, hp⟩ := Radix.lookup_eq_some.1 he
  have hlink : entryFormat.link (s.mem pt (indexPte a)) = some (entryFormat.next (s.mem pt (indexPte a))) :=
    Radix.Format.link_eq_some.2 ⟨hp, rfl⟩
  show walk hardwareFormat s.mem pml4 (tablePath a ++ [indexPte a]) = _
  rw [walk_snoc, hardware_walk_eq hw (tablePath_ok hv), hpt, bind_some, hardware_link, hlink]
  intro q hq
  cases hlink.symm.trans hq
  exact hlt

structure Clears (u u₁ : Mach) (z : Nat) : Prop where
  base_eq : u₁.base = u.base
  mem_eq : ∀ q j, u₁.mem q j = if q = z then 0 else u.mem q j
  listed : Listed u₁.pages
  free_iff : ∀ q, Free u₁ q ↔ Free u q ∧ q ≠ z
  page : z = 0 ∧ freeCount u.pages = 0 ∧ u₁.pages = u.pages ∨ z ≠ 0 ∧ Free u z ∧ 0 < freeCount u.pages ∧
    PhysPages.Allocated u.pages 1 u₁.pages z

/-- A page of the free list is cleared, or page `0`. -/
theorem getZeroed_spec (hl : Listed u.pages) : Clears u (getZeroedPageTransObj u).1 (getZeroedPageTransObj u).2 := by
  unfold getZeroedPageTransObj
  by_cases hc : freeCount u.pages = 0
  · rw [allocPage_empty hc]
    refine ⟨rfl, fun q j => rfl, hl, fun q => ⟨fun hq => ⟨hq, (hl.page q hq).2.1⟩, fun hq => hq.1⟩, .inl ⟨rfl, hc, rfl⟩⟩
  · obtain ⟨u1, f, he, hf, -⟩ := allocPage_spec hl (Nat.pos_of_ne_zero hc)
    rw [he]
    refine ⟨hf.base_eq, fun q j => ?_, hf.allocated.listed, fun q => hf.free_iff,
      .inr ⟨hf.allocated.ne_zero, hf.wasFree, Nat.pos_of_ne_zero hc, hf.allocated⟩⟩
    show (if q = f then 0 else u1.mem q j) = _
    rw [hf.mem_eq]

private theorem Clears.ne (h : Clears u u1 z) (hq : q ≠ 0) (hnot : ¬ Free u q) : q ≠ z := by
  rintro rfl
  obtain ⟨h0, -⟩ | ⟨-, hf, -⟩ := h.page
  · exact hq h0
  · exact hnot hf

private theorem Clears.walk_eq (h : Clears u u1 z)
    (hv : ∀ τ k ρ q, σ = τ ++ k :: ρ → walk hardwareFormat u.mem pml4 τ = some q → q ≠ z) :
    walk hardwareFormat u1.mem pml4 σ = walk hardwareFormat u.mem pml4 σ := by
  refine walk_congr fun τ k ρ q hσ hq => ?_
  rw [h.mem_eq, if_neg (hv τ k ρ q hσ hq)]

private theorem nextEntry_eq (hphys : phys ≠ 0) (hi : indexWord entry = i) (ht : hardwareWalk u pml4 entry = some t)
    (hstill : u.mem t i &&& pageTransPresent = 0 → hardwareWalk (getZeroedPageTransObj u).1 pml4 entry = some t) :
    nextEntry u pml4 entry phys = some ((nextTable u t i).1, (nextTable u t i).2.isSome) := by
  unfold nextEntry nextTable load
  rw [ht, map_some, bind_some, hi]
  by_cases hp : u.mem t i &&& pageTransPresent = 0
  · have hwalk := hstill hp
    rw [if_pos hp, if_neg hphys]
    dsimp only at hwalk ⊢
    split
    · rfl
    · unfold storeAt
      rw [hwalk, hi]
      rfl
  · rw [if_neg hp, if_neg hp]
    rfl

private theorem lastEntry_eq (hphys : phys ≠ 0) (ht : hardwareWalk u pml4 (selfRefPte virt) = some t) :
    lastEntry u pml4 phys virt perm = some (u.store t (indexPte virt) (leafEntry phys perm), 0) := by
  unfold lastEntry load storeAt
  rw [ht, indices_pte.2, map_some, bind_some, if_neg hphys]
  rfl

theorem virtualAddr_zero : u.virtualAddr 0 = u.base := by simp [Mach.virtualAddr]

theorem getZeroed_empty (hc : freeCount u.pages = 0) : getZeroedPageTransObj u = (u.zero 0, 0) := by
  unfold getZeroedPageTransObj
  rw [allocPage_empty hc]

structure Made (s s' : Mach) (t : Nat) (i : Index) (f : Nat) : Prop where
  mem_eq : ∀ q j, s'.mem q j = if q = t ∧ j = i then tableEntry f else if q = f then 0 else s.mem q j
  base_eq : s'.base = s.base
  listed : Listed s'.pages
  free_iff : ∀ q, Free s' q ↔ Free s q ∧ q ≠ f
  page : f = 0 ∧ s.base ≠ 0 ∧ freeCount s.pages = 0 ∨
    f ≠ 0 ∧ Free s f ∧ freeCount s'.pages + 1 = freeCount s.pages

/-- The object is there, or it cannot be made, or it is made. -/
theorem nextTable_cases (hl : Listed s.pages) (t : Nat) (i : Index) :
    (∃ q, entryFormat.link (s.mem t i) = some q ∧ nextTable s t i = (s, some q)) ∨ entryFormat.link (s.mem t i) = none ∧
        ((getZeroedPageTransObj s).1.virtualAddr (getZeroedPageTransObj s).2 = 0 ∧
            nextTable s t i = ((getZeroedPageTransObj s).1, none) ∨
          ∃ s' f, nextTable s t i = (s', some f) ∧ Made s s' t i f) := by
  unfold nextTable
  by_cases hp : s.mem t i &&& pageTransPresent = 0
  · refine .inr ⟨link_of_not_present hp, ?_⟩
    rw [if_pos hp]
    by_cases hc : freeCount s.pages = 0
    · rw [getZeroed_empty hc]
      by_cases hv : (s.zero 0).virtualAddr 0 = 0
      · exact .inl ⟨hv, if_pos hv⟩
      · refine .inr ⟨_, 0, if_neg hv, fun q j => rfl, rfl, hl, fun q => ⟨fun hq => ⟨hq, (hl.page q hq).2.1⟩, And.left⟩,
          .inl ⟨rfl, ?_, hc⟩⟩
        rw [virtualAddr_zero] at hv
        exact hv
    · obtain ⟨u, f, he, hf, hcount⟩ := allocPage_spec hl (Nat.pos_of_ne_zero hc)
      unfold getZeroedPageTransObj
      rw [he]
      by_cases hv : (u.zero f).virtualAddr f = 0
      · exact .inl ⟨hv, if_pos hv⟩
      · refine .inr ⟨_, f, if_neg hv, fun q j => ?_, hf.base_eq, hf.allocated.listed, fun q => hf.free_iff,
          .inr ⟨hf.allocated.ne_zero, hf.wasFree, hcount⟩⟩
        rw [store_mem, zero_mem, hf.mem_eq]
  · exact .inl ⟨_, link_of_present hp, if_neg hp⟩

/-- The objects on the way to the address are not free, and the first ones are not page `0`. -/
structure OnWay (n : Nat) (s : Mach) (pml4 : Nat) (virt : Word) : Prop where
  listed : Listed s.pages
  addr : ∀ q, Free s q → PageAddr q
  object : ∀ σ q, σ <+: tablePath virt → walk entryFormat s.mem pml4 σ = some q →
    PageAddr q ∧ ¬ Free s q ∧ (σ.length ≤ n → q ≠ 0)

private theorem WellFormed.onWay (hw : WellFormed K s R) (hr : R pml4) (hK : K (indexPml4e virt)) (n : Nat) :
    OnWay n s pml4 virt := by
  refine ⟨hw.listed, hw.free, ?_⟩
  rintro σ q ⟨ρ, hρ⟩ hq
  have hσ : TablePath K σ := left σ ρ (hρ ▸ tablePath_ok hK)
  obtain ⟨haddr, h0, hnot⟩ := hw.table q ⟨pml4, σ, hr, hσ, hq⟩
  exact ⟨haddr, hnot, fun _ => h0⟩

private theorem Made.ne {f : Nat} (h : Made s u t i f) (hq : q ≠ 0 ∧ ¬ Free s q) : q ≠ f := by
  rintro rfl
  obtain ⟨h0, -⟩ | ⟨-, hf, -⟩ := h.page
  · exact hq.1 h0
  · exact hq.2 hf

section Level

variable {n f : Nat} {π : List Index} (ho : OnWay n s pml4 virt)
include ho

private theorem OnWay.hardware_walk (hσ : σ <+: tablePath virt) :
    walk hardwareFormat s.mem pml4 σ = walk entryFormat s.mem pml4 σ :=
  hardware_walk_of_lt fun τ q hτ hq => (ho.object τ q (hτ.trans hσ) hq).1.lt

private theorem OnWay.passed {τ ρ : List Index} {k : Index} (hσ : σ <+: tablePath virt) (hlen : σ.length ≤ n + 1)
    (hτ : σ = τ ++ k :: ρ) (hq : Radix.walk entryFormat s.mem pml4 τ = some q) : q ≠ 0 ∧ ¬ Free s q := by
  subst hτ
  obtain ⟨-, hnot, h0⟩ := ho.object τ q ((prefix_append τ (k :: ρ)).trans hσ) hq
  rw [length_append, length_cons] at hlen
  exact ⟨h0 (by omega), hnot⟩

/-- At one level, the self-referenced access does what the direct one does. -/
private theorem OnWay.nextEntry_eq (hself : SelfRef s pml4) (hπ : π <+: tablePath virt) (hlen : π.length ≤ n + 1)
    (ht : walk entryFormat s.mem pml4 π = some t) (hphys : phys ≠ 0) (hi : indexWord entry = i)
    (haddr : ∀ u, SelfRef u pml4 → hardwareWalk u pml4 entry = walk hardwareFormat u.mem pml4 π) :
    nextEntry s pml4 entry phys = some ((nextTable s t i).1, (nextTable s t i).2.isSome) := by
  have hz := getZeroed_spec ho.listed
  have hwalk : walk hardwareFormat s.mem pml4 π = some t := (ho.hardware_walk hπ).trans ht
  refine PageTable.nextEntry_eq hphys hi ((haddr s hself).trans hwalk) fun _ => ?_
  obtain ⟨-, hnot, h0⟩ := ho.object [] pml4 nil_prefix rfl
  rw [haddr _ (hself.congr (by rw [hz.mem_eq, if_neg (hz.ne (h0 (Nat.zero_le n)) hnot)])), ← hwalk]
  refine hz.walk_eq fun τ k ρ q hτ hq => ?_
  rw [ho.hardware_walk ((prefix_append τ (k :: ρ)).trans (hτ ▸ hπ))] at hq
  obtain ⟨h0, hnot⟩ := ho.passed hπ hlen hτ hq
  exact hz.ne h0 hnot

variable (hmade : Made s u t i f)
include hmade

private theorem Made.addr : PageAddr f := by
  obtain ⟨rfl, -⟩ | ⟨-, hf, -⟩ := hmade.page
  · exact ⟨rfl, by decide⟩
  · exact ho.addr f hf

theorem Made.empty (hπ : π <+: tablePath virt) (ht : Radix.walk entryFormat s.mem pml4 π = some t) (hlen : π.length ≤ n)
    (j : Index) : u.mem f j = 0 := by
  obtain ⟨-, hnot, h0⟩ := ho.object π t hπ ht
  rw [hmade.mem_eq, if_neg fun h => hmade.ne ⟨h0 hlen, hnot⟩ h.1.symm, if_pos rfl]

variable (hnone : entryFormat.link (s.mem t i) = none)
include hnone

private theorem Made.walk_keep (hσ : σ <+: tablePath virt) (hlen : σ.length ≤ n + 1)
    (hq : walk entryFormat s.mem pml4 σ = some q) : walk entryFormat u.mem pml4 σ = some q := by
  rw [← hq]
  refine walk_congr fun τ k ρ p hτ hp => ?_
  have hother : ¬ (p = t ∧ k = i) := by
    rintro ⟨rfl, rfl⟩
    rw [hτ, walk_append, hp, bind_some, walk_cons, hnone] at hq
    cases hq
  rw [hmade.mem_eq, if_neg hother, if_neg (hmade.ne (ho.passed hσ hlen hτ hp))]

private theorem Made.selfRef (hself : SelfRef s pml4) : SelfRef u pml4 := by
  obtain ⟨-, hnot, h0⟩ := ho.object [] pml4 nil_prefix rfl
  refine hself.congr ?_
  rw [hmade.mem_eq, if_neg, if_neg (hmade.ne ⟨h0 (Nat.zero_le n), hnot⟩)]
  -- the entry that was missing is not the self reference
  rintro ⟨rfl, rfl⟩
  unfold SelfRef at hself
  rw [hardware_link (e := s.mem pml4 selfRefEntry) (by simp [hnone]), hnone] at hself
  cases hself

variable (hn : 1 ≤ n) (hpre : π ++ [i] <+: tablePath virt) (ht : walk entryFormat s.mem pml4 π = some t)
include hn hpre ht

theorem Made.walk_new : walk entryFormat u.mem pml4 (π ++ [i]) = some f := by
  have hlen : (π ++ [i]).length ≤ 3 := hpre.length_le
  rw [length_append, length_singleton] at hlen
  rw [walk_snoc, hmade.walk_keep ho hnone ((prefix_append π [i]).trans hpre) (by omega) ht, bind_some,
    hmade.mem_eq, if_pos ⟨rfl, rfl⟩, link_tableEntry (hmade.addr ho)]

theorem Made.onWay (hf : π.length < n → f ≠ 0) : OnWay n u pml4 virt where
  listed := hmade.listed
  addr q hq := ho.addr q ((hmade.free_iff q).1 hq).1
  object σ q hσ hq := by
    have hlen : σ.length ≤ 3 := hσ.length_le
    by_cases hle : σ <+: π
    · obtain ⟨ρ, rfl⟩ := hle
      rw [walk_append] at ht
      obtain ⟨p, hp, -⟩ := bind_eq_some_iff.1 ht
      have hlen' : (σ ++ ρ ++ [i]).length ≤ 3 := hpre.length_le
      rw [length_append, length_append, length_singleton] at hlen'
      have hp' := hmade.walk_keep ho hnone hσ (by omega) hp
      rw [hq] at hp'
      cases hp'
      obtain ⟨h1, h2, h3⟩ := ho.object σ q hσ hp
      exact ⟨h1, fun hq => h2 ((hmade.free_iff q).1 hq).1, h3⟩
    · have hge : π ++ [i] <+: σ := by
        rcases prefix_or_prefix_of_prefix hσ hpre with h | h
        · rcases prefix_concat_iff.1 h with rfl | h
          · exact prefix_rfl
          · exact absurd h hle
        · exact h
      obtain ⟨ρ, rfl⟩ := hge
      rw [walk_append, hmade.walk_new ho hnone hn hpre ht, bind_some] at hq
      cases ρ with
      | nil =>
        cases hq
        refine ⟨hmade.addr ho, fun hf => ((hmade.free_iff f).1 hf).2 rfl, fun hle => hf ?_⟩
        rw [append_nil, length_append, length_singleton] at hle
        exact hle
      | cons j ρ =>
        rw [length_append, length_append, length_singleton, length_cons] at hlen
        rw [walk_cons, hmade.empty ho ((prefix_append π [i]).trans hpre) ht (by omega), link_zero] at hq
        cases hq

end Level

private theorem OnWay.level {π : List Index} (ho : OnWay 1 s pml4 virt) (hself : SelfRef s pml4)
    (hpre : π ++ [i] <+: tablePath virt) (ht : walk entryFormat s.mem pml4 π = some t)
    (h0 : π = [] → (nextTable s t i).2 ≠ some 0) :
    (∃ u, nextTable s t i = (u, none)) ∨ ∃ u t', nextTable s t i = (u, some t') ∧ OnWay 1 u pml4 virt ∧ SelfRef u pml4 ∧
      walk entryFormat u.mem pml4 (π ++ [i]) = some t' := by
  rcases nextTable_cases ho.listed t i with ⟨q, hq, he⟩ | ⟨hnone, ⟨-, he⟩ | ⟨u, f, he, hmade⟩⟩
  · refine .inr ⟨s, q, he, ho, hself, ?_⟩
    rw [walk_snoc, ht]
    exact hq
  · exact .inl ⟨_, he⟩
  · refine .inr ⟨u, f, he, hmade.onWay ho hnone le_rfl hpre ht fun hlen hf => ?_, hmade.selfRef ho hnone hself,
      hmade.walk_new ho hnone le_rfl hpre ht⟩
    exact h0 (length_eq_zero_iff.1 (by omega)) (by rw [he, hf])

/-- The two updates agree, unless page `0` becomes the object of the second level. -/
theorem updateCurr_eq_idmap (ho : OnWay 1 s pml4 virt) (hself : SelfRef s pml4) (hphys : phys ≠ 0)
    (hpdp : (nextTable s pml4 (indexPml4e virt)).2 ≠ some 0) :
    updateCurrPageTable s pml4 phys virt perm = some (updatePageTableIdmap s pml4 phys virt perm) := by
  have hp3 : [indexPml4e virt, indexPdpe virt] ++ [indexPde virt] <+: tablePath virt := prefix_rfl
  have hp2 : [indexPml4e virt] ++ [indexPdpe virt] <+: tablePath virt := ⟨[indexPde virt], rfl⟩
  have hp1 : [] ++ [indexPml4e virt] <+: tablePath virt := ⟨[indexPdpe virt, indexPde virt], rfl⟩
  unfold updateCurrPageTable updatePageTableIdmap
  rw [ho.nextEntry_eq hself nil_prefix (by simp) rfl hphys indices_pml4e.2 fun u hu => hardwareWalk_pml4e hu virt,
    bind_some]
  obtain ⟨u, he⟩ | ⟨s1, pdp, he, ho1, hself1, hw1⟩ := ho.level hself hp1 rfl fun _ => hpdp
  · rw [he]
    rfl
  rw [he]
  dsimp only [isSome_some]
  rw [if_neg (by simp), ho1.nextEntry_eq hself1 hp1 (by simp) hw1 hphys indices_pdpe.2
    fun u hu => hardwareWalk_pdpe hu virt, bind_some]
  obtain ⟨u, he⟩ | ⟨s2, pd, he, ho2, hself2, hw2⟩ := ho1.level hself1 hp2 hw1 (by simp)
  · rw [he]
    rfl
  rw [he]
  dsimp only [isSome_some]
  rw [if_neg (by simp), ho2.nextEntry_eq hself2 hp2 (by simp) hw2 hphys indices_pde.2
    fun u hu => hardwareWalk_pde hu virt, bind_some]
  obtain ⟨u, he⟩ | ⟨s3, pt, he, ho3, hself3, hw3⟩ := ho2.level hself2 hp3 hw2 (by simp)
  · rw [he]
    rfl
  rw [he]
  dsimp only [isSome_some]
  rw [if_neg (by simp), lastEntry_eq hphys]
  rw [hardwareWalk_pte hself3, ho3.hardware_walk prefix_rfl]
  exact hw3

private theorem hardware_link_zero : hardwareFormat.link (tableEntry 0) = some 0 := by decide

private theorem nextTable_empty (hc : freeCount u.pages = 0) (hb : u.base ≠ 0)
    (hp : u.mem t i &&& pageTransPresent = 0) : nextTable u t i = ((u.zero 0).store t i (tableEntry 0), some 0) := by
  unfold nextTable
  rw [if_pos hp, getZeroed_empty hc]
  dsimp only
  rw [if_neg (by rw [virtualAddr_zero]; exact hb)]

/-- The allocation of the first missing object fails and goes unnoticed: `VIRTUAL_ADDR(0)` is not `NULL`. -/
def Unnoticed (s : Mach) (pml4 : Nat) (virt : Word) : Prop :=
  s.base ≠ 0 ∧ freeCount s.pages = 0 ∧ walk entryFormat s.mem pml4 [indexPml4e virt] = none

theorem nextTable_eq_zero (ho : OnWay 1 s pml4 virt) :
    (nextTable s pml4 (indexPml4e virt)).2 = some 0 ↔ Unnoticed s pml4 virt := by
  unfold Unnoticed
  rw [walk_singleton]
  rcases nextTable_cases ho.listed pml4 (indexPml4e virt) with ⟨q, hq, he⟩ | ⟨hnone, ⟨hv, he⟩ | ⟨u, f, he, hmade⟩⟩
  · rw [he, hq]
    have h0 := (ho.object [_] q ⟨[indexPdpe virt, indexPde virt], rfl⟩ (walk_singleton.trans hq)).2.2 le_rfl
    exact iff_of_false (fun h => h0 (some.inj h)) fun h => by cases h.2.2
  · rw [he]
    refine iff_of_false (by simp) fun ⟨hb, hc, _⟩ => hb ?_
    rw [getZeroed_empty hc, virtualAddr_zero] at hv
    exact hv
  · rw [he, hnone]
    constructor
    · intro h
      obtain ⟨-, hb, hc⟩ | ⟨h0, -⟩ := hmade.page
      · exact ⟨hb, hc, rfl⟩
      · exact absurd (some.inj h) h0
    · rintro ⟨-, hc, -⟩
      obtain ⟨h0, -⟩ | ⟨-, -, hcount⟩ := hmade.page
      · rw [h0]
      · omega

/-- Page `0` is used for all levels. The entry of the second level is wiped out when page `0` is cleared for the third,
unless both levels use the same entry. -/
private theorem updateCurr_unnoticed (hw : WellFormed K s (· = pml4)) (hself : SelfRef s pml4)
    (hv : indexPml4e virt ≠ selfRefEntry) (hphys : phys ≠ 0) (hun : Unnoticed s pml4 virt) :
    updateCurrPageTable s pml4 phys virt perm =
      if indexPdpe virt = indexPde virt then some (updatePageTableIdmap s pml4 phys virt perm) else none := by
  obtain ⟨hb, hc, hn⟩ := hun
  obtain ⟨-, h0, hnf⟩ := hw.table pml4 ⟨pml4, [], rfl, nil, rfl⟩
  have hp : s.mem pml4 (indexPml4e virt) &&& pageTransPresent = 0 := by
    rw [walk_singleton, Radix.Format.link_eq_none] at hn
    exact not_present_iff.2 hn
  -- the states after the first and the second level
  let u1 := (s.zero 0).store pml4 (indexPml4e virt) (tableEntry 0)
  let u2 := (u1.zero 0).store 0 (indexPdpe virt) (tableEntry 0)
  have n1 : nextTable s pml4 (indexPml4e virt) = (u1, some 0) := nextTable_empty hc hb hp
  have hpml4₁ : ∀ j, u1.mem pml4 j = if j = indexPml4e virt then tableEntry 0 else s.mem pml4 j := by
    intro j
    simp [u1, store_mem, zero_mem, h0]
  have hzero1 : ∀ j, u1.mem 0 j = 0 := by
    intro j
    simp [u1, store_mem, zero_mem, h0.symm]
  have hpml4₂ : ∀ j, u2.mem pml4 j = u1.mem pml4 j := by
    intro j
    simp [u2, store_mem, zero_mem, h0]
  have hzero2 : ∀ j, u2.mem 0 j = if j = indexPdpe virt then tableEntry 0 else 0 := by
    intro j
    simp [u2, store_mem, zero_mem]
  have n2 : nextTable u1 0 (indexPdpe virt) = (u2, some 0) := nextTable_empty hc hb (by rw [hzero1]; rfl)
  have hself1 : SelfRef u1 pml4 := hself.congr (by rw [hpml4₁, if_neg (Ne.symm hv)])
  have hself2 : SelfRef u2 pml4 := hself1.congr (hpml4₂ _)
  have hlink1 : hardwareFormat.link (u1.mem pml4 (indexPml4e virt)) = some 0 := by
    rw [hpml4₁, if_pos rfl]
    exact hardware_link_zero
  have hw2 : walk hardwareFormat u2.mem pml4 [indexPml4e virt, indexPdpe virt] = some 0 := by
    rw [walk_cons, hpml4₂, hlink1, bind_some, walk_singleton, hzero2, if_pos rfl]
    exact hardware_link_zero
  have e1 := nextEntry_eq hphys indices_pml4e.2 (hardwareWalk_pml4e hself virt) fun _ => by
    rw [getZeroed_empty hc]
    exact hardwareWalk_pml4e (hself.congr (if_neg h0)) virt
  have e2 := nextEntry_eq hphys indices_pdpe.2
      ((hardwareWalk_pdpe hself1 virt).trans (walk_singleton.trans hlink1)) fun _ => by
    rw [getZeroed_empty (u := u1) hc, hardwareWalk_pdpe (hself1.congr (if_neg h0)), walk_singleton,
      zero_mem, if_neg h0]
    exact hlink1
  rw [n1] at e1
  rw [n2] at e2
  unfold updateCurrPageTable
  rw [e1, bind_some]
  dsimp only
  rw [if_neg (by simp), e2, bind_some]
  rw [if_neg (by simp)]
  by_cases hi : indexPdpe virt = indexPde virt
  · have hent : u2.mem 0 (indexPde virt) = tableEntry 0 := by rw [hzero2, if_pos hi.symm]
    have n3 : nextTable u2 0 (indexPde virt) = (u2, some 0) := by
      unfold nextTable
      rw [hent]
      rfl
    have e3 := nextEntry_eq hphys indices_pde.2 ((hardwareWalk_pde hself2 virt).trans hw2) fun hnp => by
      rw [hent] at hnp
      exact absurd hnp (by decide)
    have hw3 : walk hardwareFormat u2.mem pml4 (tablePath virt) = some 0 := by
      rw [show tablePath virt = [indexPml4e virt, indexPdpe virt] ++ [indexPde virt] from rfl, walk_snoc, hw2,
        bind_some, hent]
      exact hardware_link_zero
    rw [n3] at e3
    rw [if_pos hi, e3, bind_some]
    rw [if_neg (by simp), lastEntry_eq hphys ((hardwareWalk_pte hself2 virt).trans hw3)]
    unfold updatePageTableIdmap
    rw [n1]
    dsimp only
    rw [n2]
    dsimp only
    rw [n3]
  · -- the entry through which the address of the third level was found is gone when it is written
    have hent : u2.mem 0 (indexPde virt) = 0 := by rw [hzero2, if_neg (Ne.symm hi)]
    have hgone : hardwareWalk (u2.zero 0) pml4 (selfRefPde virt) = none := by
      rw [hardwareWalk_pde (hself2.congr (if_neg h0)), walk_cons, zero_mem, if_neg h0, hpml4₂, hlink1,
        bind_some, walk_singleton, zero_mem, if_pos rfl]
      rfl
    have e3 : nextEntry u2 pml4 (selfRefPde virt) phys = none := by
      unfold nextEntry load storeAt
      rw [hardwareWalk_pde hself2, hw2, map_some, bind_some, indices_pde.2, hent,
        if_pos (show (0 : Word) &&& pageTransPresent = 0 from rfl), if_neg hphys,
        getZeroed_empty (u := u2) hc]
      dsimp only
      rw [if_neg (by rw [virtualAddr_zero]; exact hb), hgone]
      rfl
    rw [if_neg hi, e3]
    rfl

def permOf (e : Word) : Word := e &&& (pageTransReadWrite ||| pageTransUserSupervisor ||| pageTransNx)

section Loads

variable (hw : WellFormed K s (· = pml4)) (hself : SelfRef s pml4) (hK : K (indexPml4e virt))
include hself

private theorem load_pml4e : load s pml4 (selfRefPml4e virt) = some (s.mem pml4 (indexPml4e virt)) := by
  unfold load
  rw [hardwareWalk_pml4e hself, indices_pml4e.2, map_some]

include hw hK

private theorem load_pdpe :
    load s pml4 (selfRefPdpe virt) = word entryFormat s.mem pml4 [indexPml4e virt] (indexPdpe virt) := by
  have hp : TablePath K [indexPml4e virt] := left [_] [indexPdpe virt, indexPde virt] (tablePath_ok hK)
  unfold load word
  rw [hardwareWalk_pdpe hself, hardware_walk_eq hw hp, indices_pdpe.2]

private theorem load_pde : load s pml4 (selfRefPde virt) =
    word entryFormat s.mem pml4 [indexPml4e virt, indexPdpe virt] (indexPde virt) := by
  have hp : TablePath K [indexPml4e virt, indexPdpe virt] := left [_, _] [indexPde virt] (tablePath_ok hK)
  unfold load word
  rw [hardwareWalk_pde hself, hardware_walk_eq hw hp, indices_pde.2]

private theorem hardwareWalk_leaf : hardwareWalk s pml4 (selfRefPte virt) =
    walk entryFormat s.mem pml4 (tablePath virt) := by
  rw [hardwareWalk_pte hself, hardware_walk_eq hw (tablePath_ok hK)]

private theorem load_pte : load s pml4 (selfRefPte virt) = leafWord s.mem pml4 virt := by
  unfold load leafWord word
  rw [hardwareWalk_leaf hw hself hK, indices_pte.2]

end Loads

/-- The translation through the self reference is that of the leaf entry. -/
theorem virt2physSelfref_eq (hw : WellFormed K s (· = pml4)) (hself : SelfRef s pml4) (hK : K (indexPml4e virt)) :
    virt2physSelfref s pml4 virt =
      some (((leaf s.mem pml4 virt).map fun e => (entryAddr e, some (permOf e))).getD (-1, none)) := by
  unfold virt2physSelfref leaf
  rw [load_pml4e hself, load_pdpe hw hself hK, load_pde hw hself hK, load_pte hw hself hK, bind_some]
  unfold leafWord tablePath word
  simp only [walk_cons, walk_nil, Radix.lookup_cons, Radix.Format.bind_link, Radix.lookup_nil, not_present_iff]
  split_ifs with h4 h3 h2 h1 <;> simp_all [permOf]

/-- With enough free pages the two updates agree. -/
theorem updateCurrPageTable_eq (hw : WellFormed K s (· = pml4)) (hself : SelfRef s pml4)
    (hK : K (indexPml4e virt)) (hphys : phys ≠ 0) (hc : missing s.mem pml4 virt ≤ freeCount s.pages) :
    updateCurrPageTable s pml4 phys virt perm = some (updatePageTableIdmap s pml4 phys virt perm) := by
  refine updateCurr_eq_idmap (hw.onWay rfl hK 1) hself hphys fun he => ?_
  obtain ⟨-, hzero, hn⟩ := (nextTable_eq_zero (hw.onWay rfl hK 1)).1 he
  have hlack : lack s.mem pml4 [indexPml4e virt] = 1 := by
    unfold lack
    rw [hn]
    rfl
  unfold missing at hc
  omega

private theorem nextEntry_zero :
    nextEntry s pml4 entry 0 = (load s pml4 entry).map fun e => (s, entryFormat.present e) := by
  unfold nextEntry
  cases load s pml4 entry with
  | none => rfl
  | some e =>
    simp only [bind_some, map_some, not_present_iff, if_true]
    cases entryFormat.present e <;> rfl

/-- With `phys` zero, an entry gets other permissions. -/
theorem updateCurrPageTable_zero (hw : WellFormed K s (· = pml4)) (hself : SelfRef s pml4) (hK : K (indexPml4e virt))
    (he : leaf s.mem pml4 virt = some e) (perm : Word) :
    ∃ pt, walk entryFormat s.mem pml4 (tablePath virt) = some pt ∧ s.mem pt (indexPte virt) = e ∧
      updateCurrPageTable s pml4 0 virt perm =
        some (s.store pt (indexPte virt) (pageTransNextLevelAddr e ||| pageTransNonAddrFields perm), 0) := by
  obtain ⟨pt, hpt, rfl, hp⟩ := Radix.lookup_eq_some.1 (id he)
  refine ⟨pt, hpt, rfl, ?_⟩
  have hlast := hardwareWalk_leaf hw hself hK
  have l3 := load_pdpe hw hself hK
  have l2 := load_pde hw hself hK
  have l1 := load_pte hw hself hK
  simp only [leafWord, tablePath, word, walk_cons, walk_nil, Radix.Format.bind_link] at hpt hlast l3 l2 l1
  unfold updateCurrPageTable lastEntry storeAt
  simp only [nextEntry_zero, load_pml4e hself, not_present_iff, indices_pte.2]
  -- every entry on the way is present
  split_ifs at hpt
  cases hpt
  simp [*]

/-- With `phys` zero, a page that is not mapped is an error. -/
theorem updateCurrPageTable_absent (hw : WellFormed K s (· = pml4)) (hself : SelfRef s pml4) (hK : K (indexPml4e virt))
    (hnone : leaf s.mem pml4 virt = none) (perm : Word) : updateCurrPageTable s pml4 0 virt perm = some (s, -1) := by
  have l3 := load_pdpe hw hself hK
  have l2 := load_pde hw hself hK
  have l1 := load_pte hw hself hK
  unfold leaf tablePath at hnone
  simp only [Radix.lookup_cons, Radix.Format.bind_link, Radix.lookup_nil] at hnone
  simp only [leafWord, tablePath, word, walk_cons, walk_nil, Radix.Format.bind_link] at l3 l2 l1
  unfold updateCurrPageTable lastEntry
  simp only [nextEntry_zero, load_pml4e hself, not_present_iff]
  -- the first entry on the way that is not present ends the update
  split_ifs at hnone <;> simp [*]

/-- The self-referenced and the direct access agree: always on the translation of an address; on an update unless the
allocation of the first object fails unnoticed and the second and third level use different entries. -/
theorem selfref_agrees (s : Mach) (pml4 : Nat) (hw : WellFormed (· ≠ selfRefEntry) s (· = pml4))
    (hself : SelfRef s pml4) (phys virt perm : Word) (hv : indexPml4e virt ≠ selfRefEntry) (hphys : phys ≠ 0) :
    (virt2physSelfref s pml4 virt).map (·.1) = some (virt2physIdmap s pml4 virt) ∧
      ((∃ s' r, updateCurrPageTable s pml4 phys virt perm = some (s', r) ∧
          s'.mem = (updatePageTableIdmap s pml4 phys virt perm).1.mem) ↔
        ¬ (s.base ≠ 0 ∧ freeCount s.pages = 0 ∧ Radix.walk entryFormat s.mem pml4 [indexPml4e virt] = none ∧
          indexPdpe virt ≠ indexPde virt)) := by
  constructor
  · rw [virt2physSelfref_eq hw hself hv, virt2physIdmap_eq]
    cases leaf s.mem pml4 virt <;> rfl
  · by_cases hun : Unnoticed s pml4 virt
    · rw [updateCurr_unnoticed hw hself hv hphys hun]
      obtain ⟨hb, hc, hn⟩ := hun
      by_cases hi : indexPdpe virt = indexPde virt
      · simp only [hi, if_true, ne_eq, not_true_eq_false, and_false, not_false_eq_true, iff_true]
        exact ⟨_, _, rfl, rfl⟩
      · rw [if_neg hi]
        constructor
        · rintro ⟨s', r, he, -⟩
          cases he
        · intro hnot
          exact absurd ⟨hb, hc, hn, hi⟩ hnot
    · have heq : updateCurrPageTable s pml4 phys virt perm = some (updatePageTableIdmap s pml4 phys virt perm) :=
        updateCurr_eq_idmap (hw.onWay rfl hv 1) hself hphys fun he => hun ((nextTable_eq_zero (hw.onWay rfl hv 1)).1 he)
      rw [heq]
      constructor
      · rintro - ⟨hb, hc, hn, -⟩
        exact hun ⟨hb, hc, hn⟩
      · intro _
        exact ⟨_, _, rfl, rfl⟩

theorem selfRef_emptyMach (runs : List PhysPages.PhysFree) (base : Word) : SelfRef (emptyMach runs base) 0x1000 := by
  show hardwareFormat.link 0x1003 = some 0x1000
  decide

theorem selfref_agrees_first : SelfRef (emptyMach [⟨0x2000, 3⟩] 0) 0x1000 ∧
      ∃ s' r, updateCurrPageTable (emptyMach [⟨0x2000, 3⟩] 0) 0x1000 0x7000 0x400000 6 = some (s', r) ∧
        s'.mem = (updatePageTableIdmap (emptyMach [⟨0x2000, 3⟩] 0) 0x1000 0x7000 0x400000 6).1.mem := by
  have h := selfref_agrees (emptyMach [⟨0x2000, 3⟩] 0) 0x1000 wellFormed_emptyMach (selfRef_emptyMach _ _) 0x7000
    0x400000 6 (by decide) (by decide)
  exact ⟨selfRef_emptyMach _ _, h.2.2 fun hbad => hbad.1 rfl⟩

theorem wellFormed_emptyMach_nil (base : Word) : WellFormed (· ≠ selfRefEntry) (emptyMach [] base) (· = 0x1000) := by
  have hfree : ∀ q, ¬ Free (emptyMach [] base) q := fun q => PhysPages.not_covers_nil
  exact wellFormed_empty (fun i hi => if_neg fun h => hi h.2) ⟨rfl, by decide⟩ (by decide)
    (fun q hq => absurd hq (hfree q)) (hfree _) ⟨PhysPages.Apart.nil, fun q hq => absurd hq (hfree q)⟩
    (fun q hq => absurd hq (hfree q))

/-- With no page free and the map of physical memory not at `0`, the direct update puts page `0` into the table three
times and returns `0`, while the self-referenced update faults. -/
theorem selfref_faults : WellFormed (· ≠ selfRefEntry) (emptyMach [] 0xffffffffc0000000) (· = 0x1000) ∧
      SelfRef (emptyMach [] 0xffffffffc0000000) 0x1000 ∧ indexPml4e 0x200000 ≠ selfRefEntry ∧
      updateCurrPageTable (emptyMach [] 0xffffffffc0000000) 0x1000 0x7000 0x200000 6 = none ∧
      (updatePageTableIdmap (emptyMach [] 0xffffffffc0000000) 0x1000 0x7000 0x200000 6).2 = 0 := by
  refine ⟨wellFormed_emptyMach_nil _, selfRef_emptyMach _ _, by decide, ?_, by decide +kernel⟩
  exact isNone_iff_eq_none.1 (by decide +kernel)

end Adix.PageTable
