import Adix.PageTable.Defs
import Mathlib.Tactic.IntervalCases
import Adix.PhysPages.Alloc

/-!
# Well-formed page tables

The page translation objects that a set of PML4s reaches through the slots in `K` are distinct pages, none of them on
the free list. `Grows` says what the creation of missing objects does.
-/

namespace Adix.PageTable

open BitVec
open BitVec (ofNat)
open PhysPages (Covers Listed Allocated freeCount desc)
open Radix (walk lookup)

variable {a e phys perm : Word} {n k : Nat}

/-- The address of a page that fits into an entry without setting its sign bit. -/
structure PageAddr (n : Nat) : Prop where
  aligned : n % 4096 = 0
  lt : n < 2 ^ 51

private theorem getLsbD_mask (hk : k < 64) : maskPageTransNextLevelAddr.getLsbD k = decide (12 ≤ k ∧ k < 52) := by
  revert k
  decide

private theorem and_twoPow_eq_zero (a : Word) (k : Nat) (m : Word) (hm : m = BitVec.twoPow 64 k) (hk : k < 64) :
    a &&& m = 0 ↔ a.getLsbD k = false := by
  subst hm
  rw [and_twoPow]
  cases hb : a.getLsbD k with
  | false => simp
  | true =>
    simp only [if_true, Bool.true_eq_false, iff_false]
    intro hz
    have hbit := congrArg (fun x : Word => x.getLsbD k) hz
    simp [hk] at hbit

private theorem and_present_eq_zero : e &&& pageTransPresent = 0 ↔ e.getLsbD 0 = false :=
  and_twoPow_eq_zero e 0 _ rfl (by decide)

theorem and_readWrite_eq_zero : e &&& pageTransReadWrite = 0 ↔ e.getLsbD 1 = false :=
  and_twoPow_eq_zero e 1 _ rfl (by decide)

/-- A flag is tested by one bit. -/
theorem decide_and_twoPow (a : Word) (k : Nat) (m : Word) (hm : m = BitVec.twoPow 64 k) (hk : k < 64) :
    decide (a &&& m ≠ 0) = a.getLsbD k := by
  rw [Bool.eq_iff_iff, decide_eq_true_iff, Ne, and_twoPow_eq_zero a k m hm hk, Bool.not_eq_false]

theorem present_eq : entryFormat.present e = e.getLsbD 0 := decide_and_twoPow e 0 _ rfl (by decide)

theorem not_present_iff : e &&& pageTransPresent = 0 ↔ entryFormat.present e = false := by
  rw [and_present_eq_zero, present_eq]

theorem link_of_present (h : ¬ e &&& pageTransPresent = 0) : entryFormat.link e = some (entryFormat.next e) := by
  rw [Radix.Format.link_eq_some]
  rw [not_present_iff] at h
  exact ⟨Bool.of_not_eq_false h, rfl⟩

theorem link_of_not_present (h : e &&& pageTransPresent = 0) : entryFormat.link e = none :=
  Radix.Format.link_eq_none.2 (not_present_iff.1 h)

@[simp] theorem link_zero : entryFormat.link 0 = none := link_of_not_present rfl

theorem getLsbD_nextLevelAddr : (pageTransNextLevelAddr e).getLsbD k = (e.getLsbD k && decide (12 ≤ k ∧ k < 52)) := by
  unfold pageTransNextLevelAddr
  rw [getLsbD_and]
  by_cases hk : k < 64
  · rw [getLsbD_mask hk]
  · simp [getLsbD_of_ge e k (by omega)]

theorem getLsbD_nonAddrFields : (pageTransNonAddrFields e).getLsbD k = (e.getLsbD k && !decide (12 ≤ k ∧ k < 52)) := by
  unfold pageTransNonAddrFields
  rw [getLsbD_and, getLsbD_not]
  by_cases hk : k < 64
  · rw [getLsbD_mask hk]
    simp [hk]
  · simp [getLsbD_of_ge e k (by omega)]

/-- Without the sign bit, the kernel computes the address in the entry. -/
theorem entryAddr_eq (h : e.getLsbD 51 = false) : entryAddr e = pageTransNextLevelAddr e := by
  unfold entryAddr pageTransAddrSignExt
  rw [if_neg]
  · exact or_zero
  · rw [Classical.not_not, and_twoPow_eq_zero e 51 _ (by decide) (by decide)]
    exact h

theorem next_aligned (e : Word) : entryFormat.next e % PhysPages.sizeofPage = 0 := by
  show (entryAddr e).toNat % 2 ^ 12 = 0
  apply Nat.eq_of_testBit_eq
  intro k
  rw [Nat.testBit_mod_two_pow, Nat.zero_testBit]
  by_cases hk : k < 12
  · have hb : (entryAddr e).getLsbD k = false := by
      unfold entryAddr pageTransAddrSignExt
      rw [getLsbD_or, getLsbD_nextLevelAddr]
      split <;> interval_cases k <;> simp
    rw [show (entryAddr e).toNat.testBit k = false from hb, Bool.and_false]
  · simp [hk]

theorem signBit_of_next_lt (h : entryFormat.next e < 2 ^ 51) : e.getLsbD 51 = false := by
  cases hb : e.getLsbD 51 with
  | false => rfl
  | true =>
    have hbit : (entryAddr e).getLsbD 51 = true := by
      unfold entryAddr
      rw [getLsbD_or, getLsbD_nextLevelAddr, hb]
      rfl
    have hlt : (entryAddr e).toNat.testBit 51 = false := Nat.testBit_lt_two_pow h
    exact absurd (hbit.symm.trans hlt) (by simp)

/-- Below the sign bit, kernel and hardware follow the same links. -/
theorem hardware_link (h : ∀ q, entryFormat.link e = some q → q < 2 ^ 51) :
    hardwareFormat.link e = entryFormat.link e := by
  cases hp : entryFormat.present e with
  | false =>
    rw [Radix.Format.link_eq_none.2 hp]
    exact Radix.Format.link_eq_none.2 hp
  | true =>
    have hl : entryFormat.link e = some (entryFormat.next e) := Radix.Format.link_eq_some.2 ⟨hp, rfl⟩
    have hlt := h _ hl
    rw [hl]
    refine Radix.Format.link_eq_some.2 ⟨hp, ?_⟩
    show (pageTransNextLevelAddr e).toNat = (entryAddr e).toNat
    rw [entryAddr_eq (signBit_of_next_lt hlt)]

theorem PageAddr.getLsbD (h : PageAddr n) (hk : k < 12 ∨ 51 ≤ k) : (ofNat 64 n).getLsbD k = false := by
  rw [getLsbD_ofNat]
  obtain ⟨m, rfl⟩ : ∃ m, n = 2 ^ 12 * m := ⟨n / 4096, by have := h.aligned; omega⟩
  rcases hk with hk | hk
  · rw [Nat.testBit_two_pow_mul]
    simp [hk]
  · have hlt : 2 ^ 12 * m < 2 ^ k := Nat.lt_of_lt_of_le h.lt (Nat.pow_le_pow_right (by decide) hk)
    rw [Nat.testBit_lt_two_pow hlt]
    simp

theorem PageAddr.nextLevelAddr (h : PageAddr n) : pageTransNextLevelAddr (ofNat 64 n) = ofNat 64 n := by
  apply eq_of_getLsbD_eq
  intro k hk
  rw [getLsbD_nextLevelAddr]
  by_cases hmid : 12 ≤ k ∧ k < 52
  · simp [hmid]
  · rw [h.getLsbD (by omega)]
    rfl

theorem PageAddr.toNat (h : PageAddr n) : (ofNat 64 n).toNat = n := by
  have := h.lt
  rw [toNat_ofNat]
  omega

theorem PageAddr.ofNat_ne_zero (h : PageAddr n) (h0 : n ≠ 0) : ofNat 64 n ≠ 0 := by
  intro hz
  have hval := congrArg BitVec.toNat hz
  rw [h.toNat] at hval
  exact h0 hval

private theorem PageAddr.ofNat_toNat : ofNat 64 a.toNat = a := by simp

theorem entryAddr_or_flags (h : PageAddr n) (flags : Word) (hf : ∀ k, 12 ≤ k → k < 52 → flags.getLsbD k = false) :
    entryAddr (ofNat 64 n ||| flags) = ofNat 64 n := by
  rw [entryAddr_eq]
  · apply eq_of_getLsbD_eq
    intro k hk
    rw [getLsbD_nextLevelAddr, getLsbD_or]
    by_cases hmid : 12 ≤ k ∧ k < 52
    · simp [hmid, hf k hmid.1 hmid.2]
    · rw [h.getLsbD (by omega)]
      simp [hmid]
  · rw [getLsbD_or, h.getLsbD (by omega), hf 51 (by omega) (by omega)]
    rfl

private theorem tableEntry_eq (h : PageAddr n) : tableEntry n = ofNat 64 n ||| 0x7 := by
  unfold tableEntry
  rw [h.nextLevelAddr, BitVec.or_assoc, BitVec.or_assoc]
  rfl

/-- The entry for a table leads to it. -/
theorem link_tableEntry (h : PageAddr n) : entryFormat.link (tableEntry n) = some n := by
  rw [Radix.Format.link_eq_some, tableEntry_eq h]
  constructor
  · rw [present_eq, getLsbD_or]
    simp
  · show (entryAddr _).toNat = n
    rw [entryAddr_or_flags h, h.toNat]
    intro k h1 h2
    interval_cases k <;> rfl

private theorem leafEntry_eq (h : PageAddr phys.toNat) :
    leafEntry phys perm = phys ||| (pageTransPresent ||| pageTransNonAddrFields perm) := by
  have hp := h.nextLevelAddr
  rw [PageAddr.ofNat_toNat] at hp
  unfold leafEntry
  rw [hp, BitVec.or_assoc]

private theorem leafFlags (k : Nat) (h1 : 12 ≤ k) (h2 : k < 52) :
    (pageTransPresent ||| pageTransNonAddrFields perm).getLsbD k = false := by
  have hp : pageTransPresent.getLsbD k = false := by
    interval_cases k <;> rfl
  rw [getLsbD_or, hp, getLsbD_nonAddrFields]
  simp [h1, h2]

theorem present_leafEntry : entryFormat.present (leafEntry phys perm) = true := by
  rw [present_eq]
  unfold leafEntry
  rw [getLsbD_or, getLsbD_or]
  simp [pageTransPresent]

theorem entryAddr_leafEntry (h : PageAddr phys.toNat) : entryAddr (leafEntry phys perm) = phys := by
  have hor := entryAddr_or_flags h (pageTransPresent ||| pageTransNonAddrFields perm) leafFlags
  rw [PageAddr.ofNat_toNat] at hor
  rw [leafEntry_eq h, hor]

theorem next_leafEntry (h : PageAddr phys.toNat) : entryFormat.next (leafEntry phys perm) = phys.toNat := by
  show (entryAddr _).toNat = _
  rw [entryAddr_leafEntry h]

theorem next_leafEntry_ofNat (h : PageAddr n) : entryFormat.next (leafEntry (ofNat 64 n) perm) = n := by
  rw [next_leafEntry (by rw [h.toNat]; exact h), h.toNat]

theorem nonAddrFields_leafEntry (h : PageAddr phys.toNat) :
    pageTransNonAddrFields (leafEntry phys perm) = pageTransNonAddrFields perm ||| pageTransPresent := by
  rw [leafEntry_eq h]
  apply eq_of_getLsbD_eq
  intro k hk
  have hphys := h.getLsbD (k := k)
  rw [PageAddr.ofNat_toNat] at hphys
  rw [getLsbD_nonAddrFields, getLsbD_or, getLsbD_or, getLsbD_or, getLsbD_nonAddrFields]
  by_cases hmid : 12 ≤ k ∧ k < 52
  · have hp : pageTransPresent.getLsbD k = false := by
      obtain ⟨h1, h2⟩ := hmid
      interval_cases k <;> rfl
    simp [hmid, hp]
  · rw [hphys (by omega)]
    simp [hmid, Bool.or_comm]

/-- A path to a page translation object which begins with a slot in `K`. -/
def TablePath (K : Index → Prop) (σ : List Index) : Prop := σ.length ≤ 3 ∧ ∀ i ∈ σ.head?, K i

def Free (s : Mach) (q : Nat) : Prop := Covers s.pages.physFreeList q

def IsTable (K : Index → Prop) (s : Mach) (R : Nat → Prop) (q : Nat) : Prop :=
  Radix.Reaches entryFormat s.mem R (TablePath K) q

/-- The tables with the PML4s `R` are trees of distinct pages, none on the free list; the addresses of the pages fit
into an entry, and the map of physical memory does not wrap around. -/
structure WellFormed (K : Index → Prop) (s : Mach) (R : Nat → Prop) : Prop where
  forest : Radix.Forest entryFormat s.mem R (TablePath K)
  table : ∀ q, IsTable K s R q → PageAddr q ∧ q ≠ 0 ∧ ¬ Free s q
  free : ∀ q, Free s q → PageAddr q
  listed : Listed s.pages
  window : ∀ q, Free s q → q + s.base.toNat < 2 ^ 64

def lack (m : Memory) (pml4 : Nat) (σ : List Index) : Nat := (walk entryFormat m pml4 σ).elim 1 fun _ => 0

variable {s s' s'' : Mach} {R : Nat → Prop} {r r' t q f : Nat} {σ τ π : List Index} {i j : Index} {w : Word}
  {K : Index → Prop}

theorem TablePath.nil : TablePath K [] := ⟨by simp, fun _ hi => by cases hi⟩

theorem TablePath.left (σ τ : List Index) (h : TablePath K (σ ++ τ)) : TablePath K σ := by
  obtain ⟨h1, h2⟩ := h
  rw [List.length_append] at h1
  refine ⟨by omega, ?_⟩
  cases σ with
  | nil => exact fun _ hi => by cases hi
  | cons i σ => exact h2

open TablePath (left nil)

theorem WellFormed.mono {R' : Nat → Prop} (h : WellFormed K s R) (hR : ∀ r, R' r → R r) : WellFormed K s R' where
  forest := ⟨fun h1 h2 => h.forest.root_eq (hR _ h1) (hR _ h2), fun h1 h2 => h.forest.path_eq (hR _ h1) (hR _ h2)⟩
  table q := fun ⟨r, σ, hr, hσ, hq⟩ => h.table q ⟨r, σ, hR r hr, hσ, hq⟩
  free := h.free
  listed := h.listed
  window := h.window

theorem WellFormed.restrict {K' : Index → Prop} (h : WellFormed K s R) (hK : ∀ i, K' i → K i) : WellFormed K' s R := by
  have hpath : ∀ {σ}, TablePath K' σ → TablePath K σ := fun hσ => ⟨hσ.1, fun i hi => hK i (hσ.2 i hi)⟩
  exact
    { forest := ⟨fun h1 h2 hσ hτ => h.forest.root_eq h1 h2 (hpath hσ) (hpath hτ),
        fun h1 h2 hσ hτ => h.forest.path_eq h1 h2 (hpath hσ) (hpath hτ)⟩
      table := fun q ⟨r, σ, hr, hσ, hq⟩ => h.table q ⟨r, σ, hr, hpath hσ, hq⟩
      free := h.free
      listed := h.listed
      window := h.window }

section Congr

variable (hw : WellFormed K s R) (hmem : ∀ q, IsTable K s R q → s'.mem q = s.mem q)
include hmem

/-- Walks depend on the tables only. -/
theorem walk_of_tables (hr : R r) (hσ : TablePath K σ) : walk entryFormat s'.mem r σ = walk entryFormat s.mem r σ := by
  apply Radix.walk_congr
  intro τ i ρ q hτ hq
  subst hτ
  rw [hmem q ⟨r, τ, hr, left _ _ hσ, hq⟩]

theorem lookup_of_tables (hr : R r) (hσ : TablePath K σ) :
    lookup entryFormat s'.mem r σ i = lookup entryFormat s.mem r σ i :=
  Radix.lookup_congr (walk_of_tables hmem hr hσ) fun q hq => by rw [hmem q ⟨r, σ, hr, hσ, hq⟩]

theorem isTable_of_tables : IsTable K s' R q ↔ IsTable K s R q := by
  refine exists_congr fun r => exists_congr fun σ => and_congr_right fun hr => and_congr_right fun hσ => ?_
  rw [walk_of_tables hmem hr hσ]

include hw

/-- Tables that are kept stay well-formed while no page is freed. -/
theorem WellFormed.congr (hl : Listed s'.pages) (hbase : s'.base = s.base) (hsub : ∀ q, Free s' q → Free s q) :
    WellFormed K s' R where
  forest := hw.forest.congr (walk_of_tables hmem)
  table := by
    intro q hq
    obtain ⟨h1, h2, h3⟩ := hw.table q ((isTable_of_tables hmem).1 hq)
    exact ⟨h1, h2, fun hf => h3 (hsub q hf)⟩
  free q hq := hw.free q (hsub q hq)
  listed := hl
  window q hq := by
    rw [hbase]
    exact hw.window q (hsub q hq)

end Congr

@[simp] private theorem Mach.zero_base : (s.zero q).base = s.base := rfl

theorem Mach.store_mem : (s.store q i w).mem t j = if t = q ∧ j = i then w else s.mem t j := rfl

theorem Mach.store_self : s.store q i (s.mem q i) = s := by
  unfold Mach.store
  congr
  funext t j
  split
  · rename_i h
    rw [h.1, h.2]
  · rfl

theorem Mach.zero_mem : (s.zero q).mem t j = if t = q then 0 else s.mem t j := rfl

open Mach (store_mem zero_mem)

/-- A page is taken off the free list, and all else is as before. -/
structure TakesPage (s s' : Mach) (f : Nat) : Prop where
  mem_eq : s'.mem = s.mem
  base_eq : s'.base = s.base
  allocated : Allocated s.pages 1 s'.pages f

theorem TakesPage.wasFree (h : TakesPage s s' f) : Free s f := h.allocated.free f (PhysPages.has_one.2 rfl)

theorem TakesPage.free_iff (h : TakesPage s s' f) : Free s' q ↔ Free s q ∧ q ≠ f := by
  show Covers s'.pages.physFreeList q ↔ _
  rw [h.allocated.covers, PhysPages.has_one]
  rfl

/-- As long as pages are free, one is taken. -/
theorem allocPage_spec (h : Listed s.pages) (hc : 0 < freeCount s.pages) :
    ∃ s' f, s.allocPage = (s', f) ∧ TakesPage s s' f ∧ freeCount s'.pages + 1 = freeCount s.pages := by
  obtain ⟨p, a, he, hal, hcount⟩ := PhysPages.allocPhysPages_one h hc
  refine ⟨{ s with pages := p }, a, ?_, ⟨rfl, rfl, hal⟩, hcount⟩
  unfold Mach.allocPage
  rw [he]

theorem allocPage_empty (hc : freeCount s.pages = 0) : s.allocPage = (s, 0) := by
  unfold Mach.allocPage
  rw [PhysPages.allocPhysPages_empty hc]

/-- There is no page, or the first free one is taken. -/
theorem allocPage_cases (h : Listed s.pages) :
    s.allocPage = (s, 0) ∨ ∃ s' f, s.allocPage = (s', f) ∧ TakesPage s s' f := by
  rcases Nat.eq_zero_or_pos (freeCount s.pages) with hc | hc
  · exact .inl (allocPage_empty hc)
  · obtain ⟨s', f, he, hf, -⟩ := allocPage_spec h hc
    exact .inr ⟨s', f, he, hf⟩

theorem virtualAddr_ne_zero (hb : f + s.base.toNat < 2 ^ 64) (hf : PageAddr f) (h0 : f ≠ 0) : s.virtualAddr f ≠ 0 := by
  intro hz
  have hn := congrArg BitVec.toNat hz
  unfold Mach.virtualAddr at hn
  rw [BitVec.toNat_add, hf.toNat] at hn
  have hn' : (f + s.base.toNat) % 2 ^ 64 = 0 := hn
  omega

/-- The state `s'` has the tables of `s`, with some that were missing added from the free list: no walk is lost, a new
walk ends in a page that was free, and the words of the page tables are kept, or zero in a new table. -/
structure Grows (K : Index → Prop) (R : Nat → Prop) (s s' : Mach) : Prop where
  wf : WellFormed K s' R
  base_eq : s'.base = s.base
  keeps : ∀ {r σ q}, R r → TablePath K σ → walk entryFormat s.mem r σ = some q →
    walk entryFormat s'.mem r σ = some q
  adds : ∀ {r σ q}, R r → TablePath K σ → walk entryFormat s'.mem r σ = some q →
    walk entryFormat s.mem r σ = some q ∨
      walk entryFormat s.mem r σ = none ∧ Free s q ∧ (σ.length = 3 → ∀ j, s'.mem q j = 0)
  words : ∀ {r σ q}, R r → TablePath K σ → σ.length = 3 → walk entryFormat s.mem r σ = some q →
    ∀ j, s'.mem q j = s.mem q j
  slots : ∀ {r i}, R r → ¬ K i → s'.mem r i = s.mem r i
  free_sub : ∀ q, Free s' q → Free s q
  outside : ∀ q, ¬ IsTable K s R q → (Free s q → Free s' q) → s'.mem q = s.mem q
  desc_eq : ∀ q, q % 4096 = 0 → (Free s q → Free s' q) → desc s'.pages q = desc s.pages q
  taken : ∀ q, Free s q → ¬ Free s' q → desc s'.pages q = (desc s.pages q).map PhysPages.PhysPage.bump
  used : ∀ q, Free s q → ¬ Free s' q → IsTable K s' R q
  numPages_eq : PhysPages.numPages s'.pages.chunkList = PhysPages.numPages s.pages.chunkList
  ordered : PhysPages.Ordered s.pages.physFreeList → PhysPages.Ordered s'.pages.physFreeList

theorem Grows.refl (h : WellFormed K s R) : Grows K R s s where
  wf := h
  base_eq := rfl
  keeps _ _ hw := hw
  adds _ _ hw := .inl hw
  words _ _ _ _ _ := rfl
  slots _ _ := rfl
  free_sub _ hq := hq
  outside _ _ _ := rfl
  desc_eq _ _ _ := rfl
  taken _ hq hnot := absurd hq hnot
  used _ hq hnot := absurd hq hnot
  numPages_eq := rfl
  ordered ho := ho

theorem Grows.lack_le (h : Grows K R s s') (hr : R r) (hσ : TablePath K σ) : lack s'.mem r σ ≤ lack s.mem r σ := by
  unfold lack
  cases hw : walk entryFormat s.mem r σ with
  | none => cases walk entryFormat s'.mem r σ <;> simp
  | some q => simp [h.keeps hr hσ hw]

theorem Grows.isTable (h : Grows K R s s') (hq : IsTable K s' R q) : IsTable K s R q ∨ Free s q ∧ ¬ Free s' q := by
  obtain ⟨r, σ, hr, hσ, hw⟩ := id hq
  obtain hw | ⟨-, hf, -⟩ := h.adds hr hσ hw
  · exact .inl ⟨r, σ, hr, hσ, hw⟩
  · exact .inr ⟨hf, (h.wf.table q hq).2.2⟩

/-- Tables grow step by step. -/
theorem Grows.trans (hw : WellFormed K s R) (h : Grows K R s s') (h' : Grows K R s' s'') : Grows K R s s'' where
  wf := h'.wf
  base_eq := h'.base_eq.trans h.base_eq
  keeps hr hσ hw := h'.keeps hr hσ (h.keeps hr hσ hw)
  adds := by
    intro r σ q hr hσ hw
    obtain hw | ⟨hn, hf, hz⟩ := h'.adds hr hσ hw
    · obtain hw' | ⟨hn, hf, hz⟩ := h.adds hr hσ hw
      · exact .inl hw'
      · refine .inr ⟨hn, hf, fun hlen j => ?_⟩
        rw [h'.words hr hσ hlen hw j]
        exact hz hlen j
    · refine .inr ⟨?_, h.free_sub q hf, hz⟩
      cases hs : walk entryFormat s.mem r σ with
      | none => rfl
      | some q' => exact absurd (hn.symm.trans (h.keeps hr hσ hs)) (by simp)
  words hr hσ hlen hw j := by
    rw [h'.words hr hσ hlen (h.keeps hr hσ hw) j]
    exact h.words hr hσ hlen hw j
  slots hr hi := (h'.slots hr hi).trans (h.slots hr hi)
  free_sub q hq := h.free_sub q (h'.free_sub q hq)
  outside := by
    intro q hq hf
    have hf' : Free s q → Free s' q := fun hs => h'.free_sub q (hf hs)
    rw [h'.outside q ?_ fun hs' => hf (h.free_sub q hs'), h.outside q hq hf']
    intro ht
    rcases h.isTable ht with ht | ⟨hs, hs'⟩
    · exact hq ht
    · exact hs' (hf' hs)
  desc_eq q hal hf := by
    rw [h'.desc_eq q hal fun hs' => hf (h.free_sub q hs'), h.desc_eq q hal fun hs => h'.free_sub q (hf hs)]
  taken := by
    intro q hs hs''
    have hal := (hw.free q hs).aligned
    by_cases hs' : Free s' q
    · rw [h'.taken q hs' hs'', h.desc_eq q hal fun _ => hs']
    · rw [h'.desc_eq q hal fun hq => absurd hq hs', h.taken q hs hs']
  used := by
    intro q hs hs''
    by_cases hs' : Free s' q
    · exact h'.used q hs' hs''
    · obtain ⟨r, σ, hr, hσ, hq⟩ := h.used q hs hs'
      exact ⟨r, σ, hr, hσ, h'.keeps hr hσ hq⟩
  numPages_eq := h'.numPages_eq.trans h.numPages_eq
  ordered ho := h'.ordered (h.ordered ho)

private theorem attached (hw : WellFormed K s R) (hr : R r) (hπ : TablePath K π)
    (ht : walk entryFormat s.mem r π = some t) (hn : entryFormat.link (s.mem t i) = none) (hf : TakesPage s s' f) :
    Radix.Attached entryFormat s.mem R (TablePath K) r π i f ((s'.zero f).store t i (tableEntry f)).mem := by
  have hfree := hf.wasFree
  have hnot : ∀ q, IsTable K s R q → q ≠ f := by
    rintro q hq rfl
    exact (hw.table q hq).2.2 hfree
  have htf : t ≠ f := hnot t ⟨r, π, hr, hπ, ht⟩
  refine ⟨hr, hπ, ⟨t, ht, hn, ?_, ?_⟩, fun hq => hnot f hq rfl, fun j => ?_⟩
  · rw [store_mem, if_pos ⟨rfl, rfl⟩]
    exact link_tableEntry (hw.free f hfree)
  · intro q j hq hj
    rw [store_mem, if_neg (fun he => hj he.1 he.2), zero_mem, if_neg (hnot q hq), hf.mem_eq]
  · rw [store_mem, if_neg (fun he => htf he.1.symm), zero_mem, if_pos rfl]
    exact link_zero

private theorem grows_attach (hw : WellFormed K s R) (hr : R r) (hπ : TablePath K (π ++ [i]))
    (ht : walk entryFormat s.mem r π = some t) (hn : entryFormat.link (s.mem t i) = none)
    (hf : TakesPage s s' f) : Grows K R s ((s'.zero f).store t i (tableEntry f)) := by
  have hπ' := left _ _ hπ
  have hat := attached hw hr hπ' ht hn hf
  have htt : IsTable K s R t := ⟨r, π, hr, hπ', ht⟩
  have hfree : ∀ q, Free ((s'.zero f).store t i (tableEntry f)) q ↔ Free s q ∧ q ≠ f := fun q => hf.free_iff
  have hmem : ∀ q j, q ≠ f → (q = t → j ≠ i) → ((s'.zero f).store t i (tableEntry f)).mem q j = s.mem q j := by
    intro q j hqf hj
    rw [store_mem, if_neg (fun he => hj he.1 he.2), zero_mem, if_neg hqf, hf.mem_eq]
  have hne : ∀ q, IsTable K s R q → q ≠ f := by
    rintro q hq rfl
    exact (hw.table q hq).2.2 hf.wasFree
  have htaken : ∀ q, (Free s q → Free ((s'.zero f).store t i (tableEntry f)) q) → q ≠ f := by
    rintro q h rfl
    exact ((hfree q).1 (h hf.wasFree)).2 rfl
  have hnew : ∀ q, Free s q → ¬ Free ((s'.zero f).store t i (tableEntry f)) q → q = f := by
    intro q hq hnot
    by_contra hqf
    exact hnot ((hfree q).2 ⟨hq, hqf⟩)
  refine
    { wf := ⟨hat.forest hw.forest left, ?_, fun q hq => hw.free q ((hfree q).1 hq).1, hf.allocated.listed, ?_⟩
      base_eq := hf.base_eq
      keeps := ?_
      adds := ?_
      words := ?_
      slots := ?_
      free_sub := fun q hq => ((hfree q).1 hq).1
      outside := ?_
      desc_eq := ?_
      taken := ?_
      used := ?_
      numPages_eq := hf.allocated.numPages_eq
      ordered := hf.allocated.ordered }
  · intro q hq
    rcases hat.reaches hw.forest left hq with hq | rfl
    · obtain ⟨h1, h2, h3⟩ := hw.table q hq
      exact ⟨h1, h2, fun hfq => h3 ((hfree q).1 hfq).1⟩
    · exact ⟨hw.free q hf.wasFree, hf.allocated.ne_zero, fun hfq => ((hfree q).1 hfq).2 rfl⟩
  · intro q hq
    show q + s'.base.toNat < 2 ^ 64
    rw [hf.base_eq]
    exact hw.window q ((hfree q).1 hq).1
  · intro r' σ q hr' hσ hwalk
    rw [hat.walk_eq hw.forest left hr' hσ, hwalk]
    rintro rfl ⟨ρ, rfl⟩
    rw [List.append_assoc, List.singleton_append, hat.walk_old] at hwalk
    cases hwalk
  · intro r' σ q hr' hσ hwalk
    obtain hwalk | ⟨rfl, rfl, rfl⟩ := hat.walk_cases hw.forest left hr' hσ hwalk
    · exact .inl hwalk
    · refine .inr ⟨hat.walk_old (τ := []), hf.wasFree, fun _ j => ?_⟩
      rw [store_mem, if_neg (fun he => hne t htt he.1.symm), zero_mem, if_pos rfl]
  · intro r' σ q hr' hσ hlen hwalk j
    refine hmem q j (hne q ⟨r', σ, hr', hσ, hwalk⟩) ?_
    -- the changed object is not of the last level
    rintro rfl
    obtain rfl := hw.forest.path_eq hr' hr hσ hπ' hwalk ht
    have := hπ.1
    simp [hlen] at this
  · intro r' k hr' hk
    refine hmem r' k (hne r' ⟨r', [], hr', nil, rfl⟩) ?_
    -- the changed entry of a PML4 is in a slot of `K`
    rintro rfl rfl
    obtain rfl := hw.forest.path_eq hr hr' hπ' nil ht rfl
    exact hk (hπ.2 k rfl)
  · intro q hq hfq
    funext j
    exact hmem q j (htaken q hfq) fun he => absurd (he ▸ htt) hq
  · intro q hal hfq
    exact hf.allocated.other q hal fun hhas => htaken q hfq (PhysPages.has_one.1 hhas)
  · intro q hq hnot
    exact hf.allocated.counted q (PhysPages.has_one.2 (hnew q hq hnot))
  · intro q hq hnot
    rw [hnew q hq hnot]
    exact ⟨r, π ++ [i], hr, hπ, (hat.walk_new hw.forest left).1⟩

theorem walk_store (hw : WellFormed K s R) (hr : R r) (hσ : TablePath K σ) (hlen : σ.length = 3)
    (ht : walk entryFormat s.mem r σ = some t) (hr' : R r') (hτ : TablePath K τ) :
    walk entryFormat (s.store t i w).mem r' τ = walk entryFormat s.mem r' τ := by
  refine Radix.walk_congr fun ρ k ρ' q hτ' hq => ?_
  subst hτ'
  rw [store_mem, if_neg]
  rintro ⟨rfl, -⟩
  obtain rfl := hw.forest.path_eq hr' hr (left _ _ hτ) hσ hq ht
  have := hτ.1
  simp [hlen] at this

/-- The tables are the same after a store to a page table. -/
theorem isTable_store (hw : WellFormed K s R) (hr : R r) (hσ : TablePath K σ) (hlen : σ.length = 3)
    (ht : walk entryFormat s.mem r σ = some t) : IsTable K (s.store t i w) R q ↔ IsTable K s R q :=
  exists_congr fun _ => exists_congr fun _ => and_congr_right fun hr' => and_congr_right fun hτ => by
    rw [walk_store hw hr hσ hlen ht hr' hτ]

/-- A word of a page table may be anything. -/
theorem WellFormed.store (hw : WellFormed K s R) (hr : R r) (hσ : TablePath K σ) (hlen : σ.length = 3)
    (ht : walk entryFormat s.mem r σ = some t) : WellFormed K (s.store t i w) R := by
  refine ⟨hw.forest.congr fun hr' hτ => walk_store hw hr hσ hlen ht hr' hτ, fun q hq => ?_, hw.free, hw.listed,
    hw.window⟩
  exact hw.table q ((isTable_store hw hr hσ hlen ht).1 hq)

/-- With enough free pages, the next object is found or made. -/
theorem nextTable_spec (hw : WellFormed K s R) (hr : R r) (hπ : TablePath K (π ++ [i]))
    (ht : walk entryFormat s.mem r π = some t) (hc : lack s.mem r (π ++ [i]) ≤ freeCount s.pages) :
    ∃ s' t', nextTable s t i = (s', some t') ∧ Grows K R s s' ∧ walk entryFormat s'.mem r (π ++ [i]) = some t' ∧
      freeCount s'.pages + lack s.mem r (π ++ [i]) = freeCount s.pages := by
  have hstep : walk entryFormat s.mem r (π ++ [i]) = entryFormat.link (s.mem t i) := by
    rw [Radix.walk_snoc, ht]
    rfl
  unfold nextTable
  unfold lack at hc ⊢
  rw [hstep] at hc ⊢
  by_cases hp : s.mem t i &&& pageTransPresent = 0
  · have hn := link_of_not_present hp
    rw [hn] at hc ⊢
    obtain ⟨s1, f, he, hf, hcount⟩ := allocPage_spec hw.listed hc
    have hgrow := grows_attach hw hr hπ ht hn hf
    have hvirt : (s1.zero f).virtualAddr f ≠ 0 := by
      refine virtualAddr_ne_zero ?_ (hw.free f hf.wasFree) hf.allocated.ne_zero
      rw [Mach.zero_base, hf.base_eq]
      exact hw.window f hf.wasFree
    rw [if_pos hp, getZeroedPageTransObj, he]
    dsimp only
    rw [if_neg hvirt]
    refine ⟨_, f, rfl, hgrow, ?_, ?_⟩
    · exact ((attached hw hr (left _ _ hπ) ht hn hf).walk_new hw.forest left).1
    · exact hcount
  · rw [if_neg hp, link_of_present hp]
    refine ⟨s, _, rfl, Grows.refl hw, ?_, rfl⟩
    rw [hstep, link_of_present hp]

end Adix.PageTable
