import Adix.Lib.Runs
import Adix.Vma.Defs

/-!
# The areas of a process stay apart

The scan of `add_vma_growable` only inserts an area where it fits, whatever `get_unmapped_area` proposed.
-/

namespace Adix.Vma

open List Option

/-- The areas are not empty, in address order, and do not overlap. -/
structure Valid (l : List VmArea) : Prop where
  proper : ∀ v ∈ l, v.vmStart < v.vmEnd
  sorted : l.Pairwise fun v w => v.vmEnd ≤ w.vmStart

def Inserted (v : VmArea) (l l' : List VmArea) : Prop :=
  ∃ l₁ l₂, l = l₁ ++ l₂ ∧ l' = l₁ ++ v :: l₂ ∧ (∀ w ∈ l₁, w.vmEnd ≤ v.vmStart) ∧ ∀ w ∈ l₂, v.vmEnd ≤ w.vmStart

variable {env : Env} {head v : VmArea} {l l' l₁ l₂ : List VmArea} {addr len : BitVec 64}

theorem Valid.nil : Valid [] := ⟨by simp, List.Pairwise.nil⟩

theorem Valid.tail (h : Valid (v :: l)) : Valid l :=
  ⟨fun w hw => h.proper w (by simp [hw]), (pairwise_cons.1 h.sorted).2⟩

theorem Valid.head_le (h : Valid (v :: l)) : ∀ w ∈ l, v.vmEnd ≤ w.vmStart := (pairwise_cons.1 h.sorted).1

theorem Valid.sublist (h : Valid l) (hs : l'.Sublist l) : Valid l' :=
  ⟨fun w hw => h.proper w (hs.subset hw), h.sorted.sublist hs⟩

theorem Inserted.valid (h : Valid l) (hv : v.vmStart < v.vmEnd) (hi : Inserted v l l') : Valid l' := by
  obtain ⟨l₁, l₂, rfl, rfl, hbelow, habove⟩ := hi
  obtain ⟨h1, h2, h3⟩ := pairwise_append.1 h.sorted
  constructor
  · intro w hw
    rcases mem_append.1 hw with hw | hw
    · exact h.proper w (by simp [hw])
    · rcases mem_cons.1 hw with rfl | hw
      · exact hv
      · exact h.proper w (by simp [hw])
  · refine pairwise_append.2 ⟨h1, pairwise_cons.2 ⟨habove, h2⟩, fun w hw x hx => ?_⟩
    rcases mem_cons.1 hx with rfl | hx
    · exact hbelow w hw
    · exact h3 w hw x hx

/-- An area is inserted between its neighbours. -/
private theorem insertVma_spec (prev : Option VmArea) (h : Valid (prev.toList ++ l))
    (hi : insertVma head v prev l = some l') : Inserted v l l' ∧ ∀ p ∈ prev, p.vmEnd ≤ v.vmStart := by
  -- the area before the rest of the list ends before the first area of the rest begins
  have hprev : ∀ p ∈ prev, ∀ w ∈ l, p.vmEnd ≤ w.vmStart := by
    rintro p hp w hw
    obtain rfl : prev = some p := hp
    exact Valid.head_le h w hw
  induction l generalizing prev l' with
  | nil => cases hi
  | cons node rest ih =>
    have hl : Valid (node :: rest) := h.sublist (sublist_append_right _ _)
    have hnode := hl.proper node (by simp)
    have habove : v.vmEnd ≤ node.vmStart → ∀ w ∈ node :: rest, v.vmEnd ≤ w.vmStart := by
      intro hle w hw
      rcases mem_cons.1 hw with rfl | hw
      · exact hle
      · have := hl.head_le w hw
        bv_omega
    unfold insertVma at hi
    split at hi
    · -- before the first area
      next hc =>
      cases hi
      refine ⟨⟨[], node :: rest, rfl, rfl, by simp, habove hc.2⟩, ?_⟩
      rintro p hp
      obtain rfl : prev = some p := hp
      cases hc.1
    · split at hi
      · -- after the last area
        next hc =>
        cases hi
        obtain rfl : rest = [] := List.isEmpty_iff.1 hc.1
        refine ⟨⟨[node], [], rfl, rfl, by simpa using hc.2, by simp⟩, fun p hp => ?_⟩
        have := hprev p hp node (by simp)
        bv_omega
      · split at hi
        · -- between two areas
          next hnot _ hc =>
          cases hi
          refine ⟨⟨[], node :: rest, rfl, rfl, by simp, habove hc.2⟩, ?_⟩
          rintro p hp
          obtain rfl : prev = some p := hp
          exact hc.1
        · obtain ⟨l'', hi', rfl⟩ := map_eq_some_iff.1 hi
          obtain ⟨⟨l₁, l₂, rfl, rfl, hb, ha⟩, hp⟩ := ih (some node) hl hi' (by
            rintro p ⟨⟩
            exact hl.head_le)
          have hnb := hp node rfl
          refine ⟨⟨node :: l₁, l₂, rfl, rfl, ?_, ha⟩, fun p hp => ?_⟩
          · intro w hw
            rcases mem_cons.1 hw with rfl | hw
            · exact hnb
            · exact hb w hw
          · have := hprev p hp node (by simp)
            bv_omega

private theorem insertVma_inserted (h : Valid l) (hi : insertVma head v none l = some l') : Inserted v l l' := by
  exact (insertVma_spec none h hi).1

/-- The area is inserted at its place, or nothing changes. -/
theorem addVmaGrowable_spec (h : Valid l) (env : Env) (startAddr endAddr prot : BitVec 64) (flags : BitVec 32)
    (maxSize : BitVec 64) : addVmaGrowable env l startAddr endAddr prot flags maxSize = (l, -1) ∨
      startAddr < endAddr ∧ ∃ l', addVmaGrowable env l startAddr endAddr prot flags maxSize = (l', 0) ∧
        Inserted ⟨startAddr, endAddr, prot, flags, maxSize⟩ l l' := by
  unfold addVmaGrowable
  by_cases hlt : endAddr ≤ startAddr
  · exact .inl (if_pos hlt)
  · rw [if_neg hlt]
    have hv : startAddr < endAddr := by bv_omega
    cases hk : env.kmallocOk with
    | false =>
      left
      split
      · rfl
      · split <;> rfl
    | true =>
      split
      · next hnil =>
        obtain rfl := List.isEmpty_iff.1 hnil
        exact .inr ⟨hv, _, rfl, [], [], rfl, rfl, by simp, by simp⟩
      · cases hi : insertVma env.head ⟨startAddr, endAddr, prot, flags, maxSize⟩ none l with
        | none => exact .inl rfl
        | some l' => exact .inr ⟨hv, l', rfl, insertVma_inserted h hi⟩

theorem fromVma_sublist : (fromVma addr l).Sublist l := by
  induction l with
  | nil => exact List.Sublist.refl _
  | cons node rest ih =>
    unfold fromVma
    split
    · exact List.Sublist.refl _
    · exact ih.cons node

theorem fromVma_above (h : Valid l) : ∀ w ∈ fromVma addr l, addr < w.vmEnd := by
  induction l with
  | nil => simp [fromVma]
  | cons node rest ih =>
    unfold fromVma
    split
    · next hlt =>
      intro w hw
      rcases mem_cons.1 hw with rfl | hw
      · exact hlt
      · have h1 := h.head_le w hw
        have h2 := h.proper w (by simp [hw])
        bv_omega
    · exact ih h.tail

theorem le_searchGap (h : Valid l) (hle : ∀ w ∈ l, addr ≤ w.vmEnd) : addr ≤ searchGap len addr l := by
  induction l generalizing addr with
  | nil => exact BitVec.le_refl _
  | cons node rest ih =>
    unfold searchGap
    split
    · exact BitVec.le_refl _
    · have h1 : node.vmEnd ≤ searchGap len node.vmEnd rest := ih h.tail fun w hw => by
        have h2 := h.head_le w hw
        have h3 := h.proper w (by simp [hw])
        bv_omega
      exact BitVec.le_trans (hle node (by simp)) h1

/-- By the order of the list, the address proposed is not below the hint. -/
theorem le_getUnmappedArea (h : Valid l) (startAddr len : BitVec 64) : startAddr ≤ getUnmappedArea l startAddr len := by
  refine le_searchGap (h.sublist fromVma_sublist) fun w hw => ?_
  have := fromVma_above h w hw
  bv_omega

theorem fromVma_below {w : VmArea} (hw : w ∈ l) : w.vmEnd ≤ addr ∨ w ∈ fromVma addr l := by
  induction l with
  | nil => cases hw
  | cons node rest ih =>
    unfold fromVma
    split
    · exact .inr hw
    · next hnot =>
      rcases mem_cons.1 hw with rfl | hw
      · exact .inl (BitVec.not_lt.1 hnot)
      · exact ih hw

private theorem gap_of_getUnmappedArea (h : Valid l) (hstart : getUnmappedArea l addr len = addr) :
    ∀ w ∈ l, w.vmEnd ≤ addr ∨ addr + len < w.vmStart := by
  intro w hw
  refine (fromVma_below hw).imp id fun hw => ?_
  have hvalid : Valid (fromVma addr l) := h.sublist fromVma_sublist
  have habove : ∀ w ∈ fromVma addr l, addr < w.vmEnd := fromVma_above h
  unfold getUnmappedArea at hstart
  cases hfrom : fromVma addr l with
  | nil =>
    rw [hfrom] at hw
    cases hw
  | cons node rest =>
    rw [hfrom] at hstart hw hvalid habove
    unfold searchGap at hstart
    split at hstart
    · next hlt =>
      rcases mem_cons.1 hw with rfl | hw
      · exact hlt
      · have h1 := hvalid.head_le w hw
        have h2 := hvalid.proper node (by simp)
        bv_omega
    · -- the search has gone past the first area
      have hle : node.vmEnd ≤ searchGap len node.vmEnd rest := le_searchGap hvalid.tail fun w hw => by
        have h1 := hvalid.head_le w hw
        have h2 := hvalid.proper w (by simp [hw])
        bv_omega
      have := habove node (by simp)
      rw [hstart] at hle
      bv_omega

/-- What a call of `mmap` or `mmap_growable` asks for. -/
structure Request where
  hint : BitVec 64
  length : BitVec 64
  prot : BitVec 64
  flags : BitVec 32
  maxSize : BitVec 64
  deriving DecidableEq

inductive Op
  | addVma (startAddr endAddr prot : BitVec 64) (flags : BitVec 32)
  | addVmaGrowable (startAddr endAddr prot : BitVec 64) (flags : BitVec 32) (maxSize : BitVec 64)
  | mmap (addr length prot : BitVec 64) (flags : BitVec 32)
  | mmapGrowable (addr length prot : BitVec 64) (flags : BitVec 32) (maxSize : BitVec 64)
  | munmap (addr : BitVec 64)
  deriving DecidableEq

def Op.request : Op → Option Request
  | .mmap addr length prot flags => some ⟨addr, length, prot, flags, -1⟩
  | .mmapGrowable addr length prot flags maxSize => some ⟨addr, length, prot, flags, maxSize⟩
  | _ => none

/-- A call: the list afterwards and the value returned, an `int` extended to a word (`0` where there is none). -/
def call (env : Env) (l : List VmArea) : Op → Option (List VmArea × BitVec 64)
  | .addVma startAddr endAddr prot flags =>
    let (l', r) := addVma env l startAddr endAddr prot flags
    some (l', BitVec.ofInt 64 r)
  | .addVmaGrowable startAddr endAddr prot flags maxSize =>
    let (l', r) := addVmaGrowable env l startAddr endAddr prot flags maxSize
    some (l', BitVec.ofInt 64 r)
  | .mmap addr length prot flags => some (Vma.mmap env l addr length prot flags)
  | .mmapGrowable addr length prot flags maxSize => some (Vma.mmapGrowable env l addr length prot flags maxSize)
  | .munmap addr => (Vma.munmap l addr).map fun (_, l') => (l', 0)

def step (l : List VmArea) (a : Env × Op) : Option (List VmArea) := (call a.1 l a.2).map (·.1)

/-- `munmap` is given an address inside an area. -/
def Allowed (l : List VmArea) (a : Env × Op) : Prop :=
  match a.2 with
  | .munmap addr => ∃ v ∈ l, v.vmStart ≤ addr ∧ addr < v.vmEnd
  | _ => True

instance decidableAllowed (l : List VmArea) (a : Env × Op) : Decidable (Allowed l a) :=
  match a with
  | (_, .munmap addr) => inferInstanceAs (Decidable (∃ v ∈ l, v.vmStart ≤ addr ∧ addr < v.vmEnd))
  | (_, .addVma ..) | (_, .addVmaGrowable ..) | (_, .mmap ..) | (_, .mmapGrowable ..) => .isTrue trivial

structure Mapped (l : List VmArea) (q : Request) (r : BitVec 64) (l' : List VmArea) : Prop where
  hint_le : q.hint ≤ r
  fits : r.toNat + q.length.toNat < 2 ^ 64
  disjoint : ∀ w ∈ l, ∀ a, w.vmStart ≤ a → a < w.vmEnd → ¬ (r ≤ a ∧ a < r + q.length)
  added : ∃ l₁ l₂, l = l₁ ++ l₂ ∧ l' = l₁ ++ ⟨r, r + q.length, q.prot, q.flags, q.maxSize⟩ :: l₂

/-- An area of the length asked for is placed, not below the hint, or nothing changes. -/
theorem mmapGrowable_spec (h : Valid l) (env : Env) (q : Request) :
    mmapGrowable env l q.hint q.length q.prot q.flags q.maxSize = (l, -1) ∨
      ∃ l' r, mmapGrowable env l q.hint q.length q.prot q.flags q.maxSize = (l', r) ∧ r ≠ -1 ∧ Valid l' ∧
        Mapped l q r l' := by
  unfold mmapGrowable
  dsimp only
  have hle := le_getUnmappedArea h q.hint q.length
  generalize getUnmappedArea l q.hint q.length = r at hle ⊢
  obtain he | ⟨hlt, l', he, hi⟩ := addVmaGrowable_spec h env r (r + q.length) q.prot q.flags q.maxSize
  · left
    rw [he]
    rfl
  · right
    rw [he]
    refine ⟨l', r, rfl, ?_, hi.valid h hlt, hle, ?_, ?_, ?_⟩
    · rintro rfl
      bv_omega
    · bv_omega
    · obtain ⟨l₁, l₂, rfl, -, hb, ha⟩ := hi
      rintro w hw a h1 h2 ⟨h3, h4⟩
      rcases mem_append.1 hw with hw | hw
      · have := hb w hw
        bv_omega
      · have := ha w hw
        bv_omega
    · obtain ⟨l₁, l₂, h1, h2, -, -⟩ := hi
      exact ⟨l₁, l₂, h1, h2⟩

/-- When `mmap` gives the address asked for, the other areas lie apart from the new one. -/
theorem mmap_placed {prot : BitVec 64} {flags : BitVec 32} (h : Valid l) (hne : addr ≠ -1)
    (hplaced : (mmap env l addr len prot flags).2 = addr) :
    Valid (mmap env l addr len prot flags).1 ∧ (∀ w ∈ l, w.vmEnd ≤ addr ∨ addr + len < w.vmStart) ∧
      (∀ w ∈ l, w ∈ (mmap env l addr len prot flags).1) ∧
      ⟨addr, addr + len, prot, flags, -1⟩ ∈ (mmap env l addr len prot flags).1 := by
  unfold mmap at hplaced ⊢
  obtain he | ⟨l', r, he, -, hvalid, hm⟩ := mmapGrowable_spec h env ⟨addr, len, prot, flags, -1⟩
  · rw [he] at hplaced
    exact absurd hplaced.symm hne
  · rw [he] at hplaced ⊢
    obtain rfl : r = addr := hplaced
    have hstart : getUnmappedArea l r len = r := by
      unfold mmapGrowable at he
      dsimp only at he
      split at he
      · exact absurd (Prod.mk.inj he).2.symm hne
      · exact (Prod.mk.inj he).2
    obtain ⟨l₁, l₂, rfl, rfl⟩ := hm.added
    refine ⟨hvalid, gap_of_getUnmappedArea h hstart, fun w hw => ?_, by simp⟩
    rcases mem_append.1 hw with hw | hw <;> simp [hw]

private theorem fromVma_of_mem (h : Valid l) (hv : v ∈ l) (h1 : v.vmStart ≤ addr) (h2 : addr < v.vmEnd) :
    (fromVma addr l).head? = some v := by
  induction l with
  | nil => cases hv
  | cons node rest ih =>
    unfold fromVma
    rcases mem_cons.1 hv with rfl | hv
    · rw [if_pos h2]
      rfl
    · have h3 := h.head_le v hv
      rw [if_neg (by bv_omega)]
      exact ih h.tail hv

/-- The area with the address is taken off the list. -/
theorem munmap_spec (h : Valid l) (hv : v ∈ l) (h1 : v.vmStart ≤ addr) (h2 : addr < v.vmEnd) :
    munmap l addr = some (v, l.erase v) := by
  unfold munmap findVma
  rw [fromVma_of_mem h hv h1 h2]
  simp [h1, h2]

/-- Every call keeps the areas apart. -/
private theorem call_spec (h : Valid l) {op : Op} (hok : Allowed l (env, op)) :
    ∃ l' r, call env l op = some (l', r) ∧ Valid l' ∧ (r = -1 → l' = l) ∧
      ∀ q, op.request = some q → r ≠ -1 → Mapped l q r l' := by
  have add : ∀ startAddr endAddr prot flags maxSize, ∃ l' r,
      addVmaGrowable env l startAddr endAddr prot flags maxSize = (l', r) ∧ Valid l' ∧
        (BitVec.ofInt 64 r = -1 → l' = l) := by
    intro startAddr endAddr prot flags maxSize
    obtain he | ⟨hlt, l', he, hi⟩ := addVmaGrowable_spec h env startAddr endAddr prot flags maxSize
    · exact ⟨l, -1, he, h, fun _ => rfl⟩
    · exact ⟨l', 0, he, hi.valid h hlt, fun hr => absurd hr (by decide)⟩
  have map : ∀ q : Request, ∃ l' r, mmapGrowable env l q.hint q.length q.prot q.flags q.maxSize = (l', r) ∧
      Valid l' ∧ (r = -1 → l' = l) ∧ (r ≠ -1 → Mapped l q r l') := by
    intro q
    obtain he | ⟨l', r, he, hr, hvalid, hm⟩ := mmapGrowable_spec h env q
    · exact ⟨l, -1, he, h, fun _ => rfl, fun hne => absurd rfl hne⟩
    · exact ⟨l', r, he, hvalid, fun hr' => absurd hr' hr, fun _ => hm⟩
  cases op with
  | addVma startAddr endAddr prot flags =>
    obtain ⟨l', r, he, hvalid, hr⟩ := add startAddr endAddr prot flags (-1)
    exact ⟨l', BitVec.ofInt 64 r, by simp only [call, addVma, he], hvalid, hr, by rintro q ⟨⟩⟩
  | addVmaGrowable startAddr endAddr prot flags maxSize =>
    obtain ⟨l', r, he, hvalid, hr⟩ := add startAddr endAddr prot flags maxSize
    exact ⟨l', BitVec.ofInt 64 r, by simp only [call, he], hvalid, hr, by rintro q ⟨⟩⟩
  | mmap addr length prot flags =>
    obtain ⟨l', r, he, hvalid, hr, hm⟩ := map ⟨addr, length, prot, flags, -1⟩
    refine ⟨l', r, by simp only [call, Vma.mmap, he], hvalid, hr, ?_⟩
    rintro q ⟨⟩
    exact hm
  | mmapGrowable addr length prot flags maxSize =>
    obtain ⟨l', r, he, hvalid, hr, hm⟩ := map ⟨addr, length, prot, flags, maxSize⟩
    refine ⟨l', r, by simp only [call, he], hvalid, hr, ?_⟩
    rintro q ⟨⟩
    exact hm
  | munmap addr =>
    obtain ⟨v, hv, h1, h2⟩ := hok
    refine ⟨l.erase v, 0, ?_, h.sublist erase_sublist, fun hr => absurd hr (by decide), by rintro q ⟨⟩⟩
    simp only [call, munmap_spec h hv h1 h2, map_some]

/-- After any sequence of calls the areas are in order and apart; `mmap` maps its request at a free place not below the
hint, and a call that returns `-1` changes nothing. -/
theorem areas_stay_apart (as : List (Env × Op)) (hok : Permitted step Allowed [] as) :
      ∃ l, run step [] as = some l ∧ Valid l ∧
      ∀ env op, Allowed l (env, op) → ∃ l' r, call env l op = some (l', r) ∧ (r = -1 → l' = l) ∧
        ∀ q, op.request = some q → r ≠ -1 → Mapped l q r l' := by
  have hstep : ∀ l a, Valid l → Allowed l a → ∃ l', step l a = some l' ∧ Valid l' := by
    rintro l ⟨env, op⟩ h ha
    obtain ⟨l', r, he, hvalid, -⟩ := call_spec h ha
    exact ⟨l', by simp only [step, he, map_some], hvalid⟩
  obtain ⟨l, hl, hvalid⟩ := run_invariant hstep Valid.nil hok
  refine ⟨l, hl, hvalid, fun env op ha => ?_⟩
  obtain ⟨l', r, he, -, hr, hm⟩ := call_spec hvalid ha
  exact ⟨l', r, he, hr, hm⟩

private def quietEnv : Env := ⟨true, ⟨0, 0, 0, 0, 0⟩⟩

theorem areas_stay_apart_remap :
    Permitted step Allowed [] [(quietEnv, .mmap 0x1000 0x2000 6 1), (quietEnv, .addVma 0x8000 0x9000 6 1),
        (quietEnv, .munmap 0x2fff), (quietEnv, .mmap 0x1000 0x1000 4 1)] ∧
      ∃ l, run step [] [(quietEnv, .mmap 0x1000 0x2000 6 1), (quietEnv, .addVma 0x8000 0x9000 6 1),
        (quietEnv, .munmap 0x2fff), (quietEnv, .mmap 0x1000 0x1000 4 1)] = some l ∧ Valid l ∧ l.length = 2 := by
  have hok : Permitted step Allowed [] [(quietEnv, .mmap 0x1000 0x2000 6 1), (quietEnv, .addVma 0x8000 0x9000 6 1),
      (quietEnv, .munmap 0x2fff), (quietEnv, .mmap 0x1000 0x1000 4 1)] := by decide +kernel
  obtain ⟨l, hl, hvalid, -⟩ := areas_stay_apart _ hok
  refine ⟨hok, l, hl, hvalid, ?_⟩
  have hrun : run step [] [(quietEnv, .mmap 0x1000 0x2000 6 1), (quietEnv, .addVma 0x8000 0x9000 6 1),
      (quietEnv, .munmap 0x2fff), (quietEnv, .mmap 0x1000 0x1000 4 1)] =
      some [⟨0x1000, 0x2000, 4, 1, -1⟩, ⟨0x8000, 0x9000, 6, 1, -1⟩] := by decide +kernel
  cases hl.symm.trans hrun
  rfl

end Adix.Vma
