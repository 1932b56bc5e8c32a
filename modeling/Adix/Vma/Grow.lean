import Adix.Vma.Search

/-!
# Growing areas

`grow_vma_up` and `grow_vma_down` add the page next to an area when the fault address is in that page and no other area
has a byte of it. The new bound is a sum of 64 bits.
-/

namespace Adix.Vma

open List Option BitVec
open BitVec (ofNat toNat_add)

def VmArea.up (v : VmArea) : VmArea := { v with vmEnd := v.vmEnd + sizeofPage }

def VmArea.down (v : VmArea) : VmArea := { v with vmStart := v.vmStart - sizeofPage }

structure GrowsUp (env : Env) (l : List VmArea) (v : VmArea) (addr : BitVec 64) : Prop where
  flag : v.vmFlags &&& mapGrowsUp ≠ 0
  behind : v.vmEnd ≤ addr
  near : addr - v.vmEnd < sizeofPage
  limit : v.maxSize ≠ -1 → addr - v.vmStart < v.maxSize * sizeofPage
  free : findVmaIntersection env l v.vmEnd (v.vmEnd + sizeofPage) = false

structure GrowsDown (env : Env) (l : List VmArea) (v : VmArea) (addr : BitVec 64) : Prop where
  flag : v.vmFlags &&& mapGrowsDown ≠ 0
  before : addr < v.vmStart
  near : v.vmStart - addr ≤ sizeofPage
  limit : v.maxSize ≠ -1 → v.vmEnd - addr < v.maxSize * sizeofPage
  free : findVmaIntersection env l (v.vmStart - sizeofPage) v.vmStart = false

variable {env : Env} {v v' w : VmArea} {l l₁ l₂ : List VmArea} {addr : BitVec 64} {d : Direction} {i : Nat}

/-- The area has the address already, or grows by a page. -/
theorem growVmaUp_eq_some : growVmaUp env l v addr = some v' ↔
    v.vmFlags &&& mapGrowsUp ≠ 0 ∧ (v.vmStart ≤ addr ∧ addr < v.vmEnd) ∧ v' = v ∨ GrowsUp env l v addr ∧ v' = v.up := by
  unfold growVmaUp
  constructor
  · intro h
    split_ifs at h with hflag hin hbehind hnear hlimit hfree
    · exact .inl ⟨hflag, hin, (some.inj h).symm⟩
    · refine .inr ⟨⟨hflag, BitVec.not_lt.1 hbehind, BitVec.not_le.1 hnear, fun hmax => ?_, Bool.not_eq_true _ ▸ hfree⟩,
        (some.inj h).symm⟩
      exact BitVec.not_le.1 fun hle => hlimit ⟨hmax, hle⟩
  · rintro (⟨hflag, hin, rfl⟩ | ⟨hg, rfl⟩)
    · rw [if_neg hflag, if_pos hin]
    · have hbehind : ¬ addr < v.vmEnd := BitVec.not_lt.2 hg.behind
      have hlimit : ¬ (v.maxSize ≠ -1 ∧ v.maxSize * sizeofPage ≤ addr - v.vmStart) :=
        fun h => BitVec.not_le.2 (hg.limit h.1) h.2
      rw [if_neg hg.flag, if_neg fun h => hbehind h.2, if_neg hbehind, if_neg (BitVec.not_le.2 hg.near), if_neg hlimit,
        hg.free]
      rfl

/-- The same for the other side. -/
theorem growVmaDown_eq_some : growVmaDown env l v addr = some v' ↔
    v.vmFlags &&& mapGrowsDown ≠ 0 ∧ (v.vmStart ≤ addr ∧ addr < v.vmEnd) ∧ v' = v ∨
      GrowsDown env l v addr ∧ v' = v.down := by
  unfold growVmaDown
  constructor
  · intro h
    split_ifs at h with hflag hin hbefore hnear hlimit hfree
    · exact .inl ⟨hflag, hin, (some.inj h).symm⟩
    · refine .inr ⟨⟨hflag, BitVec.not_le.1 hbefore, BitVec.not_lt.1 hnear, fun hmax => ?_, Bool.not_eq_true _ ▸ hfree⟩,
        (some.inj h).symm⟩
      exact BitVec.not_le.1 fun hle => hlimit ⟨hmax, hle⟩
  · rintro (⟨hflag, hin, rfl⟩ | ⟨hg, rfl⟩)
    · rw [if_neg hflag, if_pos hin]
    · have hbefore : ¬ v.vmStart ≤ addr := BitVec.not_le.2 hg.before
      have hlimit : ¬ (v.maxSize ≠ -1 ∧ v.maxSize * sizeofPage ≤ v.vmEnd - addr) :=
        fun h => BitVec.not_le.2 (hg.limit h.1) h.2
      rw [if_neg hg.flag, if_neg fun h => hbefore h.1, if_neg hbefore, if_neg (BitVec.not_lt.2 hg.near), if_neg hlimit,
        hg.free]
      rfl

private theorem Valid.replace (h : Valid (l₁ ++ v :: l₂)) (hv : v'.vmStart < v'.vmEnd)
    (h1 : ∀ w ∈ l₁, w.vmEnd ≤ v'.vmStart) (h2 : ∀ w ∈ l₂, v'.vmEnd ≤ w.vmStart) : Valid (l₁ ++ v' :: l₂) := by
  obtain ⟨hs1, hs2, hs3⟩ := pairwise_append.1 h.sorted
  refine ⟨fun w hw => ?_, pairwise_append.2 ⟨hs1, ?_, fun w hw u hu => ?_⟩⟩
  · rcases mem_append.1 hw with hw | hw
    · exact h.proper w (by simp [hw])
    · rcases mem_cons.1 hw with rfl | hw
      · exact hv
      · exact h.proper w (by simp [hw])
  · exact pairwise_cons.2 ⟨h2, (pairwise_cons.1 hs2).2⟩
  · rcases mem_cons.1 hu with rfl | hu
    · exact h1 w hw
    · exact hs3 w hw u (by simp [hu])

@[simp] theorem VmArea.up_start : v.up.vmStart = v.vmStart := by simp only [VmArea.up]

@[simp] theorem VmArea.down_end : v.down.vmEnd = v.vmEnd := by simp only [VmArea.down]

theorem VmArea.up_end (h : v.vmEnd.toNat + 4096 < 2 ^ 64) : v.up.vmEnd.toNat = v.vmEnd.toNat + 4096 := by
  show (v.vmEnd + 4096).toNat = _
  rw [toNat_add]
  exact Nat.mod_eq_of_lt h

theorem VmArea.down_start (h : 4096 ≤ v.vmStart.toNat) : v.down.vmStart.toNat = v.vmStart.toNat - 4096 :=
  toNat_sub_of_le h

private theorem GrowsUp.lt_end (hg : GrowsUp env l v addr) : addr < v.up.vmEnd ↔ v.vmEnd.toNat + 4096 < 2 ^ 64 := by
  have hbehind := hg.behind
  have hnear := hg.near
  rw [lt_def, toNat_sub_of_le hbehind, show sizeofPage.toNat = 4096 from rfl] at hnear
  rw [le_def] at hbehind
  show addr < v.vmEnd + 4096 ↔ _
  rw [lt_def, toNat_add, show (4096 : BitVec 64).toNat = 4096 from rfl]
  omega

private theorem GrowsDown.start_le (hg : GrowsDown env l v addr) : v.down.vmStart ≤ addr ↔ 4096 ≤ v.vmStart.toNat := by
  have hbefore := hg.before
  have hnear := hg.near
  rw [le_def, toNat_sub_of_le (BitVec.le_of_lt hbefore), show sizeofPage.toNat = 4096 from rfl] at hnear
  rw [lt_def] at hbefore
  show v.vmStart - 4096 ≤ addr ↔ _
  rw [le_def, toNat_sub, show (4096 : BitVec 64).toNat = 4096 from rfl]
  omega

private theorem GrowsUp.valid (hg : GrowsUp env (l₁ ++ v :: l₂) v addr) (h : Valid (l₁ ++ v :: l₂))
    (hwrap : v.vmEnd.toNat + 4096 < 2 ^ 64) : Valid (l₁ ++ v.up :: l₂) := by
  have hv := h.proper v (by simp)
  obtain ⟨-, hs2, hs3⟩ := pairwise_append.1 h.sorted
  apply Valid.replace h
  · rw [lt_def] at hv ⊢
    rw [VmArea.up_end hwrap, VmArea.up_start]
    omega
  · intro w hw
    rw [VmArea.up_start]
    exact hs3 w hw v (by simp)
  · intro w hw
    -- an area behind ends above the new page, or in it
    have hvw := (pairwise_cons.1 hs2).1 w hw
    have hw' := h.proper w (by simp [hw])
    have hlt : v.vmEnd < w.vmEnd := Nat.lt_of_le_of_lt hvw hw'
    have hse : v.vmEnd < v.up.vmEnd := by
      rw [lt_def, VmArea.up_end hwrap]
      omega
    have hclear := (findVmaIntersection_eq_false h hse (by simp [hw]) hlt).1 hg.free
    exact ((clear_iff h hse).1 hclear w (by simp [hw])).resolve_right (BitVec.not_le.2 hlt)

private theorem GrowsDown.valid (hg : GrowsDown env (l₁ ++ v :: l₂) v addr) (h : Valid (l₁ ++ v :: l₂))
    (hwrap : 4096 ≤ v.vmStart.toNat) : Valid (l₁ ++ v.down :: l₂) := by
  have hv := h.proper v (by simp)
  obtain ⟨-, hs2, hs3⟩ := pairwise_append.1 h.sorted
  apply Valid.replace h
  · rw [lt_def] at hv ⊢
    rw [VmArea.down_start hwrap, VmArea.down_end]
    omega
  · intro w hw
    have hdown := VmArea.down_start hwrap
    rw [lt_def] at hv
    have hse : v.down.vmStart < v.vmStart := lt_def.2 (by omega)
    have hclear := (findVmaIntersection_eq_false h hse (w := v) (by simp) (lt_def.2 (by omega))).1 hg.free
    refine ((clear_iff h hse).1 hclear w (by simp [hw])).resolve_left fun hle => ?_
    -- the area is before this one
    have hwv := hs3 w hw v (by simp)
    have hw' := h.proper w (by simp [hw])
    exact absurd (Nat.lt_of_lt_of_le hw' (BitVec.le_trans hwv hle)) (BitVec.lt_irrefl _)
  · rw [VmArea.down_end]
    exact (pairwise_cons.1 hs2).1

inductive Direction where
  | up
  | down
  deriving DecidableEq

def growVma : Direction → Env → List VmArea → VmArea → BitVec 64 → Option VmArea
  | .up => growVmaUp
  | .down => growVmaDown

def Grows : Direction → Env → List VmArea → VmArea → BitVec 64 → Prop
  | .up => GrowsUp
  | .down => GrowsDown

def VmArea.grown (v : VmArea) : Direction → VmArea
  | .up => v.up
  | .down => v.down

def Wraps (v : VmArea) : Direction → Prop
  | .up => 2 ^ 64 ≤ v.vmEnd.toNat + 4096
  | .down => v.vmStart.toNat < 4096

/-- A call for the area at the position `k`: the area that is returned, and the list afterwards. -/
def growCall (d : Direction) (env : Env) (l : List VmArea) (k : Nat) (addr : BitVec 64) : Option VmArea × List VmArea :=
  match l[k]?.bind fun v => growVma d env l v addr with
  | none => (none, l)
  | some v => (some v, l.set k v)

/-- Nothing is returned and the list is as before, or the area at the position `k` is returned and has the address, and
the areas are in order and apart. -/
def GrowsInPlace (l : List VmArea) (k : Nat) (addr : BitVec 64) : Option VmArea × List VmArea → Prop
  | (none, l') => l' = l
  | (some v, l') => l'[k]? = some v ∧ (v.vmStart ≤ addr ∧ addr < v.vmEnd) ∧ Valid l'

private theorem growVma_eq_some (h : growVma d env l v addr = some v') :
    (v.vmStart ≤ addr ∧ addr < v.vmEnd) ∧ v' = v ∨ Grows d env l v addr ∧ v' = v.grown d := by
  cases d with
  | up => exact (growVmaUp_eq_some.1 h).imp_left And.right
  | down => exact (growVmaDown_eq_some.1 h).imp_left And.right

private theorem Grows.growVma_eq (h : Grows d env l v addr) : growVma d env l v addr = some (v.grown d) := by
  cases d with
  | up => exact growVmaUp_eq_some.2 (.inr ⟨h, rfl⟩)
  | down => exact growVmaDown_eq_some.2 (.inr ⟨h, rfl⟩)

/-- The area that has grown has the address, unless its bound wraps around. -/
theorem Grows.has_iff (h : Grows d env l v addr) (hv : v.vmStart < v.vmEnd) :
    (v.grown d).vmStart ≤ addr ∧ addr < (v.grown d).vmEnd ↔ ¬ Wraps v d := by
  cases d with
  | up =>
    have hstart : v.up.vmStart ≤ addr := by
      rw [VmArea.up_start]
      exact BitVec.le_trans (BitVec.le_of_lt hv) h.behind
    exact (and_iff_right hstart).trans ((GrowsUp.lt_end h).trans Nat.not_le.symm)
  | down =>
    have hend : addr < v.down.vmEnd := by
      rw [VmArea.down_end]
      exact BitVec.lt_trans h.before hv
    exact (and_iff_left hend).trans ((GrowsDown.start_le h).trans Nat.not_lt.symm)

/-- Then the areas stay apart. -/
theorem Grows.valid (hg : Grows d env (l₁ ++ v :: l₂) v addr) (h : Valid (l₁ ++ v :: l₂))
    (hwrap : ¬ Wraps v d) : Valid (l₁ ++ v.grown d :: l₂) := by
  cases d with
  | up => exact GrowsUp.valid hg h (Nat.not_le.1 hwrap)
  | down => exact GrowsDown.valid hg h (Nat.not_lt.1 hwrap)

private theorem Grows.valid_set {k : Nat} (hg : Grows d env l v addr) (h : Valid l) (hk : l[k]? = some v)
    (hwrap : ¬ Wraps v d) : Valid (l.set k (v.grown d)) := by
  obtain ⟨hlt, hval⟩ := List.getElem?_eq_some_iff.1 hk
  have hsame : l = l.take k ++ v :: l.drop (k + 1) := by
    rw [← hval, getElem_cons_drop, take_append_drop]
  rw [set_eq_take_append_cons_drop, if_pos hlt]
  rw [hsame] at hg h
  exact hg.valid h hwrap

/-- A call grows the area in place, or refuses, exactly when it does not move a bound past the end of the address
space. -/
theorem grows_in_place_iff (d : Direction) (env : Env) (l : List VmArea) (h : Valid l) (k : Nat) (v : VmArea)
    (hk : l[k]? = some v) (addr : BitVec 64) :
    GrowsInPlace l k addr (growCall d env l k addr) ↔ ¬ (Grows d env l v addr ∧ Wraps v d) := by
  obtain ⟨hlt, hval⟩ := List.getElem?_eq_some_iff.1 hk
  have hv := h.proper v (mem_of_getElem? hk)
  unfold growCall
  rw [hk, bind_some]
  cases hg : growVma d env l v addr with
  | none =>
    refine iff_of_true rfl fun ⟨hgrows, _⟩ => ?_
    rw [hgrows.growVma_eq] at hg
    cases hg
  | some v' =>
    have hset : (l.set k v')[k]? = some v' := getElem?_set_self hlt
    rcases growVma_eq_some hg with ⟨hin, rfl⟩ | ⟨hgrows, rfl⟩
    · -- the address is in the area already
      refine iff_of_true ⟨hset, hin, ?_⟩ fun ⟨hgrows, _⟩ => ?_
      · rw [← hval, set_getElem_self hlt]
        exact h
      · rw [hgrows.growVma_eq] at hg
        have hfix := (hgrows.has_iff hv).1
        rw [some.inj hg] at hfix
        exact hfix hin ‹_›
    · constructor
      · rintro ⟨-, hhas, -⟩ ⟨-, hwraps⟩
        exact (hgrows.has_iff hv).1 hhas hwraps
      · intro hnot
        have hwrap : ¬ Wraps v d := fun hwraps => hnot ⟨hgrows, hwraps⟩
        exact ⟨hset, (hgrows.has_iff hv).2 hwrap, hgrows.valid_set h hk hwrap⟩

private def stackAndData : List VmArea := [⟨0x2000, 0x3000, 6, mapGrowsDown, -1⟩, ⟨0x8000, 0x9000, 6, mapGrowsUp, -1⟩]

private theorem valid_stackAndData : Valid stackAndData := ⟨by decide, by decide⟩

theorem grows_in_place_stack : Valid stackAndData ∧ growCall .down ⟨true, ⟨0, 0, 0, 0, 0⟩⟩ stackAndData 0 0x1ff0 =
      (some ⟨0x1000, 0x3000, 6, mapGrowsDown, -1⟩,
        [⟨0x1000, 0x3000, 6, mapGrowsDown, -1⟩, ⟨0x8000, 0x9000, 6, mapGrowsUp, -1⟩]) ∧
    GrowsInPlace stackAndData 0 0x1ff0 (growCall .down ⟨true, ⟨0, 0, 0, 0, 0⟩⟩ stackAndData 0 0x1ff0) := by
  refine ⟨valid_stackAndData, by decide, ?_⟩
  exact (grows_in_place_iff .down _ _ valid_stackAndData 0 _ rfl _).2 fun h => absurd h.2 (Nat.not_lt.2 (by decide))

/-- An area below the first page boundary grows down past `0`: it then begins above its end. -/
theorem grows_out_of_place : ¬ ∀ (d : Direction) (env : Env) (l : List VmArea), Valid l → ∀ (k : Nat) (v : VmArea),
    l[k]? = some v → ∀ addr : BitVec 64, GrowsInPlace l k addr (growCall d env l k addr) := by
  intro h
  have hgrown := h .down ⟨true, ⟨0xffffffff80300000, 0, 0, 0, 0⟩⟩ [⟨0x800, 0x1800, 6, mapGrowsDown, -1⟩]
    ⟨by decide, by decide⟩ 0 ⟨0x800, 0x1800, 6, mapGrowsDown, -1⟩ rfl 0x100
  exact absurd hgrown.2.1.1 (by decide)

def VmArea.size (v : VmArea) : Nat := (v.vmEnd - v.vmStart).toNat

/-- A call for one area: the function, what it finds around it, the list that it searches, and the fault address. -/
structure Growth where
  dir : Direction
  env : Env
  list : List VmArea
  addr : BitVec 64

def growths : VmArea → List Growth → VmArea
  | v, [] => v
  | v, c :: cs => growths ((growVma c.dir c.env c.list v c.addr).getD v) cs

structure WithinLimit (v : VmArea) : Prop where
  pages : v.size % 4096 = 0
  le : v.size ≤ v.maxSize.toNat * 4096

@[simp] private theorem VmArea.maxSize_grown (d : Direction) : (v.grown d).maxSize = v.maxSize := by
  cases d <;> simp only [VmArea.grown, VmArea.up, VmArea.down]

private theorem VmArea.size_grown (d : Direction) : (v.grown d).size = (v.size + 4096) % 2 ^ 64 := by
  have hword : (v.grown d).vmEnd - (v.grown d).vmStart = v.vmEnd - v.vmStart + 4096#64 := by
    cases d with
    | up =>
      show v.vmEnd + 4096#64 - v.up.vmStart = _
      rw [VmArea.up_start]
      bv_omega
    | down =>
      show v.down.vmEnd - (v.vmStart - 4096#64) = _
      rw [VmArea.down_end]
      bv_omega
  unfold VmArea.size
  rw [hword, toNat_add]
  rfl

private theorem Grows.room (h : Grows d env l v addr) (hmax : v.maxSize ≠ -1) (hw : WithinLimit v) :
    v.size + 4096 ≤ v.maxSize.toNat * 4096 ∨ 2 ^ 64 ≤ v.size + 4096 ∨ 2 ^ 64 ≤ v.maxSize.toNat * 4096 := by
  have hpages := hw.pages
  have hlimit : (v.maxSize * sizeofPage).toNat = v.maxSize.toNat * 4096 % 2 ^ 64 := toNat_mul ..
  -- the bytes from the far end of the area to the address
  obtain ⟨x, hx, hlt⟩ : ∃ x, x ≤ 4096 ∧ (v.size + x) % 2 ^ 64 < (v.maxSize * sizeofPage).toNat := by
    unfold VmArea.size
    cases d with
    | up =>
      refine ⟨(addr - v.vmEnd).toNat, Nat.le_of_lt (GrowsUp.near h), ?_⟩
      rw [← toNat_add, show v.vmEnd - v.vmStart + (addr - v.vmEnd) = addr - v.vmStart by bv_omega]
      exact GrowsUp.limit h hmax
    | down =>
      refine ⟨(v.vmStart - addr).toNat, GrowsDown.near h, ?_⟩
      rw [← toNat_add, show v.vmEnd - v.vmStart + (v.vmStart - addr) = v.vmEnd - addr by bv_omega]
      exact GrowsDown.limit h hmax
  omega

private theorem WithinLimit.grow (hw : WithinLimit v) (hmax : v.maxSize ≠ -1)
    (hg : growVma d env l v addr = some v') : WithinLimit v' ∧ v'.maxSize = v.maxSize := by
  rcases growVma_eq_some hg with ⟨-, rfl⟩ | ⟨hgrows, rfl⟩
  · exact ⟨hw, rfl⟩
  · have hroom := hgrows.room hmax hw
    have hpages := hw.pages
    have hfits : v.size < 2 ^ 64 := (v.vmEnd - v.vmStart).isLt
    refine ⟨⟨?_, ?_⟩, VmArea.maxSize_grown d⟩
    · rw [VmArea.size_grown]
      omega
    · rw [VmArea.size_grown, VmArea.maxSize_grown]
      omega

/-- An area of whole pages never grows beyond its limit. -/
theorem size_le_maxSize (v : VmArea) (cs : List Growth) (hmax : v.maxSize ≠ -1) (hpages : v.size % 4096 = 0)
    (hsize : v.size ≤ v.maxSize.toNat * 4096) : (growths v cs).size ≤ v.maxSize.toNat * 4096 := by
  have hw : WithinLimit v := ⟨hpages, hsize⟩
  clear hpages hsize
  induction cs generalizing v with
  | nil => exact hw.le
  | cons c cs ih =>
    rw [growths]
    cases hg : growVma c.dir c.env c.list v c.addr with
    | none => exact ih v hmax hw
    | some v' =>
      obtain ⟨hw', heq⟩ := hw.grow hmax hg
      rw [getD_some, ← heq]
      exact ih v' (heq ▸ hmax) hw'

theorem size_le_maxSize_stack : let v : VmArea := ⟨0x70000000, 0x70001000, 6, mapGrowsDown, 3⟩
    let c (addr : BitVec 64) : Growth := ⟨.down, ⟨true, ⟨0, 0, 0, 0, 0⟩⟩, [v], addr⟩
    (growths v [c 0x6ffffff0, c 0x6fffe010]).size = 3 * 4096 ∧
      (growths v [c 0x6ffffff0, c 0x6fffe010, c 0x6fffdff0]).size ≤ 3 * 4096 :=
  ⟨by decide, size_le_maxSize _ _ (by decide) (by decide) (by decide)⟩

/-- The bytes from the address to the end of the area are fewer than the limit has, in 64 bits. -/
def VmArea.Allows (v : VmArea) (a : BitVec 64) : Prop :=
  v.maxSize = -1 ∨ v.vmEnd.toNat - a.toNat < v.maxSize.toNat * 4096 % 2 ^ 64

/-- The list after faults below the area at the position `i`, if the area has grown at each of them. -/
def faultsBelow (env : Env) (i : Nat) : List VmArea → List (BitVec 64) → Option (List VmArea)
  | l, [] => some l
  | l, addr :: addrs =>
    match growCall .down env l i addr with
    | (none, _) => none
    | (some _, l') => faultsBelow env i l' addrs

def VmArea.lowered (v : VmArea) (n : Nat) : VmArea := { v with vmStart := v.vmStart - ofNat 64 (4096 * n) }

private theorem VmArea.lowered_down (n : Nat) : v.down.lowered n = v.lowered (n + 1) := by
  have hstart : v.vmStart - 4096#64 - ofNat 64 (4096 * n) = v.vmStart - ofNat 64 (4096 * (n + 1)) := by
    rw [Nat.mul_succ, ofNat_add]
    bv_omega
  unfold VmArea.lowered VmArea.down
  rw [← hstart]
  rfl

private theorem VmArea.lowered_zero : v.lowered 0 = v := by
  unfold VmArea.lowered
  rw [Nat.mul_zero, BitVec.sub_zero]

private theorem VmArea.lowered_start {n : Nat} (h : 4096 * n ≤ v.vmStart.toNat) :
    (v.lowered n).vmStart.toNat = v.vmStart.toNat - 4096 * n := by
  have hto : (ofNat 64 (4096 * n)).toNat = 4096 * n := by
    rw [toNat_ofNat]
    exact Nat.mod_eq_of_lt (Nat.lt_of_le_of_lt h v.vmStart.isLt)
  show (v.vmStart - ofNat 64 (4096 * n)).toNat = _
  rw [toNat_sub_of_le (le_def.2 (by rw [hto]; exact h)), hto]

/-- When a fault in the page below the area is served. -/
private theorem growsDown_iff (h : Valid l) (hi : l[i]? = some v) (hflag : v.vmFlags &&& mapGrowsDown ≠ 0)
    (hwrap : 4096 ≤ v.vmStart.toNat) (hnear : v.vmStart.toNat - 4096 ≤ addr.toNat ∧ addr.toNat < v.vmStart.toNat)
    (hfree : ∀ j w, j ≠ i → l[j]? = some w → ¬ w.Overlaps v.down.vmStart v.vmStart) :
    GrowsDown env l v addr ↔ v.Allows addr := by
  have hmem : v ∈ l := mem_of_getElem? hi
  have hv := lt_def.1 (h.proper v hmem)
  have hdown := VmArea.down_start hwrap
  have hlimit : (v.maxSize * sizeofPage).toNat = v.maxSize.toNat * 4096 % 2 ^ 64 := toNat_mul ..
  have hdist : (v.vmEnd - addr).toNat = v.vmEnd.toNat - addr.toNat := toNat_sub_of_le (le_def.2 (by omega))
  constructor
  · intro hg
    by_cases hmax : v.maxSize = -1
    · exact .inl hmax
    · have hlt := lt_def.1 (hg.limit hmax)
      rw [hdist, hlimit] at hlt
      exact .inr hlt
  · intro hallows
    refine ⟨hflag, lt_def.2 hnear.2, ?_, fun hmax => ?_, ?_⟩
    · rw [le_def, toNat_sub_of_le (le_def.2 (by omega)), show sizeofPage.toNat = 4096 from rfl]
      omega
    · rw [lt_def, hdist, hlimit]
      exact hallows.resolve_left hmax
    · show findVmaIntersection env l v.down.vmStart v.vmStart = false
      rw [findVmaIntersection_eq_false h (lt_def.2 (by omega)) hmem (lt_def.2 (by omega))]
      intro w hw hover
      obtain ⟨j, hj⟩ := getElem?_of_mem hw
      by_cases hij : j = i
      · -- the area itself begins behind the page
        obtain rfl : v = w := some.inj (hi.symm.trans (hij ▸ hj))
        obtain ⟨a, ⟨h1, -⟩, -, h2⟩ := hover
        exact absurd h1 (BitVec.not_le.2 h2)
      · exact hfree j w hij hj hover

/-- When faults in one page after the other are served. -/
private theorem faultsBelow_iff (addrs : List (BitVec 64)) (h : Valid l) (hi : l[i]? = some v)
    (hflag : v.vmFlags &&& mapGrowsDown ≠ 0) (hwrap : 4096 * addrs.length ≤ v.vmStart.toNat)
    (hnear : ∀ j a, addrs[j]? = some a → v.vmStart.toNat - 4096 * (j + 1) ≤ a.toNat ∧
      a.toNat < v.vmStart.toNat - 4096 * j)
    (hfree : ∀ j w, j ≠ i → l[j]? = some w → ¬ w.Overlaps (v.lowered addrs.length).vmStart v.vmStart) :
    faultsBelow env i l addrs = some (l.set i (v.lowered addrs.length)) ↔ ∀ a ∈ addrs, v.Allows a := by
  obtain ⟨hlt, hval⟩ := List.getElem?_eq_some_iff.1 hi
  induction addrs generalizing l v with
  | nil =>
    have hsame : l.set i v = l := by
      rw [← hval]
      exact set_getElem_self hlt
    simp [faultsBelow, VmArea.lowered_zero, hsame]
  | cons addr addrs ih =>
    rw [length_cons] at hfree ⊢
    rw [length_cons, Nat.mul_succ] at hwrap
    have hfirst := hnear 0 addr rfl
    have hdown := VmArea.down_start (v := v) (by omega)
    have hlowered := VmArea.lowered_start (v := v) (n := addrs.length + 1) (by omega)
    have hfree' : ∀ j w, j ≠ i → l[j]? = some w → ¬ w.Overlaps v.down.vmStart v.vmStart := by
      intro j w hj hw hover
      exact hfree j w hj hw (hover.mono (le_def.2 (by omega)) (BitVec.le_refl _))
    have hgrows : GrowsDown env l v addr ↔ v.Allows addr := growsDown_iff h hi hflag (by omega) (by omega) hfree'
    have hcall : growCall .down env l i addr = match growVmaDown env l v addr with
        | none => (none, l)
        | some v => (some v, l.set i v) := by
      unfold growCall
      rw [hi, bind_some]
      rfl
    rw [forall_mem_cons, faultsBelow, hcall]
    by_cases hallows : v.Allows addr
    · -- the area has the page now, and the rest of the faults are below that
      have hg := hgrows.2 hallows
      have hvalid : Valid (l.set i v.down) := Grows.valid_set (d := .down) hg h hi (Nat.not_lt.2 (by omega))
      have hi' : (l.set i v.down)[i]? = some v.down := getElem?_set_self hlt
      rw [growVmaDown_eq_some.2 (.inr ⟨hg, rfl⟩)]
      have hrest := ih hvalid hi' hflag (by omega) (fun j a ha => ?_) (fun j w hj hw hover => ?_) (by simpa using hlt)
        (getElem_set_self _)
      · rw [List.set_set, VmArea.lowered_down] at hrest
        rw [hrest]
        exact (and_iff_right hallows).symm
      · obtain ⟨h1, h2⟩ := hnear (j + 1) a ha
        rw [hdown, Nat.sub_sub, Nat.sub_sub, Nat.add_comm, Nat.add_comm 4096, ← Nat.mul_succ, ← Nat.mul_succ]
        exact ⟨h1, h2⟩
      · rw [getElem?_set_ne (Ne.symm hj)] at hw
        rw [VmArea.lowered_down] at hover
        exact hfree j w hj hw (hover.mono (BitVec.le_refl _) (le_def.2 (by omega)))
    · have hnone : growVmaDown env l v addr = none := by
        rw [eq_none_iff_forall_ne_some]
        intro v' hv'
        rcases growVmaDown_eq_some.1 hv' with ⟨-, hin, -⟩ | ⟨hg, -⟩
        · have := le_def.1 hin.1
          omega
        · exact hallows (hgrows.1 hg)
      rw [hnone]
      exact iff_of_false (by simp) fun hall => hallows hall.1

/-- For an area of `k` pages that grows down, with no other area below it: faults in one page after the other are all
served if and only if there is no limit, or each page is within it, and is not the last one with the fault at its first
byte. -/
theorem growth_granted_iff (env : Env) (l : List VmArea) (h : Valid l) (i : Nat) (v : VmArea) (hi : l[i]? = some v)
    (hflag : v.vmFlags &&& mapGrowsDown ≠ 0) (k : Nat) (hk : v.vmEnd.toNat = v.vmStart.toNat + 4096 * k)
    (addrs : List (BitVec 64)) (hwrap : 4096 * addrs.length ≤ v.vmStart.toNat)
    (hnear : ∀ j a, addrs[j]? = some a → v.vmStart.toNat - 4096 * (j + 1) ≤ a.toNat ∧
      a.toNat < v.vmStart.toNat - 4096 * j)
    (hfree : ∀ j w, j ≠ i → l[j]? = some w → ¬ w.Overlaps (v.lowered addrs.length).vmStart v.vmStart) :
    faultsBelow env i l addrs = some (l.set i (v.lowered addrs.length)) ↔
      v.maxSize = -1 ∨ ∀ j a, addrs[j]? = some a → k + j + 1 < v.maxSize.toNat % 2 ^ 52 ∨
        k + j + 1 = v.maxSize.toNat % 2 ^ 52 ∧ a.toNat ≠ v.vmStart.toNat - 4096 * (j + 1) := by
  rw [faultsBelow_iff addrs h hi hflag hwrap hnear hfree]
  have hpage : ∀ j a, addrs[j]? = some a → (v.Allows a ↔ v.maxSize = -1 ∨ k + j + 1 < v.maxSize.toNat % 2 ^ 52 ∨
      k + j + 1 = v.maxSize.toNat % 2 ^ 52 ∧ a.toNat ≠ v.vmStart.toNat - 4096 * (j + 1)) := by
    intro j a ha
    have hj : j < addrs.length := (List.getElem?_eq_some_iff.1 ha).1
    obtain ⟨h1, h2⟩ := hnear j a ha
    have hlimit : v.maxSize.toNat * 4096 % 2 ^ 64 = 4096 * (v.maxSize.toNat % 2 ^ 52) := by omega
    have hroom : 4096 * (j + 1) ≤ v.vmStart.toNat := Nat.le_trans (Nat.mul_le_mul_left 4096 hj) hwrap
    refine or_congr Iff.rfl ?_
    rw [hlimit, hk]
    generalize v.vmStart.toNat = x at h1 h2 hroom ⊢
    generalize v.maxSize.toNat % 2 ^ 52 = m
    omega
  constructor
  · intro hall
    by_cases hmax : v.maxSize = -1
    · exact .inl hmax
    · exact .inr fun j a ha => ((hpage j a ha).1 (hall a (mem_of_getElem? ha))).resolve_left hmax
  · intro hcond a ha
    obtain ⟨j, hj⟩ := getElem?_of_mem ha
    exact (hpage j a hj).2 (hcond.imp id fun hall => hall j a hj)

private def limitedStack : VmArea := ⟨0x70000000, 0x70001000, 6, mapGrowsDown, 3⟩

private theorem valid_limitedStack : Valid [limitedStack] := ⟨by decide, by decide⟩

theorem growth_granted_stack : faultsBelow ⟨true, ⟨0, 0, 0, 0, 0⟩⟩ 0 [limitedStack] [0x6ffffff0, 0x6fffe008] =
    some [⟨0x6fffe000, 0x70001000, 6, mapGrowsDown, 3⟩] := by
  refine (growth_granted_iff _ [limitedStack] valid_limitedStack 0 limitedStack rfl (by decide) 1 (by decide)
    [0x6ffffff0, 0x6fffe008] (by decide) (fun j a ha => ?_) (fun j w hj hw => ?_)).2 (.inr fun j a ha => ?_)
  · match j, ha with
    | 0, ha => cases ha; decide
    | 1, ha => cases ha; decide
  · match j, hw with
    | 0, _ => exact absurd rfl hj
  · match j, ha with
    | 0, ha => cases ha; decide
    | 1, ha => cases ha; decide

/-- A fault at the first byte of the last page is not served. -/
theorem growth_refused : ¬ ∀ (env : Env) (l : List VmArea), Valid l → ∀ (i : Nat) (v : VmArea), l[i]? = some v →
    v.vmFlags &&& mapGrowsDown ≠ 0 → ∀ k, v.vmEnd.toNat = v.vmStart.toNat + 4096 * k → k + 1 ≤ v.maxSize.toNat →
    4096 ≤ v.vmStart.toNat → ∀ addr : BitVec 64, v.vmStart.toNat - 4096 ≤ addr.toNat → addr.toNat < v.vmStart.toNat →
    (∀ j w, j ≠ i → l[j]? = some w → ¬ w.Overlaps (v.lowered 1).vmStart v.vmStart) →
    (growCall .down env l i addr).1 ≠ none := by
  intro h
  have hgrown := h ⟨true, ⟨0, 0, 0, 0, 0⟩⟩ [⟨0x6ffff000, 0x70001000, 6, mapGrowsDown, 3⟩] ⟨by decide, by decide⟩ 0 _ rfl
    (by decide) 2 (by decide) (by decide) (by decide) 0x6fffe000 (by decide) (by decide) (fun j w hj hw => ?_)
  · exact hgrown (by decide)
  · match j, hw with
    | 0, _ => exact absurd rfl hj

end Adix.Vma
