import Adix.Cow.Run
import Adix.Vma.Pages
import Adix.Vma.Unmap
import Adix.Vma.Grow

/-!
# The memory of processes (`sys/syscall/syscall_handler.c`, `sys/memory/sys_malloc.c`)

A process asks for areas with `sys_mmap` or `sys_malloc` and gives them back with `sys_munmap` or `sys_free`. 
`page_fault_handler` looks for the area with the address; if there is none, an area next to it may grow by a page.
-/

namespace Adix.Space

open PageTable Cow

def entryOf (y : Sys) (p : Nat) (a : Word) : Option Word :=
  y.procs[p]?.bind fun proc => hardwareLeaf y.mach.mem proc.pml4 a

def mallocStartAddr : Word := 0x100000

/-- `sys_mmap` of the process `p`: the state afterwards and the address of the new area. -/
def sysMmap (y : Sys) (p : Nat) (env : Vma.Env) (addr length prot : Word) (flags : BitVec 32) : Option (Sys × Word) :=
  y.procs[p]?.map fun proc =>
    let (l, r) := Vma.mmap env proc.mmap addr length (prot ||| pageTransUserSupervisor)
      (flags ||| Vma.Pages.mapAnonymous)
    ({ y with procs := y.procs.set p { proc with mmap := l } }, r)

def sysMalloc (y : Sys) (p : Nat) (env : Vma.Env) (size : Word) : Option (Sys × Word) :=
  y.procs[p]?.map fun proc =>
    let (l, r) := Vma.mmap env proc.mmap mallocStartAddr size (pageTransReadWrite ||| pageTransUserSupervisor)
      Vma.Pages.mapAnonymous
    ({ y with procs := y.procs.set p { proc with mmap := l } }, r)

/-- `sys_munmap` of the process `p`, which is also `sys_free`. -/
def sysMunmap (y : Sys) (p : Nat) (kmallocOk : Word → Bool) (addr : Word) : Option Sys :=
  y.procs[p]?.bind fun proc =>
    (Vma.Unmap.munmap kmallocOk y.mach proc.pml4 proc.mmap addr).map fun (s, l) =>
      { y with mach := s, procs := y.procs.set p { proc with mmap := l } }

/-- What processes do with their memory; `memory` is an access, a page fault or a fork. -/
inductive Event where
  | mmap (p : Nat) (addr length prot : Word) (flags : BitVec 32) (env : Vma.Env)
  | malloc (p : Nat) (size : Word) (env : Vma.Env)
  | munmap (p : Nat) (addr : Word) (kmallocOk : Word → Bool)
  | memory (e : Cow.Event)

/-- An event; there is no state after a page fault that ends the process. -/
def step (y : Sys) : Event → Option Sys
  | .mmap p addr length prot flags env => (sysMmap y p env addr length prot flags).map (·.1)
  | .malloc p size env => (sysMalloc y p env size).map (·.1)
  | .munmap p addr kmallocOk => sysMunmap y p kmallocOk addr
  | .memory e => Cow.step y e

/-! ### The area of a page fault -/

open Vma List Option BitVec

def Has (v : VmArea) (a : Word) : Prop := v.vmStart ≤ a ∧ a < v.vmEnd

def PageBounds (v : VmArea) : Prop := v.vmStart.toNat % 4096 = 0 ∧ v.vmEnd.toNat % 4096 = 0

structure Widens (v v' : VmArea) : Prop where
  start : v'.vmStart ≤ v.vmStart
  stop : v.vmEnd ≤ v'.vmEnd
  prot : v'.vmPageProt = v.vmPageProt

variable {l l' l₁ l₂ : List VmArea} {v v' w : VmArea} {addr a b : Word} {env : Cow.Env} {d : Direction} {k : Nat}

theorem Widens.refl (v : VmArea) : Widens v v := ⟨BitVec.le_refl _, BitVec.le_refl _, rfl⟩

theorem Widens.has (h : Widens v v') (ha : Has v a) : Has v' a :=
  ⟨BitVec.le_trans h.start ha.1, Nat.lt_of_lt_of_le ha.2 h.stop⟩

theorem PageBounds.has (h : PageBounds v) (ha : Has v a) (hpage : b.toNat / 4096 = a.toNat / 4096) : Has v b := by
  obtain ⟨h1, h2⟩ := h
  obtain ⟨h3, h4⟩ := ha
  rw [le_def] at h3
  rw [lt_def] at h4
  refine ⟨?_, ?_⟩
  · rw [le_def]
    omega
  · rw [lt_def]
    omega

/-- An address is in one area at most. -/
theorem eq_of_has (h : Valid l) (hv : v ∈ l) (hw : w ∈ l) (h1 : Has v a) (h2 : Has w a) : v = w := by
  have hapart : ∀ {v w : VmArea}, v.vmEnd ≤ w.vmStart → Has v a → Has w a → False := by
    intro v w hle h1 h2
    exact absurd (Nat.lt_of_lt_of_le h1.2 (BitVec.le_trans hle h2.1)) (BitVec.lt_irrefl _)
  induction l with
  | nil => cases hv
  | cons n l ih =>
    rcases mem_cons.1 hv with rfl | hv'
    · rcases mem_cons.1 hw with rfl | hw'
      · rfl
      · exact absurd h2 (hapart (h.head_le w hw') h1)
    · rcases mem_cons.1 hw with rfl | hw'
      · exact absurd h1 (hapart (h.head_le v hv') h2)
      · exact ih h.tail hv' hw'

instance decidableHas (v : VmArea) (a : Word) : Decidable (Has v a) := inferInstanceAs (Decidable (_ ∧ _))

def areaOf (l : List VmArea) (a : Word) : Option VmArea := l.find? fun v => decide (Has v a)

/-- The areas that `page_fault_handler` searches. -/
def areasFor (y : Sys) (proc : Proc) (a : Word) : List VmArea := if y.startKernel ≤ a then y.kernelMmap else proc.mmap

/-- The state with the machine `s`, and with the areas `l` in place of those that `page_fault_handler` searched. -/
def afterFault (y : Sys) (p : Nat) (proc : Proc) (a : Word) (s : Mach) (l : List VmArea) : Sys :=
  if y.startKernel ≤ a then { y with mach := s, kernelMmap := l }
  else { y with mach := s, procs := y.procs.set p { proc with mmap := l } }

private theorem searchVma_node (k : Nat) (prev next : Option Nat) :
    (searchVma addr l k prev next).1 = (l.findIdx? fun v => decide (Has v addr)).map (· + k) := by
  induction l generalizing k prev next with
  | nil => rfl
  | cons node rest ih =>
    have hrest : ∀ prev next, ¬ Has node addr → (searchVma addr rest (k + 1) prev next).1 =
        ((node :: rest).findIdx? fun v => decide (Has v addr)).map (· + k) := by
      intro prev next hnot
      rw [ih, findIdx?_cons, if_neg (by simpa using hnot), Option.map_map]
      congr 1
      funext i
      simp only [Function.comp_apply]
      omega
    unfold searchVma
    split
    · rename_i hhas
      rw [findIdx?_cons, if_pos (decide_eq_true (show Has node addr from hhas))]
      simp
    · rename_i hnot
      split
      · exact hrest _ _ hnot
      · split
        · exact hrest _ _ hnot
        · exact hrest _ _ hnot

/-- The search finds the area with the address. -/
theorem searchVma_areaOf : ((searchVma addr l 0 none none).1.bind fun k => l[k]?) = areaOf l addr := by
  rw [searchVma_node, areaOf, find?_eq_bind_findIdx?_getElem?]
  simp

theorem areaFor_of_areaOf (h : areaOf l addr = some v) : areaFor env l addr = (some v, l) := by
  rw [← searchVma_areaOf] at h
  unfold areaFor
  generalize searchVma addr l 0 none none = found at h ⊢
  obtain ⟨node, prev, next⟩ := found
  obtain ⟨k, rfl, hget⟩ := bind_eq_some_iff.1 h
  dsimp only
  rw [hget]

private theorem searchVma_spec (k : Nat) (prev next : Option Nat) :
    (∀ i, (searchVma addr l k prev next).1 = some i → ∃ j v, i = k + j ∧ l[j]? = some v ∧ Has v addr) ∧
    (∀ i, (searchVma addr l k prev next).2.1 = some i → prev = some i ∨ ∃ j v,
    i = k + j ∧ l[j]? = some v ∧ v.vmEnd ≤ addr) ∧
    (∀ i, (searchVma addr l k prev next).2.2 = some i →
      next = some i ∨ ∃ j v, i = k + j ∧ l[j]? = some v ∧ addr < v.vmStart) := by
  induction l generalizing k prev next with
  | nil => exact ⟨nofun, fun i hi => .inl hi, fun i hi => .inl hi⟩
  | cons node rest ih =>
    -- what is found in the rest of the list is found in the list
    have hlater : ∀ {P : VmArea → Prop} {i : Nat}, (∃ j v, i = k + 1 + j ∧ rest[j]? = some v ∧ P v) →
        ∃ j v, i = k + j ∧ (node :: rest)[j]? = some v ∧ P v := by
      intro P i ⟨j, v, hi, hj, hP⟩
      exact ⟨j + 1, v, by omega, hj, hP⟩
    unfold searchVma
    split
    · rename_i hhas
      refine ⟨fun i hi => ?_, fun i hi => .inl hi, fun i hi => .inl hi⟩
      cases hi
      exact ⟨0, node, rfl, rfl, hhas⟩
    · split
      · rename_i hbelow
        obtain ⟨h1, h2, h3⟩ := ih (k + 1) prev (some k)
        refine ⟨fun i hi => hlater (h1 i hi), fun i hi => (h2 i hi).imp id hlater, fun i hi => .inr ?_⟩
        rcases h3 i hi with hik | h
        · cases hik
          exact ⟨0, node, rfl, rfl, hbelow.1⟩
        · exact hlater h
      · split
        · rename_i habove
          obtain ⟨h1, h2, h3⟩ := ih (k + 1) (some k) next
          refine ⟨fun i hi => hlater (h1 i hi), fun i hi => .inr ?_, fun i hi => (h3 i hi).imp id hlater⟩
          rcases h2 i hi with hik | h
          · cases hik
            exact ⟨0, node, rfl, rfl, habove⟩
          · exact hlater h
        · obtain ⟨h1, h2, h3⟩ := ih (k + 1) prev next
          exact ⟨fun i hi => hlater (h1 i hi), fun i hi => (h2 i hi).imp id hlater, fun i hi => (h3 i hi).imp id hlater⟩

theorem searchVma_has (h : (searchVma addr l 0 none none).1 = some k) : ∃ v, l[k]? = some v ∧ Has v addr := by
  obtain ⟨j, v, hk, hj, hv⟩ := (searchVma_spec 0 none none).1 k h
  rw [Nat.zero_add] at hk
  exact ⟨v, by rw [hk]; exact hj, hv⟩

private theorem searchVma_prev (h : (searchVma addr l 0 none none).2.1 = some k) :
    ∃ v, l[k]? = some v ∧ v.vmEnd ≤ addr := by
  rcases (searchVma_spec 0 none none).2.1 k h with hk | ⟨j, v, hk, hj, hv⟩
  · cases hk
  · rw [Nat.zero_add] at hk
    exact ⟨v, by rw [hk]; exact hj, hv⟩

private theorem searchVma_next (h : (searchVma addr l 0 none none).2.2 = some k) :
    ∃ v, l[k]? = some v ∧ addr < v.vmStart := by
  rcases (searchVma_spec 0 none none).2.2 k h with hk | ⟨j, v, hk, hj, hv⟩
  · cases hk
  · rw [Nat.zero_add] at hk
    exact ⟨v, by rw [hk]; exact hj, hv⟩

structure Grown (addr : Word) (l : List VmArea) (v : VmArea) (l' : List VmArea) : Prop where
  valid : Valid l'
  bounds : ∀ w ∈ l', PageBounds w
  widens : ∀ w ∈ l, ∃ w' ∈ l', Widens w w'
  mem : v ∈ l'
  has : Has v addr

private theorem Grown.replace (h : Valid (l₁ ++ v' :: l₂)) (hb : ∀ w ∈ l₁ ++ v :: l₂, PageBounds w) (hw : Widens v v')
    (hb' : PageBounds v') (hv : Has v' addr) : Grown addr (l₁ ++ v :: l₂) v' (l₁ ++ v' :: l₂) where
  valid := h
  bounds w hw := by
    rcases mem_append.1 hw with hw | hw
    · exact hb w (by simp [hw])
    · rcases mem_cons.1 hw with rfl | hw
      · exact hb'
      · exact hb w (by simp [hw])
  widens w hw' := by
    rcases mem_append.1 hw' with hw' | hw'
    · exact ⟨w, by simp [hw'], .refl w⟩
    · rcases mem_cons.1 hw' with rfl | hw'
      · exact ⟨v', by simp, hw⟩
      · exact ⟨w, by simp [hw'], .refl w⟩
  mem := by simp
  has := hv

private theorem Widens.grown (hwrap : ¬ Wraps v d) : Widens v (v.grown d) := by
  cases d with
  | up =>
    refine ⟨?_, ?_, by simp only [VmArea.grown, VmArea.up]⟩
    · show v.up.vmStart ≤ _
      rw [VmArea.up_start]
      exact BitVec.le_refl _
    · show _ ≤ v.up.vmEnd
      rw [le_def, VmArea.up_end (Nat.not_le.1 hwrap)]
      omega
  | down =>
    refine ⟨?_, ?_, by simp only [VmArea.grown, VmArea.down]⟩
    · show v.down.vmStart ≤ _
      rw [le_def, VmArea.down_start (Nat.not_lt.1 hwrap)]
      omega
    · show _ ≤ v.down.vmEnd
      rw [VmArea.down_end]
      exact BitVec.le_refl _

private theorem PageBounds.grown (h : PageBounds v) (hwrap : ¬ Wraps v d) : PageBounds (v.grown d) := by
  obtain ⟨h1, h2⟩ := h
  cases d with
  | up =>
    refine ⟨?_, ?_⟩
    · show v.up.vmStart.toNat % 4096 = 0
      rw [VmArea.up_start]
      exact h1
    · show v.up.vmEnd.toNat % 4096 = 0
      rw [VmArea.up_end (Nat.not_le.1 hwrap)]
      omega
  | down =>
    refine ⟨?_, ?_⟩
    · show v.down.vmStart.toNat % 4096 = 0
      rw [VmArea.down_start (Nat.not_lt.1 hwrap)]
      omega
    · show v.down.vmEnd.toNat % 4096 = 0
      rw [VmArea.down_end]
      exact h2

private theorem growAt_spec {flag : BitVec 32} {grow : VmArea → Option VmArea} {i : Option Nat}
    (h : growAt l flag grow i = some (v', l')) :
    ∃ k l₁ v l₂, i = some k ∧ l = l₁ ++ v :: l₂ ∧ l[k]? = some v ∧ grow v = some v' ∧ l' = l₁ ++ v' :: l₂ := by
  obtain ⟨k, hk, h⟩ := bind_eq_some_iff.1 h
  obtain ⟨v, hv, h⟩ := bind_eq_some_iff.1 h
  split at h
  · cases h
  · obtain ⟨v'', hg, heq⟩ := map_eq_some_iff.1 h
    cases heq
    obtain ⟨hlt, hval⟩ := List.getElem?_eq_some_iff.1 hv
    refine ⟨k, l.take k, v, l.drop (k + 1), hk, ?_, hv, hg, ?_⟩
    · rw [← hval, getElem_cons_drop, take_append_drop]
    · rw [set_eq_take_append_cons_drop, if_pos hlt]

/-- The area has the address, or has grown. -/
theorem areaFor_cases (ha : areaFor env l addr = (some v, l')) : areaOf l addr = some v ∧ l' = l ∨
      ∃ d l₁ w l₂, l = l₁ ++ w :: l₂ ∧ Vma.Grows d env.toEnv l w addr ∧ v = w.grown d ∧ l' = l₁ ++ w.grown d :: l₂ := by
  unfold areaFor at ha
  generalize hs : searchVma addr l 0 none none = found at ha
  obtain ⟨node, prev, next⟩ := found
  cases node with
  | some k =>
    obtain ⟨h1, rfl⟩ := Prod.mk.inj ha
    refine .inl ⟨?_, rfl⟩
    rw [← searchVma_areaOf, hs]
    exact h1
  | none =>
    right
    dsimp only at ha
    cases hup : growAt l mapGrowsUp (fun v => growVmaUp env.toEnv l v addr) prev with
    | some x =>
      rw [hup] at ha
      obtain ⟨h1, rfl⟩ := Prod.mk.inj ha
      obtain ⟨k, l₁, w, l₂, hk, hl, hw, hg, hl'⟩ := growAt_spec hup
      obtain ⟨u, hu, hle⟩ := searchVma_prev ((congrArg (·.2.1) hs).trans hk)
      cases hw.symm.trans hu
      rcases growVmaUp_eq_some.1 hg with ⟨-, hin, -⟩ | ⟨hgrows, heq⟩
      · exact absurd (Nat.lt_of_lt_of_le hin.2 hle) (BitVec.lt_irrefl _)
      · cases h1
        exact ⟨.up, l₁, w, l₂, hl, hgrows, heq, by rw [hl', heq]; rfl⟩
    | none =>
      rw [hup] at ha
      cases hdown : growAt l mapGrowsDown (fun v => growVmaDown env.toEnv l v addr) next with
      | some x =>
        rw [hdown] at ha
        obtain ⟨h1, rfl⟩ := Prod.mk.inj ha
        obtain ⟨k, l₁, w, l₂, hk, hl, hw, hg, hl'⟩ := growAt_spec hdown
        obtain ⟨u, hu, hlt⟩ := searchVma_next ((congrArg (·.2.2) hs).trans hk)
        cases hw.symm.trans hu
        rcases growVmaDown_eq_some.1 hg with ⟨-, hin, -⟩ | ⟨hgrows, heq⟩
        · exact absurd (Nat.lt_of_lt_of_le hlt hin.1) (BitVec.lt_irrefl _)
        · cases h1
          exact ⟨.down, l₁, w, l₂, hl, hgrows, heq, by rw [hl', heq]; rfl⟩
      | none =>
        rw [hdown] at ha
        cases (Prod.mk.inj ha).1

theorem areaFor_none (ha : areaFor env l addr = (none, l')) : l' = l := by
  unfold areaFor at ha
  generalize searchVma addr l 0 none none = found at ha
  obtain ⟨node, prev, next⟩ := found
  dsimp only at ha
  split at ha
  · exact (Prod.mk.inj ha).2.symm
  · split at ha
    · cases (Prod.mk.inj ha).1
    · split at ha
      · cases (Prod.mk.inj ha).1
      · exact (Prod.mk.inj ha).2.symm

theorem areaOf_some (h : areaOf l addr = some v) : v ∈ l ∧ Has v addr := by
  have hhas := find?_some h
  exact ⟨mem_of_find?_eq_some h, by simpa using hhas⟩

/-- In a list of areas whose bounds are at the boundaries of pages the areas stay apart and keep such bounds. -/
theorem areaFor_spec (h : Valid l) (hb : ∀ w ∈ l, PageBounds w) (hlast : addr.toNat < 2 ^ 64 - 4096)
    (ha : areaFor env l addr = (some v, l')) : Grown addr l v l' := by
  rcases areaFor_cases ha with ⟨hv, rfl⟩ | ⟨d, l₁, w, l₂, rfl, hg, rfl, rfl⟩
  · obtain ⟨hmem, hhas⟩ := areaOf_some hv
    exact ⟨h, hb, fun w hw => ⟨w, hw, .refl w⟩, hmem, hhas⟩
  · have hbw := hb w (by simp)
    have hwrap : ¬ Wraps w d := by
      cases d with
      | up =>
        have hle := le_def.1 (GrowsUp.behind hg)
        refine Nat.not_le.2 ?_
        omega
      | down =>
        have hlt := lt_def.1 (GrowsDown.before hg)
        have hstart := hbw.1
        refine Nat.not_lt.2 ?_
        omega
    exact Grown.replace (hg.valid h hwrap) hb (.grown hwrap) (hbw.grown hwrap)
      ((hg.has_iff (h.proper w (by simp))).2 hwrap)

section Handler

variable {y : Sys} {p : Nat} {proc : Proc} {err : Word} {node : Option VmArea} {s : Mach}

@[simp] theorem afterFault_mach : (afterFault y p proc a s l).mach = s := by
  unfold afterFault
  split <;> rfl

theorem afterFault_areas (hp : y.procs[p]? = some proc) (s : Mach) :
    afterFault y p proc a s (areasFor y proc a) = { y with mach := s } := by
  obtain ⟨hlt, hget⟩ := List.getElem?_eq_some_iff.1 hp
  unfold afterFault areasFor
  split
  · rfl
  · rw [show ({ proc with mmap := proc.mmap } : Proc) = proc from rfl, ← hget, set_getElem_self]

theorem afterFault_self (hp : y.procs[p]? = some proc) : afterFault y p proc a y.mach (areasFor y proc a) = y :=
  afterFault_areas hp y.mach

/-- For a page that is not present, the handler maps a page in this area. -/
theorem pageFaultHandler_notPresent (hp : y.procs[p]? = some proc) (herr : err &&& pfErrorCodeP = 0)
    (harea : areaFor env (areasFor y proc a) a = (node, l)) : pageFaultHandler y p env a err =
      (pageNotPresent y.mach proc.pml4 node a).map fun (s, ret) => (afterFault y p proc a s l, ret) := by
  unfold areasFor at harea
  unfold pageFaultHandler afterFault
  rw [hp, bind_some]
  rw [if_neg (not_not.2 herr), harea]

end Handler

end Adix.Space
