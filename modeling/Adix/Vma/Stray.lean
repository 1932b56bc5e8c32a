import Adix.Kmalloc.Linked
import Adix.Vma.Unmap

/-!
# Unmapping an address that is not mapped

`find_vma` returns the first area that ends above the address, whether the address is in it or not. `munmap` asks this
before it takes the area off the list, but not before it unmaps pages and frees the node. The areas have the pointers to
their nodes here, beside the heap these come from.
-/

namespace Adix.Vma.Stray

open Kmalloc (Heap FreeList FreeAt Beside hdrOf kfree freeSize)
open PageTable PhysPages List Option

/-- A `struct vm_area_struct`, by its address. -/
structure Node where
  ptr : Nat
  area : VmArea
  deriving DecidableEq

/-- The machine, the heap, and a list of areas. -/
structure Mm where
  mach : Mach
  heap : Heap
  nodes : List Node

/-- What `munmap` leaves. The list is `none` when its head was taken off: then the links of the head are `NULL`. -/
structure Result where
  mach : Mach
  heap : Heap
  nodes : Option (List Node)

/-- `find_vma`; `none` when it returns `list_entry` of the head. -/
def findNode (nodes : List Node) (addr : Word) : Option Node := nodes.find? fun n => decide (addr < n.area.vmEnd)

/-- `munmap`. `head` is `list_entry` of the list head, and `pageFrees` what `kmalloc` and `kfree` in `free_phys_page`
do to the heap. -/
def munmap (kmallocOk : Word → Bool) (pageFrees : Heap → Heap) (cr3 : Nat) (head : Node) (y : Mm) (addr : Word) :
    Option Result := do
  let found := findNode y.nodes addr
  let vma := found.getD head
  let nodes :=
    if vma.area.vmStart ≤ addr ∧ addr < vma.area.vmEnd then found.map fun n => y.nodes.erase n else some y.nodes
  let s ← Unmap.unmapLoop kmallocOk cr3 (Unmap.endAddr vma.area) (2 ^ 52 + 1) (Unmap.startAddr vma.area) y.mach
  let h ← kfree (pageFrees y.heap) vma.ptr
  return ⟨s, h, nodes⟩

/-- The call left the list, the entries of the page table, the reference counts and the heap as they were. -/
def Harmless (cr3 : Nat) (y : Mm) (res : Option Result) : Prop :=
  ∃ r, res = some r ∧ r.nodes = some y.nodes ∧ (∀ v, leaf r.mach.mem cr3 v = leaf y.mach.mem cr3 v) ∧
    (∀ q, refcount r.mach.pages q = refcount y.mach.pages q) ∧ r.heap = y.heap

/-- The heap is in order, the nodes of the areas are allocations, and the bytes before `list_entry` of the head neither
meet the header of a free block nor follow one. -/
def InOrder (h : Heap) (nodes : List Node) (head : Node) : Prop :=
  ∃ E fl live, FreeList E h fl live ∧ (∀ n ∈ nodes, ∃ a ∈ live, a.ptr = n.ptr) ∧ Beside h fl (hdrOf head.ptr)

variable {kmallocOk : Word → Bool} {pageFrees : Heap → Heap} {cr3 : Nat} {head n : Node} {y : Mm} {addr : Word}
  {r : Result} {nodes : List Node} {h : Heap}

private theorem findNode_split (hn : findNode nodes addr = some n) :
    ∃ l1 l2, nodes = l1 ++ n :: l2 ∧ (∀ w ∈ l1, ¬ addr < w.area.vmEnd) ∧ addr < n.area.vmEnd := by
  obtain ⟨hend, l1, l2, hl, hbefore⟩ := find?_eq_some_iff_append.1 hn
  exact ⟨l1, l2, hl, fun w hw => by simpa using hbefore w hw, by simpa using hend⟩

private theorem findNode_mem (hn : findNode nodes addr = some n) : n ∈ nodes := mem_of_find?_eq_some hn

private theorem findVma_nodes : findVma (nodes.map Node.area) addr = (findNode nodes addr).map Node.area := by
  unfold findVma findNode
  induction nodes with
  | nil => rfl
  | cons w l ih =>
    rw [map_cons, fromVma]
    by_cases hend : addr < w.area.vmEnd
    · simp [hend]
    · simpa [hend] using ih

private theorem erase_nodes (hn : findNode nodes addr = some n) :
    (nodes.erase n).map Node.area = (nodes.map Node.area).erase n.area := by
  obtain ⟨l1, l2, rfl, hbefore, hend⟩ := findNode_split hn
  have h1 : n ∉ l1 := fun hmem => hbefore n hmem hend
  have h2 : n.area ∉ l1.map Node.area := by
    intro hmem
    obtain ⟨w, hw, hwn⟩ := List.mem_map.1 hmem
    exact hbefore w hw (hwn ▸ hend)
  rw [map_append, erase_append_right _ h1, erase_append_right _ h2]
  simp

private theorem munmap_kfree (hr : munmap kmallocOk pageFrees cr3 head y addr = some r) :
    kfree (pageFrees y.heap) ((findNode y.nodes addr).getD head).ptr = some r.heap := by
  obtain ⟨s, -, hr⟩ := bind_eq_some_iff.1 hr
  obtain ⟨h, hh, hr⟩ := bind_eq_some_iff.1 hr
  cases hr
  exact hh

/-- When an area ends above the address, the machine and the areas are those of `munmap` on the list of areas. -/
theorem munmap_refines (hn : findNode y.nodes addr = some n)
    (hr : munmap kmallocOk pageFrees cr3 head y addr = some r) : ∃ l, r.nodes = some l ∧
      Unmap.munmap kmallocOk y.mach cr3 (y.nodes.map Node.area) addr = some (r.mach, l.map Node.area) := by
  obtain ⟨s, hs, hr⟩ := bind_eq_some_iff.1 hr
  obtain ⟨h, -, hr⟩ := bind_eq_some_iff.1 hr
  cases hr
  rw [hn] at hs ⊢
  rw [getD_some] at hs ⊢
  unfold Unmap.munmap Vma.munmap
  rw [findVma_nodes, hn]
  by_cases hin : n.area.vmStart ≤ addr ∧ addr < n.area.vmEnd
  · refine ⟨y.nodes.erase n, if_pos hin, ?_⟩
    simp only [map_some, bind_some, if_pos hin, hs, erase_nodes hn]
  · refine ⟨y.nodes, if_neg hin, ?_⟩
    simp only [map_some, bind_some, if_neg hin, hs]

private theorem munmap_freeAt (horder : InOrder (pageFrees y.heap) y.nodes head) (hn : findNode y.nodes addr = some n)
    (hr : munmap kmallocOk pageFrees cr3 head y addr = some r) : FreeAt r.heap (hdrOf n.ptr) := by
  obtain ⟨E, fl, live, F, hlive, -⟩ := horder
  obtain ⟨a, ha, hptr⟩ := hlive n (findNode_mem hn)
  have hfree := munmap_kfree hr
  rw [hn, getD_some, ← hptr] at hfree
  rw [← hptr, F.layout.hdrOf_ptr ha]
  exact Kmalloc.kfree_freeAt F ha hfree

private theorem munmap_heap_ne (horder : InOrder y.heap y.nodes head)
    (horder' : InOrder (pageFrees y.heap) y.nodes head)
    (hhead : head.ptr ≠ 0) (hhdr : hdrOf head.ptr ≠ 0) (hr : munmap kmallocOk pageFrees cr3 head y addr = some r) :
    r.heap ≠ y.heap := by
  intro heq
  obtain ⟨E, fl, live, F, hlive, hbeside⟩ := horder
  cases hn : findNode y.nodes addr with
  | some n =>
    have hat := munmap_freeAt horder' hn hr
    obtain ⟨a, ha, hptr⟩ := hlive n (findNode_mem hn)
    rw [heq, ← hptr, F.layout.hdrOf_ptr ha] at hat
    exact F.not_freeAt ha hat
  | none =>
    obtain ⟨E', fl', live', F', -, hbeside'⟩ := horder'
    have hfree := munmap_kfree hr
    rw [hn] at hfree
    have hon := Kmalloc.kfree_onList F' hhead rfl hhdr hbeside' hfree
    rw [heq] at hon
    have happ := hbeside.apart _ (F.mem_of_onList hon)
    unfold Adix.Apart at happ
    omega

/-- No call with an address in no area is harmless. If an area ends above the address, its node stays on the list
although its memory is free. -/
theorem munmap_unmapped (kmallocOk : Word → Bool) (pageFrees : Heap → Heap) (cr3 : Nat) (head : Node) (y : Mm)
    (addr : Word) (horder : InOrder y.heap y.nodes head) (horder' : InOrder (pageFrees y.heap) y.nodes head)
    (hhead : head.ptr ≠ 0) (hhdr : hdrOf head.ptr ≠ 0)
    (hout : ∀ n ∈ y.nodes, ¬ (n.area.vmStart ≤ addr ∧ addr < n.area.vmEnd)) :
    ¬ Harmless cr3 y (munmap kmallocOk pageFrees cr3 head y addr) ∧
      ∀ n r, findNode y.nodes addr = some n → munmap kmallocOk pageFrees cr3 head y addr = some r →
        r.nodes = some y.nodes ∧ n ∈ y.nodes ∧ FreeAt r.heap (hdrOf n.ptr) := by
  refine ⟨?_, fun n r hn hr => ⟨?_, findNode_mem hn, munmap_freeAt horder' hn hr⟩⟩
  · rintro ⟨r, hr, -, -, -, hheap⟩
    exact munmap_heap_ne horder horder' hhead hhdr hr hheap
  · obtain ⟨s, -, hr⟩ := bind_eq_some_iff.1 hr
    obtain ⟨h, -, hr⟩ := bind_eq_some_iff.1 hr
    cases hr
    rw [hn]
    exact if_neg (hout n (findNode_mem hn))

private theorem lowArena_pos : 0 < 0x1000 := by decide

private theorem lowArena_fits : 0x1000 + Kmalloc.kmStaticSize < Kmalloc.addrSpace := by decide

private def lowArena : Kmalloc.Arena := ⟨0x1000, lowArena_pos, PhysPages.page_aligned, lowArena_fits⟩

private def oneNode : Heap := Kmalloc.take (Kmalloc.initStaticPages lowArena (Kmalloc.boot fun _ => 0)) 0x1000 0 56

private def onePage : Mm := ⟨emptyMach [] 0, oneNode, [⟨0x1010, ⟨0x1000, 0x2000, 6, 1, -1⟩⟩]⟩

private def lowHead : Node := ⟨0x100, ⟨0, 0, 0, 0, 0⟩⟩

private theorem inOrder_onePage : InOrder oneNode onePage.nodes lowHead := by
  have F0 : FreeList lowArena.extent (Kmalloc.initStaticPages lowArena (Kmalloc.boot fun _ => 0))
      ([] ++ 0x1000 :: []) [] :=
    Kmalloc.initStaticPages_freeList _
  have hroom : 56 ≤ freeSize (Kmalloc.initStaticPages lowArena (Kmalloc.boot fun _ => 0)).mem
    0x1000 := by decide +kernel
  obtain ⟨fl, F, -⟩ := Kmalloc.take_freeList F0 hroom
  have hlow : ∀ x ∈ fl, 0x1000 ≤ x := fun x hx => (F.layout.tiled.inside x (Kmalloc.mem_blocks.2 (.inl hx))).1
  have hhdr : hdrOf lowHead.ptr = 0xf0 := by decide
  refine ⟨_, fl, _, F, fun n hn => ⟨_, mem_cons_self, ?_⟩, ⟨fun x hx => ?_, fun x hx => ?_⟩⟩
  · obtain rfl := mem_singleton.1 hn
    rfl
  · have := hlow x hx
    unfold Adix.Apart
    omega
  · have := hlow x hx
    omega

/-- The only area is above the address: its node is freed and stays on the list. -/
theorem munmap_unmapped_below : ¬ Harmless 0x1000 onePage (munmap (fun _ => true) id 0x1000 lowHead onePage 0) ∧
      ∃ n r, findNode onePage.nodes 0 = some n ∧ munmap (fun _ => true) id 0x1000 lowHead onePage 0 = some r ∧
        r.nodes = some onePage.nodes ∧ n ∈ onePage.nodes ∧ FreeAt r.heap (hdrOf n.ptr) := by
  have h := munmap_unmapped (fun _ => true) id 0x1000 lowHead onePage 0 inOrder_onePage inOrder_onePage (by decide)
    (by decide) (by decide)
  have hsome : (munmap (fun _ => true) id 0x1000 lowHead onePage 0).isSome = true := by decide +kernel
  obtain ⟨r, hr⟩ := isSome_iff_exists.1 hsome
  exact ⟨h.1, _, r, rfl, hr, h.2 _ r rfl hr⟩

/-- The first page is not mapped, and the call of `munmap` for it changes the heap. -/
theorem munmap_changes_heap : Valid (onePage.nodes.map Node.area) ∧
    (∀ n ∈ onePage.nodes, ¬ (n.area.vmStart ≤ 0 ∧ 0 < n.area.vmEnd)) ∧
      ∃ r, munmap (fun _ => true) id 0x1000 lowHead onePage 0 = some r ∧ r.heap ≠ onePage.heap := by
  have hsome : (munmap (fun _ => true) id 0x1000 lowHead onePage 0).isSome = true := by decide +kernel
  obtain ⟨r, hr⟩ := isSome_iff_exists.1 hsome
  refine ⟨⟨by decide, pairwise_singleton _ _⟩, by decide, r, hr, ?_⟩
  exact munmap_heap_ne inOrder_onePage inOrder_onePage (by decide) (by decide) hr

end Adix.Vma.Stray
