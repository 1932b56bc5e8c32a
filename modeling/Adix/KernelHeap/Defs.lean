import Adix.Kmalloc.Safety
import Adix.PageTable.SelfRef
import Adix.PhysPages.Consistent
import Adix.Vma.Pages

/-!
# The heap together with the pages and the areas

To grow, `kmalloc` asks `v_alloc_pages_at_virt` for pages, which calls `mmap` for an area, whose
`struct vm_area_struct` comes from `kmalloc` again. This cycle is modelled here on one state: the heap, the machine
with its page allocator, and the lists of areas. The list of free pages has its nodes in the heap, too.
-/

namespace Adix.KernelHeap

open Kmalloc (Arena Heap Alloc growth kmPagesAdd add64 flSize)
open PageTable PhysPages Vma.Pages Option
open Vma (VmArea)

def sizeofVma : Nat := 56

/-- The heap and the blocks given out, the machine with the lists of areas, the pointers to the nodes of
`phys_free_list`, the bytes that `list_entry` of the head of a list of areas reads, and the pages that the heap has
obtained. -/
structure Kern where
  heap : Heap
  live : List Alloc
  space : Space
  nodes : List Nat
  head : VmArea
  pages : List Nat

def Kern.freePages (k : Kern) : Nat := freeCount k.space.mach.pages

def Kern.setMach (k : Kern) (s : Mach) : Kern := { k with space := { k.space with mach := s } }

def Kern.setMmap (k : Kern) (i : ListId) (l : List VmArea) : Kern :=
  { k with space := { k.space with mmaps := Function.update k.space.mmaps i l } }

section Fields

variable {k : Kern} {s : Mach} {i : ListId} {l : List VmArea}

@[simp] theorem Kern.setMach_heap : (k.setMach s).heap = k.heap := rfl

@[simp] theorem Kern.setMach_live : (k.setMach s).live = k.live := rfl

@[simp] theorem Kern.setMach_space : (k.setMach s).space = { k.space with mach := s } := rfl

@[simp] theorem Kern.setMach_pages : (k.setMach s).pages = k.pages := rfl

@[simp] theorem Kern.setMmap_pages : (k.setMmap i l).pages = k.pages := rfl

@[simp] theorem Kern.setMmap_heap : (k.setMmap i l).heap = k.heap := rfl

@[simp] theorem Kern.setMmap_live : (k.setMmap i l).live = k.live := rfl

@[simp] theorem Kern.setMmap_space :
    (k.setMmap i l).space = { k.space with mmaps := Function.update k.space.mmaps i l } := rfl

end Fields

/-! ### The nodes of the list of free pages -/

def kfree (k : Kern) (ptr : Nat) : Option Kern :=
  (Kmalloc.kfree k.heap ptr).map fun h => { k with heap := h, live := k.live.filter fun a => a.ptr ≠ ptr }

def freeNodes : Nat → Kern → Option Kern
  | 0, k => some k
  | n + 1, k =>
    match k.nodes with
    | [] => none
    | node :: rest => (kfree { k with nodes := rest } node).bind (freeNodes n)

/-- The machine after single pages were allocated: the first run gives a page each time, and the nodes of the runs that
are used up are freed. -/
def Kern.withMach (k : Kern) (s : Mach) : Option Kern :=
  freeNodes (k.space.mach.pages.physFreeList.length - s.pages.physFreeList.length) (k.setMach s)

/-! ### The cycle -/

/-- What `add_vma_growable` has found before it calls `new_vma`: the list is empty, or the new area is to be linked
before or behind an area. -/
inductive Place where
  | tail
  | before (node : VmArea)
  | after (node : VmArea)

/-- The loop of `add_vma_growable` over a list that is not empty, up to the call of `insert_vma_in_list`. -/
def searchPlace (head v : VmArea) : Option VmArea → List VmArea → Option Place
  | _, [] => none
  | prev, node :: rest =>
    if prev.isNone ∧ v.vmEnd ≤ node.vmStart then some (.before node)
    else if rest.isEmpty ∧ node.vmEnd ≤ v.vmStart then some (.after node)
    else if (prev.getD head).vmEnd ≤ v.vmStart ∧ v.vmEnd ≤ node.vmStart then some (.before node)
    else searchPlace head v (some node) rest

/-- `add_vma_growable` up to the call of `new_vma`. -/
def findPlace (head v : VmArea) (mmap : List VmArea) : Option Place :=
  if v.vmEnd ≤ v.vmStart then none
  else if mmap.isEmpty then some .tail
  else searchPlace head v none mmap

/-- The new area is linked into the list, which may have changed since the place was found. -/
def Place.link (v : VmArea) : Place → List VmArea → List VmArea
  | .tail, mmap => mmap ++ [v]
  | .before node, mmap => mmap.flatMap fun w => if w = node then [v, w] else [w]
  | .after node, mmap => mmap.flatMap fun w => if w = node then [w, v] else [w]

/-- `add_vma_growable`; `malloc` is the `kmalloc` of `new_vma`. -/
def addVmaGrowable (malloc : Kern → Nat → Option (Kern × Nat)) (k : Kern) (i : ListId) (v : VmArea) :
    Option (Kern × Int) :=
  match findPlace k.head v (k.space.mmaps i) with
  | none => some (k, -1)
  | some place => do
    let (k, p) ← malloc k sizeofVma
    if p = 0 then return (k, -1)
    return (k.setMmap i (place.link v (k.space.mmaps i)), 0)

/-- `mmap` of one page, as `v_alloc_pages_at_virt` calls it for the heap. -/
def mmap (malloc : Kern → Nat → Option (Kern × Nat)) (k : Kern) (i : ListId) (virt : Word) : Option (Kern × Word) := do
  let startAddr := Vma.getUnmappedArea (k.space.mmaps i) virt Vma.sizeofPage
  let (k, r) ← addVmaGrowable malloc k i ⟨startAddr, startAddr + Vma.sizeofPage, pageTransReadWrite, mapAnonymous, -1⟩
  if r = -1 then return (k, -1) else return (k, startAddr)

/-- `v_alloc_pages_at_virt(KM_PAGES_ADD, PAGE_TRANS_READ_WRITE, virt)`. -/
def vAllocPagesAtVirt (cr3 : Nat) (malloc : Kern → Nat → Option (Kern × Nat)) (k : Kern) (virt : Word) :
    Option (Kern × Word) :=
  match takePages kmPagesAdd k.space.mach with
  | (s, none) => (k.withMach s).map fun k => (k, 0)
  | (s, some pages) => do
    let k ← k.withMach s
    let (k, addr) ← mmap malloc k (k.space.listFor virt) virt
    if addr = 0 then return (k, 0)
    let s ← mapPages cr3 pageTransReadWrite pages addr k.space.mach
    let k ← k.withMach s
    return (k, addr)

/-- The growth path of `kmalloc` up to its call of itself; `false` if there were no pages. -/
def growHeap (cr3 : Nat) (malloc : Kern → Nat → Option (Kern × Nat)) (k : Kern) : Option (Kern × Bool) := do
  let (k, addr) ← vAllocPagesAtVirt cr3 malloc k (BitVec.ofNat 64 k.heap.lastKmAddr)
  let heap := { k.heap with lastKmAddr := add64 addr.toNat growth }
  if addr = 0 then return ({ k with heap := heap }, false)
  let heap ← Kmalloc.addPages heap addr.toNat
  return ({ k with heap := heap, pages := k.pages ++ [addr.toNat] }, true)

/-- The start of `kmalloc`: the arena is set up by the first call. -/
def Kern.init (A : Arena) (k : Kern) : Kern :=
  if k.heap.initStaticPagesDone then k else { k with heap := Kmalloc.initStaticPages A k.heap }

def Kern.take (k : Kern) (node prev bytes : Nat) : Kern :=
  { k with heap := Kmalloc.take k.heap node prev bytes, live := { ptr := add64 node flSize, bytes } :: k.live }

/-- `kmalloc`; `rounds` bounds the depth of the recursion. -/
def kmalloc (A : Arena) (cr3 : Nat) : Nat → Kern → Nat → Option (Kern × Nat)
  | 0, _, _ => none
  | rounds + 1, k, bytes => do
    let k := k.init A
    if bytes = 0 then return (k, 0)
    let (node, prev) ← Kmalloc.scan k.heap.mem bytes k.heap.head
    if node ≠ 0 then return (k.take node prev bytes, add64 node flSize)
    if k.heap.deviceMemorySetUp then
      let (k, grown) ← growHeap cr3 (kmalloc A cr3 rounds) k
      if grown then kmalloc A cr3 rounds k bytes else return (k, 0)
    else return (k, 0)

variable {A : Arena} {cr3 bytes rounds node prev p : Nat} {k k' k₁ k₂ k₃ : Kern} {s s₁ s₂ : Mach} {virt addr : Word}
  {malloc : Kern → Nat → Option (Kern × Nat)}

theorem Kern.withMach_of_length (h : s.pages.physFreeList.length = k.space.mach.pages.physFreeList.length) :
    k.withMach s = some (k.setMach s) := by
  unfold Kern.withMach
  rw [h, Nat.sub_self]
  rfl

/-- A call that gets its pages, an area and the tables. -/
theorem vAllocPagesAtVirt_eq {pages : List Nat} (htake : takePages kmPagesAdd k.space.mach = (s₁, some pages))
    (h1 : k.withMach s₁ = some k₁) (h2 : mmap malloc k₁ (k₁.space.listFor virt) virt = some (k₂, addr)) (h0 : addr ≠ 0)
    (hmap : mapPages cr3 pageTransReadWrite pages addr k₂.space.mach = some s₂) (h3 : k₂.withMach s₂ = some k₃) :
    vAllocPagesAtVirt cr3 malloc k virt = some (k₃, addr) := by
  unfold vAllocPagesAtVirt
  rw [htake]
  simp only [bind_eq_bind, h1, h2, h0, hmap, h3, bind_some, if_false]
  rfl

/-- What a call can do: nothing, give a block out, or grow the heap and try again. -/
theorem kmalloc_cases (h : kmalloc A cr3 (rounds + 1) k bytes = some (k', p)) : k' = k.init A ∧ p = 0 ∨
      (∃ node prev, node ≠ 0 ∧ k' = (k.init A).take node prev bytes ∧ p = add64 node flSize) ∨
      ∃ k₁ grown, growHeap cr3 (kmalloc A cr3 rounds) (k.init A) = some (k₁, grown) ∧
        (grown = true ∧ kmalloc A cr3 rounds k₁ bytes = some (k', p) ∨ grown = false ∧ k' = k₁ ∧ p = 0) := by
  rw [kmalloc] at h
  simp only [bind_eq_bind] at h
  split at h
  · cases h
    exact .inl ⟨rfl, rfl⟩
  obtain ⟨⟨node, prev⟩, -, h⟩ := bind_eq_some_iff.1 h
  split at h
  · rename_i hnode
    cases h
    exact .inr (.inl ⟨node, prev, hnode, rfl, rfl⟩)
  split at h
  · obtain ⟨⟨k₁, grown⟩, hg, h⟩ := bind_eq_some_iff.1 h
    refine .inr (.inr ⟨k₁, grown, hg, ?_⟩)
    cases grown with
    | true => exact .inl ⟨rfl, h⟩
    | false =>
      cases h
      exact .inr ⟨rfl, rfl, rfl⟩
  · cases h
    exact .inl ⟨rfl, rfl⟩

section Round

variable (hb : bytes ≠ 0)
include hb

/-- A block that is large enough is given out. -/
theorem kmalloc_take (hs : Kmalloc.scan (k.init A).heap.mem bytes (k.init A).heap.head = some (node, prev))
    (hnode : node ≠ 0) :
    kmalloc A cr3 (rounds + 1) k bytes = some ((k.init A).take node prev bytes, add64 node flSize) := by
  rw [kmalloc]
  simp only [bind_eq_bind, hb, hs, hnode, if_false, bind_some, ne_eq, not_false_eq_true, if_true]
  rfl

/-- Without one the heap grows and the call is made again. -/
theorem kmalloc_grow (hs : Kmalloc.scan (k.init A).heap.mem bytes (k.init A).heap.head = some (0, prev))
    (hdev : (k.init A).heap.deviceMemorySetUp = true) :
    kmalloc A cr3 (rounds + 1) k bytes = (growHeap cr3 (kmalloc A cr3 rounds) (k.init A)).bind fun (k, grown) =>
      if grown then kmalloc A cr3 rounds k bytes else some (k, 0) := by
  rw [kmalloc]
  simp only [bind_eq_bind, hb, hs, hdev, if_false, bind_some, ne_eq, not_true_eq_false, if_true]
  rfl

end Round

theorem Kern.take_heap : (k.take node prev bytes).heap = Kmalloc.take k.heap node prev bytes := rfl

theorem Kern.take_space : (k.take node prev bytes).space = k.space := rfl

theorem Kern.init_of_done (h : k.heap.initStaticPagesDone = true) : k.init A = k := if_pos h

theorem Kern.init_of_not_done (h : k.heap.initStaticPagesDone = false) :
    k.init A = { k with heap := Kmalloc.initStaticPages A k.heap } := by
  unfold Kern.init
  rw [h]
  rfl

/-! ### Runs -/

/-- The calls of `kmalloc` and `kfree`, writes to memory that was given out, the end of the setup, and whatever else the
kernel does with pages, tables and areas. -/
inductive Op where
  | call (op : Kmalloc.Op)
  | setUpDone
  | other (space : Space) (nodes : List Nat)

def step (A : Arena) (cr3 : Nat) (k : Kern) : Op → Option Kern
  | .call (.kmalloc bytes) => (kmalloc A cr3 Kmalloc.addrSpace k bytes).map Prod.fst
  | .call (.kfree ptr) => kfree k ptr
  | .call (.store addr b) => some { k with heap := { k.heap with mem := k.heap.mem.writeByte addr b } }
  | .setUpDone => some { k with heap := { k.heap with deviceMemorySetUp := true } }
  | .other space nodes => some { k with space := space, nodes := nodes }

/-- The page allocator and the tables are in order, the PML4 refers to itself, and the areas of a list do not overlap.
-/
structure Sound (cr3 : Nat) (y : Space) : Prop where
  pages : PhysPages.Inv y.mach.pages
  tables : WellFormed (· ≠ selfRefEntry) y.mach (· = cr3)
  self : SelfRef y.mach cr3
  areas : ∀ i, Vma.Valid (y.mmaps i)

/-- The precondition of a step: the callers of `kfree` and the writes keep to memory that was given out, and everything
else keeps tables and areas in order. -/
def CallOk (cr3 : Nat) (k : Kern) : Op → Prop
  | .call op => Kmalloc.CallOk ⟨k.heap, k.live⟩ op
  | .setUpDone => True
  | .other space _ => Sound cr3 space

def start (m : Bytes) (space : Space) (nodes : List Nat) (head : VmArea) : Kern :=
  { heap := Kmalloc.boot m, live := [], space := space, nodes := nodes, head := head, pages := [] }

end Adix.KernelHeap
