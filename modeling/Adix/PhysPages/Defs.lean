import Mathlib.Data.Nat.Basic
import Mathlib.Algebra.GroupWithZero.Nat

/-!
# Physical pages (`sys/memory/phys_page_manager2.c`, `sys/memory/free_phys_pages.c`)

The chunk list has a descriptor with a reference count for every page of usable memory, and `phys_free_list` is a list
of runs of free pages in address order. Addresses and run lengths are natural numbers, with the sums that the source
forms cut to their width; reference counts are 32-bit words, which the source returns as `int`.
-/

namespace Adix.PhysPages

def sizeofPage : Nat := 4096

def addrSpace : Nat := 2 ^ 64

def pageAlign (a : Nat) : Nat := a - a % sizeofPage

theorem pageAlign_aligned (a : Nat) : pageAlign a % sizeofPage = 0 := by
  unfold pageAlign sizeofPage
  omega

theorem zero_aligned : 0 % sizeofPage = 0 := rfl

theorem page_aligned : 0x1000 % sizeofPage = 0 := rfl

/-- `struct phys_page_t`, the descriptor of a page. -/
structure PhysPage where
  refcount : BitVec 32
  flag : BitVec 32
  deriving DecidableEq

/-- `struct chunk_t`: a range of usable pages with one descriptor a page. `new_chunk` rounds the bounds to pages and
refuses an empty range. -/
structure Chunk where
  physAddrStart : Nat
  physAddrEnd : Nat
  physPagePointer : List PhysPage
  aligned : physAddrStart % sizeofPage = 0
  length : physAddrEnd = physAddrStart + sizeofPage * physPagePointer.length
  nonempty : physAddrStart < physAddrEnd
  fits : physAddrEnd < addrSpace

/-- `struct phys_free_list_t`: a run of `count` free pages from `addr`. -/
structure PhysFree where
  addr : Nat
  count : Nat
  deriving DecidableEq

def PhysFree.stop (r : PhysFree) : Nat := r.addr + sizeofPage * r.count

structure Pages where
  chunkList : List Chunk
  physFreeList : List PhysFree

/-! ### Descriptors -/

def Chunk.covers (c : Chunk) (a : Nat) : Bool := decide (c.physAddrStart ≤ a) && decide (a < c.physAddrEnd)

def Chunk.index (c : Chunk) (a : Nat) : Nat := (a - c.physAddrStart) / sizeofPage

def Chunk.modify (c : Chunk) (a : Nat) (f : PhysPage → PhysPage) : Chunk :=
  { c with
    physPagePointer := c.physPagePointer.modify (c.index a) f
    length := by rw [List.length_modify]; exact c.length }

/-- The search of `get_phys_page_desc` through the chunks. -/
def findDesc (a : Nat) : List Chunk → Option PhysPage
  | [] => none
  | c :: cs => if c.covers a then c.physPagePointer[c.index a]? else findDesc a cs

/-- A write through the pointer that `get_phys_page_desc` returns. -/
def modifyDesc (a : Nat) (f : PhysPage → PhysPage) : List Chunk → List Chunk
  | [] => []
  | c :: cs => if c.covers a then c.modify a f :: cs else c :: modifyDesc a f cs

def getPhysPageDesc (s : Pages) (addr : Nat) : Option PhysPage := findDesc (pageAlign addr) s.chunkList

def updateDesc (s : Pages) (addr : Nat) (f : PhysPage → PhysPage) : Pages :=
  { s with chunkList := modifyDesc (pageAlign addr) f s.chunkList }

def incRefCountPage (s : Pages) (addr : Nat) : Pages × Int :=
  match getPhysPageDesc s addr with
  | some d => (updateDesc s addr fun d => { d with refcount := d.refcount + 1 }, (d.refcount + 1).toInt)
  | none => (s, -1)

def decRefCountPage (s : Pages) (addr : Nat) : Pages × Int :=
  match getPhysPageDesc s addr with
  | some d => (updateDesc s addr fun d => { d with refcount := d.refcount - 1 }, (d.refcount - 1).toInt)
  | none => (s, -1)

/-- The loop of `inc_ref_count_pages` over `n` pages from `addr`. -/
def incPages (s : Pages) (addr : Nat) : Nat → Pages × Int
  | 0 => (s, 0)
  | n + 1 =>
    let (s, r) := incRefCountPage s addr
    let (s, r') := incPages s (addr + sizeofPage) n
    (s, r + r')

/-- `inc_ref_count_pages`: all pages that `[start, end)` touches. -/
def incRefCountPages (s : Pages) (startAddr endAddr : Nat) : Pages × Int :=
  let first := pageAlign startAddr
  let last := pageAlign ((endAddr + sizeofPage - 1) % addrSpace)
  incPages s first ((last - first) / sizeofPage)

/-! ### The free list -/

/-- The loop of `init_free_phys_page_manager` over the pages of one chunk from `addr` on: the runs appended to the
list, and `retval`. `node` is the run under construction; without one, `create_new_obj` is set. -/
def scanPages (kmallocOk : Nat → Bool) : List PhysPage → Nat → Option PhysFree → List PhysFree × Int
  | [], _, node => (node.toList, 0)
  | d :: ds, addr, node =>
    if 0 < d.refcount then
      let (l, r) := scanPages kmallocOk ds (addr + sizeofPage) none
      (node.toList ++ l, r)
    else match node with
      | some r => scanPages kmallocOk ds (addr + sizeofPage) (some { r with count := (r.count + 1) % 2 ^ 32 })
      | none =>
        if kmallocOk addr then scanPages kmallocOk ds (addr + sizeofPage) (some { addr := addr, count := 1 })
        else ([], -1)

/-- The loop over the chunks. A failed `kmalloc` ends the scan of its chunk only. -/
def scanChunks (kmallocOk : Nat → Bool) : List Chunk → List PhysFree × Int
  | [] => ([], 0)
  | c :: cs =>
    let (l, r) := scanPages kmallocOk c.physPagePointer c.physAddrStart none
    let (l', r') := scanChunks kmallocOk cs
    (l ++ l', if r = -1 then -1 else r')

def initFreePhysPageManager (kmallocOk : Nat → Bool) (s : Pages) : Pages × Int :=
  let (l, r) := scanChunks kmallocOk s.chunkList
  ({ s with physFreeList := s.physFreeList ++ l }, r)

/-- The loop of `alloc_phys_pages`: the first run of at least `n` pages loses its first `n` pages. The result is their
address and the list afterwards. -/
def takeRun (n : Nat) : List PhysFree → Option (Nat × List PhysFree)
  | [] => none
  | r :: rs =>
    if r.count < n then (takeRun n rs).map fun (a, rs') => (a, r :: rs')
    else if n = r.count then some (r.addr, rs)
    else some (r.addr, { addr := (r.addr + n * sizeofPage) % addrSpace, count := r.count - n } :: rs)

/-- `alloc_phys_pages`: the state afterwards and the address returned, `0` on failure. -/
def allocPhysPages (s : Pages) (n : Nat) : Pages × Nat :=
  if n = 0 then (s, 0)
  else match takeRun n s.physFreeList with
    | none => (s, 0)
    | some (a, l) =>
      let s := { s with physFreeList := l }
      -- the run is gone from the list even when its address is `0`
      if a = 0 then (s, 0) else ((incRefCountPages s a ((a + n * sizeofPage) % addrSpace)).1, a)

/-- `free_phys_page` when the page does not follow the run before it: merge it with the run `next` behind it, or make a
run of its own. -/
def mergeNext (kmallocOk : Bool) (addr : Nat) : List PhysFree → Option (List PhysFree)
  | next :: rest =>
    if next.addr = (addr + sizeofPage) % addrSpace then
      some ({ addr := addr, count := (next.count + 1) % 2 ^ 32 } :: rest)
    else if kmallocOk then some ({ addr := addr, count := 1 } :: next :: rest) else none
  | [] => if kmallocOk then some [{ addr := addr, count := 1 }] else none

/-- `free_phys_page` when the page has been added to the run `prev` before it: merge that run with the run `next` behind
it when the two touch now. -/
def mergePrev (prev : PhysFree) (addr : Nat) : List PhysFree → List PhysFree
  | next :: rest =>
    if next.addr = (addr + sizeofPage) % addrSpace then
      { prev with count := (prev.count + next.count) % 2 ^ 32 } :: rest
    else prev :: next :: rest
  | [] => [prev]

/-- `free_phys_page` once the place of the page is found, between the run `prev` and the runs `rest`. -/
def placePage (kmallocOk : Bool) (addr : Nat) (prev : Option PhysFree) (rest : List PhysFree) :
    Option (List PhysFree) :=
  match prev with
  | some p =>
    if (p.addr + p.count * sizeofPage) % addrSpace = addr then
      some (mergePrev { p with count := (p.count + 1) % 2 ^ 32 } addr rest)
    else (mergeNext kmallocOk addr rest).map (p :: ·)
  | none => mergeNext kmallocOk addr rest

/-- The walk of `free_phys_page` to the first run above `addr`; `prev` is the run just passed. -/
def insertPage (kmallocOk : Bool) (addr : Nat) : Option PhysFree → List PhysFree → Option (List PhysFree)
  | prev, next :: rest =>
    if addr < next.addr then placePage kmallocOk addr prev (next :: rest)
    else (insertPage kmallocOk addr (some next) rest).map (prev.toList ++ ·)
  | prev, [] => placePage kmallocOk addr prev []

def freePhysPage (kmallocOk : Bool) (s : Pages) (addr : Nat) : Pages × Int :=
  let (s, ref) := decRefCountPage s addr
  if ref = -1 then (s, -1)
  else if ref > 0 then (s, 0)
  else match insertPage kmallocOk addr none s.physFreeList with
    | some l => ({ s with physFreeList := l }, 0)
    | none => (s, -1)

end Adix.PhysPages
