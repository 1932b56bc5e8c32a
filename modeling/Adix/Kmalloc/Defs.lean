import Adix.Lib.Memory
import Adix.Lib.Chain
import Adix.Lib.Runs

/-!
# The kernel heap (`sys/memory/kmalloc.c`)

`kmalloc` and `kfree` keep a singly linked list of free blocks in ascending address order. Every block starts with a
16-byte header: the link to the next free block and the size of the payload.

Addresses and sizes are natural numbers, with the sums that the source forms cut to 64 bits. A loop over the list is
given as many rounds as there are addresses, so it fails to end only on a cyclic list.
-/

namespace Adix.Kmalloc

def sizeofPage : Nat := 4096

def kmStaticPages : Nat := 10240

def kmStaticSize : Nat := sizeofPage * kmStaticPages

def kmPagesAdd : Nat := 10

def flSize : Nat := 16

def addrSpace : Nat := 2 ^ 64

/-- Where the linker puts `km_static`: page-aligned, not at address `0` and inside the address space. -/
structure Arena where
  kmStatic : Nat
  pos : 0 < kmStatic
  aligned : kmStatic % sizeofPage = 0
  fits : kmStatic + kmStaticSize < addrSpace

/-- The globals of `kmalloc.c` and the memory they point into. -/
structure Heap where
  mem : Bytes
  head : Nat
  lastKmAddr : Nat
  initStaticPagesDone : Bool
  deviceMemorySetUp : Bool

def freeAddr (m : Bytes) (node : Nat) : Nat := m.readLE node 8

def freeSize (m : Bytes) (node : Nat) : Nat := m.readLE (node + 8) 8

def setFreeAddr (m : Bytes) (node v : Nat) : Bytes := m.writeLE node 8 v

def setFreeSize (m : Bytes) (node v : Nat) : Bytes := m.writeLE (node + 8) 8 v

def add64 (a b : Nat) : Nat := (a + b) % addrSpace

/-- The globals before the first call: all zero, over a memory of any contents. -/
def boot (m : Bytes) : Heap :=
  { mem := m, head := 0, lastKmAddr := 0, initStaticPagesDone := false, deviceMemorySetUp := false }

def initStaticPages (A : Arena) (h : Heap) : Heap :=
  { h with
    mem := setFreeSize (setFreeAddr h.mem A.kmStatic 0) A.kmStatic (kmStaticSize - flSize)
    head := A.kmStatic
    lastKmAddr := A.kmStatic + kmStaticSize
    initStaticPagesDone := true }

/-- The `while(node)` loop of `kmalloc` up to the first block of at least `bytes` bytes: that block and the block
before it, `0` if there is none. -/
def scan (m : Bytes) (bytes head : Nat) : Option (Nat × Nat) :=
  search (freeAddr m) (fun node => !decide (freeSize m node < bytes)) addrSpace head 0

/-- `prev->free_addr = v`, or `head = v` when there is no previous block. -/
def link (h : Heap) (prev v : Nat) : Heap :=
  if prev = 0 then { h with head := v } else { h with mem := setFreeAddr h.mem prev v }

/-- The writes that cut the block `node` after `bytes` bytes; `next` is the header of the rest. -/
def cut (m : Bytes) (node next bytes : Nat) : Bytes :=
  let m := setFreeAddr m next (freeAddr m node)
  let m := setFreeSize m next (freeSize m node - bytes - flSize)
  setFreeSize m node bytes

/-- The rest of the loop body, on the block found: split it when more than a header is left over, take it whole
otherwise. -/
def take (h : Heap) (node prev bytes : Nat) : Heap :=
  if freeSize h.mem node - bytes > flSize then
    let next := add64 (add64 node flSize) bytes
    link { h with mem := cut h.mem node next bytes } prev next
  else
    link h prev (freeAddr h.mem node)

/-- The walk to the last block of the list that ends the growth path. -/
def lastBlock (m : Bytes) : Nat → Nat → Option Nat
  | 0, _ => none
  | fuel + 1, node => if freeAddr m node = 0 then some node else lastBlock m fuel (freeAddr m node)

/-- The writes to the header of a block made of new pages; at the very end of the address space there is no room for
it, and the first write faults. -/
def newBlock (m : Bytes) (start : Nat) : Option Bytes :=
  if start + flSize ≤ addrSpace then some (setFreeSize (setFreeAddr m start 0) start (kmPagesAdd * sizeofPage))
    else none

/-- The growth path of `kmalloc` once `v_alloc_pages_at_virt` has returned `start`: the new pages become a block at the
end of the list, or extend the last block when they follow it. -/
def addPages (h : Heap) (start : Nat) : Option Heap :=
  if h.head = 0 then
    (newBlock h.mem start).map fun m => { h with mem := m, head := start }
  else do
    let prev ← lastBlock h.mem addrSpace h.head
    if start = add64 (add64 prev flSize) (freeSize h.mem prev) then
      some { h with mem := setFreeSize h.mem prev (add64 (freeSize h.mem prev) (kmPagesAdd * sizeofPage)) }
    else
      (newBlock h.mem start).map fun m => { h with mem := setFreeAddr m prev start }

/-- `kmalloc`: the heap afterwards and the pointer returned. `vAlloc` stands for `v_alloc_pages_at_virt`, which acts on
the heap too and returns `0` on failure; `rounds` bounds the recursion of the growth path. -/
def kmalloc (A : Arena) (vAlloc : Heap → Nat → Heap × Nat) : Nat → Heap → Nat → Option (Heap × Nat)
  | 0, _, _ => none
  | rounds + 1, h, bytes => do
    let h := if h.initStaticPagesDone then h else initStaticPages A h
    if bytes = 0 then return (h, 0)
    let (node, prev) ← scan h.mem bytes h.head
    if node ≠ 0 then return (take h node prev bytes, add64 node flSize)
    if h.deviceMemorySetUp then
      let (h, start) := vAlloc h h.lastKmAddr
      let h := { h with lastKmAddr := add64 start (kmPagesAdd * sizeofPage) }
      if start = 0 then return (h, 0)
      let h ← addPages h start
      kmalloc A vAlloc rounds h bytes
    else return (h, 0)

/-- The search loop of `kfree`: the first block above `fp` (`0` if there is none) and the block before it (`0` if
there is none). -/
def neighbours (m : Bytes) (fp head : Nat) : Option (Nat × Nat) :=
  search (freeAddr m) (fun node => decide (node > fp)) addrSpace head 0

/-- The two ends of `kfree`: link the block `p` to the block `q` above it, and merge the two when they touch. -/
def join (m : Bytes) (p q : Nat) : Bytes :=
  let m := setFreeAddr m p q
  if q = add64 (add64 p flSize) (freeSize m p) then
    let m := setFreeAddr m p (freeAddr m q)
    setFreeSize m p (add64 (freeSize m p) (add64 (freeSize m q) flSize))
  else m

def kfree (h : Heap) (ptr : Nat) : Option Heap :=
  if ptr = 0 then some h
  else
    let fp := (ptr + addrSpace - flSize) % addrSpace
    -- the link of `fp` is not written on this path
    if h.head = 0 then some { h with head := fp }
    else do
      let (cp, pp) ← neighbours h.mem fp h.head
      if fp = cp then return h
      let head := if pp = 0 then fp else h.head
      -- nor is it written when there is no block above `fp`
      let m := if cp = 0 then h.mem else join h.mem fp cp
      let m := if pp = 0 then m else join m pp fp
      return { h with mem := m, head := head }

structure Alloc where
  ptr : Nat
  bytes : Nat
  deriving DecidableEq

structure State where
  heap : Heap
  live : List Alloc

/-- What the kernel does with the heap: the two calls, and a store of one byte. -/
inductive Op where
  | kmalloc (bytes : Nat)
  | kfree (ptr : Nat)
  | store (addr : Nat) (b : UInt8)

def step (A : Arena) (vAlloc : Heap → Nat → Heap × Nat) (s : State) : Op → Option State
  | .kmalloc bytes => do
    let (h, ptr) ← kmalloc A vAlloc 1 s.heap bytes
    return { heap := h, live := if ptr = 0 then s.live else { ptr := ptr, bytes := bytes } :: s.live }
  | .kfree ptr => do
    let h ← kfree s.heap ptr
    return { heap := h, live := s.live.filter fun a => a.ptr ≠ ptr }
  | .store addr b => some { s with heap := { s.heap with mem := s.heap.mem.writeByte addr b } }

end Adix.Kmalloc
