import Mathlib.Data.List.Basic
import Mathlib.Algebra.GroupWithZero.Nat

/-!
# Virtual memory areas (`sys/memory/mm_struct.c`)

The memory of a process is a list of areas `[vm_start, vm_end)`. The list is intrusive and circular: its head is a
`list_head` inside the `mm_struct`, and `list_entry` of the head reads the bytes around it as an area. `Env.head`
stands for these bytes.
-/

namespace Adix.Vma

structure VmArea where
  vmStart : BitVec 64
  vmEnd : BitVec 64
  vmPageProt : BitVec 64
  vmFlags : BitVec 32
  maxSize : BitVec 64
  deriving DecidableEq

def mapGrowsDown : BitVec 32 := 2

def mapGrowsUp : BitVec 32 := 4

def sizeofPage : BitVec 64 := 4096

/-- What a call finds around it: whether the `kmalloc` of a new area succeeds, and the bytes that `list_entry` of the
list head reads. -/
structure Env where
  kmallocOk : Bool
  head : VmArea
  deriving DecidableEq

/-! ### Searching -/

/-- The list from the area on that `find_vma` returns: the first one that ends above `addr`. -/
def fromVma (addr : BitVec 64) : List VmArea → List VmArea
  | [] => []
  | node :: rest => if addr < node.vmEnd then node :: rest else fromVma addr rest

/-- `find_vma`; `none` stands for the list head, which is returned when no area ends above `addr`. -/
def findVma (mmap : List VmArea) (addr : BitVec 64) : Option VmArea := (fromVma addr mmap).head?

/-- `find_vma_intersection`, and whether it found something. The `NULL` check in the source never fails, so that the
list head takes part in the comparison. -/
def findVmaIntersection (env : Env) (mmap : List VmArea) (startAddr endAddr : BitVec 64) : Bool :=
  let node := (findVma mmap startAddr).getD env.head
  !decide (endAddr ≤ node.vmStart)

def searchGap (len : BitVec 64) : BitVec 64 → List VmArea → BitVec 64
  | addr, [] => addr
  | addr, node :: rest => if addr + len < node.vmStart then addr else searchGap len node.vmEnd rest

def getUnmappedArea (mmap : List VmArea) (startAddr len : BitVec 64) : BitVec 64 :=
  searchGap len startAddr (fromVma startAddr mmap)

/-! ### Changing the list -/

/-- The loop of `add_vma_growable` over a list that is not empty: the list with `v` inserted, if there is a place for
it. `prev` is the area before the rest of the list, `none` at the list head. -/
def insertVma (head v : VmArea) : Option VmArea → List VmArea → Option (List VmArea)
  | _, [] => none
  | prev, node :: rest =>
    if prev.isNone ∧ v.vmEnd ≤ node.vmStart then some (v :: node :: rest)
    else if rest.isEmpty ∧ node.vmEnd ≤ v.vmStart then some [node, v]
    else if (prev.getD head).vmEnd ≤ v.vmStart ∧ v.vmEnd ≤ node.vmStart then some (v :: node :: rest)
    else (insertVma head v (some node) rest).map (node :: ·)

/-- `add_vma_growable`: the list afterwards and the value returned. -/
def addVmaGrowable (env : Env) (mmap : List VmArea) (startAddr endAddr pageProt : BitVec 64) (flags : BitVec 32)
    (maxSize : BitVec 64) : List VmArea × Int :=
  let v : VmArea := ⟨startAddr, endAddr, pageProt, flags, maxSize⟩
  if endAddr ≤ startAddr then (mmap, -1)
  else if mmap.isEmpty then if env.kmallocOk then ([v], 0) else (mmap, -1)
  else match insertVma env.head v none mmap with
    | some mmap' => if env.kmallocOk then (mmap', 0) else (mmap, -1)
    | none => (mmap, -1)

def addVma (env : Env) (mmap : List VmArea) (startAddr endAddr pageProt : BitVec 64) (flags : BitVec 32) :
    List VmArea × Int :=
  addVmaGrowable env mmap startAddr endAddr pageProt flags (-1)

/-- `mmap_growable`. The file and the offset are not used. -/
def mmapGrowable (env : Env) (mmap : List VmArea) (addr length prot : BitVec 64) (flags : BitVec 32)
    (maxSize : BitVec 64) : List VmArea × BitVec 64 :=
  let startAddr := getUnmappedArea mmap addr length
  let (mmap', r) := addVmaGrowable env mmap startAddr (startAddr + length) prot flags maxSize
  if r = -1 then (mmap', -1) else (mmap', startAddr)

def mmap (env : Env) (l : List VmArea) (addr length prot : BitVec 64) (flags : BitVec 32) : List VmArea × BitVec 64 :=
  mmapGrowable env l addr length prot flags (-1)

/-- `munmap`: the area that is freed, even when it stays on the list, and the list afterwards. `none` when no area ends
above `addr`: then the list head is freed. -/
def munmap (mmap : List VmArea) (addr : BitVec 64) : Option (VmArea × List VmArea) :=
  match findVma mmap addr with
  | none => none
  | some vma => some (vma, if vma.vmStart ≤ addr ∧ addr < vma.vmEnd then mmap.erase vma else mmap)

/-! ### Growing -/

/-- `grow_vma_up` of the area `prev` that ends at or below `addr`: the area afterwards. -/
def growVmaUp (env : Env) (mmap : List VmArea) (prev : VmArea) (addr : BitVec 64) : Option VmArea :=
  if prev.vmFlags &&& mapGrowsUp = 0 then none
  else if prev.vmStart ≤ addr ∧ addr < prev.vmEnd then some prev
  else if addr < prev.vmEnd then none
  else if sizeofPage ≤ addr - prev.vmEnd then none
  else if prev.maxSize ≠ -1 ∧ prev.maxSize * sizeofPage ≤ addr - prev.vmStart then none
  else if findVmaIntersection env mmap prev.vmEnd (prev.vmEnd + sizeofPage) then none
  else some { prev with vmEnd := prev.vmEnd + sizeofPage }

/-- `grow_vma_down` of the area `next` that begins above `addr`: the area afterwards. -/
def growVmaDown (env : Env) (mmap : List VmArea) (next : VmArea) (addr : BitVec 64) : Option VmArea :=
  if next.vmFlags &&& mapGrowsDown = 0 then none
  else if next.vmStart ≤ addr ∧ addr < next.vmEnd then some next
  else if next.vmStart ≤ addr then none
  else if sizeofPage < next.vmStart - addr then none
  else if next.maxSize ≠ -1 ∧ next.maxSize * sizeofPage ≤ next.vmEnd - addr then none
  else if findVmaIntersection env mmap (next.vmStart - sizeofPage) next.vmStart then none
  else some { next with vmStart := next.vmStart - sizeofPage }

end Adix.Vma
