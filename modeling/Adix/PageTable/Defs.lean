import Adix.PhysPages.Defs
import Adix.Lib.Radix

/-!
# Page tables (`sys/memory/page_table_helper.c`)

A page translation object is a page of 512 words, and physical memory is a function from the address of a page to its
words. The kernel has all of it mapped from `phys_mem_virt_map_base` on, which only matters where the source tests such
an address for `NULL`.

The functions on the current page table read and write at the addresses of the `SELF_REF_*` macros, which the hardware
resolves through slot 256 of the PML4.
-/

namespace Adix.PageTable

open PhysPages (Pages)

abbrev Index := BitVec 9

abbrev Word := BitVec 64

/-- Physical memory: the words of the page at a physical address. -/
abbrev Memory := Nat → Index → Word

/-! ### Entries -/

def pageTransPresent : Word := 0x1

def pageTransReadWrite : Word := 0x2

def pageTransUserSupervisor : Word := 0x4

def pageTransNx : Word := 0x8000000000000000

def maskPageTransNextLevelAddr : Word := 0x000FFFFFFFFFF000

def pageTransNextLevelAddr (a : Word) : Word := a &&& maskPageTransNextLevelAddr

def pageTransAddrSignExt (a : Word) : Word := if a &&& 0x0008000000000000 ≠ 0 then 0xFFF0000000000000 else 0

def pageTransNonAddrFields (a : Word) : Word := a &&& ~~~maskPageTransNextLevelAddr

/-- The address in an entry, as the kernel computes it. -/
def entryAddr (e : Word) : Word := pageTransNextLevelAddr e ||| pageTransAddrSignExt e

def entryFormat : Radix.Format Nat Word where
  present e := decide (e &&& pageTransPresent ≠ 0)
  next e := (entryAddr e).toNat

def indexPml4e (a : Word) : Index := ((a &&& 0x0000ff8000000000) >>> 39).setWidth 9

def indexPdpe (a : Word) : Index := ((a &&& 0x0000007fc0000000) >>> 30).setWidth 9

def indexPde (a : Word) : Index := ((a &&& 0x000000003fe00000) >>> 21).setWidth 9

def indexPte (a : Word) : Index := ((a &&& 0x00000000001ff000) >>> 12).setWidth 9

def selfRefEntry : Index := 256

/-- `PML4_KERNEL_ENTRY_START`, which is `PML4_KERNEL_ENTRY_END`. -/
def pml4KernelEntry : Index := 511

/-! ### Memory -/

/-- The machine: physical memory, the page allocator, and `phys_mem_virt_map_base`. -/
structure Mach where
  mem : Memory
  pages : Pages
  base : Word

def Mach.store (s : Mach) (page : Nat) (i : Index) (w : Word) : Mach :=
  { s with mem := fun q j => if q = page ∧ j = i then w else s.mem q j }

def Mach.zero (s : Mach) (page : Nat) : Mach :=
  { s with mem := fun q j => if q = page then 0 else s.mem q j }

def Mach.virtualAddr (s : Mach) (page : Nat) : Word := BitVec.ofNat 64 page + s.base

def Mach.allocPage (s : Mach) : Mach × Nat :=
  let (pages, phys) := PhysPages.allocPhysPages s.pages 1
  ({ s with pages := pages }, phys)

/-- `get_zeroed_page_trans_obj`: the state afterwards and the physical address. The page is cleared even when the
allocation failed, and then it is page `0`. -/
def getZeroedPageTransObj (s : Mach) : Mach × Nat :=
  let (s, phys) := s.allocPage
  (s.zero phys, phys)

def tableEntry (phys : Nat) : Word :=
  pageTransNextLevelAddr (BitVec.ofNat 64 phys) ||| pageTransReadWrite ||| pageTransUserSupervisor ||| pageTransPresent

def leafEntry (phys accessPerm : Word) : Word :=
  pageTransNextLevelAddr phys ||| pageTransPresent ||| pageTransNonAddrFields accessPerm

/-! ### Access through the map of physical memory -/

/-- One level of `update_page_table_idmap`: the next page translation object behind the entry `i` of `table`, made if it
is missing. -/
def nextTable (s : Mach) (table : Nat) (i : Index) : Mach × Option Nat :=
  if s.mem table i &&& pageTransPresent = 0 then
    let (s, phys) := getZeroedPageTransObj s
    if s.virtualAddr phys = 0 then (s, none) else (s.store table i (tableEntry phys), some phys)
  else (s, some (entryFormat.next (s.mem table i)))

def updatePageTableIdmap (s : Mach) (pml4 : Nat) (phys virt accessPerm : Word) : Mach × Int :=
  match nextTable s pml4 (indexPml4e virt) with
  | (s, none) => (s, -1)
  | (s, some pdp) =>
    match nextTable s pdp (indexPdpe virt) with
    | (s, none) => (s, -1)
    | (s, some pd) =>
      match nextTable s pd (indexPde virt) with
      | (s, none) => (s, -1)
      | (s, some pt) => (s.store pt (indexPte virt) (leafEntry phys accessPerm), 0)

def virt2physIdmap (s : Mach) (pml4 : Nat) (virt : Word) : Word :=
  if s.mem pml4 (indexPml4e virt) &&& pageTransPresent = 0 then -1
  else
    let pdp := entryFormat.next (s.mem pml4 (indexPml4e virt))
    if s.mem pdp (indexPdpe virt) &&& pageTransPresent = 0 then -1
    else
      let pd := entryFormat.next (s.mem pdp (indexPdpe virt))
      if s.mem pd (indexPde virt) &&& pageTransPresent = 0 then -1
      else
        let pt := entryFormat.next (s.mem pd (indexPde virt))
        if s.mem pt (indexPte virt) &&& pageTransPresent = 0 then -1
        else entryAddr (s.mem pt (indexPte virt))

/-! ### Access through the self reference -/

/-- `MASK_BITS_47_39(a) >> n` and the like: the index of one level moved down by `n` bits. -/
def indexBits (mask a : Word) (n : Nat) : Word := (a &&& mask) >>> n

def selfRefAddrBit63To48 : Word := 0xffff <<< 48

def selfRefPml4e (a : Word) : Word :=
  selfRefAddrBit63To48 ||| 256 <<< 39 ||| 256 <<< 30 ||| 256 <<< 21 ||| 256 <<< 12 |||
    indexBits 0x0000ff8000000000 a 36

def selfRefPdpe (a : Word) : Word :=
  selfRefAddrBit63To48 ||| 256 <<< 39 ||| 256 <<< 30 ||| 256 <<< 21 ||| indexBits 0x0000ff8000000000 a 27 |||
    indexBits 0x0000007fc0000000 a 27

def selfRefPde (a : Word) : Word :=
  selfRefAddrBit63To48 ||| 256 <<< 39 ||| 256 <<< 30 ||| indexBits 0x0000ff8000000000 a 18 |||
    indexBits 0x0000007fc0000000 a 18 ||| indexBits 0x000000003fe00000 a 18

def selfRefPte (a : Word) : Word :=
  selfRefAddrBit63To48 ||| 256 <<< 39 ||| indexBits 0x0000ff8000000000 a 9 ||| indexBits 0x0000007fc0000000 a 9 |||
    indexBits 0x000000003fe00000 a 9 ||| indexBits 0x00000000001ff000 a 9

/-- Entries as the hardware reads them: the address is bits 51 to 12. -/
def hardwareFormat : Radix.Format Nat Word where
  present e := decide (e &&& pageTransPresent ≠ 0)
  next e := (pageTransNextLevelAddr e).toNat

def hardwareWalk (s : Mach) (cr3 : Nat) (virt : Word) : Option Nat :=
  Radix.walk hardwareFormat s.mem cr3 [indexPml4e virt, indexPdpe virt, indexPde virt, indexPte virt]

def indexWord (a : Word) : Index := (a >>> 3).setWidth 9

/-- A word read at a virtual address; `none` is a page fault. -/
def load (s : Mach) (cr3 : Nat) (virt : Word) : Option Word :=
  (hardwareWalk s cr3 virt).map fun page => s.mem page (indexWord virt)

/-- A word written at a virtual address; `none` is a page fault. -/
def storeAt (s : Mach) (cr3 : Nat) (virt w : Word) : Option Mach :=
  (hardwareWalk s cr3 virt).map fun page => s.store page (indexWord virt) w

/-- One level of `update_curr_page_table`: the entry at `entry` is made if it is missing. `none` is a page fault; the
flag says whether to go on. -/
def nextEntry (s : Mach) (cr3 : Nat) (entry phys : Word) : Option (Mach × Bool) :=
  (load s cr3 entry).bind fun e =>
    if e &&& pageTransPresent = 0 then
      if phys = 0 then some (s, false)
      else
        let (s, page) := getZeroedPageTransObj s
        if s.virtualAddr page = 0 then some (s, false)
        else (storeAt s cr3 entry (tableEntry page)).map fun s => (s, true)
    else some (s, true)

def lastEntry (s : Mach) (cr3 : Nat) (phys virt accessPerm : Word) : Option (Mach × Int) :=
  (load s cr3 (selfRefPte virt)).bind fun e =>
    if phys = 0 then
      if e &&& pageTransPresent = 0 then some (s, -1)
      else (storeAt s cr3 (selfRefPte virt) (pageTransNextLevelAddr e ||| pageTransNonAddrFields accessPerm)).map
        fun s => (s, 0)
    else (storeAt s cr3 (selfRefPte virt) (leafEntry phys accessPerm)).map fun s => (s, 0)

def updateCurrPageTable (s : Mach) (cr3 : Nat) (phys virt accessPerm : Word) : Option (Mach × Int) :=
  (nextEntry s cr3 (selfRefPml4e virt) phys).bind fun (s, ok) =>
    if !ok then some (s, -1) else (nextEntry s cr3 (selfRefPdpe virt) phys).bind fun (s, ok) =>
      if !ok then some (s, -1) else (nextEntry s cr3 (selfRefPde virt) phys).bind fun (s, ok) =>
        if !ok then some (s, -1) else lastEntry s cr3 phys virt accessPerm

/-- `virt2phys_selfref`: the value returned, and the permissions if they are written. -/
def virt2physSelfref (s : Mach) (cr3 : Nat) (virt : Word) : Option (Word × Option Word) :=
  (load s cr3 (selfRefPml4e virt)).bind fun pml4e =>
    if pml4e &&& pageTransPresent = 0 then some (-1, none)
    else (load s cr3 (selfRefPdpe virt)).bind fun pdpe =>
      if pdpe &&& pageTransPresent = 0 then some (-1, none)
      else (load s cr3 (selfRefPde virt)).bind fun pde =>
        if pde &&& pageTransPresent = 0 then some (-1, none)
        else (load s cr3 (selfRefPte virt)).bind fun pte =>
          if pte &&& pageTransPresent = 0 then some (-1, none)
          else some (entryAddr pte,
            some (pte &&& (pageTransReadWrite ||| pageTransUserSupervisor ||| pageTransNx)))

end Adix.PageTable
