import Adix.Fork.Defs
import Adix.Vma.Defs

/-!
# The kernel's memory at boot (`sys/memory/setup_kernel_memory.c`, `sys/memory/phys_page_manager2.c`)

`setup_kernel_memory` places the areas of the kernel, makes chunks of the usable entries of the memory map, marks the
pages in use, makes the free list of the others, and writes the page table of the kernel. `phys_mem_virt_map_base` is
`0` until the table is loaded.
-/

namespace Adix.Boot

open PageTable PhysPages Fork
open Vma (VmArea addVma getUnmappedArea)

def kernmem : Word := 0xffffffff80200000

def videoMemoryAddress : Word := 0xb8000

def pAhciStart : Word := 0xfebf0000

def pageTransNx : Word := 0x8000000000000000

/-! ### The memory map -/

structure Smap where
  base : Word
  length : Word
  type : BitVec 32
  deriving DecidableEq

def Smap.Usable (e : Smap) : Prop := e.type = 1 ∧ e.length ≠ 0

instance (e : Smap) : Decidable e.Usable := inferInstanceAs (Decidable (_ ∧ _))

private theorem length_wholePages {first last : Nat} {d : PhysPage} (h : pageAlign first < pageAlign last) :
    pageAlign last =
      pageAlign first + sizeofPage * (List.replicate ((pageAlign last - pageAlign first) / sizeofPage) d).length := by
  rw [List.length_replicate]
  simp only [pageAlign, sizeofPage] at h ⊢
  omega

/-- `new_chunk`, with the descriptors that `scan_chunk` makes later. The bounds are rounded inwards. -/
def newChunk (kmallocOk : Bool) (start stop : Word) : Option Chunk :=
  let first := pageAlign ((start.toNat + sizeofPage - 1) % addrSpace)
  let last := pageAlign stop.toNat
  if h : first < last then
    if kmallocOk then
      some
        { physAddrStart := first
          physAddrEnd := last
          physPagePointer := List.replicate ((last - first) / sizeofPage) ⟨0, 0⟩
          aligned := pageAlign_aligned _
          length := length_wholePages h
          nonempty := h
          fits := Nat.lt_of_le_of_lt (Nat.sub_le _ _) stop.isLt }
    else none
  else none

/-- What the scan of the memory map has found: `phys_end_addr`, the bounds of the first usable entry, and the chunks. -/
structure Scan where
  physEndAddr : Word
  lowerChunk : Option (Word × Word)
  chunks : List Chunk

/-- The body of the loop over the memory map; `none` is a return of `-1`. -/
def scanEntry (chunkOk : Smap → Bool) (sc : Scan) (e : Smap) : Option Scan :=
  if e.Usable then
    let stop := e.base + e.length
    (newChunk (chunkOk e) e.base stop).map fun c =>
      { physEndAddr := if sc.physEndAddr < stop then stop else sc.physEndAddr
        lowerChunk := some (sc.lowerChunk.getD (e.base, stop))
        chunks := sc.chunks ++ [c] }
  else some sc

def scanMap (chunkOk : Smap → Bool) : List Smap → Scan → Option Scan
  | [], sc => some sc
  | e :: es, sc => (scanEntry chunkOk sc e).bind (scanMap chunkOk es)

/-! ### Areas -/

/-- An area is added to those of the kernel; `none` is a return of `-1`. -/
def setMemory (prot : Word) (env : Vma.Env) (l : List VmArea) (start stop : Word) : Option (List VmArea) :=
  let (l, r) := addVma env l start stop prot 0
  if r = -1 then none else some l

def setKernelMemory := setMemory pageTransReadWrite

def setVideoBufferMemory := setMemory pageTransReadWrite

def setPhysMemory := setMemory (pageTransReadWrite ||| pageTransNx)

def setAhciMemory := setMemory (pageTransReadWrite ||| pageTransNx)

/-! ### Pages -/

def Negative (r : Int) : Prop := (BitVec.ofInt 32 r).toInt < 0

instance (r : Int) : Decidable (Negative r) := inferInstanceAs (Decidable (_ < _))

/-- The pages of `[start, end)` are marked as used; `none` is a return of `-1`. -/
def mark (s : Pages) (startAddr endAddr : Nat) : Option Pages :=
  let (s, r) := incRefCountPages s startAddr endAddr
  if Negative r then none else some s

/-- What the calls of `add_vma` find around them, and which calls of `kmalloc` succeed, in `new_chunk`,
`scan_all_chunks` and `init_free_phys_page_manager`. -/
structure Env where
  kernelArea : Vma.Env
  videoArea : Vma.Env
  ahciArea : Vma.Env
  physArea : Vma.Env
  chunkOk : Smap → Bool
  scanOk : Bool
  nodeOk : Nat → Bool

/-- What `setup_kernel_memory` has when it begins with the page table. -/
structure Setup where
  mmap : List VmArea
  vdoStartAddr : Word
  ahciStartAddr : Word
  physMemOffset : Word
  pages : Pages

/-- `setup_kernel_memory` up to the call of `init_free_phys_page_manager`; `none` is a return of `-1`. -/
def setupPages (env : Env) (kernmem pKernStart pKernEnd pVdoBuffStart : Word) (smap : List Smap) : Option Setup :=
  (setKernelMemory env.kernelArea [] kernmem (kernmem - pKernStart + pKernEnd)).bind fun l =>
    let vdoStartAddr := getUnmappedArea l (kernmem + pVdoBuffStart) Vma.sizeofPage
    (setVideoBufferMemory env.videoArea l vdoStartAddr (vdoStartAddr + Vma.sizeofPage)).bind fun l =>
      let ahciStartAddr := getUnmappedArea l kernmem Vma.sizeofPage
      (setAhciMemory env.ahciArea l ahciStartAddr (ahciStartAddr + Vma.sizeofPage)).bind fun l =>
        (scanMap env.chunkOk smap ⟨0, none, []⟩).bind fun sc =>
          let physMemOffset := getUnmappedArea l kernmem sc.physEndAddr
          (setPhysMemory env.physArea l physMemOffset (physMemOffset + sc.physEndAddr)).bind fun l =>
            if env.scanOk then
              let lower := sc.lowerChunk.getD (0, 0)
              (mark ⟨sc.chunks, []⟩ 0 sizeofPage).bind fun s =>
                (mark s pKernStart.toNat pKernEnd.toNat).bind fun s =>
                  (mark s lower.1.toNat lower.2.toNat).bind fun s =>
                    let (s, r) := initFreePhysPageManager env.nodeOk s
                    if r = -1 then none else some ⟨l, vdoStartAddr, ahciStartAddr, physMemOffset, s⟩
            else none

/-! ### The page table -/

structure Call where
  phys : Word
  virt : Word
  ret : Int

structure Table where
  mach : Mach
  calls : List Call

def mapPage (pml4 : Nat) (accessPerm phys virt : Word) (t : Table) : Table :=
  let (s, r) := updatePageTableIdmap t.mach pml4 phys virt accessPerm
  ⟨s, t.calls ++ [⟨phys, virt, r⟩]⟩

/-- The loops that map the pages from `paddr` on, up to `stop`; `none` when the loop is not left after `fuel` tests of
its condition. -/
def mapRange (pml4 : Nat) (accessPerm stop : Word) : Nat → Word → Word → Table → Option Table
  | 0, _, _, _ => none
  | fuel + 1, paddr, vaddr, t =>
    if paddr < stop then
      mapRange pml4 accessPerm stop fuel (paddr + Vma.sizeofPage) (vaddr + Vma.sizeofPage)
        (mapPage pml4 accessPerm paddr vaddr t)
    else some t

def physMemOffsetMap (pml4 : Nat) (physMemOffset : Word) : List Chunk → Table → Option Table
  | [], t => some t
  | c :: cs, t =>
    let paddr := BitVec.ofNat 64 c.physAddrStart
    (mapRange pml4 pageTransReadWrite (BitVec.ofNat 64 c.physAddrEnd) (2 ^ 52 + 1) paddr (paddr + physMemOffset) t).bind
      (physMemOffsetMap pml4 physMemOffset cs)

/-- What `setup_kernel_memory` leaves: besides the areas and the pages, the machine, with the PML4 that is in `cr3`,
and the calls that wrote the table. -/
structure Kernel extends Setup where
  mach : Mach
  pml4 : Nat
  calls : List Call

/-- `setup_kernel_memory`; `none` is a return of `-1`, or a loop that does not end. The table is written with
`phys_mem_virt_map_base` still `0`; without a page, the PML4 is at `0`. -/
def setupKernelMemory (env : Env) (mem : Memory) (kernmem pKernStart pKernEnd pVdoBuffStart : Word) (smap : List Smap) :
    Option Kernel :=
  (setupPages env kernmem pKernStart pKernEnd pVdoBuffStart smap).bind fun b =>
    let (s, p) := getSelfrefPml4 ⟨mem, b.pages, 0⟩
    let pml4 := p.getD 0
    (mapRange pml4 pageTransReadWrite pKernEnd (2 ^ 52 + 1) pKernStart kernmem ⟨s, []⟩).bind fun t =>
      let t := mapPage pml4 (pageTransReadWrite ||| pageTransUserSupervisor) pVdoBuffStart b.vdoStartAddr t
      let t := mapPage pml4 (pageTransReadWrite ||| pageTransUserSupervisor) pAhciStart b.ahciStartAddr t
      (physMemOffsetMap pml4 b.physMemOffset t.mach.pages.chunkList t).map fun t =>
        { b with mach := { t.mach with base := b.physMemOffset }, pml4 := pml4, calls := t.calls }

end Adix.Boot
