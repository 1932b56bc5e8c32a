import Adix.PageTable.Defs
import Adix.Lib.Loop

/-!
# The page table of a forked process (`cow_fork_level` and `cow_fork_page_table`)

The table of the current process is copied level by level. The pages of the copy come from `alloc_phys_pages` as they
are, except for the PML4, which is cleared; those of the process itself are shared.
-/

namespace Adix.Fork

open PageTable PhysPages

def pageCow : BitVec 32 := 1

def shareDesc (d : PhysPage) : PhysPage := { refcount := d.refcount + 1, flag := pageCow }

def clearRW (e : Word) : Word := e &&& ~~~pageTransReadWrite

def allIndices : List Index := (List.range 512).map (BitVec.ofNat 9)

/-- Source and copy lose the write permission, and the page is counted up and flagged. -/
def sharePage (src dest : Nat) (i : Index) (s : Mach) : Mach × Int :=
  let e := clearRW (s.mem src i)
  let s := (s.store src i e).store dest i e
  match getPhysPageDesc s.pages (entryFormat.next e) with
  | none => (s, -1)
  | some _ => ({ s with pages := updateDesc s.pages (entryFormat.next e) shareDesc }, 0)

/-- The body of the loop at the other levels; `sub` is the copy of the next level. -/
def copyTable (level : Nat) (sub : Mach → Nat → Nat → Mach × Int) (src dest : Nat) (i : Index) (s : Mach) :
    Mach × Int :=
  -- kernel entries are shared, the self reference is not copied
  if level = 4 ∧ i = pml4KernelEntry then (s.store dest i (s.mem src i), 0)
  else if level = 4 ∧ i = selfRefEntry then (s, 0)
  else
    let e := s.mem src i
    let (s, destPhys) := s.allocPage
    if destPhys = 0 then (s, -1)
    else
      let s := s.store dest i (pageTransNonAddrFields e ||| pageTransNextLevelAddr (BitVec.ofNat 64 destPhys))
      sub s (entryFormat.next e) destPhys

def forkEntry (level : Nat) (sub : Mach → Nat → Nat → Mach × Int) (src dest : Nat) (i : Index) (s : Mach) :
    Mach × Int :=
  if s.mem src i &&& pageTransPresent = 0 then (s, 0)
  else if level = 1 then sharePage src dest i s
  else copyTable level sub src dest i s

/-- `cow_fork_level` for the objects `src` and `dest`. -/
def cowForkLevel : Nat → Mach → Nat → Nat → Mach × Int
  | 0, s, _, _ => (s, 0)
  | level + 1, s, src, dest =>
    Loop.forEach (-1) 0 (forkEntry (level + 1) (cowForkLevel level) src dest) allIndices s

/-- `get_selfref_PML4`: the state afterwards and the physical address, unless the page has the address `NULL`. -/
def getSelfrefPml4 (s : Mach) : Mach × Option Nat :=
  let (s, pml4) := getZeroedPageTransObj s
  if s.virtualAddr pml4 = 0 then (s, none)
  else (s.store pml4 selfRefEntry (pageTransNextLevelAddr (BitVec.ofNat 64 pml4) ||| pageTransPresent |||
    pageTransReadWrite), some pml4)

def selfRefPml4 : Word :=
  selfRefAddrBit63To48 ||| 256 <<< 39 ||| 256 <<< 30 ||| 256 <<< 21 ||| 256 <<< 12

/-- `cow_fork_page_table`: the state afterwards and the PML4 of the copy, if the call succeeds. The outer `none` is a
page fault at the self-referenced address. -/
def cowForkPageTable (s : Mach) (cr3 : Nat) : Option (Mach × Option Nat) :=
  match getSelfrefPml4 s with
  | (s, none) => some (s, none)
  | (s, some pml4) =>
    (hardwareWalk s cr3 selfRefPml4).map fun src =>
      let (s, r) := cowForkLevel 4 s src pml4
      if r = -1 then (s, none) else (s, some pml4)

end Adix.Fork
