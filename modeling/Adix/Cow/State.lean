import Adix.Vma.Defs
import Adix.Fork.Table
import Adix.Lib.Sharing

/-!
# Page faults (`sys/memory/page_fault_handler.c`) and user accesses

The processes share one machine. Each has a page table, which the hardware walks, and a list of memory areas; those of
the kernel are in a list of their own. A handler may end in `sys_exit`, which does not return. An outer `none` is a
page fault inside the kernel.
-/

namespace Adix.Cow

open PageTable PhysPages Fork
open Vma hiding sizeofPage

inductive Ret where
  | value (r : Int)
  | exit
  deriving DecidableEq

def pfErrorCodeP : Word := 0x1

def pfErrorCodeW : Word := 0x2

def pfErrorCodeU : Word := 0x4

def pageStart (a : Word) : Word := a &&& ~~~0xfff

/-- What a handler finds besides the state: the surroundings of the list of areas, and the bytes of a local variable
that is not initialised. -/
structure Env extends Vma.Env where
  perm : Word
  deriving DecidableEq

/-! ### The handlers -/

def checkPageProt (s : Mach) (cr3 : Nat) (env : Env) (node : VmArea) (faultAddr : Word) : Option (Mach × Int) :=
  (virt2physSelfref s cr3 faultAddr).bind fun (_, perm) =>
    if node.vmPageProt = perm.getD env.perm then some (s, -1)
    else updateCurrPageTable s cr3 0 (pageStart faultAddr) (pageTransPresent ||| node.vmPageProt)

/-- `check_priv` for an area: whether the fault is no violation. -/
def checkPriv (node : VmArea) (errCode : Word) : Bool :=
  !(decide (errCode &&& pfErrorCodeU ≠ 0) && decide (node.vmPageProt &&& pageTransUserSupervisor = 0))

def pageNotPresent (s : Mach) (cr3 : Nat) (node : Option VmArea) (faultAddr : Word) : Option (Mach × Ret) :=
  match node with
  | none => some (s, .exit)
  | some node =>
    let (s, phys) := s.allocPage
    if phys = 0 then some (s, .exit)
    else (updateCurrPageTable s cr3 (BitVec.ofNat 64 phys) (pageStart faultAddr) node.vmPageProt).map fun (s, _) =>
      (s, .value 0)

def copyPage (s : Mach) (dest src : Nat) : Mach :=
  { s with mem := fun q j => if q = dest then s.mem src j else s.mem q j }

/-- The last part of `cow`: the page gets a copy of its own. -/
def copyShared (s : Mach) (cr3 : Nat) (node : VmArea) (faultAddr phys : Word) : Option (Mach × Ret) :=
  let s := { s with pages := updateDesc s.pages phys.toNat fun d => { d with refcount := d.refcount - 1 } }
  let (s, newPhys) := s.allocPage
  if newPhys = 0 then some (s, .exit)
  else (hardwareWalk s cr3 (pageStart faultAddr)).bind fun src =>
    (updateCurrPageTable (copyPage s newPhys src) cr3 (BitVec.ofNat 64 newPhys) (pageStart faultAddr)
      node.vmPageProt).map fun (s, _) => (s, .value 0)

/-- `cow`: it returns `COW_ERROR`, `COW_SUCCESS` or `NOT_COW`, that is `-1`, `0` or `1`. -/
def cow (s : Mach) (cr3 : Nat) (env : Env) (node : VmArea) (faultAddr : Word) : Option (Mach × Ret) :=
  (virt2physSelfref s cr3 faultAddr).bind fun (phys, _) =>
    match getPhysPageDesc s.pages phys.toNat with
    | none => some (s, .value (-1))
    | some d =>
      if d.flag &&& pageCow = 0 then some (s, .value 1)
      else if d.refcount = 1 then
        let s := { s with pages := updateDesc s.pages phys.toNat fun d => { d with flag := d.flag &&& ~~~pageCow } }
        (checkPageProt s cr3 env node faultAddr).map fun (s, r) => (s, .value r)
      else if d.refcount = 0 then some (s, .value (-1))
      else copyShared s cr3 node faultAddr phys

def pagePresentWrite (s : Mach) (cr3 : Nat) (env : Env) (node : Option VmArea) (faultAddr errCode : Word) :
    Option (Mach × Ret) :=
  match node with
  | none => some (s, .value (-1))
  | some node =>
    if node.vmPageProt &&& pageTransReadWrite = 0 then some (s, .exit)
    else (cow s cr3 env node faultAddr).bind fun (s, r) =>
      if r ≠ .value 1 then some (s, r)
      else if !checkPriv node errCode then some (s, .exit)
      else (checkPageProt s cr3 env node faultAddr).map fun (s, r) => if r = 0 then (s, .value 0) else (s, .exit)

def pagePresentRead (s : Mach) (cr3 : Nat) (env : Env) (node : Option VmArea) (faultAddr errCode : Word) :
    Option (Mach × Ret) :=
  match node with
  | none => some (s, .value (-1))
  | some node =>
    if !checkPriv node errCode then some (s, .exit)
    else (checkPageProt s cr3 env node faultAddr).map fun (s, r) => if r = 0 then (s, .value 0) else (s, .exit)

/-- The search of `page_fault_handler` through the areas: the positions of the area with the address, and of its
neighbours as far as they have been found. -/
def searchVma (addr : Word) : List VmArea → Nat → Option Nat → Option Nat → Option Nat × Option Nat × Option Nat
  | [], _, prev, next => (none, prev, next)
  | node :: rest, k, prev, next =>
    if node.vmStart ≤ addr ∧ addr < node.vmEnd then (some k, prev, next)
    else if addr < node.vmStart ∧ next = none then searchVma addr rest (k + 1) prev (some k)
    else if node.vmEnd ≤ addr then searchVma addr rest (k + 1) (some k) next
    else searchVma addr rest (k + 1) prev next

/-- The area at the position `i` is grown if it is there and has the flag. -/
def growAt (mmap : List VmArea) (flag : BitVec 32) (grow : VmArea → Option VmArea) (i : Option Nat) :
    Option (VmArea × List VmArea) :=
  i.bind fun k => mmap[k]?.bind fun v =>
    if v.vmFlags &&& flag = 0 then none else (grow v).map fun v' => (v', mmap.set k v')

/-- The area for an address that is not present, grown if need be, and the list afterwards. -/
def areaFor (env : Env) (mmap : List VmArea) (addr : Word) : Option VmArea × List VmArea :=
  let (node, prev, next) := searchVma addr mmap 0 none none
  match node with
  | some k => (mmap[k]?, mmap)
  | none =>
    match growAt mmap mapGrowsUp (fun v => growVmaUp env.toEnv mmap v addr) prev with
    | some (v, mmap) => (some v, mmap)
    | none =>
      match growAt mmap mapGrowsDown (fun v => growVmaDown env.toEnv mmap v addr) next with
      | some (v, mmap) => (some v, mmap)
      | none => (none, mmap)

/-! ### The system -/

/-- A process: `cr3_content` and `mm->mmap` of its `pcb_t`. -/
structure Proc where
  pml4 : Nat
  mmap : List VmArea

structure Sys where
  mach : Mach
  procs : List Proc
  kernelMmap : List VmArea
  startKernel : Word

/-- `page_fault_handler`, with the process `p` running. -/
def pageFaultHandler (y : Sys) (p : Nat) (env : Env) (faultAddr errCode : Word) : Option (Sys × Ret) :=
  y.procs[p]?.bind fun proc =>
    let mmap := if y.startKernel ≤ faultAddr then y.kernelMmap else proc.mmap
    if errCode &&& pfErrorCodeP ≠ 0 then
      let node := (searchVma faultAddr mmap 0 none none).1.bind fun k => mmap[k]?
      let r := if errCode &&& pfErrorCodeW ≠ 0 then pagePresentWrite y.mach proc.pml4 env node faultAddr errCode
        else pagePresentRead y.mach proc.pml4 env node faultAddr errCode
      r.map fun (s, ret) => ({ y with mach := s }, ret)
    else
      let (node, mmap) := areaFor env mmap faultAddr
      (pageNotPresent y.mach proc.pml4 node faultAddr).map fun (s, ret) =>
        (if y.startKernel ≤ faultAddr then { y with mach := s, kernelMmap := mmap }
          else { y with mach := s, procs := y.procs.set p { proc with mmap := mmap } }, ret)

def forkProc (y : Sys) (p : Nat) : Option Sys :=
  y.procs[p]?.bind fun proc => (cowForkPageTable y.mach proc.pml4).bind fun (s, child) =>
    child.map fun c => { y with mach := s, procs := y.procs ++ [⟨c, proc.mmap⟩] }

/-! ### User accesses -/

def hardwareLeaf (m : Memory) (cr3 : Nat) (addr : Word) : Option Word :=
  Radix.lookup hardwareFormat m cr3 (tablePath addr) (indexPte addr)

def getByte (w : Word) (k : Nat) : BitVec 8 := w.extractLsb' (8 * k) 8

def setByte (w : Word) (k : Nat) (b : BitVec 8) : Word :=
  w &&& ~~~((0xff : Word) <<< (8 * k)) ||| b.setWidth 64 <<< (8 * k)

def setPageByte (addr : Word) (b : BitVec 8) (page : Index → Word) : Index → Word := fun j =>
  if j = indexWord addr then setByte (page j) (addr.toNat % 8) b else page j

def userBit (e : Word) : Bool := decide (e &&& pageTransUserSupervisor ≠ 0)

def writeBit (e : Word) : Bool := decide (e &&& pageTransReadWrite ≠ 0)

def userRead (s : Mach) (cr3 : Nat) (addr : Word) : Option (BitVec 8) :=
  (hardwareLeaf s.mem cr3 addr).bind fun e =>
    if userBit e then some (getByte (s.mem (hardwareFormat.next e) (indexWord addr)) (addr.toNat % 8)) else none

def userWrite (s : Mach) (cr3 : Nat) (addr : Word) (b : BitVec 8) : Option Mach :=
  (hardwareLeaf s.mem cr3 addr).bind fun e =>
    if userBit e && writeBit e then
      some { s with mem := fun q =>
        if q = hardwareFormat.next e then setPageByte addr b (s.mem q) else s.mem q }
    else none

/-! ### The processes as sharers of frames -/

open BitVec List Option

variable {R : Nat → Prop} {u u' : Mach} {r r' q : Nat} {virt v phys perm e : Word}

/-- What `update_curr_page_table` does to the tables of all processes: one entry is replaced, and the objects that were
missing come from the free list. -/
structure Mapped (R : Nat → Prop) (u u' : Mach) (r : Nat) (virt e : Word) : Prop where
  wf : WellFormed UserSlot u' R
  self : ∀ r', R r' → SelfRef u r' → SelfRef u' r'
  leaf_eq : leaf u'.mem r virt = some e
  leaf_other : ∀ r' v, R r' → UserSlot (indexPml4e v) → ¬ (r' = r ∧ SamePage v virt) →
    leaf u'.mem r' v = leaf u.mem r' v
  tables : ∀ q, IsTable UserSlot u' R q → IsTable UserSlot u R q ∨ Taken u u' q
  outside : ∀ q, ¬ IsTable UserSlot u R q → (Free u q → Free u' q) → u'.mem q = u.mem q
  free_sub : ∀ q, Free u' q → Free u q
  desc_eq : ∀ q, q % sizeofPage = 0 → (Free u q → Free u' q) → desc u'.pages q = desc u.pages q
  taken : ∀ q, Taken u u' q → desc u'.pages q = (desc u.pages q).map PhysPage.bump
  numPages_eq : numPages u'.pages.chunkList = numPages u.pages.chunkList
  ordered : Ordered u.pages.physFreeList → Ordered u'.pages.physFreeList
  used : ∀ q, Taken u u' q → IsTable UserSlot u' R q

private theorem Mapped.inv (h : Mapped R u u' r virt e) (hi : Inv u.pages) : Inv u'.pages :=
  hi.taken (h.ordered hi.ordered) h.free_sub h.desc_eq (fun q hq hnot => h.taken q ⟨hq, hnot⟩) h.numPages_eq

private theorem mapped_store (hg : Grows UserSlot R u u') (hr : R r) (hv : UserSlot (indexPml4e virt)) {pt : Nat}
    (hpt : Radix.walk entryFormat u'.mem r (tablePath virt) = some pt) (hp : entryFormat.present e = true) :
    Mapped R u (u'.store pt (indexPte virt) e) r virt e := by
  have hpath := tablePath_ok hv
  obtain ⟨h1, h2⟩ := leafWord_store (w := e) hg hr hv hpt
  have htables := fun q => isTable_store (q := q) (i := indexPte virt) (w := e) hg.wf hr hpath rfl hpt
  refine
    { wf := hg.wf.store hr hpath rfl hpt
      self := fun r' hr' hself => hg.selfRef_store hr hv hpt hr' (fun h => h.1 rfl) hself
      leaf_eq := ?_
      leaf_other := fun r' v hr' hv' hne => leaf_eq_of_leafWord (h2 r' v hr' hv' hne)
      tables := fun q hq => hg.isTable ((htables q).1 hq)
      outside := fun q hq hf => hg.store_outside hr hv hpt hq hf
      free_sub := hg.free_sub
      desc_eq := hg.desc_eq
      taken := fun q hq => hg.taken q hq.1 hq.2
      used := fun q hq => (htables q).2 (hg.used q hq.1 hq.2)
      numPages_eq := hg.numPages_eq
      ordered := hg.ordered }
  rw [leaf_eq_filter, h1, Option.filter_some, hp]
  rfl

/-- With a page, `update_curr_page_table` maps it. -/
theorem updateCurrPageTable_maps (hw : WellFormed UserSlot u R) (hr : R r) (hself : SelfRef u r)
    (hv : UserSlot (indexPml4e virt)) (hphys : phys ≠ 0) (hc : missing u.mem r virt ≤ freeCount u.pages) (perm : Word) :
    ∃ u', updateCurrPageTable u r phys virt perm = some (u', 0) ∧ Mapped R u u' r virt (leafEntry phys perm) := by
  obtain ⟨u1, pt, hg, hpt, -, he⟩ := updatePageTableIdmap_spec hw hr hv phys perm hc
  refine ⟨_, ?_, mapped_store hg hr hv hpt present_leafEntry⟩
  rw [updateCurrPageTable_eq (hw.mono fun _ h => h ▸ hr) hself hv hphys hc, he]

def withPerm (e perm : Word) : Word := pageTransNextLevelAddr e ||| pageTransNonAddrFields perm

/-- Without one, it gives the entry other permissions. -/
theorem updateCurrPageTable_perm (hw : WellFormed UserSlot u R) (hr : R r) (hself : SelfRef u r)
    (hv : UserSlot (indexPml4e virt)) (he : leaf u.mem r virt = some e) (hp : entryFormat.present perm = true) :
    ∃ u', updateCurrPageTable u r 0 virt perm = some (u', 0) ∧ Mapped R u u' r virt (withPerm e perm) ∧
      u'.pages = u.pages := by
  obtain ⟨pt, hpt, -, hu⟩ := updateCurrPageTable_zero (hw.mono fun _ h => h ▸ hr) hself hv he perm
  refine ⟨_, hu, mapped_store (Grows.refl hw) hr hv hpt ?_, rfl⟩
  rw [present_eq] at hp ⊢
  rw [getLsbD_or, getLsbD_nextLevelAddr, getLsbD_nonAddrFields, hp]
  simp

theorem next_withPerm (he : entryFormat.next e < 2 ^ 51) : entryFormat.next (withPerm e perm) = entryFormat.next e := by
  have h51 := signBit_of_next_lt he
  have h51' : (withPerm e perm).getLsbD 51 = false := by
    unfold withPerm
    rw [getLsbD_or, getLsbD_nextLevelAddr, getLsbD_nonAddrFields, h51]
    simp
  show (entryAddr _).toNat = (entryAddr e).toNat
  rw [entryAddr_eq h51, entryAddr_eq h51']
  congr 1
  apply eq_of_getLsbD_eq
  intro k hk
  unfold withPerm
  rw [getLsbD_nextLevelAddr, getLsbD_or, getLsbD_nextLevelAddr, getLsbD_nonAddrFields]
  by_cases hmid : 12 ≤ k ∧ k < 52 <;> simp [hmid]

structure Place where
  pml4e : Index
  pdpe : Index
  pde : Index
  pte : Index
  deriving DecidableEq

def placeOf (a : Word) : Place := ⟨indexPml4e a, indexPdpe a, indexPde a, indexPte a⟩

def Place.path (x : Place) : List Index := [x.pml4e, x.pdpe, x.pde]

def entryAt (m : Memory) (pml4 : Nat) (x : Place) : Option Word := Radix.lookup entryFormat m pml4 x.path x.pte

instance : DecidablePred UserSlot := fun i => inferInstanceAs (Decidable (i ≠ selfRefEntry ∧ i ≠ pml4KernelEntry))

/-- The frame that the process `p` has at a place, and whether the entry allows to write it. -/
def mapping (s : Mach) (roots : List Nat) (p : Nat) (x : Place) : Option (Nat × Bool) :=
  roots[p]?.bind fun r =>
    if UserSlot x.pml4e then (entryAt s.mem r x).map fun e => (entryFormat.next e, writeBit e) else none

/-- The machine with the PML4s `roots` of the processes, as one that shares frames. -/
def abs (s : Mach) (roots : List Nat) : Sharing.State Place Nat (Index → Word) where
  procs := roots.length
  map := mapping s roots
  count f := ((desc s.pages f).map fun d => d.refcount.toNat).getD 0
  flagged f := ∃ d ∈ desc s.pages f, d.flag &&& pageCow ≠ 0
  data f := s.mem f

def Table (s : Mach) (roots : List Nat) (q : Nat) : Prop := IsTable UserSlot s (· ∈ roots) q

/-- The tables are well-formed, the free list and the counts agree, and so do the counts and the entries. -/
structure Good (s : Mach) (roots : List Nat) : Prop where
  pages : Inv s.pages
  wf : WellFormed UserSlot s (· ∈ roots)
  nodup : roots.Nodup
  self : ∀ r ∈ roots, SelfRef s r
  described : ∀ r ∈ roots, ∃ d, desc s.pages r = some d
  frame : ∀ f, (abs s roots).Uses f → f < 2 ^ 51 ∧ ¬ Table s roots f
  sharing : Sharing.Inv (abs s roots)

variable {s : Mach} {roots : List Nat} {p f : Nat} {x : Place} {w : Bool} {a : Word}

theorem entryAt_placeOf (m : Memory) (pml4 : Nat) (a : Word) : entryAt m pml4 (placeOf a) = leaf m pml4 a := rfl

theorem exists_placeOf (x : Place) : ∃ a, placeOf a = x := by
  obtain ⟨a, hpath, hpte⟩ := exists_virt x.pml4e x.pdpe x.pde x.pte
  simp only [tablePath, cons.injEq, and_true] at hpath
  exact ⟨a, by simp only [placeOf, hpath, hpte]⟩

theorem placeOf_eq_iff {b : Word} : placeOf a = placeOf b ↔ SamePage a b := by
  rw [samePage_iff]
  simp only [placeOf, tablePath, Place.mk.injEq, cons.injEq, and_true]
  constructor
  · rintro ⟨h4, h3, h2, h1⟩
    exact ⟨⟨h4, h3, h2⟩, h1⟩
  · rintro ⟨⟨h4, h3, h2⟩, h1⟩
    exact ⟨h4, h3, h2, h1⟩

theorem mapping_eq_some : mapping s roots p x = some (f, w) ↔ ∃ r e, roots[p]? = some r ∧ UserSlot x.pml4e ∧
    entryAt s.mem r x = some e ∧ entryFormat.next e = f ∧ writeBit e = w := by
  unfold mapping
  constructor
  · intro h
    obtain ⟨r, hr, h⟩ := bind_eq_some_iff.1 h
    split at h
    · rename_i hx
      obtain ⟨e, he, heq⟩ := map_eq_some_iff.1 h
      obtain ⟨h1, h2⟩ := Prod.mk.inj heq
      exact ⟨r, e, hr, hx, he, h1, h2⟩
    · cases h
  · rintro ⟨r, e, hr, hx, he, rfl, rfl⟩
    rw [hr, bind_some, if_pos hx, he]
    rfl

/-- A mapping is the frame of a leaf entry, with its write permission. -/
theorem mapping_placeOf (hr : roots[p]? = some r) (hv : UserSlot (indexPml4e a)) :
    mapping s roots p (placeOf a) = (leaf s.mem r a).map fun e => (entryFormat.next e, writeBit e) := by
  unfold mapping
  rw [hr, bind_some, if_pos (show UserSlot (placeOf a).pml4e from hv)]
  rfl

private theorem mapping_congr (h : ∀ r ∈ roots, UserSlot x.pml4e → entryAt u.mem r x = entryAt s.mem r x) :
    mapping u roots p x = mapping s roots p x := by
  unfold mapping
  cases hr : roots[p]? with
  | none => rfl
  | some r =>
    rw [bind_some, bind_some]
    split
    · rename_i hx
      rw [h r (mem_of_getElem? hr) hx]
    · rfl

theorem abs_kept {roots' : List Nat} (hd : desc u.pages f = desc s.pages f) (hm : u.mem f = s.mem f) :
    Sharing.Kept (abs s roots) (abs u roots') f := by
  refine ⟨?_, ?_, hm⟩
  · show ((desc u.pages f).map _).getD 0 = ((desc s.pages f).map _).getD 0
    rw [hd]
  · show (∃ d ∈ desc u.pages f, _) ↔ ∃ d ∈ desc s.pages f, _
    rw [hd]

theorem abs_count {d : PhysPage} (hd : desc s.pages f = some d) : (abs s roots).count f = d.refcount.toNat := by
  show ((desc s.pages f).map _).getD 0 = _
  rw [hd]
  rfl

theorem table_root (hr : r ∈ roots) : Table s roots r := ⟨r, [], hr, TablePath.nil, rfl⟩

namespace Good

variable (h : Good s roots)
include h

/-- The count of a frame is the number of its owners. -/
theorem desc_of_uses (hf : (abs s roots).Uses f) :
    ∃ d, desc s.pages f = some d ∧ 0 < d.refcount.toNat ∧ d.refcount.toNat = ((abs s roots).owners f).ncard := by
  have hcount := h.sharing.count hf
  have hpos : 0 < ((abs s roots).owners f).ncard := by
    obtain ⟨p, x, w, hx⟩ := hf
    exact (Set.ncard_pos (h.sharing.finite f)).2 ⟨(p, x), w, hx⟩
  have hc : (abs s roots).count f = ((desc s.pages f).map fun d => d.refcount.toNat).getD 0 := rfl
  rw [← hcount, hc] at hpos ⊢
  cases hd : desc s.pages f with
  | none =>
    rw [hd] at hpos
    exact absurd hpos (Nat.lt_irrefl 0)
  | some d =>
    rw [hd] at hpos
    exact ⟨d, rfl, hpos, rfl⟩

theorem not_free (hf : (abs s roots).Uses f) : ¬ Free s f := by
  intro hfree
  obtain ⟨d, hd, hpos, -⟩ := h.desc_of_uses hf
  have h0 := ((h.pages.covers f).1 hfree).2
  rw [refcount, hd] at h0
  rw [show d.refcount = 0 from some.inj h0] at hpos
  exact absurd hpos (Nat.lt_irrefl 0)

theorem owners_lt (hf : (abs s roots).Uses f) : ((abs s roots).owners f).ncard < 2 ^ 31 := by
  obtain ⟨p, x, w, hx⟩ := hf
  -- the owners are processes, all at the same place
  have hsub : (abs s roots).owners f ⊆ ((Finset.range roots.length).image fun q => (q, x) : Finset (Nat × Place)) := by
    rintro ⟨q, z⟩ ⟨w', hz⟩
    rw [Finset.mem_coe, Finset.mem_image]
    obtain rfl : z = x := h.sharing.place hz hx
    exact ⟨q, Finset.mem_range.2 (h.sharing.inside hz), rfl⟩
  have hle := Set.ncard_le_ncard hsub (Finset.finite_toSet _)
  rw [Set.ncard_coe_finset] at hle
  have hcard := Finset.card_image_le (s := Finset.range roots.length) (f := fun q => (q, x))
  rw [Finset.card_range] at hcard
  have hroots : roots.length ≤ numPages s.pages.chunkList := by
    refine length_le_numPages h.nodup fun r hr => ⟨(h.wf.table r (table_root hr)).1.aligned, ?_⟩
    obtain ⟨d, hd⟩ := h.described r hr
    obtain ⟨c, hc, hcov, -⟩ := findDesc_some hd
    exact ⟨c, hc, hcov⟩
  have hfew := h.pages.few
  omega

end Good

theorem uses_aligned (hf : (abs s roots).Uses f) : f % sizeofPage = 0 := by
  obtain ⟨p, x, w, hx⟩ := hf
  obtain ⟨r, e, -, -, -, rfl, -⟩ := mapping_eq_some.1 hx
  exact next_aligned e

/-- The tables and their descriptors are as before, and no page has been freed. -/
structure Kept (roots : List Nat) (s u : Mach) : Prop where
  mem_eq : ∀ q, Table s roots q → u.mem q = s.mem q
  desc_eq : ∀ q, Table s roots q → desc u.pages q = desc s.pages q
  base_eq : u.base = s.base
  free_sub : ∀ q, Free u q → Free s q
  inv : Inv u.pages

namespace Kept

variable (h : Good s roots) (hk : Kept roots s u)
include hk

theorem table_iff : Table u roots q ↔ Table s roots q := isTable_of_tables hk.mem_eq

theorem entryAt_eq (hr : r ∈ roots) (hx : UserSlot x.pml4e) : entryAt u.mem r x = entryAt s.mem r x := by
  have hpath : TablePath UserSlot x.path := ⟨by simp [Place.path], fun _ hi => some.inj hi ▸ hx⟩
  exact lookup_of_tables hk.mem_eq hr hpath

theorem mapping_eq : mapping u roots p x = mapping s roots p x := mapping_congr fun _ hr hx => hk.entryAt_eq hr hx

private theorem uses_iff : (abs u roots).Uses f ↔ (abs s roots).Uses f := by
  constructor
  · rintro ⟨p, x, w, hx⟩
    exact ⟨p, x, w, hk.mapping_eq.symm.trans hx⟩
  · rintro ⟨p, x, w, hx⟩
    exact ⟨p, x, w, hk.mapping_eq.trans hx⟩

theorem self (hr : r ∈ roots) (hself : SelfRef s r) : SelfRef u r := hself.congr (by rw [hk.mem_eq r (table_root hr)])

include h

theorem wf : WellFormed UserSlot u (· ∈ roots) := h.wf.congr hk.mem_eq hk.inv.listed hk.base_eq hk.free_sub

/-- If the tables are kept, a good state is good again once the counts are right. -/
theorem good (hs : Sharing.Inv (abs u roots)) : Good u roots where
  pages := hk.inv
  wf := hk.wf h
  nodup := h.nodup
  self r hr := hk.self hr (h.self r hr)
  described r hr := by
    rw [hk.desc_eq r (table_root hr)]
    exact h.described r hr
  frame f hf := by
    obtain ⟨h1, h2⟩ := h.frame f (hk.uses_iff.1 hf)
    exact ⟨h1, mt hk.table_iff.1 h2⟩
  sharing := hs

variable (hm : Mapped (· ∈ roots) u u' r a e)
include hm

/-- The abstract machine remaps one place. -/
theorem remaps (hr : roots[p]? = some r) (hv : UserSlot (indexPml4e a)) :
    (abs s roots).Remaps (abs u' roots) p (placeOf a) (entryFormat.next e, writeBit e) := by
  refine ⟨rfl, fun q x => ?_⟩
  show mapping u' roots q x = if q = p ∧ x = placeOf a then _ else mapping s roots q x
  rw [← hk.mapping_eq]
  obtain ⟨b, rfl⟩ := exists_placeOf x
  by_cases he : q = p ∧ placeOf b = placeOf a
  · rw [if_pos he, he.1, he.2, mapping_placeOf hr hv, hm.leaf_eq]
    rfl
  · rw [if_neg he]
    unfold mapping
    cases hq : roots[q]? with
    | none => rfl
    | some r' =>
      rw [bind_some, bind_some]
      split
      · rename_i hb
        rw [entryAt_placeOf, entryAt_placeOf, hm.leaf_other r' b (mem_of_getElem? hq) hb]
        rintro ⟨rfl, hsame⟩
        -- a PML4 belongs to one process
        exact he ⟨(getElem?_inj (List.getElem?_eq_some_iff.1 hq).1 h.nodup).1 (hq.trans hr.symm),
          placeOf_eq_iff.2 hsame⟩
      · rfl

omit h in
theorem entryAt_mapped (hr' : r' ∈ roots) (hx : UserSlot x.pml4e) (hne : ¬ (r' = r ∧ x = placeOf a)) :
    entryAt u'.mem r' x = entryAt s.mem r' x := by
  obtain ⟨b, rfl⟩ := exists_placeOf x
  rw [← hk.entryAt_eq hr' hx, entryAt_placeOf, entryAt_placeOf, hm.leaf_other r' b hr' hx]
  rintro ⟨hrr, hsame⟩
  exact hne ⟨hrr, placeOf_eq_iff.2 hsame⟩

omit h in
theorem mapped_outside (hf : f % sizeofPage = 0) (hnot : ¬ Table s roots f) (hfree : ¬ Free u f) :
    u'.mem f = u.mem f ∧ desc u'.pages f = desc u.pages f ∧ ¬ Table u' roots f := by
  have htable : ¬ Table u roots f := mt hk.table_iff.1 hnot
  refine ⟨hm.outside f htable fun h => absurd h hfree, hm.desc_eq f hf fun h => absurd h hfree, fun ht => ?_⟩
  rcases hm.tables f ht with ht | ht
  · exact htable ht
  · exact hfree ht.1

/-- The same when an entry has been replaced. -/
theorem good_mapped (hr : roots[p]? = some r) (hv : UserSlot (indexPml4e a)) (hs : Sharing.Inv (abs u' roots))
    (hlt : entryFormat.next e < 2 ^ 51) (hnot : ¬ Table s roots (entryFormat.next e))
    (hfree : ¬ Free u (entryFormat.next e)) : Good u' roots where
  pages := hm.inv hk.inv
  wf := hm.wf
  nodup := h.nodup
  self r' hr' := hm.self r' hr' (hk.self hr' (h.self r' hr'))
  described r' hr' := by
    obtain ⟨haddr, -, hnf⟩ := h.wf.table r' (table_root hr')
    rw [hm.desc_eq r' haddr.aligned fun hf => absurd (hk.free_sub r' hf) hnf, hk.desc_eq r' (table_root hr')]
    exact h.described r' hr'
  frame := by
    rintro f ⟨q, x, w, hx⟩
    obtain ⟨-, -, rfl, -⟩ | hx := (hk.remaps h hm hr hv).uses hx
    · exact ⟨hlt, (hk.mapped_outside hm (next_aligned e) hnot hfree).2.2⟩
    · have hf : (abs s roots).Uses f := .of_map hx
      obtain ⟨h1, h2⟩ := h.frame f hf
      exact ⟨h1, (hk.mapped_outside hm (uses_aligned hf) h2 fun hq => h.not_free hf (hk.free_sub f hq)).2.2⟩
  sharing := hs

end Kept

end Adix.Cow
