import Adix.KernelHeap.Nesting

/-!
# The heap with a block to spare

The recursion through `mmap` ends at once when the area finds a free block. Pages that follow the last free block are
added to it, and all blocks stay inside. Otherwise the pages become a block of their own. Its recorded size is that of
the pages, as if it had no header, so that it ends 16 bytes behind them.
-/

namespace Adix.KernelHeap

open Kmalloc (Arena Heap Alloc Extent FreeList growth kmPagesAdd add64 flSize freeSize)
open PageTable PhysPages Vma.Pages List Option
open Vma (VmArea)
open BitVec (ofNat)
open Kmalloc (kmStaticSize scan lastBlock scan_eq)

variable {k k' k₁ : Kern} {s : Mach} {A : Arena} {cr3 n p bytes rounds : Nat} {virt addr prot : Word} {i : ListId}
  {v head node w : VmArea} {l : List VmArea} {place : Place} {malloc : Kern → Nat → Option (Kern × Nat)}
  {prev : Option VmArea}

private theorem flatMap_of_not_mem {f : VmArea → List VmArea} (h : node ∉ l) :
    (l.flatMap fun w => if w = node then f w else [w]) = l := by
  induction l with
  | nil => rfl
  | cons w l ih =>
    rw [mem_cons, not_or] at h
    rw [flatMap_cons, if_neg (Ne.symm h.1), ih h.2]
    rfl

private theorem searchPlace_mem (h : searchPlace head v prev l = some place) :
    ∃ node ∈ l, place = .before node ∨ place = .after node := by
  induction l generalizing prev with
  | nil => cases h
  | cons w l ih =>
    unfold searchPlace at h
    split at h
    · cases h
      exact ⟨w, mem_cons_self, .inl rfl⟩
    split at h
    · cases h
      exact ⟨w, mem_cons_self, .inr rfl⟩
    split at h
    · cases h
      exact ⟨w, mem_cons_self, .inl rfl⟩
    · obtain ⟨node, hnode, hplace⟩ := ih h
      exact ⟨node, mem_cons_of_mem _ hnode, hplace⟩

private theorem link_cons (h : searchPlace head v (some w) l = some place) (hw : w ∉ l) :
    place.link v (w :: l) = w :: place.link v l := by
  obtain ⟨node, hnode, rfl | rfl⟩ := searchPlace_mem h
  · have hne : w ≠ node := fun hc => hw (hc ▸ hnode)
    simp [Place.link, hne]
  · have hne : w ≠ node := fun hc => hw (hc ▸ hnode)
    simp [Place.link, hne]

private theorem insertVma_eq (h : l.Nodup) :
    Vma.insertVma head v prev l = (searchPlace head v prev l).map fun place => place.link v l := by
  induction l generalizing prev with
  | nil => rfl
  | cons w l ih =>
    obtain ⟨hw, hl⟩ := nodup_cons.1 h
    have hbefore : Place.link v (.before w) (w :: l) = v :: w :: l := by
      show (w :: l).flatMap (fun x => if x = w then [v, x] else [x]) = _
      rw [flatMap_cons, if_pos rfl, flatMap_of_not_mem hw]
      rfl
    unfold Vma.insertVma searchPlace
    split
    · rw [map_some, hbefore]
    split
    · rename_i hend
      obtain rfl := List.isEmpty_iff.1 hend.1
      simp [Place.link]
    split
    · rw [map_some, hbefore]
    · rw [ih hl, Option.map_map]
      refine Option.map_congr fun place hplace => ?_
      exact (link_cons hplace hw).symm

/-- With memory, the search for a place and the link make up `add_vma_growable` of the areas. -/
private theorem addVmaGrowable_eq (h : Vma.Valid l) :
    Vma.addVmaGrowable ⟨true, head⟩ l v.vmStart v.vmEnd v.vmPageProt v.vmFlags
    v.maxSize = (findPlace head v l).elim (l, -1) fun place => (place.link v l, 0) := by
  have hnd : l.Nodup := by
    refine h.sorted.imp_of_mem fun {w x} hw _ hle hc => ?_
    subst hc
    exact BitVec.not_lt.2 hle (h.proper w hw)
  unfold Vma.addVmaGrowable findPlace
  by_cases hlen : v.vmEnd ≤ v.vmStart
  · rw [if_pos hlen, if_pos hlen]
    rfl
  rw [if_neg hlen, if_neg hlen]
  cases l with
  | nil => rfl
  | cons w l =>
    rw [insertVma_eq hnd]
    cases searchPlace head v none (w :: l) with
    | none => rfl
    | some place => rfl

private theorem mmap_eq {l' : List VmArea} (hvalid : Vma.Valid (k.space.mmaps i))
    (hm : malloc k sizeofVma = some (k₁, p)) (hp : p ≠ 0)
    (hkeep : k₁.space.mmaps i = k.space.mmaps i) (haddr : addr ≠ -1)
    (h : Vma.mmap ⟨true, k.head⟩ (k.space.mmaps i) virt Vma.sizeofPage pageTransReadWrite mapAnonymous = (l', addr)) :
    mmap malloc k i virt = some (k₁.setMmap i l', addr) := by
  unfold Vma.mmap Vma.mmapGrowable at h
  unfold mmap addVmaGrowable
  dsimp only at h ⊢
  generalize Vma.getUnmappedArea (k.space.mmaps i) virt Vma.sizeofPage = a at h ⊢
  have heq : Vma.addVmaGrowable ⟨true, k.head⟩ (k.space.mmaps i) a (a + Vma.sizeofPage) pageTransReadWrite mapAnonymous
      (-1) = _ :=
    addVmaGrowable_eq (v := ⟨a, a + Vma.sizeofPage, pageTransReadWrite, mapAnonymous, -1⟩) hvalid
  rw [heq] at h
  cases hplace : findPlace k.head ⟨a, a + Vma.sizeofPage, pageTransReadWrite, mapAnonymous, -1⟩ (k.space.mmaps i) with
  | none =>
    rw [hplace] at h
    exact absurd (Prod.mk.inj h).2.symm haddr
  | some place =>
    rw [hplace] at h
    cases h
    simp only [hm, hp, hkeep, bind_eq_bind, bind_some, if_false]
    rfl

/-- With three pages for each, the pages are mapped and the tables stay in order. -/
private theorem mapPages_spec {pages : List Nat} (hw : WellFormed (· ≠ selfRefEntry) s (· = cr3))
    (hself : SelfRef s cr3) (hpages : ∀ q ∈ pages, ofNat 64 q ≠ 0)
    (hslot : ∀ j, j < pages.length → indexPml4e (virt + ofNat 64 (4096 * j)) ≠ selfRefEntry)
    (hc : 3 * pages.length ≤ freeCount s.pages) :
    ∃ s', mapPages cr3 prot pages virt s = some s' ∧ WellFormed (· ≠ selfRefEntry) s' (· = cr3) ∧ SelfRef s' cr3 := by
  induction pages generalizing s virt with
  | nil => exact ⟨s, rfl, hw, hself⟩
  | cons phys rest ih =>
    rw [length_cons] at hc hslot
    have hv : indexPml4e virt ≠ selfRefEntry := by simpa using hslot 0 (by omega)
    have hmissing := missing_le s.mem cr3 virt
    obtain ⟨s1, pt, hg, hpt, -, he⟩ := updatePageTableIdmap_spec hw rfl hv (ofNat 64 phys) prot (by omega)
    have hu : updateCurrPageTable s cr3 (ofNat 64 phys) virt prot = _ :=
      updateCurrPageTable_eq hw hself hv (hpages phys mem_cons_self) (by omega)
    rw [he] at hu
    have hdrawn := (updateCurrPageTable_drawn hu).freeCount_le.2
    have hself' := hg.selfRef_store (w := leafEntry (ofNat 64 phys) prot) rfl hv hpt rfl (fun h => h rfl) hself
    have hnext : ∀ j, virt + Vma.sizeofPage + ofNat 64 (4096 * j) = virt + ofNat 64 (4096 * (j + 1)) := by
      intro j
      rw [BitVec.add_assoc, show Vma.sizeofPage = ofNat 64 4096 from rfl, ← BitVec.ofNat_add, Nat.mul_add,
        Nat.add_comm 4096]
    obtain ⟨s', hs', hw', hself''⟩ := ih (hg.wf.store rfl (tablePath_ok hv) rfl hpt) hself'
      (fun q hq => hpages q (mem_cons_of_mem _ hq)) (fun j hj => by rw [hnext]; exact hslot (j + 1) (by omega))
      (by omega)
    refine ⟨s', ?_, hw', hself''⟩
    unfold mapPages
    rw [hu]
    exact hs'

/-- The pages that one growth takes at most: `KM_PAGES_ADD`, and three tables for each of them. -/
def growthPages : Nat := kmPagesAdd + 3 * kmPagesAdd

def Kern.top (k : Kern) : Word := ofNat 64 k.heap.lastKmAddr

open Kern (setMach_heap init_of_done top take_heap)

/-- The heap can grow without calling itself again and again: the last free block ends where the pages are asked for; a
block is free for the area, and if it is the last one it is larger than the area with its header; `mmap` gives the
address asked for; and the first run of free pages is not used up. -/
structure CanGrow (k : Kern) : Prop where
  follows : Kmalloc.Extends k.heap k.heap.lastKmAddr
  spare : ∃ p prev, scan k.heap.mem sizeofVma k.heap.head = some (p, prev) ∧ p ≠ 0 ∧
    (lastBlock k.heap.mem Kmalloc.addrSpace k.heap.head = some p → sizeofVma + flSize < freeSize k.heap.mem p)
  place : (Vma.mmap ⟨true, k.head⟩ (k.space.mmaps (k.space.listFor k.top)) k.top Vma.sizeofPage pageTransReadWrite
    mapAnonymous).2 = k.top
  fits : k.heap.lastKmAddr + growth < Kmalloc.addrSpace
  slot : ∀ j < kmPagesAdd, indexPml4e (k.top + ofNat 64 (4096 * j)) ≠ selfRefEntry
  pages : ∃ r ∈ k.space.mach.pages.physFreeList.head?, growthPages < r.count

/-- The heap is in order, in an extent that ends where the next pages are asked for and has nothing but `km_static` and
the pages obtained. -/
structure HeapOk (A : Arena) (k : Kern) (E : Extent) (fl : List Nat) : Prop where
  init : k.heap.initStaticPagesDone = true
  list : FreeList E k.heap fl k.live
  top : k.heap.lastKmAddr = E.stop
  inside : ∀ x, E.start ≤ x → x < E.stop → Kmalloc.InPages A k.pages x

variable {E : Extent} {fl : List Nat}

section LastBlock

variable {h : Heap} {live : List Alloc} {l : List Nat} {x start : Nat}

private theorem lastBlock_concat (F : FreeList E h (l ++ [x]) live) :
    lastBlock h.mem Kmalloc.addrSpace h.head = some x := by
  have hlen := F.layout.length_lt
  rw [length_append] at hlen
  exact Kmalloc.lastBlock_eq F.seg (fun y hy => F.layout.ne_zero hy) (by omega)

private theorem exists_lastBlock (F : FreeList E h fl live) (hhead : h.head ≠ 0) :
    ∃ l x, fl = l ++ [x] ∧ lastBlock h.mem Kmalloc.addrSpace h.head = some x := by
  rcases eq_nil_or_concat' fl with rfl | ⟨l, x, rfl⟩
  · exact absurd F.seg hhead
  · exact ⟨l, x, rfl, lastBlock_concat F⟩

private theorem extends_concat (F : FreeList E h (l ++ [x]) live) (hx : start = x + flSize + freeSize h.mem x) :
    Kmalloc.Extends h start := by
  refine ⟨mt F.head_eq_zero.1 (by simp), fun y hy => ?_⟩
  rw [lastBlock_concat F] at hy
  cases hy
  exact hx

end LastBlock

private theorem kmalloc_block {prev : Nat} (A : Arena) (cr3 rounds : Nat) (hk : HeapOk A k E fl) (hb : bytes ≠ 0)
    (hscan : scan k.heap.mem bytes k.heap.head = some (p, prev)) (hp : p ≠ 0) :
    ∃ fl', kmalloc A cr3 (rounds + 1) k bytes = some (k.take p prev bytes, p + flSize) ∧
      HeapOk A (k.take p prev bytes) E fl' ∧ ∀ l x, fl = l ++ [x] → (x = p → bytes + flSize < freeSize k.heap.mem x) →
        ∃ l' y, fl' = l' ++ [y] ∧ y + freeSize (k.take p prev bytes).heap.mem y = x + freeSize k.heap.mem x := by
  have F := hk.list
  have hinit := init_of_done (A := A) hk.init
  obtain ⟨hs, -⟩ | ⟨l1, p', l2, rfl, hroom, -, hs⟩ := scan_eq bytes F
  · cases hscan.symm.trans hs
    exact absurd rfl hp
  cases hscan.symm.trans hs
  have hptr : add64 p flSize = p + flSize := Kmalloc.add64_flSize F (by simp)
  obtain ⟨fl', F', hlast⟩ := Kmalloc.take_freeList F hroom
  refine ⟨fl', ?_, ⟨?_, ?_, ?_, hk.inside⟩, ?_⟩
  · rw [kmalloc_take hb (by rw [hinit]; exact hs) hp, hinit, hptr]
  · rw [take_heap, Kmalloc.take_initStaticPagesDone]
    exact hk.init
  · unfold Kern.take
    rw [hptr]
    exact F'
  · rw [take_heap, Kmalloc.take_lastKmAddr]
    exact hk.top
  · exact hlast

private theorem kmalloc_area (A : Arena) (cr3 rounds : Nat) (hk : HeapOk A k E fl)
    (hfollows : Kmalloc.Extends k.heap k.heap.lastKmAddr)
    (hspare : ∃ p prev, scan k.heap.mem sizeofVma k.heap.head = some (p, prev) ∧ p ≠ 0 ∧
      (lastBlock k.heap.mem Kmalloc.addrSpace k.heap.head = some p → sizeofVma + flSize < freeSize k.heap.mem p)) :
    ∃ p prev fl', kmalloc A cr3 (rounds + 1) k sizeofVma = some (k.take p prev sizeofVma, p + flSize) ∧
      HeapOk A (k.take p prev sizeofVma) E fl' ∧ Kmalloc.Extends (k.take p prev sizeofVma).heap k.heap.lastKmAddr := by
  obtain ⟨p, prev, hscan, hp, hroom⟩ := hspare
  obtain ⟨l, x, hl, hx⟩ := exists_lastBlock hk.list hfollows.1
  have hend := hfollows.2 x hx
  obtain ⟨fl', he, hk', hlast⟩ := kmalloc_block A cr3 rounds hk (by decide) hscan hp
  obtain ⟨l', y, rfl, hy⟩ := hlast l x hl fun hxp => hxp ▸ hroom (hxp ▸ hx)
  exact ⟨p, prev, _, he, hk', extends_concat hk'.list (by omega)⟩

section Grow

variable (hk : HeapOk A k E fl) (hs : Sound cr3 k.space) (hg : CanGrow k)
include hg

private theorem toNat_top : k.top.toNat = k.heap.lastKmAddr := by
  have := hg.fits
  unfold Kmalloc.addrSpace at this
  exact Nat.mod_eq_of_lt (by omega)

include hk

private theorem top_ne : k.top ≠ 0 ∧ k.top ≠ -1 := by
  have hfits := hg.fits
  have hin := hk.top
  have htop := toNat_top hg
  have hlt : E.start < E.stop := by
    obtain ⟨l, x, rfl, -⟩ := exists_lastBlock hk.list hg.follows.1
    have := hk.list.layout.tiled.inside x (Kmalloc.mem_blocks.2 (.inl (by simp)))
    omega
  constructor
  · intro hc
    rw [hc] at htop
    have : (0 : Nat) = k.heap.lastKmAddr := htop
    omega
  · intro hc
    rw [hc] at htop
    have : 2 ^ 64 - 1 = k.heap.lastKmAddr := htop
    unfold Kmalloc.addrSpace at hfits
    have : 0 < growth := by decide
    omega

include hs

private theorem mmap_place : ∃ l', Vma.mmap ⟨true, k.head⟩ (k.space.mmaps (k.space.listFor k.top)) k.top Vma.sizeofPage
    pageTransReadWrite mapAnonymous = (l', k.top) ∧ Vma.Valid l' := by
  have hplace := hg.place
  have hne := (top_ne hk hg).2
  obtain hfail | ⟨l', a, heq, -, hvalid, -⟩ := Vma.mmapGrowable_spec (hs.areas (k.space.listFor k.top)) ⟨true, k.head⟩
    ⟨k.top, Vma.sizeofPage, pageTransReadWrite, mapAnonymous, -1⟩
  · unfold Vma.mmap at hplace
    rw [hfail] at hplace
    exact absurd hplace.symm hne
  · unfold Vma.mmap at hplace ⊢
    rw [heq] at hplace ⊢
    exact ⟨l', by rw [← hplace], hvalid⟩

/-- A heap that can grow gets its pages where it asks for them. -/
private theorem vAllocPagesAtVirt_spec (rounds : Nat) : ∃ k' fl',
    vAllocPagesAtVirt cr3 (kmalloc A cr3 (rounds + 1)) k k.top = some (k', k.top) ∧ HeapOk A k' E fl' ∧
      Kmalloc.Extends k'.heap k.heap.lastKmAddr ∧ Sound cr3 k'.space ∧
      k'.heap.deviceMemorySetUp = k.heap.deviceMemorySetUp ∧ k.freePages ≤ k'.freePages + growthPages := by
  obtain ⟨r, hr, hcount⟩ := hg.pages
  obtain ⟨rs, hrs⟩ : ∃ rs, k.space.mach.pages.physFreeList = r :: rs := head?_eq_some_iff.1 hr
  have hfree := count_le_freeCount hrs
  unfold growthPages at hcount
  -- the pages
  obtain ⟨s1, pages, htake, hlen, hmem, hbase, hlisted, hpages, hsub⟩ :=
    takePages_spec (n := kmPagesAdd) hs.pages.listed (by omega)
  have hdrawn1 : Drawn kmPagesAdd k.space.mach.pages s1.pages := by
    have := takePages_drawn kmPagesAdd k.space.mach
    rwa [htake] at this
  obtain ⟨r1, hr1, hcount1⟩ := hdrawn1.first hrs (by omega)
  have hmach1 : k.withMach s1 = some (k.setMach s1) := Kern.withMach_of_length (by rw [hrs, hr1]; rfl)
  -- the area
  obtain ⟨node, prev, fl', harea, hk2, hext⟩ := kmalloc_area A cr3 rounds (k := k.setMach s1)
    ⟨hk.init, hk.list, hk.top, hk.inside⟩ hg.follows hg.spare
  obtain ⟨l', hplace, hvalid⟩ := mmap_place hk hs hg
  have hmmap : mmap (kmalloc A cr3 (rounds + 1)) (k.setMach s1) (k.space.listFor k.top) k.top =
      some (((k.setMach s1).take node prev sizeofVma).setMmap (k.space.listFor k.top) l', k.top) :=
    mmap_eq (hs.areas (k.space.listFor k.top)) harea (Nat.succ_ne_zero _) rfl (top_ne hk hg).2 hplace
  -- the tables
  have hw1 : WellFormed (· ≠ selfRefEntry) s1 (· = cr3) := hs.tables.congr (fun q _ => by rw [hmem]) hlisted hbase hsub
  have hself1 : SelfRef s1 cr3 := hs.self.congr (by rw [hmem])
  have hphys : ∀ q ∈ pages, ofNat 64 q ≠ 0 := by
    intro q hq hc
    have hzero := congrArg BitVec.toNat hc
    rw [(hs.tables.free q (hpages q hq)).toNat] at hzero
    exact (hs.pages.listed.page q (hpages q hq)).2.1 hzero
  have hfree1 := count_le_freeCount hr1
  obtain ⟨s2, (hmap : mapPages cr3 pageTransReadWrite pages _ s1 = some s2), hw2, hself2⟩ :=
    mapPages_spec hw1 hself1 hphys (by rw [hlen]; exact hg.slot) (by omega)
  have hdrawn2 := mapPages_drawn hmap
  rw [hlen] at hdrawn2
  obtain ⟨r2, hr2, -⟩ := hdrawn2.first hr1 (by omega)
  generalize hmid : ((k.setMach s1).take node prev sizeofVma).setMmap (k.space.listFor k.top) l' = k2 at hmmap
  have hspace : k2.space = { k.space with
      mach := s1, mmaps := Function.update k.space.mmaps (k.space.listFor k.top) l' } := by
    rw [← hmid, Kern.setMmap_space, Kern.take_space, Kern.setMach_space]
  have hheap : k2.heap = ((k.setMach s1).take node prev sizeofVma).heap := by rw [← hmid, Kern.setMmap_heap]
  have hlive : k2.live = ((k.setMach s1).take node prev sizeofVma).live := by rw [← hmid, Kern.setMmap_live]
  have hpages : k2.pages = ((k.setMach s1).take node prev sizeofVma).pages := by rw [← hmid, Kern.setMmap_pages]
  have hmach2 : k2.withMach s2 = some (k2.setMach s2) := Kern.withMach_of_length (by rw [hspace, hr2]; simp [hr1])
  refine ⟨k2.setMach s2, fl', vAllocPagesAtVirt_eq htake hmach1 hmmap (top_ne hk hg).1 (by rw [hspace]; exact hmap)
    hmach2, ⟨?_, ?_, ?_, ?_⟩, ?_, ⟨hdrawn2.inv (hdrawn1.inv hs.pages), hw2, hself2, fun j => ?_⟩, ?_, ?_⟩
  · rw [setMach_heap, hheap]
    exact hk2.init
  · rw [setMach_heap, Kern.setMach_live, hheap, hlive]
    exact hk2.list
  · rw [setMach_heap, hheap]
    exact hk2.top
  · rw [Kern.setMach_pages, hpages]
    exact hk2.inside
  · rw [setMach_heap, hheap]
    exact hext
  · show Vma.Valid (k2.space.mmaps j)
    rw [hspace]
    show Vma.Valid (Function.update k.space.mmaps (k.space.listFor k.top) l' j)
    by_cases hj : j = k.space.listFor k.top
    · rw [hj, Function.update_self]
      exact hvalid
    · rw [Function.update_of_ne hj]
      exact hs.areas j
  · rw [setMach_heap, hheap, take_heap, Kmalloc.take_deviceMemorySetUp, setMach_heap]
  · have := (hdrawn1.trans hdrawn2).freeCount_le.2
    exact this

/-- One growth adds ten pages to the last free block, and takes at most three tables for each of them. -/
private theorem growHeap_spec (rounds : Nat) : ∃ k' E' fl',
    growHeap cr3 (kmalloc A cr3 (rounds + 1)) k = some (k', true) ∧ HeapOk A k' E' fl' ∧ Sound cr3 k'.space ∧
      k'.heap.deviceMemorySetUp = k.heap.deviceMemorySetUp ∧ (∃ p ∈ fl', growth ≤ freeSize k'.heap.mem p) ∧
      k.freePages ≤ k'.freePages + growthPages := by
  obtain ⟨k₁, fl1, halloc, hk1, hext, hs1, hdev, hcost⟩ := vAllocPagesAtVirt_spec hk hs hg rounds
  have htop : add64 k.heap.lastKmAddr growth = k.heap.lastKmAddr + growth := Nat.mod_eq_of_lt hg.fits
  have F1 : FreeList E { k₁.heap with lastKmAddr := add64 k.heap.lastKmAddr growth } fl1 k₁.live :=
    ⟨hk1.list.seg, hk1.list.layout⟩
  have hext1 : Kmalloc.Extends { k₁.heap with lastKmAddr := add64 k.heap.lastKmAddr growth } k.heap.lastKmAddr := by
    unfold Kmalloc.Extends at hext ⊢
    exact hext
  obtain ⟨hstart, m, E', hadd, hstart', hstop, F', hlarge⟩ :=
    Kmalloc.addPages_freeList F1 hext1 (Nat.le_of_eq hk.top.symm) hg.fits
  refine ⟨{ k₁ with
      heap := { k₁.heap with lastKmAddr := add64 k.heap.lastKmAddr growth, mem := m },
      pages := k₁.pages ++ [k.heap.lastKmAddr] }, E', fl1, ?_, ⟨hk1.init, F', ?_, fun x h1 h2 => ?_⟩, hs1, hdev,
        hlarge, ?_⟩
  · unfold growHeap
    have halloc' : vAllocPagesAtVirt cr3 (kmalloc A cr3 (rounds + 1)) k (ofNat 64 k.heap.lastKmAddr) =
      some (k₁, k.top) := halloc
    simp only [halloc', toNat_top hg, (top_ne hk hg).1, hadd, bind_eq_bind, bind_some, if_false]
    rfl
  · rw [htop, hstop, hstart]
  · by_cases hx : x < E.stop
    · obtain hstatic | ⟨start, hmem, hin⟩ := hk1.inside x (by omega) hx
      · exact .inl hstatic
      · exact .inr ⟨start, mem_append_left _ hmem, hin⟩
    · -- the address is in the new pages
      exact .inr ⟨k.heap.lastKmAddr, by simp, by omega, by omega⟩
  · exact hcost

end Grow

/-- If the call finds no block, the heap can grow, and one growth is enough. -/
def GrowOk (k : Kern) (bytes : Nat) : Prop :=
  bytes ≠ 0 → k.heap.deviceMemorySetUp = true → (∃ prev, scan k.heap.mem bytes k.heap.head = some (0, prev)) →
    bytes ≤ growth ∧ CanGrow k

/-- A call returns, keeps the heap in order, and takes the pages of one growth at most. -/
private theorem kmalloc_spec (rounds : Nat) (hk : HeapOk A k E fl) (hs : Sound cr3 k.space) (hok : GrowOk k bytes) :
    ∃ k' p E' fl', kmalloc A cr3 (rounds + 3) k bytes = some (k', p) ∧ HeapOk A k' E' fl' ∧ Sound cr3 k'.space ∧
      (bytes ≠ 0 → k.heap.deviceMemorySetUp = true → p ≠ 0) ∧ k.freePages ≤ k'.freePages + growthPages := by
  have hinit := init_of_done (A := A) hk.init
  by_cases hb : bytes = 0
  · refine ⟨k, 0, E, fl, ?_, hk, hs, fun hc => absurd hb hc, Nat.le_add_right _ _⟩
    rw [kmalloc, hinit, hb]
    rfl
  obtain ⟨hscan, hsmall⟩ | ⟨l1, p, l2, hfl, -, -, hscan⟩ := scan_eq bytes hk.list
  swap
  · -- a block is found
    obtain ⟨fl', he, hk', -⟩ :=
      kmalloc_block A cr3 (rounds + 2) hk hb hscan (hk.list.layout.ne_zero (by rw [hfl]; simp))
    exact ⟨_, _, E, fl', he, hk', hs, fun _ _ => Nat.succ_ne_zero _, Nat.le_add_right _ _⟩
  by_cases hdev : k.heap.deviceMemorySetUp = true
  swap
  · refine ⟨k, 0, E, fl, ?_, hk, hs, fun _ hc => absurd hc hdev, Nat.le_add_right _ _⟩
    rw [kmalloc, hinit]
    simp only [bind_eq_bind, hb, hscan, hdev, if_false, bind_some, ne_eq, not_true_eq_false]
    rfl
  -- the heap grows, and then has a block
  obtain ⟨hle, hg⟩ := hok hb hdev ⟨_, hscan⟩
  obtain ⟨k₁, E1, fl1, hgrow, hk1, hs1, -, ⟨q, hq, hlarge⟩, hcost⟩ := growHeap_spec hk hs hg (rounds + 1)
  obtain ⟨-, hsmall⟩ | ⟨l1, p, l2, hfl, -, -, hscan1⟩ := scan_eq bytes hk1.list
  · have := hsmall q hq
    omega
  obtain ⟨fl', he, hk', -⟩ :=
    kmalloc_block A cr3 (rounds + 1) hk1 hb hscan1 (hk1.list.layout.ne_zero (by rw [hfl]; simp))
  refine ⟨_, p + flSize, E1, fl', ?_, hk', hs1, fun _ _ => Nat.succ_ne_zero _, hcost⟩
  rw [kmalloc_grow hb (by rw [hinit]; exact hscan) (by rw [hinit]; exact hdev), hinit, hgrow]
  exact he

/-- What keeps the heap in order: a call that finds no block can grow the heap, and the link of a block freed above all
free blocks is `NULL`. -/
def StepOk (A : Arena) (k : Kern) : Op → Prop
  | .call (.kmalloc bytes) => GrowOk (k.init A) bytes
  | .call op => Kmalloc.LinkOk ⟨k.heap, k.live⟩ op
  | _ => True

structure Inv (A : Arena) (cr3 : Nat) (k : Kern) : Prop where
  sound : Sound cr3 k.space
  fresh : k.heap.initStaticPagesDone = false → k.heap.head = 0 ∧ k.live = []
  heap : k.heap.initStaticPagesDone = true → ∃ E fl, HeapOk A k E fl

private theorem start_inv {m : Bytes} {space : Space} {nodes : List Nat} (hs : Sound cr3 space) :
    Inv A cr3 (start m space nodes head) := ⟨hs, fun _ => ⟨rfl, rfl⟩, nofun⟩

private theorem Inv.init (I : Inv A cr3 k) : ∃ E fl, HeapOk A (k.init A) E fl := by
  cases hinit : k.heap.initStaticPagesDone with
  | true =>
    rw [init_of_done hinit]
    exact I.heap hinit
  | false =>
    rw [Kern.init_of_not_done hinit]
    refine ⟨A.extent, [A.kmStatic], rfl, ?_, rfl, fun x h1 h2 => .inl ⟨h1, h2⟩⟩
    rw [(I.fresh hinit).2]
    exact Kmalloc.initStaticPages_freeList k.heap

private theorem Inv.of_heapOk (hs : Sound cr3 k.space) (hk : HeapOk A k E fl) : Inv A cr3 k := by
  refine ⟨hs, fun hc => ?_, fun _ => ⟨E, fl, hk⟩⟩
  rw [hk.init] at hc
  cases hc

private theorem kmalloc_init : kmalloc A cr3 rounds k bytes = kmalloc A cr3 rounds (k.init A) bytes := by
  have hdone : (k.init A).init A = k.init A := by
    cases hinit : k.heap.initStaticPagesDone with
    | true => rw [init_of_done hinit, init_of_done hinit]
    | false =>
      rw [Kern.init_of_not_done hinit]
      exact init_of_done rfl
  cases rounds with
  | zero => rfl
  | succ rounds => rw [kmalloc, kmalloc, hdone]

private theorem Inv.kmalloc (I : Inv A cr3 k) (rounds : Nat) (hok : GrowOk (k.init A) bytes) :
    ∃ k' p, KernelHeap.kmalloc A cr3 (rounds + 3) k bytes = some (k', p) ∧ Inv A cr3 k' ∧
      (bytes ≠ 0 → k.heap.deviceMemorySetUp = true → p ≠ 0) ∧ k.freePages ≤ k'.freePages + growthPages := by
  obtain ⟨E, fl, hk⟩ := I.init
  have hspace := Kern.init_space (k := k) (A := A)
  have hdev : (k.init A).heap.deviceMemorySetUp = k.heap.deviceMemorySetUp := by
    unfold Kern.init
    split <;> rfl
  obtain ⟨k', p, E', fl', he, hk', hs', hp, hcost⟩ := kmalloc_spec rounds hk (by rw [hspace]; exact I.sound) hok
  rw [hdev] at hp
  have hpages : (k.init A).freePages = k.freePages := by
    unfold Kern.freePages
    rw [hspace]
  rw [hpages] at hcost
  exact ⟨k', p, kmalloc_init.trans he, Inv.of_heapOk hs' hk', hp, hcost⟩

/-- Each step that meets its conditions keeps the invariant. -/
theorem step_inv (k : Kern) (op : Op) (I : Inv A cr3 k) (hop : CallOk cr3 k op ∧ StepOk A k op) :
    ∃ k', step A cr3 k op = some k' ∧ Inv A cr3 k' := by
  obtain ⟨hcall, hok⟩ := hop
  cases op with
  | setUpDone =>
    refine ⟨_, rfl, I.sound, I.fresh, fun hinit => ?_⟩
    obtain ⟨E, fl, hk⟩ := I.heap hinit
    exact ⟨E, fl, hk.init, ⟨hk.list.seg, hk.list.layout⟩, hk.top, hk.inside⟩
  | other space nodes =>
    refine ⟨_, rfl, hcall, I.fresh, fun hinit => ?_⟩
    obtain ⟨E, fl, hk⟩ := I.heap hinit
    exact ⟨E, fl, hk.init, hk.list, hk.top, hk.inside⟩
  | call op =>
    cases op with
    | kmalloc bytes =>
      obtain ⟨n, hn⟩ : ∃ n, Kmalloc.addrSpace = n + 3 := ⟨2 ^ 64 - 3, by decide⟩
      obtain ⟨k', p, he, I', -⟩ := I.kmalloc n hok
      refine ⟨k', ?_, I'⟩
      show (KernelHeap.kmalloc A cr3 Kmalloc.addrSpace k bytes).map Prod.fst = some k'
      rw [hn, he]
      rfl
    | store x b =>
      obtain ⟨a, ha, hx⟩ := hcall
      refine ⟨_, rfl, I.sound, fun hinit => ?_, fun hinit => ?_⟩
      · rw [(I.fresh hinit).2] at ha
        cases ha
      · obtain ⟨E, fl, hk⟩ := I.heap hinit
        exact ⟨E, fl, hk.init, Kmalloc.store_freeList hk.list ⟨a, ha, hx⟩, hk.top, hk.inside⟩
    | kfree ptr =>
      obtain ⟨a, ha, rfl⟩ := hcall
      have hinit : k.heap.initStaticPagesDone = true := by
        by_contra hc
        rw [(I.fresh (Bool.not_eq_true _ ▸ hc)).2] at ha
        cases ha
      obtain ⟨E, fl, hk⟩ := I.heap hinit
      obtain ⟨h', fl', he, hi', -, F'⟩ := Kmalloc.kfree_freeList hk.list ha
        fun hall => hok fun p hp => hall p (hk.list.onFreeList_iff.1 hp)
      refine ⟨{ k with heap := h', live := k.live.filter fun b => b.ptr ≠ a.ptr }, ?_, Inv.of_heapOk I.sound
        ⟨hi'.trans hinit, F', (Kmalloc.kfree_lastKmAddr he).trans hk.top, hk.inside⟩⟩
      show (Kmalloc.kfree k.heap a.ptr).map _ = _
      rw [he]
      rfl

/-- In every run in which each call that finds no block can grow the heap, and each `kfree` above all free blocks finds
`NULL` in the header, a `kmalloc` of at most a page ends after the setup, does not return `NULL`, and takes at most
`growthPages` pages. -/
theorem growth_progress (A : Arena) (cr3 : Nat) (m : Bytes) (space : Space) (nodes : List Nat) (head : VmArea)
    (hs : Sound cr3 space) (ops : List Op) (bytes : Nat) (h0 : 0 < bytes) (hle : bytes ≤ 4096)
    (h : Permitted (step A cr3) (fun k op => CallOk cr3 k op ∧ StepOk A k op) (start m space nodes head)
      (ops ++ [.call (.kmalloc bytes)])) : ∃ k, run (step A cr3) (start m space nodes head) ops = some k ∧
      (k.heap.deviceMemorySetUp = true → growthPages ≤ k.freePages → Progress A cr3 growthPages k bytes) := by
  obtain ⟨k, hk, I⟩ := run_invariant step_inv (start_inv hs) h.left
  refine ⟨k, hk, fun hdev _ => ?_⟩
  obtain ⟨⟨-, hok⟩, -⟩ := h.right hk
  obtain ⟨k', p, he, -, hp, hcost⟩ := I.kmalloc 0 hok
  exact ⟨3, k', p, he, hp (by omega) hdev, hcost⟩

private def almostFull : Heap :=
  Kmalloc.take (Kmalloc.initStaticPages kernelArena (Kmalloc.boot fun _ => 0)) 0xffffffff80400000 0 (kmStaticSize - 232)

private theorem canGrow_almostFull (live : List Alloc) : CanGrow ⟨{ almostFull with deviceMemorySetUp := true }, live,
    freeSpace 50 (by decide), [], ⟨0, 0, 0, 0, 0⟩, []⟩ := by
  have htop : top ⟨{ almostFull with deviceMemorySetUp := true }, live, freeSpace 50 (by decide), [],
      ⟨0, 0, 0, 0, 0⟩, []⟩ = 0xffffffff82c00000 := by
    rfl
  refine ⟨?_, ?_, ?_, ?_, ?_, ⟨0x2000, 50⟩, ?_, by decide⟩
  · dsimp only
    decide +kernel
  · dsimp only
    exact ⟨0xffffffff82bfff28, 0, by decide +kernel, by decide, fun _ => by decide +kernel⟩
  · rw [htop]
    show (Vma.mmap ⟨true, ⟨0, 0, 0, 0, 0⟩⟩ [] 0xffffffff82c00000 Vma.sizeofPage pageTransReadWrite mapAnonymous).2 = _
    decide +kernel
  · dsimp only
    decide
  · rw [htop]
    decide +kernel
  · rfl

private theorem step_almostFull :
      ∃ live, step kernelArena 0x1000 (start (fun _ => 0) (freeSpace 50 (by decide)) [] ⟨0, 0, 0, 0, 0⟩)
      (.call (.kmalloc (kmStaticSize - 232))) =
    some ⟨almostFull, live, freeSpace 50 (by decide), [], ⟨0, 0, 0, 0, 0⟩, []⟩ := by
  obtain ⟨live, h⟩ : ∃ live, kmalloc kernelArena 0x1000 Kmalloc.addrSpace
      (start (fun _ => 0) (freeSpace 50 (by decide)) [] ⟨0, 0, 0, 0, 0⟩) (kmStaticSize - 232) =
        some (⟨almostFull, live, freeSpace 50 (by decide), [], ⟨0, 0, 0, 0, 0⟩, []⟩, add64 0xffffffff80400000 flSize) :=
    kmalloc_boot 0x1000 (kmStaticSize - 232) (by decide) (by decide +kernel) (freeSpace 50 (by decide)) []
      ⟨0, 0, 0, 0, 0⟩
  exact ⟨live, by simp only [step, h, map_some]⟩

/-- A run whose last call has to grow the heap, and can. -/
theorem permitted_almostFull :
    Permitted (step kernelArena 0x1000) (fun k op => CallOk 0x1000 k op ∧ StepOk kernelArena k op)
    (start (fun _ => 0) (freeSpace 50 (by decide)) [] ⟨0, 0, 0, 0, 0⟩)
    [.call (.kmalloc (kmStaticSize - 232)), .setUpDone, .call (.kmalloc 4096)] := by
  obtain ⟨live, hstep⟩ := step_almostFull
  refine ⟨⟨(by decide : kmStaticSize - 232 < Kmalloc.addrSpace), fun _ hdev => ?_⟩, fun k hk => ?_⟩
  · cases hdev
  obtain rfl := some.inj (hstep.symm.trans hk)
  refine ⟨⟨trivial, trivial⟩, fun k hk => ⟨⟨(by decide : 4096 < Kmalloc.addrSpace), ?_⟩, fun _ _ => trivial⟩⟩
  cases hk
  exact fun _ _ _ => ⟨by decide, canGrow_almostFull live⟩

theorem growth_progress_once : ∃ k, run (step kernelArena 0x1000)
      (start (fun _ => 0) (freeSpace 50 (by decide)) [] ⟨0, 0, 0, 0, 0⟩)
      [.call (.kmalloc (kmStaticSize - 232)), .setUpDone] = some k ∧
    k.heap.deviceMemorySetUp = true ∧ growthPages ≤ k.freePages ∧ Progress kernelArena 0x1000 growthPages k 4096 := by
  obtain ⟨live, hstep⟩ := step_almostFull
  obtain ⟨k, hk, hprogress⟩ := growth_progress kernelArena 0x1000 (fun _ => 0) (freeSpace 50 (by decide)) []
    ⟨0, 0, 0, 0, 0⟩ (sound_freeSpace (by decide) (by decide))
    [.call (.kmalloc (kmStaticSize - 232)), .setUpDone] 4096 (by decide) (by decide) permitted_almostFull
  have hend : run (step kernelArena 0x1000) (start (fun _ => 0) (freeSpace 50 (by decide)) [] ⟨0, 0, 0, 0, 0⟩)
      [.call (.kmalloc (kmStaticSize - 232)), .setUpDone] = some ⟨{ almostFull with deviceMemorySetUp := true }, live,
        freeSpace 50 (by decide), [], ⟨0, 0, 0, 0, 0⟩, []⟩ := by
    rw [run, hstep]
    rfl
  cases hk.symm.trans hend
  have hpages : growthPages ≤ freeCount (freeSpace 50 (by decide)).mach.pages := by
    decide
  exact ⟨_, hk, rfl, hpages, hprogress rfl hpages⟩

open Kmalloc (InPages Increasing OnFreeList)

variable {E : Extent} {k : Kern} {fl : List Nat} {cr3 : Nat}

/-- Every block, free or given out, lies with its header and its recorded size in `km_static` and the pages obtained. -/
structure Contained (A : Arena) (k : Kern) : Prop where
  free : ∀ p, OnFreeList k.heap p → ∀ x, p ≤ x → x < p + flSize + freeSize k.heap.mem p → InPages A k.pages x
  live : ∀ a ∈ k.live, ∀ x, a.hdr ≤ x → x < a.hdr + flSize + freeSize k.heap.mem a.hdr → InPages A k.pages x

private theorem head_ne_zero {h : Kmalloc.Heap} {p : Nat} (hp : OnFreeList h p) : h.head ≠ 0 := by
  induction hp with
  | head hne => exact hne
  | next _ _ ih => exact ih

private theorem HeapOk.contained (hk : HeapOk A k E fl) : Contained A k := by
  have hblock : ∀ p ∈ Kmalloc.blocks fl k.live, ∀ x, p ≤ x → x < p + flSize + freeSize k.heap.mem p →
      InPages A k.pages x := by
    intro p hp x h1 h2
    have hin := hk.list.layout.tiled.inside p hp
    unfold flSize at h2
    exact hk.inside x (by omega) (by omega)
  constructor
  · intro p hp
    exact hblock p (Kmalloc.mem_blocks.2 (.inl (hk.list.onFreeList_iff.1 hp)))
  · intro a ha
    exact hblock a.hdr (Kmalloc.mem_blocks.2 (.inr ⟨a, ha, rfl⟩))

/-- The invariant of the heap keeps all blocks inside. -/
private theorem Inv.contained (I : Inv A cr3 k) : Contained A k := by
  cases hinit : k.heap.initStaticPagesDone with
  | true =>
    obtain ⟨E, fl, hk⟩ := I.heap hinit
    exact hk.contained
  | false =>
    -- before the first call there are no blocks
    obtain ⟨hhead, hlive⟩ := I.fresh hinit
    constructor
    · intro p hp
      exact absurd hhead (head_ne_zero hp)
    · intro a ha
      rw [hlive] at ha
      cases ha

/-- In every run in which each call that finds no block can grow the heap, and each `kfree` above all free blocks finds
`NULL` in the header, every call returns and every block lies in `km_static` and the pages obtained. -/
theorem growth_contained (A : Arena) (cr3 : Nat) (m : Bytes) (space : Space) (nodes : List Nat) (head : VmArea)
    (hs : Sound cr3 space) (ops : List Op)
    (h : Permitted (step A cr3) (fun k op => CallOk cr3 k op ∧ StepOk A k op) (start m space nodes head) ops) :
    ∃ k, run (step A cr3) (start m space nodes head) ops = some k ∧ Contained A k := by
  obtain ⟨k, hk, I⟩ := run_invariant step_inv (start_inv hs) h
  exact ⟨k, hk, I.contained⟩

theorem growth_contained_merge : ∃ k, run (step kernelArena 0x1000)
      (start (fun _ => 0) (freeSpace 50 (by decide)) [] ⟨0, 0, 0, 0, 0⟩)
      [.call (.kmalloc (Kmalloc.kmStaticSize - 232)), .setUpDone, .call (.kmalloc 4096)] = some k ∧
    k.pages = [0xffffffff82c00000] ∧ Contained kernelArena k := by
  obtain ⟨k, hk, hc⟩ := growth_contained kernelArena 0x1000 (fun _ => 0) (freeSpace 50 (by decide)) [] ⟨0, 0, 0, 0, 0⟩
    (sound_freeSpace (by decide) (by decide)) _ permitted_almostFull
  have hpages : (run (step kernelArena 0x1000) (start (fun _ => 0) (freeSpace 50 (by decide)) [] ⟨0, 0, 0, 0, 0⟩)
      [.call (.kmalloc (Kmalloc.kmStaticSize - 232)), .setUpDone, .call (.kmalloc 4096)]).map Kern.pages =
        some [0xffffffff82c00000] := by
    decide +kernel
  rw [hk] at hpages
  exact ⟨k, hk, Option.some.inj hpages, hc⟩

/-- The first block is for the node of the free pages. The second is freed again and is then the only free block, with
room for an area, but not for the last call. -/
private def spareBelow : List Op :=
  [.call (.kmalloc 32), .call (.kmalloc 160), .call (.kmalloc (Kmalloc.kmStaticSize - 240)), .setUpDone,
    .call (.kfree 0xffffffff80400040), .call (.kmalloc 200)]

private def NoOther (k : Kern) : Op → Prop
  | .call op => Kmalloc.CallOk ⟨k.heap, k.live⟩ op
  | .setUpDone => True
  | .other _ _ => False

private instance (k : Kern) : ∀ op, Decidable (NoOther k op)
  | .call op => inferInstanceAs (Decidable (Kmalloc.CallOk ⟨k.heap, k.live⟩ op))
  | .setUpDone => .isTrue trivial
  | .other _ _ => .isFalse id

private theorem NoOther.callOk {op : Op} (h : NoOther k op) : CallOk cr3 k op := by
  cases op with
  | call op => exact h
  | setUpDone => trivial
  | other space nodes => exact h.elim

/-- The heap does not stay inside its pages in every run: when the last free block does not reach up to the pages, they
become a block of their own. -/
theorem growth_past_pages : ¬ ∀ (A : Arena) (cr3 : Nat) (m : Bytes) (space : Space) (nodes : List Nat) (head : VmArea)
    (ops : List Op), Sound cr3 space → Permitted (step A cr3) (CallOk cr3) (start m space nodes head) ops →
      ∀ k, run (step A cr3) (start m space nodes head) ops = some k →
        Increasing (A.kmStatic + Kmalloc.kmStaticSize) k.pages → Contained A k := by
  intro hall
  obtain ⟨k, hk, hpages, hhead, hnext, hsize⟩ : ∃ k ∈ run (step kernelArena 0x1000)
      (start (fun _ => 0) (freeSpace 50 (by decide)) [0xffffffff80400010] ⟨0, 0, 0, 0, 0⟩) spareBelow,
        k.pages = [0xffffffff82c00000] ∧ k.heap.head = 0xffffffff80400078 ∧
          Kmalloc.freeAddr k.heap.mem 0xffffffff80400078 = 0xffffffff82c000d8 ∧
          freeSize k.heap.mem 0xffffffff82c000d8 = 40744 := by
    decide +kernel
  have hperm : Permitted (step kernelArena 0x1000) NoOther
      (start (fun _ => 0) (freeSpace 50 (by decide)) [0xffffffff80400010] ⟨0, 0, 0, 0, 0⟩) spareBelow := by
    decide +kernel
  have hc := hall kernelArena 0x1000 (fun _ => 0) (freeSpace 50 (by decide)) [0xffffffff80400010] ⟨0, 0, 0, 0, 0⟩
    spareBelow (sound_freeSpace (by decide) (by decide)) (hperm.mono fun _ _ h => h.callOk) k hk
    (by rw [hpages]; decide)
  have hon : OnFreeList k.heap 0xffffffff82c000d8 := by
    have hfirst : OnFreeList k.heap k.heap.head := .head (by rw [hhead]; decide)
    rw [hhead] at hfirst
    rw [← hnext]
    exact .next hfirst (by rw [hnext]; decide)
  -- the first address behind the pages belongs to the block
  have hin := hc.free 0xffffffff82c000d8 hon (0xffffffff82c00000 + Kmalloc.growth) (by decide) (by rw [hsize]; decide)
  rw [hpages] at hin
  rcases hin with ⟨-, hlt⟩ | ⟨start, hmem, -, hlt⟩
  · revert hlt
    decide
  · rw [mem_singleton.1 hmem] at hlt
    exact Nat.lt_irrefl _ hlt

end Adix.KernelHeap
