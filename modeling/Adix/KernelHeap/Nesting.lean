import Adix.KernelHeap.Defs
import Adix.Vma.Drawn

/-!
# The heap without a free block

To grow, the heap needs an area, and for the area it needs a free block.
-/

namespace Adix.KernelHeap

open Kmalloc (Arena Heap kmPagesAdd add64 flSize)
open PageTable PhysPages Vma.Pages Option
open Vma (VmArea)
open BitVec (ofNat)
open Kmalloc (kmStaticSize take scan boot initStaticPages)

variable {k k' : Kern} {s : Mach} {A : Arena} {cr3 n p bytes rounds c : Nat} {virt addr : Word} {i : ListId}
  {v : VmArea} {malloc : Kern → Nat → Option (Kern × Nat)} {grown : Bool}

private theorem kfree_space (h : kfree k p = some k') : k'.space = k.space := by
  obtain ⟨heap, -, rfl⟩ := map_eq_some_iff.1 h
  rfl

private theorem freeNodes_space (h : freeNodes n k = some k') : k'.space = k.space := by
  induction n generalizing k with
  | zero =>
    cases h
    rfl
  | succ n ih =>
    unfold freeNodes at h
    split at h
    · cases h
    · obtain ⟨k1, h1, h⟩ := bind_eq_some_iff.1 h
      rw [ih h, kfree_space h1]

private theorem withMach_freePages (h : k.withMach s = some k') : k'.freePages = freeCount s.pages := by
  unfold Kern.freePages
  rw [freeNodes_space h]
  rfl

section Mono

variable (hm : ∀ {k bytes k' p}, malloc k bytes = some (k', p) → k'.freePages ≤ k.freePages)
include hm

private theorem addVmaGrowable_freePages {r : Int} (h : addVmaGrowable malloc k i v = some (k', r)) :
    k'.freePages ≤ k.freePages := by
  unfold addVmaGrowable at h
  split at h
  · cases h
    exact Nat.le_refl _
  · simp only [bind_eq_bind] at h
    obtain ⟨⟨k1, p⟩, h1, h⟩ := bind_eq_some_iff.1 h
    have hle : k1.freePages ≤ k.freePages := hm h1
    split at h
    · cases h
      exact hle
    · cases h
      exact hle

private theorem mmap_freePages (h : mmap malloc k i virt = some (k', addr)) : k'.freePages ≤ k.freePages := by
  unfold mmap at h
  simp only [bind_eq_bind] at h
  obtain ⟨⟨k1, r⟩, h1, h⟩ := bind_eq_some_iff.1 h
  split at h
  · cases h
    exact addVmaGrowable_freePages hm h1
  · cases h
    exact addVmaGrowable_freePages hm h1

private theorem vAllocPagesAtVirt_freePages (h : vAllocPagesAtVirt cr3 malloc k virt = some (k', addr)) :
    k'.freePages ≤ k.freePages := by
  have hdrawn := (takePages_drawn kmPagesAdd k.space.mach).freeCount_le.1
  unfold vAllocPagesAtVirt at h
  split at h
  · rename_i s htake
    obtain ⟨k1, h1, heq⟩ := map_eq_some_iff.1 h
    cases heq
    rw [htake] at hdrawn
    rw [withMach_freePages h1]
    exact hdrawn
  · rename_i s pages htake
    rw [htake] at hdrawn
    simp only [bind_eq_bind] at h
    obtain ⟨k1, h1, h⟩ := bind_eq_some_iff.1 h
    obtain ⟨⟨k2, a⟩, h2, h⟩ := bind_eq_some_iff.1 h
    have hle : k2.freePages ≤ k.freePages := by
      refine Nat.le_trans (mmap_freePages hm h2) ?_
      rw [withMach_freePages h1]
      exact hdrawn
    split at h
    · cases h
      exact hle
    · obtain ⟨s', hs', h⟩ := bind_eq_some_iff.1 h
      obtain ⟨k3, h3, h⟩ := bind_eq_some_iff.1 h
      cases h
      rw [withMach_freePages h3]
      exact Nat.le_trans (mapPages_drawn hs').freeCount_le.1 hle

private theorem growHeap_freePages (h : growHeap cr3 malloc k = some (k', grown)) : k'.freePages ≤ k.freePages := by
  unfold growHeap at h
  simp only [bind_eq_bind] at h
  obtain ⟨⟨k1, a⟩, h1, h⟩ := bind_eq_some_iff.1 h
  have hle : freeCount k1.space.mach.pages ≤ k.freePages := vAllocPagesAtVirt_freePages hm h1
  split at h
  · cases h
    exact hle
  · obtain ⟨heap, -, h⟩ := bind_eq_some_iff.1 h
    cases h
    exact hle

end Mono

theorem Kern.init_space : (k.init A).space = k.space := by
  unfold Kern.init
  split <;> rfl

private theorem kmalloc_freePages (h : kmalloc A cr3 rounds k bytes = some (k', p)) : k'.freePages ≤ k.freePages := by
  have hinit : (k.init A).freePages = k.freePages := by
    unfold Kern.freePages
    rw [Kern.init_space]
  induction rounds generalizing k k' bytes p with
  | zero => cases h
  | succ rounds ih =>
    have hm : ∀ {k bytes k' p}, kmalloc A cr3 rounds k bytes = some (k', p) → k'.freePages ≤ k.freePages := by
      intro k bytes k' p h
      refine ih h ?_
      unfold Kern.freePages
      rw [Kern.init_space]
    rw [← hinit]
    obtain ⟨rfl, -⟩ | ⟨node, prev, -, rfl, -⟩ | ⟨k1, grown, hg, h⟩ := kmalloc_cases h
    · exact Nat.le_refl _
    · exact Nat.le_refl _
    · have hle := growHeap_freePages hm hg
      obtain ⟨-, h⟩ | ⟨-, rfl, -⟩ := h
      · exact Nat.le_trans (hm h) hle
      · exact hle

/-- There is no free block, the free pages are one run, and the lists of areas are empty. -/
structure Starved (k : Kern) : Prop where
  init : k.heap.initStaticPagesDone = true
  setUp : k.heap.deviceMemorySetUp = true
  noBlock : k.heap.head = 0
  listed : Listed k.space.mach.pages
  oneRun : ∃ r, k.space.mach.pages.physFreeList = [r]
  areas : ∀ i, k.space.mmaps i = []
  fits : ofNat 64 k.heap.lastKmAddr < ofNat 64 k.heap.lastKmAddr + Vma.sizeofPage

private theorem mmap_starved (hk : Starved k) (h : mmap malloc k i (ofNat 64 k.heap.lastKmAddr) = some (k', addr)) :
    ∃ k1 p, malloc k sizeofVma = some (k1, p) ∧ k'.freePages = k1.freePages := by
  have hplace : ∀ prot flags maxSize, findPlace k.head ⟨ofNat 64 k.heap.lastKmAddr,
      ofNat 64 k.heap.lastKmAddr + Vma.sizeofPage, prot, flags, maxSize⟩ (k.space.mmaps i) = some .tail := by
    intro prot flags maxSize
    unfold findPlace
    rw [if_neg (BitVec.not_le.2 hk.fits), hk.areas]
    rfl
  have hgap : Vma.getUnmappedArea (k.space.mmaps i) (ofNat 64 k.heap.lastKmAddr) Vma.sizeofPage =
      ofNat 64 k.heap.lastKmAddr := by
    rw [hk.areas]
    rfl
  unfold mmap addVmaGrowable at h
  simp only [hgap, hplace, bind_eq_bind] at h
  obtain ⟨⟨k2, r⟩, h2, h⟩ := bind_eq_some_iff.1 h
  obtain ⟨⟨k1, p⟩, h1, h2⟩ := bind_eq_some_iff.1 h2
  have hpages : k2.freePages = k1.freePages := by
    split at h2
    · cases h2
      rfl
    · cases h2
      rfl
  refine ⟨k1, p, h1, ?_⟩
  split at h
  · cases h
    exact hpages
  · cases h
    exact hpages

section Starved

variable (hk : Starved k) (hc : kmPagesAdd < k.freePages)
include hk hc

private theorem vAllocPagesAtVirt_starved
    (h : vAllocPagesAtVirt cr3 malloc k (ofNat 64 k.heap.lastKmAddr) = some (k', addr)) :
    ∃ k1 k2 p, Starved k1 ∧ malloc k1 sizeofVma = some (k2, p) ∧ k'.freePages ≤ k2.freePages := by
  obtain ⟨s, pages, htake, -, -, -, hlisted, -, -⟩ := takePages_spec hk.listed (Nat.le_of_lt hc)
  have hdrawn := takePages_drawn kmPagesAdd k.space.mach
  rw [htake] at hdrawn
  obtain ⟨r, hr⟩ := hk.oneRun
  have hcount : kmPagesAdd < r.count := by
    unfold Kern.freePages freeCount at hc
    rw [hr] at hc
    simpa using hc
  -- the run is not used up, so that no node is freed
  obtain ⟨r', hr', -⟩ := hdrawn.first hr hcount
  have hmach : k.withMach s = some (k.setMach s) := Kern.withMach_of_length (by rw [hr, hr']; rfl)
  have hk1 : Starved (k.setMach s) := ⟨hk.init, hk.setUp, hk.noBlock, hlisted, ⟨r', hr'⟩, hk.areas, hk.fits⟩
  unfold vAllocPagesAtVirt at h
  rw [htake] at h
  simp only [bind_eq_bind, hmach, bind_some] at h
  obtain ⟨⟨k2, a⟩, h2, h⟩ := bind_eq_some_iff.1 h
  obtain ⟨k3, p, h3, hpages⟩ := mmap_starved hk1 h2
  refine ⟨_, k3, p, hk1, h3, ?_⟩
  rw [← hpages]
  split at h
  · cases h
    exact Nat.le_refl _
  · obtain ⟨s', hs', h⟩ := bind_eq_some_iff.1 h
    obtain ⟨k4, h4, h⟩ := bind_eq_some_iff.1 h
    cases h
    rw [withMach_freePages h4]
    exact (mapPages_drawn hs').freeCount_le.1

private theorem growHeap_starved (h : growHeap cr3 malloc k = some (k', grown)) :
    ∃ k1 k2 p, Starved k1 ∧ malloc k1 sizeofVma = some (k2, p) ∧ k'.freePages ≤ k2.freePages := by
  unfold growHeap at h
  simp only [bind_eq_bind] at h
  obtain ⟨⟨k3, a⟩, h3, h⟩ := bind_eq_some_iff.1 h
  obtain ⟨k1, k2, p, hk1, hp, hle⟩ := vAllocPagesAtVirt_starved hk hc h3
  refine ⟨k1, k2, p, hk1, hp, ?_⟩
  have hle' : freeCount k3.space.mach.pages ≤ k2.freePages := hle
  split at h
  · cases h
    exact hle'
  · obtain ⟨heap, -, h⟩ := bind_eq_some_iff.1 h
    cases h
    exact hle'

end Starved

/-- Without a free block `kmalloc` calls itself through `mmap` again and again, taking ten more pages each time; a call
that ends has used up the pages but for ten at most. -/
theorem kmalloc_starved (hk : Starved k) (hb : bytes ≠ 0) (h : kmalloc A cr3 rounds k bytes = some (k', p)) :
    k'.freePages ≤ kmPagesAdd := by
  induction rounds generalizing k k' bytes p with
  | zero => cases h
  | succ rounds ih =>
    by_cases hc : kmPagesAdd < k.freePages
    swap
    · exact Nat.le_trans (kmalloc_freePages h) (Nat.le_of_not_lt hc)
    have hinit := Kern.init_of_done (A := A) hk.init
    have hscan : scan k.heap.mem bytes k.heap.head = some (0, 0) := by
      rw [hk.noBlock]
      rfl
    rw [kmalloc_grow hb (by rw [hinit]; exact hscan) (by rw [hinit]; exact hk.setUp), hinit] at h
    obtain ⟨⟨k1, grown⟩, h1, h⟩ := bind_eq_some_iff.1 h
    -- the area is asked for in a state of the same kind
    obtain ⟨k2, k3, q, hk2, h2, hle⟩ := growHeap_starved hk hc h1
    have hdrained := Nat.le_trans hle (ih hk2 (by decide) h2)
    dsimp only at h
    split at h
    · exact Nat.le_trans (kmalloc_freePages h) hdrained
    · cases h
      exact hdrained

def Progress (A : Arena) (cr3 N : Nat) (k : Kern) (bytes : Nat) : Prop :=
  ∃ rounds k' p, kmalloc A cr3 rounds k bytes = some (k', p) ∧ p ≠ 0 ∧ k.freePages ≤ k'.freePages + N

def freeChunk (c : Nat) (hc : c + 1 < 2 ^ 31) : Chunk where
  physAddrStart := 0x1000
  physAddrEnd := 0x1000 + 4096 * (c + 1)
  physPagePointer := ⟨1, 0⟩ :: List.replicate c ⟨0, 0⟩
  aligned := PhysPages.page_aligned
  length := by simp [PhysPages.sizeofPage]
  nonempty := by omega
  fits := by
    unfold PhysPages.addrSpace
    omega

private theorem scanPages_replicate {r : PhysFree} {a : Nat} (hr : r.count + n < 2 ^ 32) :
    scanPages (fun _ => true) (List.replicate n ⟨0, 0⟩) a (some r) = ([{ r with count := r.count + n }], 0) := by
  induction n generalizing r a with
  | zero => rfl
  | succ n ih =>
    rw [List.replicate_succ, scanPages, if_neg (by decide), ih (by dsimp only; rw [Nat.mod_eq_of_lt (by omega)]; omega),
      Nat.mod_eq_of_lt (by omega), Nat.add_assoc, Nat.add_comm 1]

private theorem boot_freeChunk (hc : c + 1 < 2 ^ 31) (h0 : 0 < c) :
    (boot [freeChunk c hc]).physFreeList = [⟨0x2000, c⟩] := by
  obtain ⟨d, rfl⟩ : ∃ d, c = d + 1 := ⟨c - 1, by omega⟩
  have hscan : scanPages (fun _ => true) (⟨1, 0⟩ :: List.replicate (d + 1) ⟨0, 0⟩) 0x1000 none =
      ([⟨0x2000, d + 1⟩], 0) := by
    rw [List.replicate_succ, scanPages, if_pos (by decide), scanPages, if_neg (by decide)]
    rw [if_pos rfl, scanPages_replicate (by dsimp only; omega), Nat.add_comm d 1]
    rfl
  show ([] : List PhysFree) ++ ((scanPages (fun _ => true) (⟨1, 0⟩ :: List.replicate (d + 1) ⟨0, 0⟩) 0x1000
    none).1 ++ []) = _
  rw [hscan]
  rfl

def freeSpace (c : Nat) (hc : c + 1 < 2 ^ 31) : Space where
  mach := ⟨fun q j => if q = 0x1000 ∧ j = selfRefEntry then 0x1003 else 0, boot [freeChunk c hc], 0⟩
  mmaps _ := []
  hasTask := false
  startKernel := 0xffffffff80000000

private theorem freeSpace_runs {hc : c + 1 < 2 ^ 31} (h0 : 0 < c) :
    (freeSpace c hc).mach.pages.physFreeList = [⟨0x2000, c⟩] := boot_freeChunk hc h0

private theorem free_freeSpace {q : Nat} {hc : c + 1 < 2 ^ 31} (h0 : 0 < c) (h : Free (freeSpace c hc).mach q) :
    q % 4096 = 0 ∧ 0x2000 ≤ q ∧ q < 0x2000 + 4096 * c := by
  unfold Free at h
  rw [freeSpace_runs h0] at h
  have := PhysPages.covers_run rfl h
  omega

theorem sound_freeSpace (hc : c + 1 < 2 ^ 31) (h0 : 0 < c) : Sound 0x1000 (freeSpace c hc) := by
  have hinv : PhysPages.Inv (boot [freeChunk c hc]) := by
    refine boot_inv (List.pairwise_singleton _ _) ?_ (by simp [findDesc, Chunk.covers, freeChunk])
    simpa [numPages, freeChunk] using hc
  have hself : hardwareFormat.link 0x1003 = some 0x1000 := by decide
  refine ⟨hinv, ?_, hself, fun _ => Vma.Valid.nil⟩
  refine wellFormed_empty (fun i hi => if_neg fun h => hi h.2) ⟨rfl, by decide⟩ (by decide) (fun q hq => ?_)
    (fun hq => ?_) hinv.listed fun q hq => ?_
  · have := free_freeSpace h0 hq
    exact ⟨this.1, by omega⟩
  · have := free_freeSpace h0 hq
    omega
  · have := free_freeSpace h0 hq
    show q + 0 < 2 ^ 64
    omega

def kernelArena : Arena := ⟨0xffffffff80400000, by decide, by decide, by decide⟩

def useUp : List Op := [.call (.kmalloc 32), .call (.kmalloc (kmStaticSize - 64)), .setUpDone]

private def nodeTaken : Heap :=
  take (initStaticPages kernelArena (boot fun _ => 0)) 0xffffffff80400000 0 32

private def usedUp : Heap := take nodeTaken 0xffffffff80400030 0 (kmStaticSize - 64)

/-- The first call of all takes its bytes from the start of `km_static`. -/
theorem kmalloc_boot (cr3 bytes : Nat) (hb : bytes ≠ 0)
    (hscan : scan (initStaticPages kernelArena (boot fun _ => 0)).mem bytes 0xffffffff80400000 =
      some (0xffffffff80400000, 0)) (space : Space) (nodes : List Nat) (head : VmArea) :
    ∃ live, kmalloc kernelArena cr3 Kmalloc.addrSpace (start (fun _ => 0) space nodes head) bytes =
      some (⟨take (initStaticPages kernelArena (boot fun _ => 0)) 0xffffffff80400000 0 bytes, live,
        space, nodes, head, []⟩, add64 0xffffffff80400000 flSize) := by
  have hinit := Kern.init_of_not_done (k := start (fun _ => 0) space nodes head) (A := kernelArena) rfl
  exact ⟨_, (kmalloc_take hb (by rw [hinit]; exact hscan) (by decide)).trans (by rw [hinit]; rfl)⟩

/-- Two calls leave no free block. -/
private theorem run_useUp (cr3 : Nat) (space : Space) (nodes : List Nat) (head : VmArea) :
    ∃ live, run (step kernelArena cr3) (start (fun _ => 0) space nodes head) useUp =
      some ⟨{ usedUp with deviceMemorySetUp := true }, live, space, nodes, head, []⟩ := by
  have h2 : ∀ live, ∃ live', kmalloc kernelArena cr3 Kmalloc.addrSpace ⟨nodeTaken, live, space, nodes, head, []⟩
      (kmStaticSize - 64) = some (⟨usedUp, live', space, nodes, head, []⟩, add64 0xffffffff80400030 flSize) := by
    intro live
    have hinit : (⟨nodeTaken, live, space, nodes, head, []⟩ : Kern).init kernelArena =
        ⟨nodeTaken, live, space, nodes, head, []⟩ := by
      apply Kern.init_of_done
      exact Kmalloc.take_initStaticPagesDone
    have hscan : scan nodeTaken.mem (kmStaticSize - 64) nodeTaken.head = some (0xffffffff80400030, 0) := by
      decide +kernel
    refine ⟨_, (kmalloc_take (by decide) (by rw [hinit]; exact hscan) (by decide)).trans (by rw [hinit]; rfl)⟩
  obtain ⟨live1, h1⟩ : ∃ live, kmalloc kernelArena cr3 Kmalloc.addrSpace (start (fun _ => 0) space nodes head) 32 =
      some (⟨nodeTaken, live, space, nodes, head, []⟩, add64 0xffffffff80400000 flSize) :=
    kmalloc_boot cr3 32 (by decide) (by decide +kernel) space nodes head
  obtain ⟨live2, h2⟩ := h2 live1
  refine ⟨live2, ?_⟩
  simp only [useUp, run, step, h1, h2, map_some, bind_some]

/-- There is no bound on the pages that a call of `kmalloc` takes: with the arena given out, a call for a few bytes
takes all pages of the machine but the last ones. -/
theorem growth_unbounded :
    ¬ ∃ N, N + 16 < 2 ^ 31 ∧ ∀ (A : Arena) (cr3 : Nat) (m : Bytes) (space : Space) (nodes : List Nat)
    (head : VmArea) (ops : List Op), Sound cr3 space → Permitted (step A cr3) (CallOk cr3) (start m space nodes head)
        ops → ∀ k, run (step A cr3) (start m space nodes head) ops = some k → k.heap.deviceMemorySetUp = true →
          N ≤ k.freePages → ∀ bytes, 0 < bytes → bytes ≤ 4096 → Progress A cr3 N k bytes := by
  intro h
  obtain ⟨N, hN, h⟩ := h
  have hc : N + 11 + 1 < 2 ^ 31 := by omega
  obtain ⟨live, hrun⟩ := run_useUp 0x1000 (freeSpace (N + 11) hc) [0xffffffff80400010] ⟨0, 0, 0, 0, 0⟩
  have hpages : freeCount (freeSpace (N + 11) hc).mach.pages = N + 11 := by
    unfold freeCount
    rw [freeSpace_runs (by omega)]
    simp
  have hsound := sound_freeSpace hc (by omega)
  have hstarved : Starved ⟨{ usedUp with deviceMemorySetUp := true }, live, freeSpace (N + 11) hc, [0xffffffff80400010],
      ⟨0, 0, 0, 0, 0⟩, []⟩ := by
    refine ⟨?_, rfl, ?_, hsound.pages.listed, ⟨_, freeSpace_runs (by omega)⟩, fun _ => rfl, ?_⟩
    · show usedUp.initStaticPagesDone = true
      unfold usedUp nodeTaken
      rw [Kmalloc.take_initStaticPagesDone, Kmalloc.take_initStaticPagesDone]
      rfl
    · show usedUp.head = 0
      decide +kernel
    · show ofNat 64 usedUp.lastKmAddr < ofNat 64 usedUp.lastKmAddr + Vma.sizeofPage
      decide +kernel
  have hperm : Permitted (step kernelArena 0x1000) (CallOk 0x1000)
      (start (fun _ => 0) (freeSpace (N + 11) hc) [0xffffffff80400010] ⟨0, 0, 0, 0, 0⟩) useUp :=
    ⟨(by decide : (32 : Nat) < Kmalloc.addrSpace), fun _ _ =>
      ⟨(by decide : kmStaticSize - 64 < Kmalloc.addrSpace), fun _ _ => ⟨trivial, fun _ _ => trivial⟩⟩⟩
  obtain ⟨rounds, k', p, hk', -, hle⟩ := h kernelArena 0x1000 (fun _ => 0) (freeSpace (N + 11) hc) [0xffffffff80400010]
    ⟨0, 0, 0, 0, 0⟩ useUp hsound hperm _ hrun rfl (by unfold Kern.freePages; rw [hpages]; omega) 16 (by decide)
      (by decide)
  have hend := kmalloc_starved hstarved (by decide) hk'
  unfold Kern.freePages kmPagesAdd at *
  rw [hpages] at hle
  omega

end Adix.KernelHeap
