import Adix.KernelHeap.Nesting

/-!
# A `kmalloc` that finds no pages

The growth path stores `virt_addr_start + KM_PAGES_ADD * SIZEOF_PAGE` in `last_km_addr` before it looks at
`virt_addr_start`, which is `0` when there were no pages. A later growth then asks for pages at `0xa000`, which belongs
to the current task.
-/

namespace Adix.KernelHeap

open Kmalloc (Arena Heap Alloc Extent FreeList growth kmPagesAdd add64 flSize freeSize freeAddr freeBytes)
open PageTable PhysPages Vma.Pages List Option

variable {A : Arena} {E : Extent} {fl : List Nat} {k k₁ : Kern} {s : Mach} {cr3 n bytes rounds prev : Nat}

/-- `head`, the headers of the free blocks and `last_km_addr` are unchanged. -/
structure Untouched (h h' : Heap) (fl : List Nat) : Prop where
  head : h'.head = h.head
  headers : ∀ x ∈ fl, freeAddr h'.mem x = freeAddr h.mem x ∧ freeSize h'.mem x = freeSize h.mem x
  lastKmAddr : h'.lastKmAddr = h.lastKmAddr

def NodesOk : Nat → Kern → Prop
  | 0, _ => True
  | n + 1, k => ∃ a ∈ k.live, ∃ rest, k.nodes = a.ptr :: rest ∧
    (∀ fl, Seg (freeAddr k.heap.mem) k.heap.head fl 0 → (∀ x ∈ fl, x < a.hdr) → freeAddr k.heap.mem a.hdr = 0) ∧
    ∀ k', kfree { k with nodes := rest } a.ptr = some k' → NodesOk n k'

private theorem NodesOk.setMach (h : NodesOk n k) : NodesOk n (k.setMach s) := by
  induction n generalizing k with
  | zero => trivial
  | succ n ih =>
    obtain ⟨a, ha, rest, hnodes, hlink, hnext⟩ := h
    refine ⟨a, ha, rest, hnodes, hlink, fun k' hk' => ?_⟩
    obtain ⟨h', he, rfl⟩ := map_eq_some_iff.1 hk'
    have he' : Kmalloc.kfree k.heap a.ptr = some h' := he
    refine ih (k := { k with heap := h', live := k.live.filter fun b => b.ptr ≠ a.ptr, nodes := rest }) (hnext _ ?_)
    unfold kfree
    rw [he']
    rfl

private theorem physFreeList_eq_nil {p : Pages} (h : Listed p) (hc : freeCount p = 0) : p.physFreeList = [] := by
  unfold freeCount at hc
  cases hl : p.physFreeList with
  | nil => rfl
  | cons r l =>
    have hpos := h.apart.nonempty r (by rw [hl]; simp)
    rw [hl, map_cons, sum_cons] at hc
    omega

private theorem takePages_short (h : Listed s.pages) (hn : freeCount s.pages < n) :
    ∃ s', takePages n s = (s', none) ∧ s'.pages.physFreeList = [] ∧ (freeCount s.pages = 0 → s' = s) := by
  induction n generalizing s with
  | zero => exact absurd hn (Nat.not_lt_zero _)
  | succ n ih =>
    unfold takePages
    by_cases hc : freeCount s.pages = 0
    · rw [allocPage_empty hc]
      exact ⟨s, rfl, physFreeList_eq_nil h hc, fun _ => rfl⟩
    · obtain ⟨u, f, ha, hf, hcount⟩ := allocPage_spec h (Nat.pos_of_ne_zero hc)
      obtain ⟨s', he, hnil, -⟩ := ih hf.allocated.listed (by omega)
      rw [ha]
      dsimp only
      rw [if_neg hf.allocated.ne_zero, he]
      exact ⟨s', rfl, hnil, fun h0 => absurd h0 hc⟩

private theorem freeNodes_release (F : FreeList E k.heap fl k.live) (hok : NodesOk n k) :
    ∃ k' fl', freeNodes n k = some k' ∧ FreeList E k'.heap fl' k'.live ∧
      freeBytes k.heap.mem fl + flSize * n ≤ freeBytes k'.heap.mem fl' ∧ k'.heap.lastKmAddr = k.heap.lastKmAddr := by
  induction n generalizing k fl with
  | zero => exact ⟨k, fl, rfl, F, Nat.le_refl _, rfl⟩
  | succ n ih =>
    obtain ⟨a, ha, rest, hnodes, hlink, hnext⟩ := hok
    obtain ⟨h', fl', he, -, -, F', hbytes⟩ := Kmalloc.kfree_release F ha (hlink fl F.seg)
    have hfree : kfree { k with nodes := rest } a.ptr =
        some { k with heap := h', live := k.live.filter fun b => b.ptr ≠ a.ptr, nodes := rest } := by
      unfold kfree
      rw [he]
      rfl
    obtain ⟨k', fl'', hrest, F'', hbytes', hlast⟩ := ih F' (hnext _ hfree)
    refine ⟨k', fl'', ?_, F'', ?_, hlast.trans (Kmalloc.kfree_lastKmAddr he)⟩
    · rw [freeNodes, hnodes]
      dsimp only
      rw [hfree]
      exact hrest
    · refine Nat.le_trans ?_ hbytes'
      rw [hbytes, Nat.mul_succ]
      omega

private theorem not_untouched {h h' : Heap} {fl' : List Nat} {live live' : List Alloc} (F : FreeList E h fl live)
    (F' : FreeList E h' fl' live') (hlt : freeBytes h.mem fl < freeBytes h'.mem fl') : ¬ Untouched h h' fl := by
  intro hu
  have hseg : Seg (freeAddr h'.mem) h'.head fl 0 := by
    rw [hu.head]
    exact F.seg.congr fun x hx => (hu.headers x hx).1
  have hne : ∀ x ∈ fl, x ≠ 0 := fun x hx => F.layout.ne_zero hx
  have hne' : ∀ x ∈ fl', x ≠ 0 := fun x hx => F'.layout.ne_zero hx
  obtain rfl : fl = fl' := hseg.unique F'.seg hne hne'
  rw [Kmalloc.freeBytes_congr fun x hx => (hu.headers x hx).2] at hlt
  exact Nat.lt_irrefl _ hlt

private theorem kmalloc_short (hinit : k.heap.initStaticPagesDone = true) (hdev : k.heap.deviceMemorySetUp = true)
    (hb : bytes ≠ 0) (hscan : Kmalloc.scan k.heap.mem bytes k.heap.head = some (0, prev))
    (htake : takePages kmPagesAdd k.space.mach = (s, none)) (hmach : k.withMach s = some k₁) :
    kmalloc A cr3 (rounds + 1) k bytes = some ({ k₁ with heap := { k₁.heap with lastKmAddr := growth } }, 0) := by
  have hk := Kern.init_of_done (A := A) hinit
  rw [kmalloc_grow hb (by rw [hk]; exact hscan) (by rw [hk]; exact hdev), hk]
  unfold growHeap vAllocPagesAtVirt
  rw [htake]
  have hzero : add64 (0 : Word).toNat growth = growth := by decide
  simp only [hmach, hzero, map_some, bind_eq_bind, bind_some, if_true]
  rfl

/-- With fewer pages than the heap asks for, `kmalloc` changes nothing just when no page at all was free and
`last_km_addr` was `0xa000` already, from an earlier call that failed. -/
theorem failed_kmalloc_iff (A : Arena) (cr3 rounds : Nat) (k : Kern) (bytes : Nat) (E : Extent) (fl : List Nat)
    (hinit : k.heap.initStaticPagesDone = true) (hdev : k.heap.deviceMemorySetUp = true)
    (F : FreeList E k.heap fl k.live) (hb : bytes ≠ 0) (hbig : ∀ x ∈ fl, freeSize k.heap.mem x < bytes)
    (hl : Listed k.space.mach.pages) (hshort : k.freePages < kmPagesAdd)
    (hnodes : NodesOk k.space.mach.pages.physFreeList.length k) :
    ∃ k', kmalloc A cr3 (rounds + 1) k bytes = some (k', 0) ∧
      (Untouched k.heap k'.heap fl ↔ k.heap.lastKmAddr = growth ∧ k.freePages = 0) := by
  obtain ⟨prev, hscan⟩ : ∃ prev, Kmalloc.scan k.heap.mem bytes k.heap.head = some (0, prev) := by
    obtain ⟨hs, -⟩ | ⟨l1, p, l2, rfl, hp, -⟩ := Kmalloc.scan_eq bytes F
    · exact ⟨_, hs⟩
    · have := hbig p (by simp)
      omega
  obtain ⟨s, htake, hnil, hsame⟩ := takePages_short hl hshort
  obtain ⟨k₁, fl', hfree, F', hbytes, hlast⟩ := freeNodes_release (k := k.setMach s) F hnodes.setMach
  have hmach : k.withMach s = some k₁ := by
    unfold Kern.withMach
    rw [hnil]
    exact hfree
  refine ⟨_, kmalloc_short hinit hdev hb hscan htake hmach, ?_⟩
  constructor
  · intro hu
    refine ⟨hu.lastKmAddr.symm, ?_⟩
    by_contra hc
    -- a run was used up, and its node is free now
    have hpos : 0 < k.space.mach.pages.physFreeList.length := by
      refine length_pos_iff.2 fun h0 => hc ?_
      unfold Kern.freePages freeCount
      rw [h0]
      rfl
    have hmore : freeBytes k.heap.mem fl + 16 * k.space.mach.pages.physFreeList.length ≤ freeBytes k₁.heap.mem fl' :=
      hbytes
    have hkept : Untouched k.heap k₁.heap fl := ⟨hu.head, hu.headers, hlast⟩
    exact not_untouched F F' (by omega) hkept
  · rintro ⟨hlast', hc⟩
    obtain rfl := hsame hc
    rw [physFreeList_eq_nil hl hc] at hfree
    cases hfree
    exact ⟨rfl, fun _ _ => ⟨rfl, rfl⟩, hlast'.symm⟩

private def fullKern (last : Nat) : Kern where
  heap := ⟨fun _ => 0, 0, last, true, true⟩
  live := []
  space := { emptySpace with mach := ⟨emptySpace.mach.mem, ⟨[twelvePages], []⟩, 0⟩, hasTask := true }
  nodes := []
  head := ⟨0, 0, 0, 0, 0⟩
  pages := []

private theorem freeList_fullKern (last : Nat) :
    FreeList kernelArena.extent (fullKern last).heap [] (fullKern last).live :=
  ⟨rfl, ⟨fun _ hp => absurd hp not_mem_nil, List.Pairwise.nil⟩, List.Pairwise.nil, fun _ ha => absurd ha not_mem_nil⟩

private theorem listed_fullKern (last : Nat) : Listed (fullKern last).space.mach.pages :=
  ⟨⟨fun _ hr => absurd hr not_mem_nil, List.Pairwise.nil⟩, fun _ hb => absurd hb not_covers_nil⟩

theorem failed_kmalloc_again : ∃ k', kmalloc kernelArena 0x1000 1 (fullKern 0xa000) 100 = some (k', 0) ∧
      Untouched (fullKern 0xa000).heap k'.heap [] := by
  obtain ⟨k', he, hiff⟩ := failed_kmalloc_iff kernelArena 0x1000 0 (fullKern 0xa000) 100 _ [] rfl rfl
    (freeList_fullKern 0xa000) (by decide) (by simp) (listed_fullKern 0xa000) (by decide) trivial
  exact ⟨k', he, hiff.2 ⟨rfl, rfl⟩⟩

/-- The first call that fails moves `last_km_addr` from the end of the heap to `0xa000`. The next growth would take its
area from the list of the task. -/
theorem failed_kmalloc_moves :
    FreeList kernelArena.extent (fullKern 0xffffffff82c00000).heap [] (fullKern 0xffffffff82c00000).live ∧
    ∃ k', kmalloc kernelArena 0x1000 1 (fullKern 0xffffffff82c00000) 100 = some (k', 0) ∧
      ¬ Untouched (fullKern 0xffffffff82c00000).heap k'.heap [] ∧ k'.heap.lastKmAddr = 0xa000 ∧
      (fullKern 0xffffffff82c00000).space.listFor (BitVec.ofNat 64 (fullKern 0xffffffff82c00000).heap.lastKmAddr) =
        .kernel ∧
      k'.space.listFor (BitVec.ofNat 64 k'.heap.lastKmAddr) = .task := by
  have hscan : Kmalloc.scan (fullKern 0xffffffff82c00000).heap.mem 100 (fullKern 0xffffffff82c00000).heap.head =
      some (0, 0) := rfl
  have htake : takePages kmPagesAdd (fullKern 0xffffffff82c00000).space.mach =
      ((fullKern 0xffffffff82c00000).space.mach, none) := rfl
  refine ⟨freeList_fullKern _, _, kmalloc_short rfl rfl (by decide) hscan htake rfl, fun hu => ?_,
    rfl, by decide, by decide⟩
  have hlast : growth = 0xffffffff82c00000 := hu.lastKmAddr
  exact absurd hlast (by decide)

end Adix.KernelHeap
