import Adix.Kmalloc.Blocks

/-!
# What `kmalloc` and `kfree` do to the free list

The blocks that the list from `head` visits and the live allocations form a `Layout`, and the calls keep it so.
-/

namespace Adix.Kmalloc

open List Option

variable {A : Arena} {E : Extent} {m : Bytes} {h h' : Heap} {fl l l₁ l₂ bs : List Nat} {live : List Alloc}
  {p q r v bytes fp ptr : Nat} {a : Alloc}

/-- The list from `head` visits the blocks `fl` and ends in `NULL`, and `fl` and `live` form a layout of the extent. -/
structure FreeList (E : Extent) (h : Heap) (fl : List Nat) (live : List Alloc) : Prop where
  seg : Seg (freeAddr h.mem) h.head fl 0
  layout : Layout E h.mem fl live

private theorem Layout.nodup (L : Layout E m fl live) : fl.Nodup := L.ascending.imp Nat.ne_of_lt

theorem Layout.mem_bounds (L : Layout E m fl live) (hp : p ∈ fl) : 0 < p ∧ p + 16 + freeSize m p < addrSpace :=
  L.tiled.bounds (mem_blocks.2 (.inl hp))

theorem Layout.ne_zero (L : Layout E m fl live) (hp : p ∈ fl) : p ≠ 0 := Nat.ne_of_gt (L.mem_bounds hp).1

theorem Layout.around (L : Layout E m (l₁ ++ p :: l₂) live) : (∀ x ∈ l₁, x < p) ∧ ∀ x ∈ l₂, p < x := by
  have hasc := L.ascending
  rw [pairwise_append, pairwise_cons] at hasc
  exact ⟨fun x hx => hasc.2.2 x hx p mem_cons_self, hasc.2.1.1⟩

theorem Layout.ne_of_other (L : Layout E m (l₁ ++ p :: l₂) live) (hq : q ∈ l₁ ++ l₂) : q ≠ p :=
  (mem_append.1 hq).elim (fun h => Nat.ne_of_lt (L.around.1 q h)) fun h => Nat.ne_of_gt (L.around.2 q h)

theorem mem_middle (hq : q ∈ l₁ ++ l₂) : q ∈ l₁ ++ p :: l₂ := List.perm_middle.mem_iff.2 (mem_cons_of_mem p hq)

theorem FreeList.head_eq_zero (F : FreeList E h fl live) : h.head = 0 ↔ fl = [] := by
  cases fl with
  | nil => exact iff_of_true F.seg rfl
  | cons x l =>
    rw [F.seg.1]
    exact iff_of_false (F.layout.ne_zero mem_cons_self) (cons_ne_nil x l)

theorem Layout.hdr_not_mem (L : Layout E m fl live) (ha : a ∈ live) : a.hdr ∉ fl := by
  intro hmem
  have := L.freeApart hmem ha
  unfold BlockApart Apart at this
  omega

theorem Layout.length_lt (L : Layout E m fl live) : fl.length < addrSpace := by
  have := length_le_of_ascending (a := 1) (b := addrSpace) L.ascending (fun x hx => by
    have := L.mem_bounds hx
    omega)
  have h64 : 0 < addrSpace := by decide
  omega

private theorem link_seg (h1 : Seg (freeAddr h.mem) h.head l₁ r) (h2 : Seg (freeAddr h.mem) v l₂ 0)
    (T : Tiled E (freeSize h.mem) bs) (hsub : ∀ x ∈ l₁ ++ l₂, x ∈ bs) (hnd : (l₁ ++ l₂).Nodup) (hv : v < addrSpace) :
    Seg (freeAddr (link h (l₁.getLastD 0) v).mem) (link h (l₁.getLastD 0) v).head (l₁ ++ l₂) 0 ∧
      (∀ x ∈ bs, freeSize (link h (l₁.getLastD 0) v).mem x = freeSize h.mem x) ∧
      ∀ x ∈ bs, x ≠ l₁.getLastD 0 → freeAddr (link h (l₁.getLastD 0) v).mem x = freeAddr h.mem x := by
  rcases eq_nil_or_concat' l₁ with rfl | ⟨l, x, rfl⟩
  · simpa [link] using h2
  · have hx : x ∈ bs := hsub x (by simp)
    have hx0 : x ≠ 0 := by have := (T.bounds hx).1; omega
    have hlink : link h ((l ++ [x]).getLastD 0) v = { h with mem := setFreeAddr h.mem x v } := by
      simp [link, hx0]
    rw [hlink]
    have hfa : ∀ y ∈ bs, freeAddr (setFreeAddr h.mem x v) y = if y = x then v else freeAddr h.mem y :=
      fun y hy => freeAddr_setFreeAddr hv (T.header hx hy)
    have hne : ∀ y ∈ l ++ l₂, y ≠ x := by
      rintro y hy rfl
      rw [List.append_assoc, singleton_append, List.perm_middle.nodup_iff, nodup_cons] at hnd
      exact hnd.1 hy
    refine ⟨seg_append.2 ⟨v, ?_, ?_⟩, fun y hy => freeSize_setFreeAddr (T.header hx hy), fun y hy hyx => ?_⟩
    · have := h1.relink (freeAddr (setFreeAddr h.mem x v)) (fun y hy => by
        rw [hfa y (hsub y (by simp [hy])), if_neg (hne y (by simp [hy]))])
      rwa [hfa x hx, if_pos rfl] at this
    · refine h2.congr (fun y hy => ?_)
      rw [hfa y (hsub y (by simp [hy])), if_neg (hne y (by simp [hy]))]
    · rw [getLastD_concat] at hyx
      rw [hfa y hy, if_neg hyx]

/-- At first all of `km_static` is one free block. -/
theorem initStaticPages_freeList (h : Heap) : FreeList A.extent (initStaticPages A h) [A.kmStatic] [] := by
  have hsz : kmStaticSize - flSize < addrSpace := by decide
  have e1 : freeAddr (initStaticPages A h).mem A.kmStatic = 0 := by
    unfold initStaticPages
    rw [freeAddr_setFreeSize (.inl rfl), freeAddr_setFreeAddr (by decide) (.inl rfl), if_pos rfl]
  have e2 : freeSize (initStaticPages A h).mem A.kmStatic = kmStaticSize - flSize := by
    unfold initStaticPages
    rw [freeSize_setFreeSize hsz (.inl rfl), if_pos rfl]
  refine ⟨⟨rfl, e1⟩, ⟨⟨?_, pairwise_singleton _ _⟩, pairwise_singleton _ _, by simp⟩⟩
  intro p hp
  obtain rfl : p = A.kmStatic := by simpa [blocks] using hp
  have : 16 + (kmStaticSize - flSize) = kmStaticSize := by decide
  rw [A.extent_start, A.extent_stop]
  omega

private theorem cut_headers (L : Layout E m (l₁ ++ p :: l₂) live) (hq' : q = p + 16 + bytes)
    (hbig : bytes + 16 < freeSize m p) :
    freeSize (cut m p q bytes) p = bytes ∧ freeSize (cut m p q bytes) q = freeSize m p - bytes - 16 ∧
      freeAddr (cut m p q bytes) q = freeAddr m p ∧
      (∀ x ∈ blocks (l₁ ++ p :: l₂) live, freeAddr (cut m p q bytes) x = freeAddr m x) ∧
      ∀ x ∈ blocks (l₁ ++ l₂) live, freeSize (cut m p q bytes) x = freeSize m x := by
  have hp : p ∈ blocks (l₁ ++ p :: l₂) live := by simp [blocks]
  have hperm : (blocks (l₁ ++ p :: l₂) live).Perm (p :: blocks (l₁ ++ l₂) live) := by
    simp only [blocks, List.append_assoc, List.cons_append]
    exact List.perm_middle
  have hsub : ∀ x ∈ blocks (l₁ ++ l₂) live, x ∈ blocks (l₁ ++ p :: l₂) live :=
    fun x hx => hperm.mem_iff.2 (mem_cons_of_mem p hx)
  have hbd := L.tiled.bounds hp
  -- the new header lies in the payload of `p`, away from every header
  have hqp : Apart p 16 q 16 := by left; omega
  have hq : ∀ x ∈ blocks (l₁ ++ p :: l₂) live, Apart x 16 q 16 := by
    intro x hx
    by_cases hxp : x = p
    · rw [hxp]; exact hqp
    · have := L.tiled.blockApart hx hp hxp
      unfold BlockApart Apart at this
      unfold Apart
      omega
  have hne : ∀ x ∈ blocks (l₁ ++ l₂) live, x ≠ p := by
    rintro x hx rfl
    have hnd := (L.tiled.perm hperm).apart
    rw [pairwise_cons] at hnd
    have := hnd.1 x hx
    unfold BlockApart Apart at this
    omega
  have hxq : ∀ x ∈ blocks (l₁ ++ p :: l₂) live, x ≠ q := fun x hx => (hq x hx).ne (by decide) (by decide)
  have hs1 : freeSize (setFreeAddr m q (freeAddr m p)) p = freeSize m p := freeSize_setFreeAddr (.inr hqp)
  have hlt : freeSize m p - bytes - flSize < addrSpace := by
    omega
  have hbl : bytes < addrSpace := by omega
  unfold cut
  simp only [hs1]
  refine ⟨?_, ?_, ?_, ?_, ?_⟩
  · rw [freeSize_setFreeSize hbl (.inl rfl), if_pos rfl]
  · rw [freeSize_setFreeSize hbl (.inr hqp.symm), if_neg (hxq p hp).symm, freeSize_setFreeSize hlt (.inl rfl),
      if_pos rfl]
    rfl
  · rw [freeAddr_setFreeSize (.inr hqp.symm), freeAddr_setFreeSize (.inl rfl),
      freeAddr_setFreeAddr (freeAddr_lt m p) (.inl rfl), if_pos rfl]
  · intro x hx
    rw [freeAddr_setFreeSize (L.tiled.header hp hx), freeAddr_setFreeSize (.inr (hq x hx)),
      freeAddr_setFreeAddr (freeAddr_lt m p) (.inr (hq x hx)), if_neg (hxq x hx)]
  · intro x hx
    have hx' := hsub x hx
    rw [freeSize_setFreeSize hbl (L.tiled.header hp hx'), if_neg (hne x hx),
      freeSize_setFreeSize hlt (.inr (hq x hx')), if_neg (hxq x hx'), freeSize_setFreeAddr (.inr (hq x hx'))]

private theorem last_of_eq {x : Nat} (hl : l₁ ++ p :: l₂ = l ++ [x]) : l₂ = [] ∧ p = x ∨ ∃ l3, l₂ = l3 ++ [x] := by
  rcases eq_nil_or_concat' l₂ with rfl | ⟨l3, y, rfl⟩
  · exact .inl ⟨rfl, (append_singleton_inj.1 hl).2⟩
  · rw [← List.cons_append, ← List.append_assoc] at hl
    exact .inr ⟨l3, by rw [(append_singleton_inj.1 hl).2]⟩

/-- A block with more than a header to spare is cut, and the rest takes its place in the list. -/
theorem take_cut (F : FreeList E h (l₁ ++ p :: l₂) live) (hbig : bytes + flSize < freeSize h.mem p)
    (hq : q = p + flSize + bytes) (ht : take h p (l₁.getLastD 0) bytes = h') :
    FreeList E h' (l₁ ++ q :: l₂) (⟨p + flSize, bytes⟩ :: live) ∧
      freeSize h'.mem p = bytes ∧ freeSize h'.mem q = freeSize h.mem p - bytes - flSize ∧
      freeAddr h'.mem q = freeAddr h.mem p ∧
      (∀ x ∈ blocks (l₁ ++ l₂) live, freeSize h'.mem x = freeSize h.mem x) ∧
      ∀ x ∈ blocks (l₁ ++ p :: l₂) live, x ≠ l₁.getLastD 0 → freeAddr h'.mem x = freeAddr h.mem x := by
  obtain ⟨hseg, L⟩ := F
  obtain ⟨r, hs1, hs2⟩ := seg_append.1 hseg
  have hbd := L.mem_bounds (p := p) (by simp)
  unfold flSize at hbig hq
  have hnext : add64 (add64 p flSize) bytes = q := by
    unfold add64 flSize
    rw [Nat.mod_eq_of_lt (a := p + 16) (by omega), Nat.mod_eq_of_lt (by omega), hq]
  unfold take at ht
  rw [if_pos (by unfold flSize; omega)] at ht
  simp only [hnext] at ht
  obtain ⟨e1, e2, e3, e4, e5⟩ := cut_headers L hq (by omega)
  have L' : Layout E (cut h.mem p q bytes) (l₁ ++ q :: l₂) (⟨p + flSize, bytes⟩ :: live) := by
    refine L.split hq e1 ?_ e5
    unfold flSize
    omega
  have hs1' : Seg (freeAddr (cut h.mem p q bytes)) h.head l₁ r :=
    hs1.congr fun x hx => e4 x (mem_blocks.2 (.inl (by simp [hx])))
  have hs2' : Seg (freeAddr (cut h.mem p q bytes)) q (q :: l₂) 0 := by
    refine ⟨rfl, ?_⟩
    rw [e3]
    exact hs2.2.congr fun x hx => e4 x (mem_blocks.2 (.inl (by simp [hx])))
  obtain ⟨hl, hsize, hlink⟩ := link_seg (h := { h with mem := cut h.mem p q bytes }) hs1' hs2' L'.tiled
    (fun x hx => mem_blocks.2 (.inl hx)) L'.nodup (by omega)
  rw [ht] at hl hsize hlink
  -- the blocks of before are blocks of after
  have hmem : ∀ x ∈ blocks (l₁ ++ p :: l₂) live,
      x ∈ blocks (l₁ ++ q :: l₂) (⟨p + flSize, bytes⟩ :: live) := by
    intro x hx
    rcases mem_blocks.1 hx with hx | ⟨a, ha, rfl⟩
    · rcases mem_append.1 hx with hx | hx
      · exact mem_blocks.2 (.inl (by simp [hx]))
      · rcases mem_cons.1 hx with rfl | hx
        · exact mem_blocks.2 (.inr ⟨_, mem_cons_self, Nat.add_sub_cancel x flSize⟩)
        · exact mem_blocks.2 (.inl (by simp [hx]))
    · exact mem_blocks.2 (.inr ⟨a, mem_cons_of_mem _ ha, rfl⟩)
  have hsub : ∀ x ∈ blocks (l₁ ++ l₂) live, x ∈ blocks (l₁ ++ p :: l₂) live :=
    fun x hx => mem_blocks.2 ((mem_blocks.1 hx).imp_left mem_middle)
  have hqm : q ∈ blocks (l₁ ++ q :: l₂) (⟨p + flSize, bytes⟩ :: live) := mem_blocks.2 (.inl (by simp))
  have hql : q ≠ l₁.getLastD 0 := by
    rcases eq_nil_or_concat' l₁ with rfl | ⟨l, x, rfl⟩
    · simp only [getLastD_nil]
      omega
    · have := L.around.1 x (by simp)
      rw [getLastD_concat]
      omega
  refine ⟨⟨hl, L'.congr hsize⟩, ?_, ?_, ?_, fun x hx => ?_, fun x hx hxl => ?_⟩
  · rw [hsize p (hmem p (mem_blocks.2 (.inl (by simp)))), e1]
  · rw [hsize q hqm, e2]
    rfl
  · rw [hlink q hqm hql, e3]
  · rw [hsize x (hmem x (hsub x hx)), e5 x hx]
  · rw [hlink x (hmem x hx) hxl, e4 x hx]

/-- Any other block is taken out of the list. -/
theorem take_whole (F : FreeList E h (l₁ ++ p :: l₂) live) (hb : bytes ≤ freeSize h.mem p)
    (hsmall : freeSize h.mem p ≤ bytes + flSize) (ht : take h p (l₁.getLastD 0) bytes = h') :
    FreeList E h' (l₁ ++ l₂) (⟨p + flSize, bytes⟩ :: live) ∧
      (∀ x ∈ blocks (l₁ ++ p :: l₂) live, freeSize h'.mem x = freeSize h.mem x) ∧
      ∀ x ∈ blocks (l₁ ++ p :: l₂) live, x ≠ l₁.getLastD 0 → freeAddr h'.mem x = freeAddr h.mem x := by
  obtain ⟨hseg, L⟩ := F
  obtain ⟨r, hs1, hs2⟩ := seg_append.1 hseg
  unfold take at ht
  rw [if_neg (by omega)] at ht
  obtain ⟨hl, hsize, hlink⟩ := link_seg (v := freeAddr h.mem p) hs1 hs2.2 L.tiled
    (fun x hx => mem_blocks.2 (.inl (mem_middle hx)))
    (L.nodup.sublist (by simp)) (freeAddr_lt _ _)
  rw [ht] at hl hsize hlink
  exact ⟨⟨hl, (L.congr hsize).claim (by rw [hsize p (mem_blocks.2 (.inl (by simp)))]; exact hb)⟩, hsize, hlink⟩

/-- `take` keeps the list in order. The last block stays one that ends at the same address, unless it is taken whole. -/
theorem take_freeList (F : FreeList E h (l₁ ++ p :: l₂) live) (hb : bytes ≤ freeSize h.mem p) :
    ∃ fl, FreeList E (take h p (l₁.getLastD 0) bytes) fl (⟨p + flSize, bytes⟩ :: live) ∧
      ∀ l x, l₁ ++ p :: l₂ = l ++ [x] → (x = p → bytes + flSize < freeSize h.mem x) →
        ∃ l' y, fl = l' ++ [y] ∧ y + freeSize (take h p (l₁.getLastD 0) bytes).mem y = x + freeSize h.mem x := by
  by_cases hbig : bytes + flSize < freeSize h.mem p
  · obtain ⟨F', -, hrest, -, hsize, -⟩ := take_cut F hbig rfl rfl
    refine ⟨_, F', fun l x heq hx => ?_⟩
    obtain ⟨rfl, rfl⟩ | ⟨l3, rfl⟩ := last_of_eq heq
    · refine ⟨l₁, _, rfl, ?_⟩
      omega
    · refine ⟨l₁ ++ (p + flSize + bytes) :: l3, x, by simp, ?_⟩
      rw [hsize x (mem_blocks.2 (.inl (by simp)))]
  · obtain ⟨F', hsize, -⟩ := take_whole F hb (Nat.le_of_not_lt hbig) rfl
    refine ⟨_, F', fun l x heq hx => ?_⟩
    obtain ⟨rfl, rfl⟩ | ⟨l3, rfl⟩ := last_of_eq heq
    · exact absurd (hx rfl) hbig
    · refine ⟨l₁ ++ l3, x, by simp, ?_⟩
      rw [hsize x (mem_blocks.2 (.inl (by simp)))]

/-- The search of `kmalloc` stops at the first block that is large enough, or finds that there is none. -/
theorem scan_eq (bytes : Nat) (F : FreeList E h fl live) :
    scan h.mem bytes h.head = some (0, fl.getLastD 0) ∧ (∀ p ∈ fl, freeSize h.mem p < bytes) ∨
      ∃ l₁ p l₂, fl = l₁ ++ p :: l₂ ∧ bytes ≤ freeSize h.mem p ∧ (∀ x ∈ l₁, freeSize h.mem x < bytes) ∧
        scan h.mem bytes h.head = some (p, l₁.getLastD 0) := by
  obtain ⟨l₁, l₂, rfl, h1, h2⟩ := exists_split (fun node => !decide (freeSize h.mem node < bytes)) fl
  have hlen := F.layout.length_lt
  have hs := search_eq addrSpace 0 F.seg (fun x hx => F.layout.ne_zero hx) h1 h2 (by simp at hlen; omega)
  cases l₂ with
  | nil => left; exact ⟨by simpa [scan] using hs, fun p hp => by simpa using h1 p (by simpa using hp)⟩
  | cons p l₂ => right; exact ⟨l₁, p, l₂, rfl, by simpa using h2 p (by simp), fun x hx => by simpa using h1 x hx, hs⟩

section Take

variable {prev : Nat}

@[simp] theorem take_initStaticPagesDone : (take h p prev bytes).initStaticPagesDone = h.initStaticPagesDone := by
  simp only [take, link]
  split <;> split <;> rfl

@[simp] theorem take_deviceMemorySetUp : (take h p prev bytes).deviceMemorySetUp = h.deviceMemorySetUp := by
  simp only [take, link]
  split <;> split <;> rfl

@[simp] theorem take_lastKmAddr : (take h p prev bytes).lastKmAddr = h.lastKmAddr := by
  simp only [take, link]
  split <;> split <;> rfl

theorem take_head (hprev : prev ≠ 0) : (take h p prev bytes).head = h.head := by
  simp only [take, link, if_neg hprev]
  split <;> rfl

end Take

theorem add64_flSize (F : FreeList E h fl live) (hp : p ∈ fl) : add64 p flSize = p + flSize := by
  have hbd := F.layout.mem_bounds hp
  unfold add64 flSize
  rw [Nat.mod_eq_of_lt (by omega)]

/-- What a call does that finds a block. -/
theorem kmalloc_take (A : Arena) (vAlloc : Heap → Nat → Heap × Nat) (n : Nat) (F : FreeList E h (l₁ ++ p :: l₂) live)
    (hinit : h.initStaticPagesDone = true) (hb : bytes ≠ 0) (hs : scan h.mem bytes h.head = some (p, l₁.getLastD 0)) :
    kmalloc A vAlloc (n + 1) h bytes = some (take h p (l₁.getLastD 0) bytes, p + flSize) := by
  have hbd := F.layout.mem_bounds (p := p) (by simp)
  unfold kmalloc
  simp [hinit, hb, hs, add64_flSize F (p := p) (by simp), Nat.ne_of_gt hbd.1]

private theorem kmalloc_found (A : Arena) (vAlloc : Heap → Nat → Heap × Nat) (n : Nat)
    (F : FreeList E h (l₁ ++ p :: l₂) live) (hinit : h.initStaticPagesDone = true) (hb : bytes ≠ 0)
    (hp : bytes ≤ freeSize h.mem p) (hs : scan h.mem bytes h.head = some (p, l₁.getLastD 0)) :
    ∃ h' fl', kmalloc A vAlloc (n + 1) h bytes = some (h', p + flSize) ∧ h'.initStaticPagesDone = true ∧
      h'.deviceMemorySetUp = h.deviceMemorySetUp ∧ FreeList E h' fl' (⟨p + flSize, bytes⟩ :: live) := by
  obtain ⟨fl', F', -⟩ := take_freeList F hp
  exact ⟨_, fl', kmalloc_take A vAlloc n F hinit hb hs, take_initStaticPagesDone.trans hinit, take_deviceMemorySetUp,
    F'⟩

/-- Before the setup is done, `kmalloc` keeps the list in order. -/
theorem kmalloc_freeList (A : Arena) (vAlloc : Heap → Nat → Heap × Nat) (n bytes : Nat) (F : FreeList E h fl live)
    (hinit : h.initStaticPagesDone = true) (hdev : h.deviceMemorySetUp = false) :
    ∃ h' ptr fl', kmalloc A vAlloc (n + 1) h bytes = some (h', ptr) ∧
      h'.initStaticPagesDone = true ∧ h'.deviceMemorySetUp = false ∧
      FreeList E h' fl' (if ptr = 0 then live else { ptr := ptr, bytes := bytes } :: live) := by
  by_cases hb : bytes = 0
  · exact ⟨h, 0, fl, by simp [kmalloc, hinit, hb], hinit, hdev, by simpa using F⟩
  rcases scan_eq bytes F with ⟨hs, -⟩ | ⟨l₁, p, l₂, rfl, hp, -, hs⟩
  · exact ⟨h, 0, fl, by simp [kmalloc, hinit, hb, hs, hdev], hinit, hdev, by simpa using F⟩
  · obtain ⟨h', fl', he, hinit', hdev', F'⟩ := kmalloc_found A vAlloc n F hinit hb hp hs
    refine ⟨h', p + flSize, fl', he, hinit', hdev'.trans hdev, ?_⟩
    exact F'

def freeBytes (m : Bytes) (fl : List Nat) : Nat := (fl.map fun x => flSize + freeSize m x).sum

@[simp] theorem freeBytes_cons : freeBytes m (p :: l) = flSize + freeSize m p + freeBytes m l := by simp [freeBytes]

@[simp] theorem freeBytes_append : freeBytes m (l₁ ++ l₂) = freeBytes m l₁ + freeBytes m l₂ := by simp [freeBytes]

theorem freeBytes_congr {m' : Bytes} (h : ∀ x ∈ l, freeSize m' x = freeSize m x) : freeBytes m' l = freeBytes m l := by
  have hmap : l.map (fun x => flSize + freeSize m' x) = l.map fun x => flSize + freeSize m x :=
    map_congr_left fun x hx => by rw [h x hx]
  unfold freeBytes
  rw [hmap]

/-- `join` links two blocks, or merges them when they touch. -/
theorem join_cases (T : Tiled E (freeSize m) bs) (hp : p ∈ bs) (hq : q ∈ bs) (hne : q ≠ p) :
    q ≠ p + 16 + freeSize m p ∧ (∀ x ∈ bs, freeAddr (join m p q) x = (if x = p then q else freeAddr m x) ∧
          freeSize (join m p q) x = freeSize m x) ∨
      q = p + 16 + freeSize m p ∧ (∀ x ∈ bs, freeAddr (join m p q) x = (if x = p then freeAddr m q else freeAddr m x) ∧
          freeSize (join m p q) x = if x = p then freeSize m p + 16 + freeSize m q else freeSize m x) := by
  have hbd := T.bounds hp
  have hbq := T.bounds hq
  -- the headers after `p->free_addr = q`
  have e1 : ∀ x ∈ bs, freeAddr (setFreeAddr m p q) x = if x = p then q else freeAddr m x :=
    fun x hx => freeAddr_setFreeAddr (by omega) (T.header hp hx)
  have e2 : ∀ x ∈ bs, freeSize (setFreeAddr m p q) x = freeSize m x := fun x hx => freeSize_setFreeAddr (T.header hp hx)
  have hadd : add64 (add64 p flSize) (freeSize (setFreeAddr m p q) p) = p + 16 + freeSize m p := by
    rw [e2 p hp]
    unfold add64 flSize
    rw [Nat.mod_eq_of_lt (a := p + 16) (by omega), Nat.mod_eq_of_lt (by omega)]
  unfold join
  simp only [hadd]
  by_cases hjoin : q = p + 16 + freeSize m p
  · refine .inr ⟨hjoin, fun x hx => ?_⟩
    have hsum : add64 (freeSize m p) (add64 (freeSize m q) flSize) = freeSize m p + 16 + freeSize m q := by
      unfold add64 flSize
      rw [Nat.mod_eq_of_lt (a := freeSize m q + 16) (by omega), Nat.mod_eq_of_lt (by omega)]
      omega
    rw [if_pos hjoin, freeSize_setFreeAddr (T.header hp hp), freeSize_setFreeAddr (T.header hp hq), e2 p hp, e2 q hq,
      hsum, e1 q hq, if_neg hne]
    constructor
    · rw [freeAddr_setFreeSize (T.header hp hx), freeAddr_setFreeAddr (freeAddr_lt m q) (T.header hp hx), e1 x hx]
      split <;> rfl
    · rw [freeSize_setFreeSize (by omega) (T.header hp hx), freeSize_setFreeAddr (T.header hp hx), e2 x hx]
  · refine .inl ⟨hjoin, fun x hx => ?_⟩
    rw [if_neg hjoin]
    exact ⟨e1 x hx, e2 x hx⟩

/-- Joining a block with the next one keeps the layout and the number of free bytes. -/
theorem join_layout (L : Layout E m (l₁ ++ p :: q :: l₂) live) :
    ∃ l2', (Seg (freeAddr m) q (q :: l₂) 0 → Seg (freeAddr (join m p q)) p (p :: l2') 0) ∧
      Layout E (join m p q) (l₁ ++ p :: l2') live ∧ (∀ x ∈ l₁, freeAddr (join m p q) x = freeAddr m x) ∧
      freeBytes (join m p q) (l₁ ++ p :: l2') = freeBytes m (l₁ ++ p :: q :: l₂) := by
  have hmem : ∀ x ∈ l₁ ++ p :: q :: l₂, x ∈ blocks (l₁ ++ p :: q :: l₂) live := fun x hx => mem_blocks.2 (.inl hx)
  have hp := hmem p (by simp)
  have hne : ∀ x ∈ l₁ ++ q :: l₂, x ≠ p := fun x hx => L.ne_of_other hx
  obtain ⟨-, hhdr⟩ | ⟨hjoin, hhdr⟩ := join_cases L.tiled hp (hmem q (by simp)) (hne q (by simp))
  · refine ⟨q :: l₂, fun hs => ⟨rfl, ?_⟩, L.congr fun x hx => (hhdr x hx).2, fun x hx => ?_,
      freeBytes_congr fun x hx => (hhdr x (hmem x hx)).2⟩
    · rw [(hhdr p hp).1, if_pos rfl]
      refine hs.congr fun x hx => ?_
      rw [(hhdr x (hmem x (mem_append_right _ (mem_cons_of_mem p hx)))).1, if_neg (hne x (mem_append_right _ hx))]
    · rw [(hhdr x (hmem x (by simp [hx]))).1, if_neg (hne x (by simp [hx]))]
  · -- the blocks other than the two keep their sizes
    have hsame : ∀ x ∈ blocks (l₁ ++ l₂) live, freeSize (join m p q) x = freeSize m x := by
      intro x hx
      have hx' : x ∈ blocks (l₁ ++ p :: q :: l₂) live :=
        mem_blocks.2 ((mem_blocks.1 hx).imp_left fun hx => mem_middle (mem_middle hx))
      rw [(hhdr x hx').2, if_neg]
      rintro rfl
      rcases mem_blocks.1 hx with hx | ⟨a, ha, rfl⟩
      · exact hne x (mem_middle hx) rfl
      · exact L.hdr_not_mem ha (by simp)
    have hsize : freeSize (join m p q) p = freeSize m p + 16 + freeSize m q := by rw [(hhdr p hp).2, if_pos rfl]
    refine ⟨l₂, fun hs => ⟨rfl, ?_⟩, L.merge hjoin hsize hsame, fun x hx => ?_, ?_⟩
    · rw [(hhdr p hp).1, if_pos rfl]
      refine hs.2.congr fun x hx => ?_
      rw [(hhdr x (hmem x (by simp [hx]))).1, if_neg (hne x (by simp [hx]))]
    · rw [(hhdr x (hmem x (by simp [hx]))).1, if_neg (hne x (by simp [hx]))]
    · rw [freeBytes_append, freeBytes_append, freeBytes_cons, freeBytes_cons, freeBytes_cons,
        freeBytes_congr fun x hx => hsame x (mem_blocks.2 (.inl (mem_append_left _ hx))), freeBytes_congr fun x hx =>
          hsame x (mem_blocks.2 (.inl (mem_append_right _ hx)))]
      unfold flSize
      omega

private theorem neighbours_eq (F : FreeList E h fl live) (hfp : fp ∉ fl) :
    ∃ l₁ l₂, fl = l₁ ++ l₂ ∧ (∀ x ∈ l₁, x < fp) ∧ (∀ x ∈ l₂, fp < x) ∧
      neighbours h.mem fp h.head = some (l₂.headD 0, l₁.getLastD 0) := by
  obtain ⟨l₁, l₂, rfl, h1, h2⟩ := exists_split (fun node => decide (node > fp)) fl
  have hlen := F.layout.length_lt
  have hs := search_eq addrSpace 0 F.seg (fun x hx => F.layout.ne_zero hx) h1 h2 (by simp at hlen; omega)
  refine ⟨l₁, l₂, rfl, ?_, ?_, hs⟩
  · intro x hx
    have h3 : x ≤ fp := by simpa using h1 x hx
    have h4 : x ≠ fp := fun e => hfp (e ▸ mem_append_left _ hx)
    omega
  · cases l₂ with
    | nil => simp
    | cons y l₂ =>
      have hy : fp < y := by simpa using h2 y (by simp)
      intro x hx
      rcases mem_cons.1 hx with rfl | hx
      · exact hy
      · exact Nat.lt_trans hy (F.layout.around.2 x hx)

theorem kfree_lastKmAddr (hf : kfree h ptr = some h') : h'.lastKmAddr = h.lastKmAddr := by
  unfold kfree at hf
  split at hf
  · cases hf
    rfl
  · dsimp only at hf
    split at hf
    · cases hf
      rfl
    · obtain ⟨⟨cp, pp⟩, -, hf⟩ := bind_eq_some_iff.1 hf
      split at hf
      · cases hf
        rfl
      · cases hf
        rfl

def hdrOf (ptr : Nat) : Nat := (ptr + addrSpace - flSize) % addrSpace

theorem Layout.hdrOf_ptr (L : Layout E m fl live) (ha : a ∈ live) : hdrOf a.ptr = a.hdr := by
  have hbd := L.tiled.bounds (mem_blocks.2 (.inr ⟨a, ha, rfl⟩))
  have e : a.ptr + addrSpace - flSize = a.hdr + addrSpace := by unfold Alloc.hdr flSize at *; omega
  rw [hdrOf, e, Nat.add_mod_right, Nat.mod_eq_of_lt (by omega)]

/-- `kfree` joins the block with its neighbours, first the one above and then the one below. -/
theorem kfree_eq (F : FreeList E h fl live) (hptr : ptr ≠ 0) (hfp : hdrOf ptr = fp) (h0 : fp ≠ 0) (hnot : fp ∉ fl) :
    ∃ l₁ l₂ m1 m2, fl = l₁ ++ l₂ ∧ (∀ x ∈ l₁, x < fp) ∧ (∀ x ∈ l₂, fp < x) ∧
      (if l₂.headD 0 = 0 then h.mem else join h.mem fp (l₂.headD 0)) = m1 ∧
      (if l₁.getLastD 0 = 0 then m1 else join m1 (l₁.getLastD 0) fp) = m2 ∧
      kfree h ptr = some { h with mem := m2, head := if l₁.getLastD 0 = 0 then fp else h.head } := by
  unfold hdrOf at hfp
  unfold kfree
  rw [if_neg hptr]
  simp only [hfp]
  by_cases hhead : h.head = 0
  · -- the list is empty
    obtain rfl := F.head_eq_zero.1 hhead
    exact ⟨[], [], _, _, rfl, by simp, by simp, rfl, rfl, by rw [if_pos hhead]; rfl⟩
  · obtain ⟨l₁, l₂, rfl, hlt, hgt, hn⟩ := neighbours_eq F hnot
    have hcp : fp ≠ l₂.headD 0 := by
      cases l₂ with
      | nil => exact h0
      | cons y l₂ => exact Nat.ne_of_lt (hgt y (by simp))
    refine ⟨l₁, l₂, _, _, rfl, hlt, hgt, rfl, rfl, ?_⟩
    rw [if_neg hhead, hn]
    simp only [bind_eq_bind, bind_some, if_neg hcp]
    rfl

theorem joinAbove_layout {m1 : Bytes} (L : Layout E m (l₁ ++ l₂) live) (ha : a ∈ live) (hlt : ∀ x ∈ l₁, x < a.hdr)
    (hgt : ∀ x ∈ l₂, a.hdr < x) (hm1 : (if l₂.headD 0 = 0 then m else join m a.hdr (l₂.headD 0)) = m1) :
    ∃ l2', (Seg (freeAddr m) (l₂.headD 0) l₂ 0 → (l₂ = [] → freeAddr m a.hdr = 0) → Seg (freeAddr m1) a.hdr
      (a.hdr :: l2') 0) ∧
      Layout E m1 (l₁ ++ a.hdr :: l2') (live.filter fun b => b.ptr ≠ a.ptr) ∧ (∀ x ∈ l₁, freeAddr m1 x = freeAddr m x) ∧
      freeBytes m1 (l₁ ++ a.hdr :: l2') = freeBytes m (l₁ ++ a.hdr :: l₂) := by
  have L' := L.release ha hlt hgt
  cases l₂ with
  | nil =>
    obtain rfl : m = m1 := hm1
    exact ⟨[], fun _ hnull => ⟨rfl, hnull rfl⟩, L', fun _ _ => rfl, rfl⟩
  | cons cp l3 =>
    have hcp0 : cp ≠ 0 := by have := hgt cp (by simp); omega
    rw [headD_cons, if_neg hcp0] at hm1
    obtain ⟨l2', e1, e2, e3, e4⟩ := join_layout L'
    rw [← hm1]
    exact ⟨l2', fun hs _ => e1 hs, e2, e3, e4⟩

/-- `kfree` keeps the list in order and adds the block to the free bytes, if the header of a block above all free blocks
holds `NULL`: the source never writes this link. -/
theorem kfree_release (F : FreeList E h fl live) (ha : a ∈ live)
    (hnull : (∀ x ∈ fl, x < a.hdr) → freeAddr h.mem a.hdr = 0) :
    ∃ h' fl', kfree h a.ptr = some h' ∧ h'.initStaticPagesDone = h.initStaticPagesDone ∧
      h'.deviceMemorySetUp = h.deviceMemorySetUp ∧ FreeList E h' fl' (live.filter fun b => b.ptr ≠ a.ptr) ∧
      freeBytes h'.mem fl' = freeBytes h.mem fl + (flSize + freeSize h.mem a.hdr) := by
  have L := F.layout
  have hbd := L.tiled.bounds (mem_blocks.2 (.inr ⟨a, ha, rfl⟩))
  have hroom := L.room a ha
  obtain ⟨l₁, l₂, m1, m2, rfl, hlt, hgt, hm1, hm2, he⟩ :=
    kfree_eq F (by unfold flSize at hroom; omega) (L.hdrOf_ptr ha) (by omega) (L.hdr_not_mem ha)
  obtain ⟨r, hs1, hs2⟩ := seg_append.1 F.seg
  obtain ⟨l2', hs, L', hl1, hbytes⟩ := joinAbove_layout L ha hlt hgt hm1
  have hs' := hs (hs2.head_eq ▸ hs2) fun hnil => hnull (by simpa [hnil] using hlt)
  have hadded : freeBytes h.mem (l₁ ++ a.hdr :: l₂) = freeBytes h.mem (l₁ ++ l₂) + (flSize + freeSize h.mem a.hdr) := by
    simp only [freeBytes_append, freeBytes_cons]
    omega
  rw [← hadded, ← hbytes]
  -- the lower end
  rcases eq_nil_or_concat' l₁ with rfl | ⟨l, pp, rfl⟩
  · obtain rfl : m1 = m2 := hm2
    exact ⟨_, a.hdr :: l2', he, rfl, rfl, ⟨by simpa using hs', by simpa using L'⟩, by simp⟩
  · have hpp : pp ≠ 0 := L.ne_zero (by simp)
    obtain ⟨r', hl, hpr⟩ := seg_append.1 hs1
    obtain rfl : r' = pp := hpr.1
    rw [List.append_assoc] at L' ⊢
    simp only [getLastD_concat, if_neg hpp] at hm2 he
    obtain ⟨l2'', e1, e2, e3, e4⟩ := join_layout L'
    rw [hm2] at e1 e2 e3 e4
    refine ⟨_, l ++ r' :: l2'', he, rfl, rfl, ⟨?_, e2⟩, e4⟩
    refine seg_append.2 ⟨r', hl.congr fun x hx => ?_, e1 hs'⟩
    rw [e3 x hx, hl1 x (by simp [hx])]

/-- `kfree` keeps the list in order, if the header of a block above all free blocks holds `NULL`. -/
theorem kfree_freeList (F : FreeList E h fl live) (ha : a ∈ live)
    (hnull : (∀ x ∈ fl, x < a.hdr) → freeAddr h.mem a.hdr = 0) :
    ∃ h' fl', kfree h a.ptr = some h' ∧ h'.initStaticPagesDone = h.initStaticPagesDone ∧
      h'.deviceMemorySetUp = h.deviceMemorySetUp ∧ FreeList E h' fl' (live.filter fun b => b.ptr ≠ a.ptr) := by
  obtain ⟨h', fl', he, hinit, hdev, F', -⟩ := kfree_release F ha hnull
  exact ⟨h', fl', he, hinit, hdev, F'⟩

end Adix.Kmalloc
