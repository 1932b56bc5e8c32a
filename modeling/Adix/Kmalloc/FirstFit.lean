import Adix.Kmalloc.Undo

/-!
# `kmalloc` is first fit and loses no memory

A call takes the lowest block that is large enough, and cuts it in two or takes it whole. Before and afterwards the free
and the allocated blocks, each with its header, tile the same set of addresses, the arena.
-/

namespace Adix.Kmalloc

open List

variable {E : Extent} {m m' : Bytes} {h h' : Heap} {fl l₁ l₂ bs : List Nat} {live : List Alloc} {p q x y bytes v : Nat}
  {A : Arena} {a b : Alloc} {s : State}

def Within (m : Bytes) (bs : List Nat) (x : Nat) : Prop := ∃ p ∈ bs, p ≤ x ∧ x < p + flSize + freeSize m p

/-- The free and the allocated blocks tile the arena. -/
structure Arranged (E : Extent) (arena : Nat → Prop) (h : Heap) (fl : List Nat) (live : List Alloc) : Prop where
  freeList : FreeList E h fl live
  covers : ∀ x, arena x ↔ Within h.mem (blocks fl live) x

def rest (m : Bytes) (p bytes : Nat) : List Nat := if bytes + flSize < freeSize m p then [p + flSize + bytes] else []

/-- `p` is the lowest block of `fl` that has room for `bytes` bytes. -/
structure FirstFit (m : Bytes) (fl : List Nat) (bytes p : Nat) : Prop where
  mem : p ∈ fl
  room : bytes ≤ freeSize m p
  lowest : ∀ x ∈ fl, bytes ≤ freeSize m x → p ≤ x

/-- What a call that takes the block `p`, with `l₁` before it and `l₂` behind it, leaves alone: all bytes outside the
block but the link of the block before it, and the sizes of all other blocks. -/
structure OthersKept (h h' : Heap) (l₁ l₂ : List Nat) (p : Nat) (live : List Alloc) : Prop where
  byte : ∀ x, Apart x 1 p (flSize + freeSize h.mem p) → (∀ prev ∈ l₁.getLast?, Apart x 1 prev 8) → h'.mem x = h.mem x
  size : ∀ x ∈ blocks (l₁ ++ l₂) live, freeSize h'.mem x = freeSize h.mem x

private theorem within_cons : Within m (p :: bs) x ↔ (p ≤ x ∧ x < p + flSize + freeSize m p) ∨ Within m bs x := by
  simp [Within]

private theorem within_congr {bs' : List Nat} (hmem : ∀ y, y ∈ bs' ↔ y ∈ bs)
    (hsize : ∀ y ∈ bs, freeSize m' y = freeSize m y) : Within m' bs' x ↔ Within m bs x := by
  constructor
  · intro hw
    obtain ⟨y, hy, hx⟩ := hw
    have hy' := (hmem y).1 hy
    rw [hsize y hy'] at hx
    exact ⟨y, hy', hx⟩
  · intro hw
    obtain ⟨y, hy, hx⟩ := hw
    rw [← hsize y hy] at hx
    exact ⟨y, (hmem y).2 hy, hx⟩

private theorem mem_blocks_middle : y ∈ blocks (l₁ ++ p :: l₂) live ↔ y ∈ p :: blocks (l₁ ++ l₂) live := by
  simp [blocks]
  tauto

private theorem mem_blocks_live : y ∈ blocks fl (⟨p + flSize, bytes⟩ :: live) ↔ y ∈ p :: blocks fl live := by
  simp [blocks, Alloc.hdr]
  tauto

private theorem within_cut (hq : q = p + flSize + freeSize m' p)
    (hpq : freeSize m' p + flSize + freeSize m' q = freeSize m p)
    (hsize : ∀ y ∈ bs, freeSize m' y = freeSize m y) : Within m' (p :: q :: bs) x ↔ Within m (p :: bs) x := by
  rw [within_cons, within_cons, within_cons, within_congr (fun _ => Iff.rfl) hsize, ← or_assoc]
  apply or_congr_left
  omega

private theorem setFreeAddr_of_apart (hx : Apart x 1 p 8) : setFreeAddr m p v x = m x := by
  apply Bytes.writeLE_of_not_mem
  unfold Apart at hx
  omega

private theorem setFreeSize_of_apart (hx : Apart x 1 p flSize) : setFreeSize m p v x = m x := by
  apply Bytes.writeLE_of_not_mem
  unfold Apart flSize at hx
  omega

private theorem cut_of_apart (hx : Apart x 1 p flSize) (hq : Apart x 1 q flSize) : cut m p q bytes x = m x := by
  have hq8 : Apart x 1 q 8 := by
    unfold Apart flSize at hq
    unfold Apart
    omega
  unfold cut
  rw [setFreeSize_of_apart hx, setFreeSize_of_apart hq, setFreeAddr_of_apart hq8]

private theorem link_of_apart (hx : ∀ prev ∈ l₁.getLast?, Apart x 1 prev 8) :
    (link h (l₁.getLastD 0) v).mem x = h.mem x := by
  unfold link
  split
  · rfl
  · next hne =>
    rcases eq_nil_or_concat l₁ with rfl | ⟨l, prev, rfl⟩
    · exact absurd rfl hne
    · rw [concat_eq_append] at hx ⊢
      rw [getLastD_concat]
      exact setFreeAddr_of_apart (hx prev (by simp))

private theorem take_of_apart (F : FreeList E h (l₁ ++ p :: l₂) live) (hb : bytes ≤ freeSize h.mem p)
    (hp : Apart x 1 p (flSize + freeSize h.mem p)) (hx : ∀ prev ∈ l₁.getLast?, Apart x 1 prev 8) :
    (take h p (l₁.getLastD 0) bytes).mem x = h.mem x := by
  have hbd := F.layout.mem_bounds (p := p) (by simp)
  unfold take
  split
  · next hbig =>
    -- the header of the rest lies inside the block
    have hnext : add64 (add64 p flSize) bytes = p + flSize + bytes := by
      unfold add64 flSize
      rw [Nat.mod_eq_of_lt (a := p + 16) (by omega), Nat.mod_eq_of_lt (by omega)]
    simp only [hnext]
    rw [link_of_apart hx]
    unfold Apart flSize at hp
    unfold flSize at hbig
    refine cut_of_apart ?_ ?_
    · unfold Apart flSize
      omega
    · unfold Apart flSize
      omega
  · exact link_of_apart hx

private theorem take_arranged {arena : Nat → Prop} (T : Arranged E arena h (l₁ ++ p :: l₂) live)
    (hb : bytes ≤ freeSize h.mem p) (ht : take h p (l₁.getLastD 0) bytes = h') :
    Arranged E arena h' (l₁ ++ rest h.mem p bytes ++ l₂) (⟨p + flSize, bytes⟩ :: live) ∧
      bytes ≤ freeSize h'.mem p ∧ OthersKept h h' l₁ l₂ p live := by
  obtain ⟨F, hcov⟩ := T
  have hbyte := fun x hp hx => take_of_apart (x := x) F hb hp hx
  rw [ht] at hbyte
  unfold rest
  split
  · next hbig =>
    obtain ⟨F', hp, hrest, -, hsize, -⟩ := take_cut F hbig rfl ht
    rw [List.append_assoc, singleton_append]
    refine ⟨⟨F', fun x => ?_⟩, Nat.le_of_eq hp.symm, hbyte, hsize⟩
    have hcut : Within h'.mem (p :: (p + flSize + bytes) :: blocks (l₁ ++ l₂) live) x ↔
        Within h.mem (p :: blocks (l₁ ++ l₂) live) x := by
      refine within_cut (by rw [hp]) ?_ hsize
      rw [hp, hrest]
      omega
    rw [hcov x, within_congr (fun _ => mem_blocks_middle) (fun _ _ => rfl), ← hcut]
    refine (within_congr (fun y => ?_) fun _ _ => rfl).symm
    rw [mem_blocks_live, mem_cons, mem_blocks_middle, ← mem_cons]
  · next hsmall =>
    obtain ⟨F', hsize, -⟩ := take_whole F hb (Nat.le_of_not_lt hsmall) ht
    have hp : p ∈ blocks (l₁ ++ p :: l₂) live := mem_blocks.2 (.inl (by simp))
    rw [append_nil]
    refine ⟨⟨F', fun x => ?_⟩, by rwa [hsize p hp], hbyte, fun x hx => hsize x ?_⟩
    · rw [hcov x]
      refine (within_congr (fun y => ?_) hsize).symm
      rw [mem_blocks_live, mem_blocks_middle]
    · exact mem_blocks_middle.2 (mem_cons_of_mem p hx)

/-- For every request that some free block has room for, `kmalloc` returns the payload of the lowest such block and
keeps all other blocks, and the blocks tile the same arena. -/
theorem kmalloc_first_fit (A : Arena) (vAlloc : Heap → Nat → Heap × Nat) (n : Nat) (E : Extent) (arena : Nat → Prop)
    (h : Heap) (fl : List Nat) (live : List Alloc) (T : Arranged E arena (ready A h) fl live) (bytes : Nat)
    (hpos : 0 < bytes) (hfit : ∃ x ∈ fl, bytes ≤ freeSize (ready A h).mem x) :
    ∃ l₁ p l₂ h', fl = l₁ ++ p :: l₂ ∧ FirstFit (ready A h).mem fl bytes p ∧
      kmalloc A vAlloc (n + 1) h bytes = some (h', p + flSize) ∧ bytes ≤ freeSize h'.mem p ∧
      OthersKept (ready A h) h' l₁ l₂ p live ∧
      Arranged E arena h' (l₁ ++ rest (ready A h).mem p bytes ++ l₂) (⟨p + flSize, bytes⟩ :: live) := by
  rw [kmalloc_ready]
  have hinit := initStaticPagesDone_ready (A := A) (h := h)
  generalize ready A h = h0 at *
  obtain ⟨-, hnone⟩ | ⟨l₁, p, l₂, rfl, hp, hbefore, hscan⟩ := scan_eq bytes T.freeList
  · obtain ⟨x, hx, hroom⟩ := hfit
    exact absurd (hnone x hx) (Nat.not_lt.2 hroom)
  obtain ⟨T', hsize, hothers⟩ := take_arranged T hp rfl
  refine ⟨l₁, p, l₂, _, rfl, ⟨by simp, hp, fun x hx hroom => ?_⟩,
    kmalloc_take A vAlloc n T.freeList hinit (Nat.ne_of_gt hpos) hscan, hsize, hothers, T'⟩
  -- a block with room is not before `p`
  rcases mem_append.1 hx with hx | hx
  · exact absurd (hbefore x hx) (Nat.not_lt.2 hroom)
  · rcases mem_cons.1 hx with rfl | hx
    · exact Nat.le_refl x
    · exact Nat.le_of_lt (T.freeList.layout.around.2 x hx)

/-- A free block of 24 bytes, and behind a live one the rest of the arena. -/
private def smallFirst : Heap :=
  ((run (step arena2M fun h _ => (h, 0)) (start fun _ => 0) [.kmalloc 24, .kmalloc 24, .kfree 0x200010]).map
    State.heap).getD (boot fun _ => 0)

theorem kmalloc_first_fit_static : ∃ h', kmalloc arena2M (fun h _ => (h, 0)) 1 smallFirst 100 = some (h', 0x200060) ∧
    Arranged arena2M.extent (Within smallFirst.mem [0x200000, 0x200050, 0x200028]) h' [0x200000, 0x2000c4]
      [{ ptr := 0x200060, bytes := 100 }, { ptr := 0x200038, bytes := 24 }] := by
  have hready : ready arena2M smallFirst = smallFirst := if_pos (by decide +kernel)
  have F : FreeList arena2M.extent smallFirst [0x200000, 0x200050] [{ ptr := 0x200038, bytes := 24 }] :=
    ⟨⟨by decide +kernel, by decide +kernel, (by decide +kernel : freeAddr smallFirst.mem 0x200050 = 0)⟩,
      ⟨by decide +kernel, by unfold BlockApart Apart; decide +kernel⟩, by decide, by decide +kernel⟩
  have hsmall : freeSize smallFirst.mem 0x200000 = 24 := by decide +kernel
  have hroom : 100 ≤ freeSize smallFirst.mem 0x200050 := by decide +kernel
  have hrest : rest smallFirst.mem 0x200050 100 = [0x2000c4] := by decide +kernel
  obtain ⟨l₁, p, l₂, h', hfl, hfirst, hrun, -, -, T'⟩ := kmalloc_first_fit arena2M (fun h _ => (h, 0)) 0 arena2M.extent
    (Within smallFirst.mem [0x200000, 0x200050, 0x200028]) smallFirst [0x200000, 0x200050]
      [{ ptr := 0x200038, bytes := 24 }]
    (by rw [hready]; exact ⟨F, fun _ => Iff.rfl⟩) 100 (by decide) ⟨0x200050, by simp, by rw [hready]; exact hroom⟩
  rw [hready] at hfirst T'
  -- the first block is too small
  have hp : p ≠ 0x200000 := by
    rintro rfl
    have := hfirst.room
    omega
  obtain ⟨rfl, rfl, rfl⟩ : l₁ = [0x200000] ∧ p = 0x200050 ∧ l₂ = [] := by
    rcases l₁ with _ | ⟨a, _ | ⟨b, l₁⟩⟩ <;> simp_all
  rw [hrest] at T'
  exact ⟨h', hrun, T'⟩

def usedBytes (m : Bytes) (live : List Alloc) : Nat := freeBytes m (live.map Alloc.hdr)

private theorem usedBytes_congr (hsize : ∀ b ∈ live, freeSize m' b.hdr = freeSize m b.hdr) :
    usedBytes m' live = usedBytes m live := freeBytes_congr (by simpa using hsize)

private theorem take_conserves (F : FreeList E h (l₁ ++ p :: l₂) live) (hb : bytes ≤ freeSize h.mem p)
    (ht : take h p (l₁.getLastD 0) bytes = h') : ∃ fl', FreeList E h' fl' (⟨p + flSize, bytes⟩ :: live) ∧
      freeBytes h'.mem fl' + usedBytes h'.mem (⟨p + flSize, bytes⟩ :: live) =
        freeBytes h.mem (l₁ ++ p :: l₂) + usedBytes h.mem live := by
  have hsame : (∀ x ∈ blocks (l₁ ++ l₂) live, freeSize h'.mem x = freeSize h.mem x) →
      freeBytes h'.mem l₁ = freeBytes h.mem l₁ ∧ freeBytes h'.mem l₂ = freeBytes h.mem l₂ ∧
      usedBytes h'.mem (⟨p + flSize, bytes⟩ :: live) = flSize + freeSize h'.mem p + usedBytes h.mem live := by
    intro hsize
    refine ⟨freeBytes_congr fun x hx => hsize x ?_, freeBytes_congr fun x hx => hsize x ?_, ?_⟩
    · exact mem_blocks.2 (.inl (mem_append_left _ hx))
    · exact mem_blocks.2 (.inl (mem_append_right _ hx))
    · rw [← usedBytes_congr fun b hb => hsize _ (mem_blocks.2 (.inr ⟨b, hb, rfl⟩))]
      simp [usedBytes, Alloc.hdr]
  by_cases hbig : bytes + flSize < freeSize h.mem p
  · obtain ⟨F', hp, hq, -, hsize, -⟩ := take_cut F hbig rfl ht
    obtain ⟨e1, e2, e3⟩ := hsame hsize
    refine ⟨_, F', ?_⟩
    simp only [freeBytes_append, freeBytes_cons, e1, e2, e3, hp, hq]
    omega
  · obtain ⟨F', hsize, -⟩ := take_whole F hb (Nat.le_of_not_lt hbig) ht
    obtain ⟨e1, e2, e3⟩ := hsame fun x hx => hsize x (mem_blocks.2 ((mem_blocks.1 hx).imp_left mem_middle))
    refine ⟨_, F', ?_⟩
    simp only [freeBytes_append, freeBytes_cons, e1, e2, e3, hsize p (mem_blocks.2 (.inl (by simp)))]
    omega

private theorem join_live (L : Layout E m (l₁ ++ p :: q :: l₂) live) (hb : b ∈ live) :
    freeSize (join m p q) b.hdr = freeSize m b.hdr := by
  have hmem : ∀ x ∈ l₁ ++ p :: q :: l₂, x ∈ blocks (l₁ ++ p :: q :: l₂) live := fun x hx => mem_blocks.2 (.inl hx)
  have hne : q ≠ p := L.ne_of_other (by simp)
  have hb' : b.hdr ∈ blocks (l₁ ++ p :: q :: l₂) live := mem_blocks.2 (.inr ⟨b, hb, rfl⟩)
  obtain ⟨-, hhdr⟩ | ⟨-, hhdr⟩ := join_cases L.tiled (hmem p (by simp)) (hmem q (by simp)) hne
  · exact (hhdr _ hb').2
  · rw [(hhdr _ hb').2, if_neg]
    rintro rfl
    exact L.hdr_not_mem hb (by simp)

private theorem kfree_live (F : FreeList E h fl live) (ha : a ∈ live) (he : kfree h a.ptr = some h')
    (hb : b ∈ live.filter fun b => b.ptr ≠ a.ptr) : freeSize h'.mem b.hdr = freeSize h.mem b.hdr := by
  have L := F.layout
  have hbd := L.tiled.bounds (mem_blocks.2 (.inr ⟨a, ha, rfl⟩))
  have hroom := L.room a ha
  obtain ⟨l₁, l₂, m1, m2, rfl, hlt, hgt, hm1, hm2, he'⟩ :=
    kfree_eq F (by unfold flSize at hroom; omega) (L.hdrOf_ptr ha) (by omega) (L.hdr_not_mem ha)
  obtain rfl := Option.some.inj (he.symm.trans he')
  obtain ⟨l2', -, L', -⟩ := joinAbove_layout L ha hlt hgt hm1
  have h1 : freeSize m1 b.hdr = freeSize h.mem b.hdr := by
    cases l₂ with
    | nil => rw [← hm1]; rfl
    | cons cp l₂ =>
      have hcp := hgt cp (by simp)
      rw [← hm1, headD_cons, if_neg (by omega)]
      exact join_live (L.release ha hlt hgt) hb
  rw [← h1]
  rcases eq_nil_or_concat' l₁ with rfl | ⟨l, pp, rfl⟩
  · rw [← hm2]; rfl
  · have hpp : pp ≠ 0 := L.ne_zero (by simp)
    rw [← hm2, getLastD_concat, if_neg hpp]
    rw [List.append_assoc] at L'
    exact join_live L' hb

structure Conserved (A : Arena) (s : State) : Prop where
  off : s.heap.deviceMemorySetUp = false
  fresh : s.heap.initStaticPagesDone = false → s.live = []
  list : ∃ fl, FreeList A.extent (ready A s.heap) fl s.live ∧
    freeBytes (ready A s.heap).mem fl + usedBytes (ready A s.heap).mem s.live = kmStaticSize

private theorem ready_of_done (hd : h.initStaticPagesDone = true) : ready A h = h := if_pos hd

private theorem Conserved.done (I : Conserved A s) (ha : a ∈ s.live) : s.heap.initStaticPagesDone = true := by
  by_contra hd
  rw [I.fresh (by simpa using hd)] at ha
  cases ha

private theorem start_conserved (m : Bytes) : Conserved A (start m) := by
  have hsize : freeSize (initStaticPages A (boot m)).mem A.kmStatic = kmStaticSize - flSize := by
    unfold initStaticPages
    rw [freeSize_setFreeSize (by decide) (.inl rfl), if_pos rfl]
  have hready : ready A (start m).heap = initStaticPages A (boot m) := rfl
  refine ⟨rfl, fun _ => rfl, [A.kmStatic], ?_⟩
  rw [hready, freeBytes_cons, hsize]
  exact ⟨initStaticPages_freeList _, rfl⟩

/-- Each step keeps the bytes of all blocks together. -/
private theorem step_conserved {vAlloc : Heap → Nat → Heap × Nat} (s : State) (op : Op) (I : Conserved A s)
    (hop : CallOk s op ∧ LinkOk s op) : ∃ s', step A vAlloc s op = some s' ∧ Conserved A s' := by
  obtain ⟨hcall, hlink⟩ := hop
  obtain ⟨fl, F, hsum⟩ := I.list
  cases op with
  | kmalloc bytes =>
    have hd : (ready A s.heap).initStaticPagesDone = true := initStaticPagesDone_ready
    have hoff : (ready A s.heap).deviceMemorySetUp = false := by
      unfold ready
      split
      · exact I.off
      · exact I.off
    simp only [step, kmalloc_ready (h := s.heap)]
    generalize ready A s.heap = h0 at F hsum hd hoff
    have hnull : Conserved A { heap := h0, live := s.live } :=
      ⟨hoff, fun hc => absurd (hd.symm.trans hc) (by decide), fl, by rwa [ready_of_done hd], by rwa [ready_of_done hd]⟩
    by_cases hb : bytes = 0
    · exact ⟨_, by simp [kmalloc, hd, hb], hnull⟩
    rcases scan_eq bytes F with ⟨hs, -⟩ | ⟨l₁, p, l₂, rfl, hp, -, hs⟩
    · exact ⟨_, by simp [kmalloc, hd, hb, hs, hoff], hnull⟩
    · obtain ⟨fl', F', hsum'⟩ := take_conserves F hp rfl
      have hd' : (take h0 p (l₁.getLastD 0) bytes).initStaticPagesDone = true := take_initStaticPagesDone.trans hd
      refine ⟨_, by rw [kmalloc_take A vAlloc 0 F hd hb hs]; rfl, take_deviceMemorySetUp.trans hoff,
        fun hc => absurd (hd'.symm.trans hc) (by decide), fl', ?_⟩
      rw [ready_of_done hd']
      exact ⟨F', hsum'.trans hsum⟩
  | kfree ptr =>
    obtain ⟨a, ha, rfl⟩ := hcall
    have hd := I.done ha
    rw [ready_of_done hd] at F hsum
    obtain ⟨h', fl', he, hd', hoff, F', hbytes⟩ :=
      kfree_release F ha fun hall => hlink fun p hp => hall p (F.onFreeList_iff.1 hp)
    rw [hd] at hd'
    refine ⟨_, by simp only [step, he]; rfl, hoff.trans I.off, fun hc => absurd (hd'.symm.trans hc) (by decide), fl',
      ?_⟩
    rw [ready_of_done hd']
    refine ⟨F', ?_⟩
    -- what the live blocks lose is what the free ones gain
    have hperm := ((F.layout.live_perm ha).map fun x => flSize + freeSize s.heap.mem x).sum_nat
    rw [map_cons, sum_cons] at hperm
    rw [hbytes, usedBytes_congr fun b hb => kfree_live F ha he hb, ← hsum]
    unfold usedBytes freeBytes at *
    omega
  | store x b =>
    obtain ⟨a, ha, -⟩ := id hcall
    have hd := I.done ha
    rw [ready_of_done hd] at F hsum
    refine ⟨_, rfl, I.off, I.fresh, fl, ?_⟩
    rw [ready_of_done (h := { s.heap with mem := s.heap.mem.writeByte x b }) hd]
    refine ⟨store_freeList F hcall, ?_⟩
    rw [freeBytes_congr fun p hp => F.freeSize_store hcall b (mem_blocks.2 (.inl hp)),
      usedBytes_congr fun a ha => F.freeSize_store hcall b (mem_blocks.2 (.inr ⟨a, ha, rfl⟩)), hsum]

/-- In every state of a run in which the heap is safe, the blocks that the list from `head` leads to and the blocks
given out add up to `KM_STATIC_SIZE` bytes. -/
theorem heap_conserved (A : Arena) (vAlloc : Heap → Nat → Heap × Nat) (m : Bytes) (ops : List Op)
    (h : Permitted (step A vAlloc) (fun s op => CallOk s op ∧ LinkOk s op) (start m) ops) :
    ∃ s, run (step A vAlloc) (start m) ops = some s ∧ (s.heap.initStaticPagesDone = true →
      ∃ fl, Seg (freeAddr s.heap.mem) s.heap.head fl 0 ∧
        freeBytes s.heap.mem fl + usedBytes s.heap.mem s.live = kmStaticSize) := by
  obtain ⟨s, hs, I⟩ := run_invariant step_conserved (start_conserved m) h
  refine ⟨s, hs, fun hd => ?_⟩
  obtain ⟨fl, F, hsum⟩ := I.list
  rw [ready_of_done hd] at F hsum
  exact ⟨fl, F.seg, hsum⟩

/-- Two blocks are given out, and one is freed. -/
theorem heap_conserved_reuse : ∃ s, run (step arena2M fun h _ => (h, 0)) (start fun _ => 0)
      [.kmalloc 16, .kmalloc 16, .kfree 0x200010] = some s ∧ (s.heap.initStaticPagesDone = true →
      ∃ fl, Seg (freeAddr s.heap.mem) s.heap.head fl 0 ∧
        freeBytes s.heap.mem fl + usedBytes s.heap.mem s.live = kmStaticSize) := by
  have hp : Permitted (step arena2M fun h _ => (h, 0)) (fun s op => CallOk s op ∧ BelowHead s op) (start fun _ => 0)
      [.kmalloc 16, .kmalloc 16, .kfree 0x200010] := by decide +kernel
  exact heap_conserved arena2M _ _ _ (hp.mono fun s op h => ⟨h.1, h.2.linkOk⟩)

end Adix.Kmalloc
