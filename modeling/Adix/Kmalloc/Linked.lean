import Adix.Kmalloc.FreeList

/-!
# What a call of `kfree` puts on the list

`kfree` means to ignore a block that is free already: it returns when `fp == cp`. But `cp` is the first block above
`fp`, so the test never holds; a block of the list is its own predecessor `pp`, and `kfree` makes it link to itself.
-/

namespace Adix.Kmalloc

open List

variable {E : Extent} {m : Bytes} {h h' : Heap} {fl l₁ l₂ : List Nat} {live : List Alloc} {a : Alloc}
  {p q ptr fp x : Nat} {A : Arena}

def OnList (h : Heap) (p : Nat) : Prop :=
  ∃ l q, Seg (freeAddr h.mem) h.head (l ++ [p]) q ∧ ∀ x ∈ l ++ [p], x ≠ 0

/-- The address is in a block that the links from `head` lead to. -/
def FreeAt (h : Heap) (x : Nat) : Prop := ∃ p, OnList h p ∧ p ≤ x ∧ x < p + 16 + freeSize h.mem p

theorem FreeList.mem_of_onList (F : FreeList E h fl live) (hp : OnList h p) : p ∈ fl := by
  obtain ⟨l, q, hseg, h0⟩ := hp
  exact F.seg.mem_of_reaches hseg h0

/-- What is given out is not on the list. -/
theorem FreeList.not_freeAt (F : FreeList E h fl live) (ha : a ∈ live) : ¬ FreeAt h a.hdr := by
  rintro ⟨p, hp, hle, hlt⟩
  have hapart := F.layout.freeApart (F.mem_of_onList hp) ha
  unfold BlockApart Apart at hapart
  omega

private theorem onList_next {l : List Nat} (hs : Seg (freeAddr m) h.head l p) (h0 : ∀ x ∈ l ++ [p], x ≠ 0)
    (hp : freeAddr m p = q) (hq : q ≠ 0) : OnList { h with mem := m } q := by
  refine ⟨l ++ [p], freeAddr m q, ?_, ?_⟩
  · exact seg_append.2 ⟨q, seg_append.2 ⟨p, hs, rfl, hp⟩, rfl, rfl⟩
  · intro x hx
    rcases mem_append.1 hx with hx | hx
    · exact h0 x hx
    · simp at hx
      rw [hx]
      exact hq

/-- After a call of `kfree` the list leads to the freed block, or to a block that was merged with it, whatever its link
holds. -/
theorem kfree_freeAt (F : FreeList E h fl live) (ha : a ∈ live) (he : kfree h a.ptr = some h') : FreeAt h' a.hdr := by
  have L := F.layout
  have hbd := L.tiled.bounds (mem_blocks.2 (.inr ⟨a, ha, rfl⟩))
  have hroom := L.room a ha
  obtain ⟨l1, l2, m1, m2, rfl, hlt, hgt, hm1, hm2, he'⟩ :=
    kfree_eq F (by unfold flSize at hroom; omega) (L.hdrOf_ptr ha) (by omega) (L.hdr_not_mem ha)
  rw [he] at he'
  cases he'
  obtain ⟨l2', -, L', hl1, -⟩ := joinAbove_layout L ha hlt hgt hm1
  obtain ⟨r, hs1, -⟩ := seg_append.1 F.seg
  rcases eq_nil_or_concat' l1 with rfl | ⟨l, pp, rfl⟩
  · exact ⟨a.hdr, ⟨[], _, ⟨rfl, rfl⟩, by simp; omega⟩, Nat.le_refl _, by omega⟩
  · have h0 : ∀ x ∈ l ++ [pp], x ≠ 0 := fun x hx => L.ne_zero (mem_append_left _ hx)
    have hpp : pp ≠ 0 := h0 pp (by simp)
    obtain ⟨r', hl, hpr⟩ := seg_append.1 hs1
    obtain rfl : r' = pp := hpr.1
    simp only [getLastD_concat, if_neg hpp] at hm2 ⊢
    have hlow := hlt r' (by simp)
    generalize (live.filter fun b => b.ptr ≠ a.ptr) = live' at L'
    have hmem : ∀ x ∈ l ++ [r'] ++ a.hdr :: l2', x ∈ blocks (l ++ [r'] ++ a.hdr :: l2') live' :=
      fun x hx => mem_blocks.2 (.inl hx)
    have hne : ∀ x ∈ l, x ≠ r' := fun x hx => (List.append_assoc l [r'] l2 ▸ L).ne_of_other (mem_append_left _ hx)
    -- the part of the list up to the block below is kept
    have hcases := join_cases L'.tiled (hmem r' (by simp)) (hmem a.hdr (by simp)) (Nat.ne_of_gt hlow)
    rw [hm2] at hcases
    have hpath : ∀ x ∈ l, freeAddr m2 x = freeAddr h.mem x := by
      intro x hx
      have hx' := hmem x (by simp [hx])
      rw [← hl1 x (by simp [hx])]
      obtain ⟨-, hhdr⟩ | ⟨-, hhdr⟩ := hcases
      · rw [(hhdr x hx').1, if_neg (hne x hx)]
      · rw [(hhdr x hx').1, if_neg (hne x hx)]
    have hl' := hl.congr hpath
    obtain ⟨-, hhdr⟩ | ⟨htouch, hhdr⟩ := hcases
    · have hlink := (hhdr r' (hmem r' (by simp))).1
      rw [if_pos rfl] at hlink
      exact ⟨a.hdr, onList_next hl' h0 hlink (by omega), Nat.le_refl _, by omega⟩
    · have hsize := (hhdr r' (hmem r' (by simp))).2
      rw [if_pos rfl] at hsize
      refine ⟨r', ⟨l, freeAddr m2 r', seg_append.2 ⟨r', hl', rfl, rfl⟩, h0⟩, Nat.le_of_lt hlow, ?_⟩
      show a.hdr < r' + 16 + freeSize m2 r'
      rw [hsize]
      omega

private theorem freeAddr_join_apart (hx : Apart x 16 p 16) : freeAddr (join m p q) x = freeAddr m x := by
  unfold join
  dsimp only
  split
  · rw [freeAddr_setFreeSize (.inr hx), freeAddr_setFreeAddr_apart hx, freeAddr_setFreeAddr_apart hx]
  · rw [freeAddr_setFreeAddr_apart hx]

private theorem freeSize_join_apart (hx : Apart x 16 p 16) : freeSize (join m p q) x = freeSize m x := by
  unfold join
  dsimp only
  split
  · rw [freeSize_setFreeSize_apart hx, freeSize_setFreeAddr (.inr hx), freeSize_setFreeAddr (.inr hx)]
  · rw [freeSize_setFreeAddr (.inr hx)]

/-- The bytes at `fp` are apart from the headers of the free blocks, and do not follow a free block. -/
structure Beside (h : Heap) (fl : List Nat) (fp : Nat) : Prop where
  apart : ∀ x ∈ fl, Apart x 16 fp 16
  follows : ∀ x ∈ fl, fp ≠ x + 16 + freeSize h.mem x

/-- The same for a pointer that is not an allocation at all, unless the bytes in front of it happen to touch a free
block. -/
theorem kfree_onList (F : FreeList E h fl live) (hptr : ptr ≠ 0) (hfp : hdrOf ptr = fp) (h0 : fp ≠ 0)
    (hb : Beside h fl fp) (he : kfree h ptr = some h') : OnList h' fp := by
  have L := F.layout
  have hlt64 : fp < addrSpace := by
    rw [← hfp]
    exact Nat.mod_lt _ (by decide)
  have hnot : fp ∉ fl := fun hmem => (hb.apart fp hmem).ne (by decide) (by decide) rfl
  obtain ⟨l1, l2, m1, m2, rfl, -, -, hm1, hm2, he'⟩ := kfree_eq F hptr hfp h0 hnot
  rw [he] at he'
  cases he'
  obtain ⟨r, hs1, -⟩ := seg_append.1 F.seg
  rcases eq_nil_or_concat' l1 with rfl | ⟨l, pp, rfl⟩
  · exact ⟨[], _, ⟨rfl, rfl⟩, by simpa using h0⟩
  · have hne0 : ∀ x ∈ l ++ [pp], x ≠ 0 := fun x hx => L.ne_zero (mem_append_left _ hx)
    have hpp : pp ≠ 0 := hne0 pp (by simp)
    obtain ⟨r', hl, hpr⟩ := seg_append.1 hs1
    obtain rfl : r' = pp := hpr.1
    simp only [getLastD_concat, if_neg hpp] at hm2 ⊢
    have hbd := L.mem_bounds (p := r') (by simp)
    have hfollow := hb.follows r' (by simp)
    -- the headers below are not written when `fp` is linked to the block above
    have hkeep : ∀ x ∈ l ++ [r'], freeAddr m1 x = freeAddr h.mem x ∧ freeSize m1 x = freeSize h.mem x := by
      intro x hx
      have hx' := hb.apart x (mem_append_left _ hx)
      rw [← hm1]
      split
      · exact ⟨rfl, rfl⟩
      · exact ⟨freeAddr_join_apart hx', freeSize_join_apart hx'⟩
    have hsize : freeSize (setFreeAddr m1 r' fp) r' = freeSize h.mem r' := by
      rw [freeSize_setFreeAddr (.inl rfl), (hkeep r' (by simp)).2]
    have hjoin : join m1 r' fp = setFreeAddr m1 r' fp := by
      refine if_neg ?_
      rw [hsize]
      unfold add64 flSize
      rw [Nat.mod_eq_of_lt (show r' + 16 < addrSpace by omega), Nat.mod_eq_of_lt (by omega)]
      exact hfollow
    rw [hjoin] at hm2
    subst hm2
    refine onList_next (hl.congr fun x hx => ?_) hne0 ?_ h0
    · have hhead := L.tiled.header (mem_blocks.2 (.inl (by simp : r' ∈ l ++ [r'] ++ l2)))
        (mem_blocks.2 (.inl (by simp [hx] : x ∈ l ++ [r'] ++ l2)))
      rw [freeAddr_setFreeAddr hlt64 hhead,
        if_neg ((List.append_assoc l [r'] l2 ▸ L).ne_of_other (mem_append_left _ hx)), (hkeep x (by simp [hx])).1]
    · rw [freeAddr_setFreeAddr hlt64 (.inl rfl), if_pos rfl]

/-- The call left the list of free blocks as it was, and a scan of it ends. -/
structure Ignored (h h' : Heap) (fl : List Nat) : Prop where
  list : Seg (freeAddr h'.mem) h'.head fl 0
  sizes : ∀ x ∈ fl, freeSize h'.mem x = freeSize h.mem x
  ends : ∀ bytes, (scan h'.mem bytes h'.head).isSome

/-- The list from `head` runs through the blocks `l` to `fp` and stays there. -/
structure Cyclic (h : Heap) (l : List Nat) (fp : Nat) : Prop where
  seg : Seg (freeAddr h.mem) h.head (l ++ [fp]) fp
  ne_zero : ∀ x ∈ l ++ [fp], x ≠ 0

private theorem Cyclic.closed (hc : Cyclic h l₁ fp) : ∀ x, x ∈ l₁ ++ [fp] → x ≠ 0 ∧ freeAddr h.mem x ∈ l₁ ++ [fp] := by
  intro x hx
  refine ⟨hc.ne_zero x hx, ?_⟩
  rcases hc.seg.next_mem x hx with hn | hn
  · exact hn
  · simp [hn]

private theorem Cyclic.head_mem (hc : Cyclic h l₁ fp) : h.head ∈ l₁ ++ [fp] := by
  cases l₁ with
  | nil => simp [hc.seg.1]
  | cons x l => simp [hc.seg.1]

/-- The list does not end. -/
theorem Cyclic.not_seg (hc : Cyclic h l₁ fp) (l : List Nat) : ¬ Seg (freeAddr h.mem) h.head l 0 :=
  not_seg_of_closed hc.closed hc.head_mem l

private theorem neighbours_self (F : FreeList E h (l₁ ++ fp :: l₂) live) :
    neighbours h.mem fp h.head = some (l₂.headD 0, fp) := by
  have hlen := F.layout.length_lt
  have hseg : Seg (freeAddr h.mem) h.head ((l₁ ++ [fp]) ++ l₂) 0 := by
    rw [List.append_assoc]
    exact F.seg
  have hbefore : ∀ x ∈ l₁ ++ [fp], decide (x > fp) = false := by
    intro x hx
    rcases mem_append.1 hx with hx | hx
    · have := F.layout.around.1 x hx
      simp
      omega
    · simp at hx
      simp [hx]
  have hbehind : ∀ x ∈ l₂.head?, decide (x > fp) = true := by
    intro x hx
    simpa using F.layout.around.2 x (mem_of_mem_head? hx)
  have hs := search_eq addrSpace 0 hseg (fun x hx => F.layout.ne_zero (by simpa using hx)) hbefore hbehind
    (by simp at hlen ⊢; omega)
  rw [neighbours, hs]
  simp

private theorem join_self (L : Layout E m (l₁ ++ fp :: l₂) live) : join m fp fp = setFreeAddr m fp fp := by
  have hmem : fp ∈ blocks (l₁ ++ fp :: l₂) live := mem_blocks.2 (.inl (by simp))
  have hbd := L.tiled.bounds hmem
  refine if_neg ?_
  rw [freeSize_setFreeAddr (.inl rfl)]
  unfold add64 flSize
  rw [Nat.mod_eq_of_lt (show fp + 16 < addrSpace by omega), Nat.mod_eq_of_lt (by omega)]
  omega

private theorem cyclic_setFreeAddr (L : Layout E m (l₁ ++ fp :: l₂) live) (hs : Seg (freeAddr m) h.head l₁ fp) :
    Cyclic { h with mem := setFreeAddr m fp fp } l₁ fp := by
  have hmem : ∀ x ∈ l₁ ++ fp :: l₂, x ∈ blocks (l₁ ++ fp :: l₂) live := fun x hx => mem_blocks.2 (.inl hx)
  have hfp := hmem fp (by simp)
  have hbd := L.tiled.bounds hfp
  have hlink : ∀ x ∈ l₁ ++ fp :: l₂, freeAddr (setFreeAddr m fp fp) x = if x = fp then fp else freeAddr m x :=
    fun x hx => freeAddr_setFreeAddr (by omega) (L.tiled.header hfp (hmem x hx))
  have hne : ∀ x ∈ l₁, x ≠ fp := fun x hx => L.ne_of_other (mem_append_left _ hx)
  refine ⟨seg_append.2 ⟨fp, hs.congr fun x hx => ?_, rfl, ?_⟩, fun x hx => ?_⟩
  · rw [hlink x (by simp [hx]), if_neg (hne x hx)]
  · show freeAddr (setFreeAddr m fp fp) fp = fp
    rw [hlink fp (by simp), if_pos rfl]
  · exact L.ne_zero (by rcases mem_append.1 hx with hx | hx <;> simp_all)

private theorem kfree_free_block (F : FreeList E h (l₁ ++ fp :: l₂) live) (hptr : ptr ≠ 0) (hhdr : hdrOf ptr = fp) :
    ∃ h', kfree h ptr = some h' ∧ Cyclic h' l₁ fp := by
  have L := F.layout
  have h0 : fp ≠ 0 := L.ne_zero (by simp)
  obtain ⟨r, hs1, hr, hs2⟩ := seg_append.1 F.seg
  subst hr
  have hhead : h.head ≠ 0 := mt F.head_eq_zero.1 (by simp)
  unfold hdrOf at hhdr
  unfold kfree
  rw [if_neg hptr]
  simp only [hhdr, neighbours_self F, Option.bind_eq_bind, Option.bind_some, if_neg hhead]
  have hcp : r ≠ l₂.headD 0 := by
    cases l₂ with
    | nil => exact h0
    | cons y l₂ => exact Nat.ne_of_lt (L.around.2 y (by simp))
  rw [if_neg hcp, if_neg h0]
  refine ⟨_, rfl, ?_⟩
  rw [if_neg h0]
  cases l₂ with
  | nil =>
    rw [headD_nil, if_pos rfl, join_self L]
    exact cyclic_setFreeAddr L hs1
  | cons y l₂ =>
    rw [headD_cons, if_neg (L.ne_zero (by simp))]
    obtain ⟨l2', -, L', hkeep, -⟩ := join_layout L
    rw [join_self L']
    exact cyclic_setFreeAddr L' (hs1.congr hkeep)

/-- For `NULL` and for the pointers to free blocks: the call is ignored if and only if the pointer is `NULL`. -/
theorem double_kfree_iff (E : Extent) (h : Heap) (fl : List Nat) (live : List Alloc) (F : FreeList E h fl live)
    (ptr : Nat) (hptr : ptr = 0 ∨ hdrOf ptr ∈ fl) : (∃ h', kfree h ptr = some h' ∧ Ignored h h' fl) ↔ ptr = 0 := by
  constructor
  · rintro ⟨h', he, hign⟩
    by_contra hne
    obtain ⟨l₁, l₂, rfl⟩ := append_of_mem (hptr.resolve_left hne)
    obtain ⟨u, hu, hc⟩ := kfree_free_block F hne rfl
    rw [he] at hu
    cases hu
    exact hc.not_seg _ hign.list
  · rintro rfl
    refine ⟨h, rfl, F.seg, fun _ _ => rfl, fun bytes => ?_⟩
    obtain ⟨hs, -⟩ | ⟨l₁, p, l₂, -, -, -, hs⟩ := scan_eq bytes F
    · simp [hs]
    · simp [hs]

private def secondPage : Arena := ⟨0x1000, by decide, by decide, by decide⟩

theorem double_kfree_null : ∃ h', kfree (initStaticPages secondPage (boot fun _ => 0)) 0 = some h' ∧
      Ignored (initStaticPages secondPage (boot fun _ => 0)) h' [0x1000] :=
  (double_kfree_iff _ _ _ _ (initStaticPages_freeList (A := secondPage) (boot fun _ => 0)) 0 (.inl rfl)).2 rfl

/-- The block that all of the arena is, freed again: the list does not end any more. -/
theorem double_kfree_cyclic :
    ¬ ∀ (E : Extent) (h : Heap) (fl : List Nat) (live : List Alloc), FreeList E h fl live → ∀ ptr, ptr ≠ 0 →
      hdrOf ptr ∈ fl → ∃ h', kfree h ptr = some h' ∧ Ignored h h' fl := by
  intro hall
  have F := initStaticPages_freeList (A := secondPage) (boot fun _ => 0)
  obtain ⟨h', he, hign⟩ := hall _ _ _ _ F 0x1010 (by decide) (by decide)
  have F' : FreeList secondPage.extent (initStaticPages secondPage (boot fun _ => 0)) ([] ++ [0x1000]) [] := F
  obtain ⟨u, hu, hc⟩ := kfree_free_block F' (show 0x1010 ≠ 0 by decide) (by decide)
  rw [he] at hu
  cases hu
  exact hc.not_seg _ hign.list

end Adix.Kmalloc
