import Adix.Kmalloc.Defs
import Mathlib.Data.List.Pairwise

/-!
# Block headers and the layout of the heap

`Layout` is the invariant of the heap: the blocks of the free list and of the live allocations lie inside its extent
and are pairwise disjoint, headers included, and the free list ascends.
-/

namespace Adix.Kmalloc

open List

variable {m : Bytes} {p q v : Nat}

theorem freeAddr_lt (m : Bytes) (p : Nat) : freeAddr m p < addrSpace := Bytes.readLE_lt m p 8

theorem freeAddr_setFreeAddr_apart (h : Apart q 16 p 16) : freeAddr (setFreeAddr m p v) q = freeAddr m q := by
  unfold freeAddr setFreeAddr
  rw [Bytes.readLE_writeLE_of_disjoint]
  unfold Apart at h ⊢
  omega

/-- A link that is stored is read back, and the other blocks have theirs as before. -/
theorem freeAddr_setFreeAddr (hv : v < addrSpace) (h : q = p ∨ Apart q 16 p 16) :
    freeAddr (setFreeAddr m p v) q = if q = p then v else freeAddr m q := by
  split
  · next hqp => rw [hqp, freeAddr, setFreeAddr, Bytes.readLE_writeLE_same hv]
  · next hqp => exact freeAddr_setFreeAddr_apart (h.resolve_left hqp)

theorem freeSize_setFreeAddr (h : q = p ∨ Apart q 16 p 16) : freeSize (setFreeAddr m p v) q = freeSize m q := by
  unfold freeSize setFreeAddr
  rw [Bytes.readLE_writeLE_of_disjoint]
  unfold Apart at h ⊢
  omega

theorem freeAddr_setFreeSize (h : q = p ∨ Apart q 16 p 16) : freeAddr (setFreeSize m p v) q = freeAddr m q := by
  unfold freeAddr setFreeSize
  rw [Bytes.readLE_writeLE_of_disjoint]
  unfold Apart at h ⊢
  omega

theorem freeSize_setFreeSize_apart (h : Apart q 16 p 16) : freeSize (setFreeSize m p v) q = freeSize m q := by
  unfold freeSize setFreeSize
  rw [Bytes.readLE_writeLE_of_disjoint]
  unfold Apart at h ⊢
  omega

theorem freeSize_setFreeSize (hv : v < addrSpace) (h : q = p ∨ Apart q 16 p 16) :
    freeSize (setFreeSize m p v) q = if q = p then v else freeSize m q := by
  split
  · next hqp => rw [hqp, freeSize, setFreeSize, Bytes.readLE_writeLE_same hv]
  · next hqp => exact freeSize_setFreeSize_apart (h.resolve_left hqp)

def Alloc.hdr (a : Alloc) : Nat := a.ptr - flSize

open Alloc (hdr)

/-- The blocks of the free list and of the live allocations, by their headers. -/
def blocks (fl : List Nat) (live : List Alloc) : List Nat := fl ++ live.map hdr

def BlockApart (sz : Nat → Nat) (p q : Nat) : Prop := Apart p (16 + sz p) q (16 + sz q)

private theorem BlockApart.symm {sz : Nat → Nat} (h : BlockApart sz p q) : BlockApart sz q p := Apart.symm h

instance (sz : Nat → Nat) : Std.Symm (BlockApart sz) := ⟨fun _ _ h => BlockApart.symm h⟩

structure Extent where
  start : Nat
  stop : Nat
  pos : 0 < start
  fits : stop < addrSpace

def Arena.extent (A : Arena) : Extent := ⟨A.kmStatic, A.kmStatic + kmStaticSize, A.pos, A.fits⟩

@[simp] theorem Arena.extent_start (A : Arena) : A.extent.start = A.kmStatic := rfl

@[simp] theorem Arena.extent_stop (A : Arena) : A.extent.stop = A.kmStatic + kmStaticSize := rfl

/-- Blocks with the sizes `sz` lie inside the extent and are disjoint. -/
structure Tiled (E : Extent) (sz : Nat → Nat) (bs : List Nat) : Prop where
  inside : ∀ p ∈ bs, E.start ≤ p ∧ p + 16 + sz p ≤ E.stop
  apart : bs.Pairwise (BlockApart sz)

namespace Tiled

variable {E : Extent} {sz sz' : Nat → Nat} {bs bs' : List Nat}

theorem perm (h : Tiled E sz bs) (hp : bs.Perm bs') : Tiled E sz bs' :=
  ⟨fun p hm => h.inside p (hp.mem_iff.2 hm), (hp.pairwise_iff fun hpq => BlockApart.symm hpq).1 h.apart⟩

theorem congr (h : Tiled E sz bs) (hs : ∀ p ∈ bs, sz' p = sz p) : Tiled E sz' bs := by
  refine ⟨fun p hp => by rw [hs p hp]; exact h.inside p hp, h.apart.imp_of_mem ?_⟩
  intro p q hp hq hpq
  unfold BlockApart
  rw [hs p hp, hs q hq]
  exact hpq

private theorem tail (h : Tiled E sz (p :: bs)) : Tiled E sz bs :=
  ⟨fun q hq => h.inside q (by simp [hq]), (pairwise_cons.1 h.apart).2⟩

theorem blockApart (h : Tiled E sz bs) (hp : p ∈ bs) (hq : q ∈ bs) (hne : p ≠ q) : BlockApart sz p q :=
  h.apart.forall hp hq hne

/-- The headers of two blocks do not overlap. -/
theorem header (h : Tiled E sz bs) (hp : p ∈ bs) (hq : q ∈ bs) : q = p ∨ Apart q 16 p 16 := by
  by_cases hqp : q = p
  · exact .inl hqp
  · right
    have := h.blockApart hq hp hqp
    unfold BlockApart Apart at this
    unfold Apart
    omega

theorem bounds (h : Tiled E sz bs) (hp : p ∈ bs) : 0 < p ∧ p + 16 + sz p < addrSpace := by
  have h1 := h.inside p hp
  have h2 := E.pos
  have h3 := E.fits
  omega

private theorem split (h : Tiled E sz (p :: bs)) (hq : q = p + 16 + sz' p) (hpq : sz' p + 16 + sz' q = sz p)
    (hs : ∀ r ∈ bs, sz' r = sz r) : Tiled E sz' (p :: q :: bs) := by
  have hp := h.inside p (by simp)
  have ha := (pairwise_cons.1 h.apart).1
  have ht := h.tail.congr hs
  refine ⟨?_, ?_⟩
  · intro r hr
    rcases mem_cons.1 hr with rfl | hr
    · omega
    rcases mem_cons.1 hr with rfl | hr
    · omega
    · exact ht.inside r hr
  · rw [pairwise_cons, pairwise_cons]
    refine ⟨?_, ?_, ht.apart⟩
    · intro r hr
      unfold BlockApart Apart
      rcases mem_cons.1 hr with rfl | hr
      · omega
      · have := ha r hr
        unfold BlockApart Apart at this
        rw [hs r hr]
        omega
    · intro r hr
      have := ha r hr
      unfold BlockApart Apart at this ⊢
      rw [hs r hr]
      omega

private theorem merge (h : Tiled E sz (p :: q :: bs)) (hq : q = p + 16 + sz p) (hpq : sz' p = sz p + 16 + sz q)
    (hs : ∀ r ∈ bs, sz' r = sz r) : Tiled E sz' (p :: bs) := by
  have hp := h.inside p (by simp)
  have hq' := h.inside q (by simp)
  have ha := pairwise_cons.1 h.apart
  have hb := pairwise_cons.1 ha.2
  have ht := h.tail.tail.congr hs
  refine ⟨?_, ?_⟩
  · intro r hr
    rcases mem_cons.1 hr with rfl | hr
    · omega
    · exact ht.inside r hr
  · rw [pairwise_cons]
    refine ⟨?_, ht.apart⟩
    intro r hr
    have h1 := ha.1 r (by simp [hr])
    have h2 := hb.1 r hr
    unfold BlockApart Apart at h1 h2 ⊢
    rw [hs r hr]
    omega

end Tiled

/-- The heap with the free list `fl` and the allocations `live`: the blocks are disjoint and inside the extent, the free
list ascends, and live blocks have room for what was asked for. -/
structure Layout (E : Extent) (m : Bytes) (fl : List Nat) (live : List Alloc) : Prop where
  tiled : Tiled E (freeSize m) (blocks fl live)
  ascending : fl.Pairwise (· < ·)
  room : ∀ a ∈ live, flSize ≤ a.ptr ∧ a.bytes ≤ freeSize m a.hdr

theorem mem_blocks {fl : List Nat} {live : List Alloc} : p ∈ blocks fl live ↔ p ∈ fl ∨ ∃ a ∈ live, a.hdr = p := by
  simp [blocks]

namespace Layout

variable {E : Extent} {m' : Bytes} {fl l₁ l₂ : List Nat} {live : List Alloc} {a : Alloc}

theorem congr (L : Layout E m fl live) (hs : ∀ p ∈ blocks fl live, freeSize m' p = freeSize m p) :
    Layout E m' fl live := by
  refine ⟨L.tiled.congr hs, L.ascending, fun a ha => ?_⟩
  rw [hs a.hdr (mem_blocks.2 (.inr ⟨a, ha, rfl⟩))]
  exact L.room a ha

theorem freeApart (L : Layout E m fl live) (hp : p ∈ fl) (ha : a ∈ live) : BlockApart (freeSize m) p a.hdr := by
  have := L.tiled.apart
  rw [blocks, pairwise_append] at this
  exact this.2.2 p hp a.hdr (List.mem_map_of_mem ha)

private theorem perm_middle (l₁ l₂ : List Nat) (p : Nat) (live : List Alloc) :
    (blocks (l₁ ++ p :: l₂) live).Perm (p :: blocks (l₁ ++ l₂) live) := by
  simp only [blocks, List.append_assoc, List.cons_append]
  exact List.perm_middle

/-- A free block is given out. -/
theorem claim (L : Layout E m (l₁ ++ p :: l₂) live) (hb : v ≤ freeSize m p) :
    Layout E m (l₁ ++ l₂) (⟨p + flSize, v⟩ :: live) := by
  have hperm : (blocks (l₁ ++ p :: l₂) live).Perm (blocks (l₁ ++ l₂) (⟨p + flSize, v⟩ :: live)) := by
    refine (perm_middle l₁ l₂ p live).trans ?_
    exact List.perm_middle.symm
  refine ⟨L.tiled.perm hperm, L.ascending.sublist (by simp), ?_⟩
  intro b hbl
  rcases mem_cons.1 hbl with rfl | hbl
  · simp [hdr, hb]
  · exact L.room b hbl

/-- A free block is cut in two, and the lower part is given out. -/
theorem split (L : Layout E m (l₁ ++ p :: l₂) live) (hq : q = p + flSize + v) (hp : freeSize m' p = v)
    (hpq : v + flSize + freeSize m' q = freeSize m p)
    (hs : ∀ r ∈ blocks (l₁ ++ l₂) live, freeSize m' r = freeSize m r) :
    Layout E m' (l₁ ++ q :: l₂) (⟨p + flSize, v⟩ :: live) := by
  have htile : Tiled E (freeSize m') (p :: q :: blocks (l₁ ++ l₂) live) :=
    (L.tiled.perm (perm_middle l₁ l₂ p live)).split (by rw [hp, hq]; rfl) (by rw [hp]; exact hpq) hs
  refine ⟨htile.perm ?_, ?_, ?_⟩
  · have h1 : (blocks (l₁ ++ q :: l₂) (⟨p + flSize, v⟩ :: live)).Perm
        (q :: blocks (l₁ ++ l₂) (⟨p + flSize, v⟩ :: live)) := perm_middle l₁ l₂ q _
    have h2 : (blocks (l₁ ++ l₂) (⟨p + flSize, v⟩ :: live)).Perm (p :: blocks (l₁ ++ l₂) live) := by
      exact List.perm_middle
    exact (List.Perm.swap q p _).trans ((h1.trans (h2.cons q)).symm)
  · -- `q` lies inside the old block `p`, hence below every later free block
    have ha := L.ascending
    rw [pairwise_append, pairwise_cons] at ha ⊢
    obtain ⟨h1, ⟨h2, h3⟩, h4⟩ := ha
    have hlt : p < q := by rw [hq]; unfold flSize; omega
    refine ⟨h1, ⟨?_, h3⟩, ?_⟩
    · intro r hr
      have hpr := L.tiled.blockApart (p := p) (q := r) (by simp [blocks]) (by simp [blocks, hr])
        (Nat.ne_of_lt (h2 r hr))
      have := h2 r hr
      unfold BlockApart Apart at hpr
      omega
    · intro x hx r hr
      rcases mem_cons.1 hr with rfl | hr
      · exact Nat.lt_trans (h4 x hx p (by simp)) hlt
      · exact h4 x hx r (by simp [hr])
  · intro b hbl
    rcases mem_cons.1 hbl with rfl | hbl
    · simp [hdr, hp]
    · rw [hs b.hdr (mem_blocks.2 (.inr ⟨b, hbl, rfl⟩))]
      exact L.room b hbl

theorem live_perm (L : Layout E m fl live) (ha : a ∈ live) :
    (live.map hdr).Perm (a.hdr :: (live.filter fun b => b.ptr ≠ a.ptr).map hdr) := by
  obtain ⟨s, t, rfl⟩ := append_of_mem ha
  have hp := L.tiled.apart
  rw [blocks, pairwise_append] at hp
  have hp := hp.2.1
  simp only [map_append, map_cons] at hp
  rw [pairwise_append, pairwise_cons] at hp
  have hne : ∀ b ∈ s ++ t, b.ptr ≠ a.ptr := by
    intro b hb heq
    have hh : b.hdr = a.hdr := by unfold hdr; rw [heq]
    have : BlockApart (freeSize m) a.hdr b.hdr := by
      rcases mem_append.1 hb with hb | hb
      · exact (hp.2.2 b.hdr (List.mem_map_of_mem hb) a.hdr (by simp)).symm
      · exact hp.2.1.1 b.hdr (List.mem_map_of_mem hb)
    rw [hh] at this
    unfold BlockApart Apart at this
    omega
  have hf : ((s ++ a :: t).filter fun b => b.ptr ≠ a.ptr) = s ++ t := by
    have hs : (s.filter fun b => b.ptr ≠ a.ptr) = s :=
      filter_eq_self.2 (fun b hb => by simpa using hne b (by simp [hb]))
    have ht : (t.filter fun b => b.ptr ≠ a.ptr) = t :=
      filter_eq_self.2 (fun b hb => by simpa using hne b (by simp [hb]))
    rw [filter_append, filter_cons, hs, ht]
    simp
  rw [hf, map_append, map_append, map_cons]
  exact List.perm_middle

/-- A block is freed between its neighbours. -/
theorem release (L : Layout E m (l₁ ++ l₂) live) (ha : a ∈ live) (h₁ : ∀ x ∈ l₁, x < a.hdr) (h₂ : ∀ x ∈ l₂, a.hdr < x) :
    Layout E m (l₁ ++ a.hdr :: l₂) (live.filter fun b => b.ptr ≠ a.ptr) := by
  refine ⟨L.tiled.perm ?_, ?_, fun b hb => L.room b (mem_of_mem_filter hb)⟩
  · refine (List.Perm.append_left _ (L.live_perm ha)).trans ?_
    exact List.perm_middle.trans (perm_middle l₁ l₂ a.hdr _).symm
  · have := L.ascending
    rw [pairwise_append] at this ⊢
    refine ⟨this.1, pairwise_cons.2 ⟨h₂, this.2.1⟩, ?_⟩
    intro x hx y hy
    rcases mem_cons.1 hy with rfl | hy
    · exact h₁ x hx
    · exact this.2.2 x hx y hy

/-- Two free blocks that touch become one. -/
theorem merge (L : Layout E m (l₁ ++ p :: q :: l₂) live) (hq : q = p + 16 + freeSize m p)
    (hp : freeSize m' p = freeSize m p + 16 + freeSize m q)
    (hs : ∀ r ∈ blocks (l₁ ++ l₂) live, freeSize m' r = freeSize m r) : Layout E m' (l₁ ++ p :: l₂) live := by
  have hperm : (blocks (l₁ ++ p :: q :: l₂) live).Perm (p :: q :: blocks (l₁ ++ l₂) live) :=
    (perm_middle l₁ (q :: l₂) p live).trans ((perm_middle l₁ l₂ q live).cons p)
  refine ⟨((L.tiled.perm hperm).merge hq hp hs).perm (perm_middle l₁ l₂ p live).symm, L.ascending.sublist (by simp), ?_⟩
  intro b hb
  rw [hs b.hdr (mem_blocks.2 (.inr ⟨b, hb, rfl⟩))]
  exact L.room b hb

end Layout

end Adix.Kmalloc
