import Adix.Kmalloc.Safety

/-!
# `kfree` undoes `kmalloc`

A block that `kmalloc` has just given out goes back to its place in the list. If it was cut, the rest is right behind it
and the two are merged again. If it was taken whole, it still has its link.
-/

namespace Adix.Kmalloc

open List

variable {A : Arena} {E : Extent} {h h' : Heap} {m₁ m₂ : Bytes} {fl l₁ l₂ : List Nat} {p q bytes n : Nat}
  {vAlloc : Heap → Nat → Heap × Nat}

def ready (A : Arena) (h : Heap) : Heap := if h.initStaticPagesDone then h else initStaticPages A h

def NoneTouch (m : Bytes) (fl : List Nat) : Prop := ∀ p ∈ fl, ∀ q ∈ fl, q ≠ p + flSize + freeSize m p

instance (m : Bytes) (fl : List Nat) : Decidable (NoneTouch m fl) :=
  inferInstanceAs (Decidable (∀ p ∈ fl, ∀ q ∈ fl, q ≠ p + flSize + freeSize m p))

structure SameHeaders (m m' : Bytes) (fl : List Nat) : Prop where
  link : ∀ x ∈ fl, freeAddr m' x = freeAddr m x
  size : ∀ x ∈ fl, freeSize m' x = freeSize m x

/-- `kfree` of the block `p` that was taken from `h`, with the list `fl`, brings the list back. -/
private def Undone (h h' : Heap) (p : Nat) (fl : List Nat) : Prop :=
  ∃ h'', kfree h' (p + flSize) = some h'' ∧ h''.head = h.head ∧ SameHeaders h.mem h''.mem fl

theorem initStaticPagesDone_ready : (ready A h).initStaticPagesDone = true := by
  unfold ready
  split
  · assumption
  · rfl

theorem kmalloc_ready : kmalloc A vAlloc n h bytes = kmalloc A vAlloc n (ready A h) bytes := by
  unfold ready
  split
  · rfl
  · next hinit => exact kmalloc_uninit (by simpa using hinit)

private theorem growths_ready : growths A vAlloc n h bytes = growths A vAlloc n (ready A h) bytes := by
  unfold ready
  split
  · rfl
  · next hinit => exact growths_uninit (by simpa using hinit)

private theorem ptr_eq_zero {l ptr : Nat} (hinit : h.initStaticPagesDone = true) (hb : bytes ≠ 0)
    (hscan : scan h.mem bytes h.head = some (0, l)) (hgrow : growths A vAlloc (n + 1) h bytes = [])
    (hrun : kmalloc A vAlloc (n + 1) h bytes = some (h', ptr)) : ptr = 0 := by
  unfold growths at hgrow
  unfold kmalloc at hrun
  simp only [hinit, if_true, if_neg hb, hscan] at hgrow hrun
  by_cases hdev : h.deviceMemorySetUp = true
  · simp only [hdev, if_true] at hgrow hrun
    by_cases hstart : (vAlloc h h.lastKmAddr).2 = 0
    · simp [hstart] at hrun
      exact hrun.2.symm
    · simp [hstart] at hgrow
  · simp [hdev] at hrun
    exact hrun.2.symm

private theorem split_unique {fp : Nat} {l1' l2' : List Nat} (heq : l₁ ++ l₂ = l1' ++ l2') (h1 : ∀ x ∈ l₁, x < fp)
    (h2 : ∀ x ∈ l₂, fp < x) (h1' : ∀ x ∈ l1', x < fp) (h2' : ∀ x ∈ l2', fp < x) : l₁ = l1' ∧ l₂ = l2' := by
  have hfilter : ∀ {l l' : List Nat}, (∀ x ∈ l, x < fp) → (∀ x ∈ l', fp < x) → (l ++ l').filter (· < fp) = l := by
    intro l l' hl hl'
    rw [filter_append, filter_eq_self.2 (by simpa using hl), filter_eq_nil_iff.2, append_nil]
    intro x hx
    have := hl' x hx
    simp only [decide_eq_true_eq]
    omega
  have hfirst : l₁ = l1' := by rw [← hfilter h1 h2, heq, hfilter h1' h2']
  subst hfirst
  exact ⟨rfl, append_cancel_left heq⟩

section Undo

variable (F : FreeList E h (l₁ ++ p :: l₂) []) (hgap : NoneTouch h.mem (l₁ ++ p :: l₂))
include F hgap

private theorem joinBelow_restores (hsize : ∀ x ∈ l₁ ++ p :: l₂, freeSize m₁ x = freeSize h.mem x)
    (hlink : ∀ x ∈ l₁ ++ p :: l₂, x ≠ l₁.getLastD 0 → freeAddr m₁ x = freeAddr h.mem x)
    (hm2 : (if l₁.getLastD 0 = 0 then m₁ else join m₁ (l₁.getLastD 0) p) = m₂) :
    SameHeaders h.mem m₂ (l₁ ++ p :: l₂) := by
  have L := F.layout
  rcases eq_nil_or_concat' l₁ with rfl | ⟨l, pp, rfl⟩
  · obtain rfl : m₁ = m₂ := hm2
    exact ⟨fun x hx => hlink x hx (L.ne_zero hx), hsize⟩
  · rw [getLastD_concat] at hlink hm2
    have hmem : ∀ x ∈ l ++ [pp] ++ p :: l₂, x ∈ blocks (l ++ [pp] ++ p :: l₂) [] := fun x hx => mem_blocks.2 (.inl hx)
    have hpp : pp ∈ l ++ [pp] ++ p :: l₂ := by simp
    have hp : p ∈ l ++ [pp] ++ p :: l₂ := by simp
    rw [if_neg (L.ne_zero hpp)] at hm2
    have hlt : pp < p := L.around.1 pp (by simp)
    have T : Tiled E (freeSize m₁) (blocks (l ++ [pp] ++ p :: l₂) []) := by
      refine L.tiled.congr fun x hx => hsize x ?_
      simpa [blocks] using hx
    -- the link that the block below had
    have hnext : freeAddr h.mem pp = p := by
      have hseg := F.seg
      rw [List.append_assoc, singleton_append] at hseg
      obtain ⟨r, -, hr⟩ := seg_append.1 hseg
      exact hr.2.1
    obtain ⟨-, hhdr⟩ | ⟨htouch, -⟩ := join_cases T (hmem pp hpp) (hmem p hp) (Nat.ne_of_gt hlt)
    · rw [hm2] at hhdr
      refine ⟨fun x hx => ?_, fun x hx => ?_⟩
      · rw [(hhdr x (hmem x hx)).1]
        split
        · next heq => rw [heq, hnext]
        · next hne => exact hlink x hx hne
      · rw [(hhdr x (hmem x hx)).2, hsize x hx]
    · rw [hsize pp hpp] at htouch
      exact absurd htouch (hgap pp hpp p hp)

private theorem kfree_taken {rest : List Nat} (ht : take h p (l₁.getLastD 0) bytes = h')
    (F' : FreeList E h' (l₁ ++ rest) [⟨p + flSize, bytes⟩]) (hrest : ∀ x ∈ rest, p < x)
    (hm1 : (if rest.headD 0 = 0 then h'.mem else join h'.mem p (rest.headD 0)) = m₁)
    (hsize : ∀ x ∈ l₁ ++ p :: l₂, freeSize m₁ x = freeSize h.mem x)
    (hlink : ∀ x ∈ l₁ ++ p :: l₂, x ≠ l₁.getLastD 0 → freeAddr m₁ x = freeAddr h.mem x) :
    Undone h h' p (l₁ ++ p :: l₂) := by
  have hbelow := F.layout.around.1
  have hnot : p ∉ l₁ ++ rest := by
    intro hmem
    rcases mem_append.1 hmem with hmem | hmem
    · exact Nat.lt_irrefl p (hbelow p hmem)
    · exact Nat.lt_irrefl p (hrest p hmem)
  have hhdr : hdrOf (p + flSize) = p := by
    have hptr := F'.layout.hdrOf_ptr mem_cons_self
    unfold Alloc.hdr at hptr
    rw [hptr, Nat.add_sub_cancel]
  obtain ⟨l1', l2', m1', m₂, heq, hlt, hgt, hm1', hm2, hkfree⟩ :=
    kfree_eq F' (by unfold flSize; omega) hhdr (F.layout.ne_zero (by simp)) hnot
  obtain ⟨rfl, rfl⟩ := split_unique heq hbelow hrest hlt hgt
  obtain rfl : m₁ = m1' := hm1.symm.trans hm1'
  refine ⟨_, hkfree, ?_, joinBelow_restores F hgap hsize hlink hm2⟩
  -- the first block of the list is `p` again, or it has stayed where it was
  show (if l₁.getLastD 0 = 0 then p else h'.head) = h.head
  rcases eq_nil_or_concat' l₁ with rfl | ⟨l, pp, rfl⟩
  · exact F.seg.1.symm
  · have hpp : (l ++ [pp]).getLastD 0 ≠ 0 := by
      rw [getLastD_concat]
      exact F.layout.ne_zero (by simp)
    rw [if_neg hpp, ← ht, take_head hpp]

private theorem undo_cut (hbig : bytes + flSize < freeSize h.mem p) (ht : take h p (l₁.getLastD 0) bytes = h') :
    Undone h h' p (l₁ ++ p :: l₂) := by
  have L := F.layout
  obtain ⟨q, hq⟩ : ∃ q, q = p + flSize + bytes := ⟨_, rfl⟩
  obtain ⟨F', hp, hrest, hqlink, hsize, hlink⟩ := take_cut F hbig hq ht
  have hgt : ∀ x ∈ q :: l₂, p < x := by
    intro x hx
    rcases mem_cons.1 hx with rfl | hx
    · unfold flSize at hq
      omega
    · exact L.around.2 x hx
  -- the block touches its rest and is merged with it
  have hq0 : q ≠ 0 := by have := hgt q (by simp); omega
  have hpm : p ∈ blocks (l₁ ++ q :: l₂) [⟨p + flSize, bytes⟩] :=
    mem_blocks.2 (.inr ⟨_, mem_cons_self, Nat.add_sub_cancel p flSize⟩)
  have hqm : q ∈ blocks (l₁ ++ q :: l₂) [⟨p + flSize, bytes⟩] := mem_blocks.2 (.inl (by simp))
  -- a block of the old list is `p`, or it is another block of the new one
  have hold : ∀ x ∈ l₁ ++ p :: l₂,
      x = p ∨ x ≠ p ∧ x ∈ l₁ ++ l₂ ∧ x ∈ blocks (l₁ ++ q :: l₂) [⟨p + flSize, bytes⟩] := by
    intro x hx
    rcases mem_cons.1 (List.perm_middle.mem_iff.1 hx) with rfl | hx
    · exact .inl rfl
    · exact .inr ⟨L.ne_of_other hx, hx, mem_blocks.2 (.inl (mem_middle hx))⟩
  obtain ⟨hnot, -⟩ | ⟨-, hhdr⟩ := join_cases F'.layout.tiled hpm hqm (Nat.ne_of_gt (hgt q (by simp)))
  · have htouch : q = p + 16 + freeSize h'.mem p := by rw [hp, hq, flSize]
    exact absurd htouch hnot
  refine kfree_taken F hgap ht F' hgt (show _ = join h'.mem p q from if_neg hq0) (fun x hx => ?_) (fun x hx hxl => ?_)
  · rcases hold x hx with rfl | ⟨hne, hx', hx''⟩
    · rw [(hhdr x hpm).2, if_pos rfl, hp, hrest]
      unfold flSize at hbig ⊢
      omega
    · rw [(hhdr x hx'').2, if_neg hne, hsize x (mem_blocks.2 (.inl hx'))]
  · rcases hold x hx with rfl | ⟨hne, -, hx''⟩
    · rw [(hhdr x hpm).1, if_pos rfl, hqlink]
    · rw [(hhdr x hx'').1, if_neg hne, hlink x (mem_blocks.2 (.inl hx)) hxl]

private theorem undo_whole (hb : bytes ≤ freeSize h.mem p) (hsmall : freeSize h.mem p ≤ bytes + flSize)
    (ht : take h p (l₁.getLastD 0) bytes = h') : Undone h h' p (l₁ ++ p :: l₂) := by
  have L := F.layout
  obtain ⟨F', hsize, hlink⟩ := take_whole F hb hsmall ht
  have hmem : ∀ x ∈ l₁ ++ p :: l₂, x ∈ blocks (l₁ ++ p :: l₂) [] := fun x hx => mem_blocks.2 (.inl hx)
  have hgt := L.around.2
  cases l₂ with
  | nil =>
    exact kfree_taken F hgap ht F' hgt rfl (fun x hx => hsize x (hmem x hx)) fun x hx => hlink x (hmem x hx)
  | cons q l₂ =>
    have hq0 : q ≠ 0 := by have := hgt q (by simp); omega
    have hp : p ∈ l₁ ++ p :: q :: l₂ := by simp
    have hq : q ∈ l₁ ++ p :: q :: l₂ := by simp
    have T : Tiled E (freeSize h'.mem) (blocks (l₁ ++ p :: q :: l₂) []) := L.tiled.congr hsize
    obtain ⟨-, hhdr⟩ | ⟨htouch, -⟩ := join_cases T (hmem p hp) (hmem q hq) (Nat.ne_of_gt (hgt q (by simp)))
    · refine kfree_taken F hgap ht F' hgt (show _ = join h'.mem p q from if_neg hq0) (fun x hx => ?_)
        (fun x hx hxl => ?_)
      · rw [(hhdr x (hmem x hx)).2, hsize x (hmem x hx)]
      · rw [(hhdr x (hmem x hx)).1]
        split
        · next heq =>
          obtain ⟨r, -, hr⟩ := seg_append.1 F.seg
          rw [heq]
          exact hr.2.1.symm
        · exact hlink x (hmem x hx) hxl
    · rw [hsize p (hmem p hp)] at htouch
      exact absurd htouch (hgap p hp q hq)

end Undo

/-- For every free list that ascends, ends in `NULL`, and has no two blocks that touch: a `kmalloc` that returns a block
without growth, followed by `kfree` of this block, leaves the list, the sizes, the links and `head` as they were. -/
theorem kfree_undoes_kmalloc (A : Arena) (vAlloc : Heap → Nat → Heap × Nat) (E : Extent) (h : Heap) (fl : List Nat)
    (F : FreeList E (ready A h) fl []) (hgap : NoneTouch (ready A h).mem fl) (n bytes : Nat) (h' : Heap) (ptr : Nat)
    (hpos : 0 < bytes) (hrun : kmalloc A vAlloc n h bytes = some (h', ptr)) (hptr : ptr ≠ 0)
    (hgrow : growths A vAlloc n h bytes = []) :
    ∃ h'', kfree h' ptr = some h'' ∧ h''.head = (ready A h).head ∧ SameHeaders (ready A h).mem h''.mem fl ∧
      Seg (freeAddr h''.mem) h''.head fl 0 := by
  rw [kmalloc_ready] at hrun
  rw [growths_ready] at hgrow
  have hinit := initStaticPagesDone_ready (A := A) (h := h)
  generalize ready A h = h0 at *
  have hb : bytes ≠ 0 := Nat.ne_of_gt hpos
  cases n with
  | zero => cases hrun
  | succ n =>
    obtain ⟨hscan, -⟩ | ⟨l₁, p, l₂, rfl, hp, -, hscan⟩ := scan_eq bytes F
    · -- without growth the call has failed
      exact absurd (ptr_eq_zero hinit hb hscan hgrow hrun) hptr
    · rw [kmalloc_take A vAlloc n F hinit hb hscan] at hrun
      obtain ⟨ht, rfl⟩ := Prod.mk.inj (Option.some.inj hrun)
      have hundo : Undone h0 h' p (l₁ ++ p :: l₂) := by
        by_cases hbig : bytes + flSize < freeSize h0.mem p
        · exact undo_cut F hgap hbig ht
        · exact undo_whole F hgap hp (Nat.le_of_not_lt hbig) ht
      obtain ⟨h'', hfree, hhead, hsame⟩ := hundo
      refine ⟨h'', hfree, hhead, hsame, ?_⟩
      rw [hhead]
      exact F.seg.congr hsame.link

theorem kfree_undoes_kmalloc_first :
    ∃ h' ptr h'', kmalloc arena2M (fun h _ => (h, 0)) 1 (boot fun _ => 0) 24 = some (h', ptr) ∧
    kfree h' ptr = some h'' ∧ h''.head = 0x200000 ∧ Seg (freeAddr h''.mem) h''.head [0x200000] 0 := by
  obtain ⟨⟨h', ptr⟩, hkm, hptr⟩ : ∃ r ∈ kmalloc arena2M (fun h _ => (h, 0)) 1 (boot fun _ => 0) 24, r.2 ≠ 0 := by
    decide +kernel
  have F : FreeList arena2M.extent (ready arena2M (boot fun _ => 0)) [0x200000] [] :=
    initStaticPages_freeList (A := arena2M) (boot fun _ => 0)
  have hgap : NoneTouch (ready arena2M (boot fun _ => 0)).mem [0x200000] := by decide +kernel
  obtain ⟨h'', hfree, hhead, -, hseg⟩ := kfree_undoes_kmalloc arena2M (fun h _ => (h, 0)) arena2M.extent
    (boot fun _ => 0) [0x200000] F hgap 1 24 h' ptr (by decide) hkm hptr (by decide +kernel)
  exact ⟨h', ptr, h'', hkm, hfree, hhead, hseg⟩

end Adix.Kmalloc
