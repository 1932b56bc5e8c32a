import Adix.Kmalloc.FreeList
import Mathlib.Data.List.Induction

/-!
# Safety of the kernel heap

`kfree` does not write the link of the freed block when the free list has no block above it. The link left there by
`kmalloc` then ends the list, and it is stale as soon as the block it names has been given out.
-/

namespace Adix.Kmalloc

open List

inductive OnFreeList (h : Heap) : Nat → Prop
  | head : h.head ≠ 0 → OnFreeList h h.head
  | next {p : Nat} : OnFreeList h p → freeAddr h.mem p ≠ 0 → OnFreeList h (freeAddr h.mem p)

/-- The memory given out is inside the arena, disjoint, and apart from everything reachable from `head`, and the free
list ascends and ends in `NULL`. -/
structure Safe (A : Arena) (s : State) : Prop where
  disjoint : s.live.Pairwise fun a b => Apart a.ptr a.bytes b.ptr b.bytes
  inside : ∀ a ∈ s.live, A.kmStatic ≤ a.ptr ∧ a.ptr + a.bytes ≤ A.kmStatic + kmStaticSize
  free : ∀ a ∈ s.live, ∀ p, OnFreeList s.heap p → Apart a.ptr a.bytes p (flSize + freeSize s.heap.mem p)
  ascending : ∃ fl, Seg (freeAddr s.heap.mem) s.heap.head fl 0 ∧ (∀ p ∈ fl, p ≠ 0) ∧ fl.Pairwise (· < ·)

/-- The precondition of the calls: `kfree` gets a pointer that `kmalloc` returned and that is still live, and the kernel
writes to live memory only. -/
def CallOk (s : State) : Op → Prop
  | .kmalloc bytes => bytes < addrSpace
  | .kfree ptr => ∃ a ∈ s.live, a.ptr = ptr
  | .store x _ => ∃ a ∈ s.live, a.ptr ≤ x ∧ x < a.ptr + a.bytes

/-- The link of a block freed above all free blocks is `NULL`. -/
def LinkOk (s : State) : Op → Prop
  | .kfree ptr => (∀ p, OnFreeList s.heap p → p < ptr - flSize) → freeAddr s.heap.mem (ptr - flSize) = 0
  | _ => True

instance (s : State) : ∀ op, Decidable (CallOk s op)
  | .kmalloc _ => inferInstanceAs (Decidable (_ < _))
  | .kfree _ => inferInstanceAs (Decidable (∃ a ∈ s.live, _))
  | .store _ _ => inferInstanceAs (Decidable (∃ a ∈ s.live, _))

def start (m : Bytes) : State := { heap := boot m, live := [] }

structure Inv (A : Arena) (s : State) : Prop where
  off : s.heap.deviceMemorySetUp = false
  list : ∃ fl, FreeList A.extent s.heap fl s.live ∧ (s.heap.initStaticPagesDone = false → fl = [] ∧ s.live = [])

variable {A : Arena} {E : Extent} {s : State} {h : Heap} {fl : List Nat} {live : List Alloc} {x : Nat}

/-- The blocks reachable from `head` are those of the list. -/
theorem FreeList.onFreeList_iff (F : FreeList E h fl live) : OnFreeList h p ↔ p ∈ fl := by
  have h0 : ∀ x ∈ fl, x ≠ 0 := fun x hx => F.layout.ne_zero hx
  constructor
  · intro hp
    induction hp with
    | head hne =>
      have hs := F.seg
      cases fl with
      | nil => exact absurd hs hne
      | cons x l => rw [hs.1]; exact mem_cons_self ..
    | next _ hne ih =>
      obtain ⟨l1, l2, rfl⟩ := append_of_mem ih
      obtain ⟨r, -, hs⟩ := seg_append.1 F.seg
      cases l2 with
      | nil => exact absurd hs.2 hne
      | cons y l2 => rw [hs.2.1]; simp
  · -- the blocks of a prefix are reachable, by induction on its length
    have key : ∀ l1 l2, fl = l1 ++ l2 → ∀ x ∈ l1, OnFreeList h x := by
      intro l1
      induction l1 using List.reverseRecOn with
      | nil => simp
      | append_singleton l x ih =>
        rintro l2 rfl y hy
        rcases mem_append.1 hy with hy | hy
        · exact ih (x :: l2) (by simp) y hy
        obtain rfl : y = x := by simpa using hy
        have hseg := F.seg
        rw [List.append_assoc] at hseg
        obtain ⟨r, hl, hr⟩ := seg_append.1 hseg
        obtain rfl : r = y := hr.1
        have hr0 : r ≠ 0 := h0 r (by simp)
        rcases eq_nil_or_concat l with rfl | ⟨l', z, rfl⟩
        · obtain rfl : h.head = r := hl
          exact .head hr0
        · rw [concat_eq_append] at hl ih
          obtain ⟨t, -, ht⟩ := seg_append.1 hl
          have hz : freeAddr h.mem z = r := ht.2
          rw [← hz]
          exact .next (ih (r :: l2) (by simp) z (by simp)) (hz ▸ hr0)
    intro hp
    exact key fl [] (by simp) p hp

private theorem Inv.safe (I : Inv A s) : Safe A s := by
  obtain ⟨fl, F, -⟩ := I.list
  have L := F.layout
  have hhdr : ∀ a ∈ s.live, a.ptr = a.hdr + 16 ∧ a.bytes ≤ freeSize s.heap.mem a.hdr := by
    intro a ha
    have := L.room a ha
    unfold Alloc.hdr flSize at *
    omega
  refine ⟨?_, ?_, ?_, ⟨fl, F.seg, ?_, L.ascending⟩⟩
  · have hp := L.tiled.apart
    rw [blocks, pairwise_append] at hp
    refine (pairwise_map.1 hp.2.1).imp_of_mem ?_
    intro a b ha hb hab
    have h1 := hhdr a ha
    have h2 := hhdr b hb
    unfold BlockApart Apart at hab
    unfold Apart
    omega
  · intro a ha
    have h1 := hhdr a ha
    have h2 := L.tiled.inside a.hdr (mem_blocks.2 (.inr ⟨a, ha, rfl⟩))
    rw [A.extent_start, A.extent_stop] at h2
    omega
  · intro a ha p hp
    have h1 := hhdr a ha
    have h2 := L.freeApart (F.onFreeList_iff.1 hp) ha
    unfold BlockApart Apart at h2
    unfold Apart flSize
    omega
  · exact fun x hx => L.ne_zero hx

private theorem start_inv (m : Bytes) : Inv A (start m) :=
  ⟨rfl, [], ⟨rfl, ⟨⟨by simp [blocks, start], List.Pairwise.nil⟩, List.Pairwise.nil, by simp [start]⟩⟩, by simp [start]⟩

/-- A store to live memory is to no header. -/
theorem FreeList.ne_store {y : Nat} (F : FreeList E h fl live) (hx : ∃ a ∈ live, a.ptr ≤ x ∧ x < a.ptr + a.bytes)
    (hp : p ∈ blocks fl live) (h1 : p ≤ y) (h2 : y < p + 16) : y ≠ x := by
  rintro rfl
  obtain ⟨a, ha, hax⟩ := hx
  have L := F.layout
  have hroom := L.room a ha
  unfold Alloc.hdr flSize at hroom
  by_cases hpa : p = a.hdr
  · unfold Alloc.hdr flSize at hpa
    omega
  · have := L.tiled.blockApart hp (mem_blocks.2 (.inr ⟨a, ha, rfl⟩)) hpa
    unfold BlockApart Apart Alloc.hdr flSize at this
    omega

theorem FreeList.freeSize_store (F : FreeList E h fl live) (hx : ∃ a ∈ live, a.ptr ≤ x ∧ x < a.ptr + a.bytes)
    (b : UInt8) (hp : p ∈ blocks fl live) : freeSize (h.mem.writeByte x b) p = freeSize h.mem p :=
  Bytes.readLE_congr fun _ h1 h2 => Bytes.writeByte_of_ne (F.ne_store hx hp (by omega) (by omega))

/-- The callers do not write to the list. -/
theorem store_freeList {b : UInt8} (F : FreeList E h fl live) (hx : ∃ a ∈ live, a.ptr ≤ x ∧ x < a.ptr + a.bytes) :
    FreeList E { h with mem := h.mem.writeByte x b } fl live := by
  have hfa : ∀ p ∈ blocks fl live, freeAddr (h.mem.writeByte x b) p = freeAddr h.mem p := by
    intro p hp
    exact Bytes.readLE_congr fun y h1 h2 => Bytes.writeByte_of_ne (F.ne_store hx hp h1 (by omega))
  exact ⟨F.seg.congr fun p hp => hfa p (mem_blocks.2 (.inl hp)), F.layout.congr fun p hp => F.freeSize_store hx b hp⟩

/-- Each step that meets its conditions keeps the invariant. -/
private theorem step_inv (s : State) (op : Op) (I : Inv A s)
    (hop : CallOk s op ∧ LinkOk s op) : ∃ s', step A vAlloc s op = some s' ∧ Inv A s' := by
  obtain ⟨fl, F, hfresh⟩ := I.list
  obtain ⟨hcall, hlink⟩ := hop
  cases op with
  | kmalloc bytes =>
    -- the first call sets the arena up, and continues as a call on an initialised heap does
    obtain ⟨h, hh, hi, hd, hF⟩ : ∃ h, kmalloc A vAlloc 1 s.heap bytes = kmalloc A vAlloc 1 h bytes ∧
        h.initStaticPagesDone = true ∧ h.deviceMemorySetUp = false ∧ ∃ fl, FreeList A.extent h fl s.live := by
      by_cases hinit : s.heap.initStaticPagesDone = true
      · exact ⟨s.heap, rfl, hinit, I.off, fl, F⟩
      · refine ⟨initStaticPages A s.heap, ?_, rfl, I.off, [A.kmStatic], ?_⟩
        · have hd : (initStaticPages A s.heap).initStaticPagesDone = true := rfl
          simp [kmalloc, hinit, hd]
        · rw [(hfresh (by simpa using hinit)).2]
          exact initStaticPages_freeList s.heap
    obtain ⟨fl0, F0⟩ := hF
    obtain ⟨h', ptr, fl', he, hi', hd', F'⟩ := kmalloc_freeList A vAlloc 0 bytes F0 hi hd
    refine ⟨_, by simp only [step, hh, he]; rfl, hd', fl', F', ?_⟩
    intro hc
    rw [hi'] at hc
    cases hc
  | kfree ptr =>
    obtain ⟨a, ha, rfl⟩ := hcall
    obtain ⟨h', fl', he, hi', hd', F'⟩ := kfree_freeList F ha (fun hall => hlink fun p hp =>
      hall p (F.onFreeList_iff.1 hp))
    refine ⟨_, by simp only [step, he]; rfl, by rw [hd']; exact I.off, fl', F', ?_⟩
    intro hc
    rw [hi'] at hc
    rw [(hfresh hc).2] at ha
    cases ha
  | store x b => exact ⟨_, rfl, I.off, fl, store_freeList F hcall, hfresh⟩

/-- In every run from boot in which each `kfree` of a block above all free blocks finds `NULL` in its header, no call
fails to return and every state is safe. -/
theorem heap_safe (A : Arena) (vAlloc : Heap → Nat → Heap × Nat) (m : Bytes) (ops : List Op)
    (h : Permitted (step A vAlloc) (fun s op => CallOk s op ∧ LinkOk s op) (start m) ops) :
    ∃ s, run (step A vAlloc) (start m) ops = some s ∧ Safe A s := by
  obtain ⟨s, hs, I⟩ := run_invariant step_inv (start_inv m) h
  exact ⟨s, hs, I.safe⟩

def arena2M : Arena := ⟨0x200000, by decide, by decide, by decide⟩

def BelowHead (s : State) : Op → Prop
  | .kfree ptr => ptr - flSize < s.heap.head
  | _ => True

instance (s : State) : ∀ op, Decidable (BelowHead s op)
  | .kfree _ => inferInstanceAs (Decidable (_ < _))
  | .kmalloc _ => .isTrue trivial
  | .store _ _ => .isTrue trivial

theorem BelowHead.linkOk {op : Op} (h : BelowHead s op) : LinkOk s op := by
  cases op with
  | kfree ptr =>
    intro hall
    have h1 : ptr - flSize < s.heap.head := h
    have h2 := hall s.heap.head (.head (by omega))
    omega
  | kmalloc | store => trivial

theorem heap_safe_reuse :
        Permitted (step arena2M fun h _ => (h, 0)) (fun s op => CallOk s op ∧ LinkOk s op) (start fun _ => 0)
        [.kmalloc 16, .kmalloc 16, .store 0x200010 7, .kfree 0x200010, .kmalloc 16] ∧
      ∃ s, run (step arena2M fun h _ => (h, 0)) (start fun _ => 0)
        [.kmalloc 16, .kmalloc 16, .store 0x200010 7, .kfree 0x200010, .kmalloc 16] = some s ∧ Safe arena2M s := by
  have h : Permitted (step arena2M fun h _ => (h, 0)) (fun s op => CallOk s op ∧ LinkOk s op) (start fun _ => 0)
      [.kmalloc 16, .kmalloc 16, .store 0x200010 7, .kfree 0x200010, .kmalloc 16] := by
    have hp : Permitted (step arena2M fun h _ => (h, 0)) (fun s op => CallOk s op ∧ BelowHead s op) (start fun _ => 0)
        [.kmalloc 16, .kmalloc 16, .store 0x200010 7, .kfree 0x200010, .kmalloc 16] := by decide +kernel
    exact hp.mono fun s op h => ⟨h.1, h.2.linkOk⟩
  exact ⟨h, heap_safe arena2M _ _ _ h⟩

/-- The first block is freed and taken again while the rest of the arena is free; the rest is given out, and the first
block is freed into the empty list with a stale link. -/
def staleRun : List Op :=
  [.kmalloc 16, .kmalloc 16, .kfree 0x200010, .kmalloc 16, .kmalloc (kmStaticSize - 80), .kfree 0x200010]

/-- Safety does not hold in every run: after `staleRun` a live allocation is reachable from `head`. -/
theorem kfree_stale_link : ¬ ∀ (A : Arena) (vAlloc : Heap → Nat → Heap × Nat) (m : Bytes) (ops : List Op),
      Permitted (step A vAlloc) CallOk (start m) ops → ∃ s, run (step A vAlloc) (start m) ops = some s ∧ Safe A s := by
  intro hall
  obtain ⟨s, hs, hsafe⟩ := hall arena2M (fun h _ => (h, 0)) (fun _ => 0) staleRun (by decide +kernel)
  have hend : (run (step arena2M fun h _ => (h, 0)) (start fun _ => 0) staleRun).map
      (fun s => (s.live, s.heap.head, freeAddr s.heap.mem s.heap.head, freeSize s.heap.mem 0x200040)) =
      some ([⟨0x200050, kmStaticSize - 80⟩, ⟨0x200030, 16⟩], 0x200000, 0x200040, kmStaticSize - 80) := by
    decide +kernel
  rw [hs, Option.map_some, Option.some.injEq, Prod.mk.injEq, Prod.mk.injEq, Prod.mk.injEq] at hend
  obtain ⟨hlive, hhead, hlink, hsize⟩ := hend
  have hon : OnFreeList s.heap 0x200040 := by
    rw [← hlink]
    exact .next (.head (by rw [hhead]; decide)) (by rw [hlink]; decide)
  have := hsafe.free ⟨0x200050, kmStaticSize - 80⟩ (by rw [hlive]; simp) 0x200040 hon
  have hsz : (0 : Nat) < kmStaticSize - 80 := by decide
  unfold Apart flSize at this
  dsimp only at this
  omega

/-! ### The heap after `kmDeviceMemorySetUpDone` -/

open Option

def growth : Nat := kmPagesAdd * sizeofPage

/-- The growths of one call of `kmalloc`: the heaps to which pages are added, with the addresses of the pages. -/
def growths (A : Arena) (vAlloc : Heap → Nat → Heap × Nat) : Nat → Heap → Nat → List (Heap × Nat)
  | 0, _, _ => []
  | rounds + 1, h, bytes =>
    let h := if h.initStaticPagesDone then h else initStaticPages A h
    if bytes = 0 then []
    else
      match scan h.mem bytes h.head with
      | some (0, _) =>
        if h.deviceMemorySetUp then
          let (h, start) := vAlloc h h.lastKmAddr
          let h := { h with lastKmAddr := add64 start growth }
          if start = 0 then []
          else (h, start) :: (addPages h start).elim [] fun h => growths A vAlloc rounds h bytes
        else []
      | _ => []

/-- The address is in `km_static` or in one of the ranges of pages. -/
def InPages (A : Arena) (pages : List Nat) (x : Nat) : Prop :=
  A.kmStatic ≤ x ∧ x < A.kmStatic + kmStaticSize ∨ ∃ start ∈ pages, start ≤ x ∧ x < start + growth

/-- The ranges of pages begin at `top` or above it, each behind the one before. -/
def Increasing : Nat → List Nat → Prop
  | _, [] => True
  | top, start :: rest => top ≤ start ∧ start + growth < addrSpace ∧ Increasing (start + growth) rest

instance decidableIncreasing : ∀ (top : Nat) (starts : List Nat), Decidable (Increasing top starts)
  | _, [] => .isTrue trivial
  | _, start :: rest =>
    have := decidableIncreasing (start + growth) rest
    inferInstanceAs (Decidable (_ ∧ _ ∧ _))

/-- Pages at `start` follow the last free block. -/
def Extends (h : Heap) (start : Nat) : Prop :=
  h.head ≠ 0 ∧ ∀ p ∈ lastBlock h.mem addrSpace h.head, start = p + flSize + freeSize h.mem p

instance (h : Heap) (start : Nat) : Decidable (Extends h start) := inferInstanceAs (Decidable (_ ∧ _))

variable {A : Arena} {E : Extent} {h : Heap} {fl l : List Nat} {live : List Alloc} {p bytes n : Nat}
  {vAlloc : Heap → Nat → Heap × Nat}

/-- The walk ends at the last block. -/
theorem lastBlock_eq {m : Bytes} {q fuel : Nat} (hseg : Seg (freeAddr m) q (l ++ [p]) 0) (hl : ∀ x ∈ l ++ [p], x ≠ 0)
    (hfuel : l.length < fuel) : lastBlock m fuel q = some p := by
  induction l generalizing q fuel with
  | nil =>
    obtain _ | fuel := fuel
    · omega
    obtain ⟨rfl, hend⟩ := hseg
    exact if_pos hend
  | cons x l ih =>
    rw [length_cons] at hfuel
    obtain _ | fuel := fuel
    · omega
    obtain ⟨rfl, hrest⟩ := hseg
    have hnext : freeAddr m q ≠ 0 := by
      intro h0
      cases l with
      | nil => exact hl p (by simp) (hrest.1.symm.trans h0)
      | cons y l => exact hl y (by simp) (hrest.1.symm.trans h0)
    rw [lastBlock, if_neg hnext]
    exact ih hrest (fun y hy => hl y (mem_cons_of_mem _ hy)) (by omega)

private theorem Tiled.extend {E' : Extent} {sz sz' : Nat → Nat} {bs : List Nat} (T : Tiled E sz bs) (hp : p ∈ bs)
    (hend : p + 16 + sz p = E.stop) (hstart : E'.start = E.start) (hstop : E'.stop = E.stop + n)
    (hsz : sz' p = sz p + n) (hs : ∀ r ∈ bs, r ≠ p → sz' r = sz r) : Tiled E' sz' bs := by
  refine ⟨fun r hr => ?_, T.apart.imp_of_mem fun {q r} hq hr hqr => ?_⟩
  · have hin := T.inside r hr
    by_cases hrp : r = p
    · subst hrp
      omega
    · rw [hs r hr hrp]
      omega
  · -- no block begins behind `p`
    have hbelow : ∀ r ∈ bs, r ≠ p → r + 16 + sz r ≤ p := by
      intro r hr hne
      have h1 := T.blockApart hr hp hne
      have h2 := T.inside r hr
      unfold BlockApart Apart at h1
      omega
    unfold BlockApart Apart at hqr ⊢
    by_cases hqp : q = p
    · subst hqp
      have hne : r ≠ q := by
        rintro rfl
        omega
      have := hbelow r hr hne
      rw [hs r hr hne]
      omega
    · have := hbelow q hq hqp
      rw [hs q hq hqp]
      by_cases hrp : r = p
      · omega
      · rw [hs r hr hrp]
        omega

/-- Pages that follow the last free block extend it, and the heap with it. -/
theorem addPages_freeList {start : Nat} (F : FreeList E h fl live) (hext : Extends h start) (hnew : E.stop ≤ start)
    (hfits : start + growth < addrSpace) :
    start = E.stop ∧ ∃ m E', addPages h start = some { h with mem := m } ∧ E'.start = E.start ∧
      E'.stop = E.stop + growth ∧ FreeList E' { h with mem := m } fl live ∧ ∃ p ∈ fl, growth ≤ freeSize m p := by
  obtain ⟨hhead, hlast⟩ := hext
  have L := F.layout
  rcases eq_nil_or_concat' fl with rfl | ⟨l, p, rfl⟩
  · exact absurd F.seg hhead
  have hp : p ∈ blocks (l ++ [p]) live := mem_blocks.2 (.inl (by simp))
  have hlen := L.length_lt
  rw [length_append] at hlen
  have hlast' : lastBlock h.mem addrSpace h.head = some p := lastBlock_eq F.seg (fun x hx => L.ne_zero hx) (by omega)
  have hstart := hlast p hlast'
  have hin := L.tiled.inside p hp
  have heq : start = E.stop := by
    unfold flSize at hstart
    omega
  have hadd : add64 (add64 p flSize) (freeSize h.mem p) = start := by
    unfold add64
    rw [Nat.mod_eq_of_lt (a := p + flSize) (by omega), ← hstart, Nat.mod_eq_of_lt (by omega)]
  have hsize : freeSize h.mem p + growth < addrSpace := by
    omega
  have hsum : add64 (freeSize h.mem p) (kmPagesAdd * sizeofPage) = freeSize h.mem p + growth := Nat.mod_eq_of_lt hsize
  set m' := setFreeSize h.mem p (freeSize h.mem p + growth) with hm'
  have hfa : ∀ x ∈ blocks (l ++ [p]) live, freeAddr m' x = freeAddr h.mem x :=
    fun x hx => freeAddr_setFreeSize (L.tiled.header hp hx)
  have hfs : ∀ x ∈ blocks (l ++ [p]) live,
      freeSize m' x = if x = p then freeSize h.mem p + growth else freeSize h.mem x :=
    fun x hx => freeSize_setFreeSize hsize (L.tiled.header hp hx)
  refine ⟨heq, m', ⟨E.start, E.stop + growth, E.pos, by omega⟩, ?_, rfl, rfl, ⟨?_, ?_, L.ascending, ?_⟩, p, by simp, ?_⟩
  · unfold addPages
    rw [if_neg hhead, hlast']
    simp only [bind_eq_bind, bind_some, hadd, hsum, if_true]
    rfl
  · exact F.seg.congr fun x hx => hfa x (mem_blocks.2 (.inl hx))
  · refine L.tiled.extend hp (by unfold flSize at hstart; omega) rfl rfl ?_ fun r hr hne => ?_
    · rw [hfs p hp, if_pos rfl]
    · rw [hfs r hr, if_neg hne]
  · intro a ha
    have hne : a.hdr ≠ p := fun hc => L.hdr_not_mem ha (by simp [hc])
    rw [hfs a.hdr (mem_blocks.2 (.inr ⟨a, ha, rfl⟩)), if_neg hne]
    exact L.room a ha
  · rw [hfs p hp, if_pos rfl]
    exact Nat.le_add_left _ _

theorem kmalloc_uninit (hinit : h.initStaticPagesDone = false) :
    kmalloc A vAlloc n h bytes = kmalloc A vAlloc n (initStaticPages A h) bytes := by
  cases n with
  | zero => rfl
  | succ n =>
    have hdone : (initStaticPages A h).initStaticPagesDone = true := rfl
    simp [kmalloc, hinit, hdone]

theorem growths_uninit (hinit : h.initStaticPagesDone = false) :
    growths A vAlloc n h bytes = growths A vAlloc n (initStaticPages A h) bytes := by
  cases n with
  | zero => rfl
  | succ n =>
    have hdone : (initStaticPages A h).initStaticPagesDone = true := rfl
    simp [growths, hinit, hdone]

end Adix.Kmalloc
