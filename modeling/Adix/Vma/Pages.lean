import Adix.Vma.Layout
import Adix.PageTable.Mapping

/-!
# Pages with virtual addresses (`v_alloc_pages` and `v_alloc_pages_at_virt`)

A call takes `n` physical pages, finds a place for them with `mmap`, and maps them there one after the other. But the
area that `mmap` is asked for has one page, whatever `n` is: the other pages are mapped behind the area.
-/

namespace Adix.Vma.Pages

open PageTable PhysPages List Option
open Vma (sizeofPage mmap)

def mapAnonymous : BitVec 32 := 1

/-- The lists of areas: that of the kernel, and that of the current task. -/
inductive ListId where
  | kernel
  | task
  deriving DecidableEq

/-- The machine, the lists of areas, whether there is a current task, and `start_kernel`. -/
structure Space where
  mach : Mach
  mmaps : ListId → List VmArea
  hasTask : Bool
  startKernel : Word

/-- The list that a call with the address `virt` works on. -/
def Space.listFor (y : Space) (virt : Word) : ListId :=
  if y.startKernel ≤ virt ∨ y.hasTask = false then .kernel else .task

/-- The loop that takes `n` pages; it is left when there is none. -/
def takePages : Nat → Mach → Mach × Option (List Nat)
  | 0, s => (s, some [])
  | n + 1, s =>
    let (s, phys) := s.allocPage
    if phys = 0 then (s, none)
    else
      let (s, rest) := takePages n s
      (s, rest.map (phys :: ·))

/-- The loop that maps the pages from `virt` on. The value that `update_curr_page_table` returns is not looked at. -/
def mapPages (cr3 : Nat) (prot : Word) : List Nat → Word → Mach → Option Mach
  | [], _, s => some s
  | phys :: rest, virt, s =>
    (updateCurrPageTable s cr3 (BitVec.ofNat 64 phys) virt prot).bind fun (s, _) =>
      mapPages cr3 prot rest (virt + sizeofPage) s

/-- `v_alloc_pages_at_virt`: the state afterwards and the address returned. `free_count` is `0` in the loop that would
free the pages, so they are lost on failure. -/
def vAllocPagesAtVirt (cr3 : Nat) (env : Env) (y : Space) (n : Nat) (prot virt : Word) : Option (Space × Word) :=
  if n = 0 then some (y, 0)
  else
    match takePages n y.mach with
    | (s, none) => some ({ y with mach := s }, 0)
    | (s, some pages) =>
      let i := y.listFor virt
      let (l, addr) := mmap env (y.mmaps i) virt sizeofPage prot mapAnonymous
      let y := { y with mach := s, mmaps := Function.update y.mmaps i l }
      if addr = 0 then some (y, 0)
      else (mapPages cr3 prot pages addr s).map fun s => ({ y with mach := s }, addr)

def vAllocPages (kernmem : Word) (cr3 : Nat) (env : Env) (y : Space) (n : Nat) (prot : Word) : Option (Space × Word) :=
  vAllocPagesAtVirt cr3 env y n prot kernmem

/-- What a caller was given: `n` pages from `addr` on, on a list. -/
structure Range where
  list : ListId
  addr : Word
  n : Nat

structure State where
  space : Space
  ranges : List Range

/-- A call, with what it finds around it; `virt` is `none` for `v_alloc_pages`. -/
structure Call where
  env : Env
  n : Nat
  prot : Word
  virt : Option Word

/-- A call that succeeds: it does not return `0`, nor `-1`, the value of an `mmap` that failed. -/
def step (kernmem : Word) (cr3 : Nat) (s : State) (c : Call) : Option State :=
  let virt := c.virt.getD kernmem
  (vAllocPagesAtVirt cr3 c.env s.space c.n c.prot virt).bind fun (y, addr) =>
    if addr = 0 ∨ addr = -1 then none
    else some ⟨y, ⟨s.space.listFor virt, addr, c.n⟩ :: s.ranges⟩

def Range.Disjoint (r t : Range) : Prop :=
  r.addr.toNat + 4096 * r.n ≤ t.addr.toNat ∨ t.addr.toNat + 4096 * t.n ≤ r.addr.toNat

def Range.Covered (r : Range) (l : List VmArea) : Prop :=
  ∀ x, r.addr.toNat ≤ x → x < r.addr.toNat + 4096 * r.n → ∃ v ∈ l, v.vmStart.toNat ≤ x ∧ x < v.vmEnd.toNat

structure Owned (s : State) : Prop where
  disjoint : s.ranges.Pairwise fun r t => r.list = t.list → r.Disjoint t
  covered : ∀ r ∈ s.ranges, r.Covered (s.space.mmaps r.list)

variable {kernmem : Word} {cr3 n : Nat} {env : Env} {y y' : Space} {prot virt addr : Word} {s s' : State} {c : Call}

private theorem vAllocPagesAtVirt_spec (h : vAllocPagesAtVirt cr3 env y n prot virt = some (y', addr)) (h0 : addr ≠ 0) :
    mmap env (y.mmaps (y.listFor virt)) virt sizeofPage prot mapAnonymous = (y'.mmaps (y.listFor virt), addr) ∧
      ∀ i, i ≠ y.listFor virt → y'.mmaps i = y.mmaps i := by
  unfold vAllocPagesAtVirt at h
  split at h
  · exact absurd (Prod.mk.inj (some.inj h)).2.symm h0
  split at h
  · exact absurd (Prod.mk.inj (some.inj h)).2.symm h0
  dsimp only at h
  generalize hm : mmap env (y.mmaps (y.listFor virt)) virt sizeofPage prot mapAnonymous = r at h ⊢
  obtain ⟨l, a⟩ := r
  split at h
  · exact absurd (Prod.mk.inj (some.inj h)).2.symm h0
  obtain ⟨s', -, hs'⟩ := map_eq_some_iff.1 h
  cases hs'
  refine ⟨?_, fun i hi => Function.update_of_ne hi _ _⟩
  show _ = (Function.update y.mmaps _ l _, a)
  rw [Function.update_self]

structure Inv (s : State) : Prop where
  valid : ∀ i, Valid (s.space.mmaps i)
  single : ∀ r ∈ s.ranges, r.n = 1
  area : ∀ r ∈ s.ranges, ∃ v ∈ s.space.mmaps r.list, v.vmStart = r.addr ∧ v.vmEnd.toNat = r.addr.toNat + 4096
  disjoint : s.ranges.Pairwise fun r t => r.list = t.list → r.Disjoint t

private theorem Inv.owned (h : Inv s) : Owned s := by
  refine ⟨h.disjoint, fun r hr x h1 h2 => ?_⟩
  obtain ⟨v, hv, hstart, hend⟩ := h.area r hr
  rw [h.single r hr] at h2
  refine ⟨v, hv, ?_, by omega⟩
  rw [hstart]
  exact h1

/-- A call for one page keeps the ranges disjoint. -/
private theorem step_inv (h : Inv s) (hone : c.n = 1) (hs : step kernmem cr3 s c = some s') : Inv s' := by
  unfold step at hs
  dsimp only at hs
  generalize c.virt.getD kernmem = virt at hs
  obtain ⟨⟨y', addr⟩, hcall, hs⟩ := bind_eq_some_iff.1 hs
  split at hs
  · cases hs
  rename_i hok
  rw [not_or] at hok
  cases hs
  obtain ⟨hmmap, hother⟩ := vAllocPagesAtVirt_spec hcall hok.1
  generalize s.space.listFor virt = i at hmmap hother ⊢
  -- the new area lies in a gap of the list
  obtain hfail | ⟨l', r, heq, -, hvalid, hm⟩ :=
    mmapGrowable_spec (h.valid i) c.env ⟨virt, sizeofPage, c.prot, mapAnonymous, -1⟩
  · exact absurd (Prod.mk.inj (hmmap.symm.trans hfail)).2 hok.2
  cases hmmap.symm.trans heq
  have hfits : addr.toNat + 4096 < 2 ^ 64 := hm.fits
  have hto : (addr + sizeofPage).toNat = addr.toNat + 4096 := by
    rw [BitVec.toNat_add, show Vma.sizeofPage.toNat = 4096 from rfl, Nat.mod_eq_of_lt hfits]
  obtain ⟨l1, l2, hl, hl'⟩ := hm.added
  have hsub : ∀ v ∈ s.space.mmaps i, v ∈ y'.mmaps i := by
    intro v hv
    rw [hl] at hv
    rw [hl']
    rcases mem_append.1 hv with hv | hv
    · exact mem_append_left _ hv
    · exact mem_append_right _ (mem_cons_of_mem _ hv)
  refine ⟨fun j => ?_, fun r hr => ?_, fun r hr => ?_, pairwise_cons.2 ⟨fun r hr heq => ?_, h.disjoint⟩⟩
  · by_cases hj : j = i
    · subst hj
      exact hvalid
    · rw [hother j hj]
      exact h.valid j
  · rcases mem_cons.1 hr with rfl | hr
    · exact hone
    · exact h.single r hr
  · rcases mem_cons.1 hr with rfl | hr
    · refine ⟨⟨addr, addr + sizeofPage, c.prot, mapAnonymous, -1⟩, ?_, rfl, hto⟩
      rw [hl']
      exact mem_append_right _ mem_cons_self
    · obtain ⟨v, hv, hv'⟩ := h.area r hr
      refine ⟨v, ?_, hv'⟩
      by_cases hj : r.list = i
      · rw [hj] at hv ⊢
        exact hsub v hv
      · rw [hother _ hj]
        exact hv
  · -- an earlier range on the list is an area of it
    obtain ⟨v, hv, hstart, hend⟩ := h.area r hr
    rw [← heq] at hv
    have hne := h.single r hr
    have hbelow := hm.disjoint v hv
    unfold Range.Disjoint
    dsimp only
    rw [← hstart]
    by_contra hc
    -- two pages that meet have the larger one of their first addresses in common
    by_cases hle : addr ≤ v.vmStart
    · refine hbelow v.vmStart (by bv_omega) (by bv_omega) ⟨hle, ?_⟩
      show _ < (addr + sizeofPage).toNat
      omega
    · refine hbelow addr (by bv_omega) (by bv_omega) ⟨by bv_omega, ?_⟩
      show _ < (addr + sizeofPage).toNat
      omega

/-- In every sequence of calls for one page each, all of which succeed, the ranges returned on a list are disjoint, and
each is covered by areas of the list. -/
theorem ranges_owned (kernmem : Word) (cr3 : Nat) (y₀ : Space) (h₀ : ∀ i, Valid (y₀.mmaps i)) (calls : List Call)
    (hone : Permitted (step kernmem cr3) (fun _ c => c.n = 1) ⟨y₀, []⟩ calls) (s : State)
    (hs : run (step kernmem cr3) ⟨y₀, []⟩ calls = some s) : Owned s := by
  have hstart : Inv ⟨y₀, []⟩ := ⟨h₀, nofun, nofun, List.Pairwise.nil⟩
  exact (run_preserves (fun _ _ _ h hc hs => step_inv h hc hs) hstart hone hs).owned

def twelvePages : Chunk where
  physAddrStart := 0x1000
  physAddrEnd := 0xd000
  physPagePointer := [⟨1, 0⟩, ⟨0, 0⟩, ⟨0, 0⟩, ⟨0, 0⟩, ⟨0, 0⟩, ⟨0, 0⟩, ⟨0, 0⟩, ⟨0, 0⟩, ⟨0, 0⟩, ⟨0, 0⟩, ⟨0, 0⟩, ⟨0, 0⟩]
  aligned := PhysPages.page_aligned
  length := by simp [PhysPages.sizeofPage]
  nonempty := by decide
  fits := by simp [addrSpace]

def emptySpace : Space where
  mach := ⟨fun q j => if q = 0x1000 ∧ j = selfRefEntry then 0x1003 else 0, ⟨[twelvePages], [⟨0x2000, 11⟩]⟩, 0⟩
  mmaps _ := []
  hasTask := false
  startKernel := 0xffffffff80000000

def plainCall (n : Nat) : Call := ⟨⟨true, ⟨0, 0, 0, 0, 0⟩⟩, n, 2, none⟩

theorem ranges_owned_two :
    ∃ s, run (step 0xffffffff80400000 0x1000) ⟨emptySpace, []⟩ [plainCall 1, plainCall 1] = some s ∧
    s.ranges.length = 2 ∧ Owned s := by
  obtain ⟨s, hs, hlen⟩ : ∃ s ∈ run (step 0xffffffff80400000 0x1000) ⟨emptySpace, []⟩ [plainCall 1, plainCall 1],
      s.ranges.length = 2 := by
    decide +kernel
  refine ⟨s, hs, hlen, ?_⟩
  exact ranges_owned 0xffffffff80400000 0x1000 emptySpace (fun _ => Valid.nil) [plainCall 1, plainCall 1]
    ⟨rfl, fun _ _ => ⟨rfl, fun _ _ => trivial⟩⟩ s hs

/-- After a call for two pages, a call for one page is given the second of them. -/
theorem ranges_overlap :
    ¬ ∀ (kernmem : Word) (cr3 : Nat) (y₀ : Space), (∀ i, Valid (y₀.mmaps i)) → ∀ (calls : List Call),
    Permitted (step kernmem cr3) (fun _ c => 1 ≤ c.n) ⟨y₀, []⟩ calls →
      ∀ s, run (step kernmem cr3) ⟨y₀, []⟩ calls = some s → Owned s := by
  intro h
  obtain ⟨s, hs, hranges⟩ : ∃ s ∈ run (step 0xffffffff80400000 0x1000) ⟨emptySpace, []⟩ [plainCall 2, plainCall 1],
      s.ranges.map (fun r => (r.list, r.addr, r.n)) =
        [(.kernel, 0xffffffff80401000, 1), (.kernel, 0xffffffff80400000, 2)] := by decide +kernel
  have howned := h 0xffffffff80400000 0x1000 emptySpace (fun _ => Valid.nil) [plainCall 2, plainCall 1]
    ⟨Nat.le_succ 1, fun _ _ => ⟨Nat.le_refl 1, fun _ _ => trivial⟩⟩ s hs
  -- the first range goes on behind the start of the second
  have hdisjoint := pairwise_map (f := fun r : Range => (r.list, r.addr, r.n))
    (R := fun r t => r.1 = t.1 → r.2.1.toNat + 4096 * r.2.2 ≤ t.2.1.toNat ∨ t.2.1.toNat + 4096 * t.2.2 ≤ r.2.1.toNat)
    |>.2 howned.disjoint
  rw [hranges] at hdisjoint
  have hmeet := (pairwise_cons.1 hdisjoint).1 _ mem_cons_self rfl
  revert hmeet
  decide

/-! ### Calls that fail -/

/-- `v_alloc_page_get_phys_at_virt`: the state afterwards, the address returned, and the physical address if it is
written. `free_phys_page` gets its node if `nodeOk`. -/
def vAllocPageGetPhysAtVirt (cr3 : Nat) (env : Env) (nodeOk : Bool) (y : Space) (prot virt : Word) :
    Option (Space × Word × Option Nat) :=
  match y.mach.allocPage with
  | (s, phys) =>
    if phys = 0 then some ({ y with mach := s }, 0, none)
    else
      let i := y.listFor virt
      let (l, addr) := mmap env (y.mmaps i) virt sizeofPage prot mapAnonymous
      let y := { y with mach := s, mmaps := Function.update y.mmaps i l }
      if addr = 0 then
        some ({ y with mach := { s with pages := (freePhysPage nodeOk s.pages phys).1 } }, 0, none)
      else
        (updateCurrPageTable s cr3 (BitVec.ofNat 64 phys) addr prot).map fun (s, _) =>
          ({ y with mach := s }, addr, some phys)

def CannotComplete (env : Env) (y : Space) (n : Nat) (prot virt : Word) : Prop :=
  freeCount y.mach.pages < n ∨
    (mmap env (y.mmaps (y.listFor virt)) virt sizeofPage prot mapAnonymous).2 = -1

/-- The call returned `0`, and the entries of the page table, the free pages and the reference counts are those before.
-/
def GivesBack (cr3 : Nat) (y : Space) (res : Option (Space × Word)) : Prop :=
  ∃ y', res = some (y', 0) ∧ (∀ v, leaf y'.mach.mem cr3 v = leaf y.mach.mem cr3 v) ∧
    (∀ q, Free y'.mach q ↔ Free y.mach q) ∧ ∀ q, refcount y'.mach.pages q = refcount y.mach.pages q

variable {cr3 n : Nat} {env : Env} {nodeOk : Bool} {y : Space} {prot virt : Word} {s : Mach}

private theorem takePages_sub (h : Listed s.pages) (n : Nat) : ∀ q, Free (takePages n s).1 q → Free s q := by
  induction n generalizing s with
  | zero => exact fun q hq => hq
  | succ n ih =>
    unfold takePages
    obtain ha | ⟨u, f, ha, hf⟩ := allocPage_cases h
    · rw [ha]
      exact fun q hq => hq
    · rw [ha]
      dsimp only
      rw [if_neg hf.allocated.ne_zero]
      exact fun q hq => (hf.free_iff.1 (ih hf.allocated.listed q hq)).1

private theorem takePages_takes (h : Listed s.pages) (hn : 1 ≤ n) (hc : 0 < freeCount s.pages) :
    ∃ f, Free s f ∧ ¬ Free (takePages n s).1 f := by
  obtain ⟨n, rfl⟩ := Nat.exists_eq_add_of_le' hn
  obtain ⟨u, f, ha, hf, -⟩ := allocPage_spec h hc
  refine ⟨f, hf.wasFree, ?_⟩
  unfold takePages
  rw [ha]
  dsimp only
  rw [if_neg hf.allocated.ne_zero]
  exact fun hq => (hf.free_iff.1 (takePages_sub hf.allocated.listed n f hq)).2 rfl

private theorem GivesBack.refl (cr3 : Nat) (y : Space) : GivesBack cr3 y (some (y, 0)) :=
  ⟨y, rfl, fun _ => rfl, fun _ => Iff.rfl, fun _ => rfl⟩

/-- A page that was taken is not given back, whatever happens then. -/
theorem not_givesBack_pages (h : Listed y.mach.pages) (hn : 1 ≤ n) (hc : 0 < freeCount y.mach.pages) :
    ¬ GivesBack cr3 y (vAllocPagesAtVirt cr3 env y n prot virt) := by
  rintro ⟨y', he, -, hfree, -⟩
  unfold vAllocPagesAtVirt at he
  rw [if_neg (by omega)] at he
  obtain ⟨f, hf, hnot⟩ := takePages_takes h hn hc
  generalize takePages n y.mach = g at he hnot
  obtain ⟨s, r⟩ := g
  cases r with
  | none =>
    cases he
    exact hnot ((hfree f).2 hf)
  | some pages =>
    dsimp only at he
    split at he
    · cases he
      exact hnot ((hfree f).2 hf)
    · next hne =>
      obtain ⟨u, -, hu⟩ := Option.map_eq_some_iff.1 he
      exact hne (Prod.mk.inj hu).2

/-- An `mmap` that fails is not noticed. -/
theorem not_givesBack_page (h : Listed y.mach.pages) (hc : 0 < freeCount y.mach.pages)
    (hmmap : (mmap env (y.mmaps (y.listFor virt)) virt sizeofPage prot mapAnonymous).2 = -1) :
    ¬ GivesBack cr3 y ((vAllocPageGetPhysAtVirt cr3 env nodeOk y prot virt).map fun r => (r.1, r.2.1)) := by
  rintro ⟨y', he, -⟩
  obtain ⟨u, f, ha, hf, -⟩ := allocPage_spec h hc
  unfold vAllocPageGetPhysAtVirt at he
  rw [ha] at he
  dsimp only at he
  rw [if_neg hf.allocated.ne_zero, hmmap, if_neg (by decide), Option.map_map] at he
  obtain ⟨u, -, hu⟩ := Option.map_eq_some_iff.1 he
  have hret : (-1 : Word) = 0 := (Prod.mk.inj hu).2
  exact absurd hret (by decide)

/-- When a call cannot complete, everything is given back just when no page was free, so that none was taken. -/
theorem failed_alloc_iff (cr3 : Nat) (env : Env) (nodeOk : Bool) (y : Space) (n : Nat) (prot virt : Word)
    (h : Listed y.mach.pages) (hn : 1 ≤ n) : (CannotComplete env y n prot virt →
      (GivesBack cr3 y (vAllocPagesAtVirt cr3 env y n prot virt) ↔ freeCount y.mach.pages = 0)) ∧
    (CannotComplete env y 1 prot virt →
      (GivesBack cr3 y ((vAllocPageGetPhysAtVirt cr3 env nodeOk y prot virt).map fun r => (r.1, r.2.1)) ↔
        freeCount y.mach.pages = 0)) := by
  refine ⟨fun _ => ⟨fun hgive => ?_, fun h0 => ?_⟩, fun hfail => ⟨fun hgive => ?_, fun h0 => ?_⟩⟩
  · by_contra hc
    exact not_givesBack_pages h hn (Nat.pos_of_ne_zero hc) hgive
  · obtain ⟨n, rfl⟩ := Nat.exists_eq_add_of_le' hn
    unfold vAllocPagesAtVirt takePages
    rw [allocPage_empty h0]
    exact .refl cr3 y
  · by_contra hc
    obtain hlt | hmmap := hfail
    · omega
    · exact not_givesBack_page h (Nat.pos_of_ne_zero hc) hmmap hgive
  · unfold vAllocPageGetPhysAtVirt
    rw [allocPage_empty h0]
    exact .refl cr3 y

private def spaceWith (runs : List PhysFree) : Space :=
  { emptySpace with mach := ⟨emptySpace.mach.mem, ⟨[twelvePages], runs⟩, 0⟩ }

theorem failed_alloc_none :
    GivesBack 0x1000 (spaceWith []) (vAllocPagesAtVirt 0x1000 (plainCall 2).env (spaceWith []) 2 2 0xffffffff80400000) ∧
      GivesBack 0x1000 (spaceWith []) ((vAllocPageGetPhysAtVirt 0x1000 (plainCall 2).env true (spaceWith []) 2
        0xffffffff80400000).map fun r => (r.1, r.2.1)) := by
  have hlisted : Listed (spaceWith []).mach.pages :=
    ⟨⟨fun r hr => absurd hr not_mem_nil, List.Pairwise.nil⟩, fun b hb => absurd hb not_covers_nil⟩
  obtain ⟨h1, h2⟩ := failed_alloc_iff 0x1000 (plainCall 2).env true (spaceWith []) 2 2 0xffffffff80400000 hlisted
    (by decide)
  exact ⟨(h1 (.inl (by decide))).2 rfl, (h2 (.inl (by decide))).2 rfl⟩

/-- With one free page a call for two returns `0` and has lost the page. With a page but without memory for the area
both functions go on with the address `-1`. -/
theorem failed_alloc_lost : CannotComplete (plainCall 2).env (spaceWith [⟨0x2000, 1⟩]) 2 2 0xffffffff80400000 ∧
      ¬ GivesBack 0x1000 (spaceWith [⟨0x2000, 1⟩])
        (vAllocPagesAtVirt 0x1000 (plainCall 2).env (spaceWith [⟨0x2000, 1⟩]) 2 2 0xffffffff80400000) ∧
      CannotComplete ⟨false, ⟨0, 0, 0, 0, 0⟩⟩ (spaceWith [⟨0x2000, 1⟩]) 1 2 0xffffffff80400000 ∧
      ¬ GivesBack 0x1000 (spaceWith [⟨0x2000, 1⟩])
        (vAllocPagesAtVirt 0x1000 ⟨false, ⟨0, 0, 0, 0, 0⟩⟩ (spaceWith [⟨0x2000, 1⟩]) 1 2 0xffffffff80400000) ∧
      ¬ GivesBack 0x1000 (spaceWith [⟨0x2000, 1⟩])
        ((vAllocPageGetPhysAtVirt 0x1000 ⟨false, ⟨0, 0, 0, 0, 0⟩⟩ true (spaceWith [⟨0x2000, 1⟩]) 2
          0xffffffff80400000).map fun r => (r.1, r.2.1)) := by
  have hlisted : Listed (spaceWith [⟨0x2000, 1⟩]).mach.pages :=
    listed_run (by decide) (by decide) (by decide) (by decide)
  have hmmap : (mmap ⟨false, ⟨0, 0, 0, 0, 0⟩⟩ [] 0xffffffff80400000 sizeofPage 2 mapAnonymous).2 = -1 := by
    decide +kernel
  exact ⟨.inl (by decide), not_givesBack_pages hlisted (by decide) (by decide), .inr hmmap,
    not_givesBack_pages hlisted (by decide) (by decide), not_givesBack_page hlisted (by decide) hmmap⟩

end Adix.Vma.Pages
