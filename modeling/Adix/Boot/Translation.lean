import Adix.Boot.Areas
import Adix.PageTable.Shortage
import Adix.Space.Protect

/-!
# The page table that boot loads

The loops of `setup_kernel_memory` call `update_page_table_idmap` for a fixed list of pages (`plan`). These have
addresses in four zones: the image, the page of the video buffer, the page of the AHCI registers, and the map of
physical memory. So no two are the same page, and each is translated to its physical page.
-/

namespace Adix.Boot

open PageTable PhysPages Fork List Option BitVec
open Vma (VmArea)
open BitVec (ofNat)
open Chunk (bounds)

section Call

variable {s s' : Mach} {r : Nat} {phys virt perm : Word}

private theorem updatePageTableIdmap_zero (hw : WellFormed (· ≠ selfRefEntry) s (· = r)) (hb : s.base = 0)
    (hv : indexPml4e virt ≠ selfRefEntry) (h : updatePageTableIdmap s r phys virt perm = (s', 0)) :
    WellFormed (· ≠ selfRefEntry) s' (· = r) ∧ s'.base = 0 ∧ leaf s'.mem r virt = some (leafEntry phys perm) ∧
      ∀ v, indexPml4e v ≠ selfRefEntry → ¬ SamePage v virt → leaf s'.mem r v = leaf s.mem r v := by
  have hc : missing s.mem r virt ≤ freeCount s.pages := by
    by_contra hlt
    rw [missing_eq_lacking] at hlt
    obtain ⟨u, hd, -⟩ := descend_short (hw.owned rfl hv) hb (nil_append _) rfl (Nat.lt_of_not_le hlt)
    rw [updatePageTableIdmap_descend, hd] at h
    cases h
  obtain ⟨s1, pt, hg, hpt, -, he⟩ := updatePageTableIdmap_spec hw rfl hv phys perm hc
  obtain ⟨h1, h2⟩ := leafWord_store (w := leafEntry phys perm) hg rfl hv hpt
  cases h.symm.trans he
  refine ⟨hg.wf.store rfl (tablePath_ok hv) rfl hpt, hg.base_eq.trans hb, ?_, fun v hv' hne => ?_⟩
  · rw [leaf_eq_filter, h1, filter_some, present_leafEntry]
    rfl
  · exact leaf_eq_of_leafWord (h2 r v rfl hv' fun h => hne h.2)

private theorem bounds_allocPage (s : Mach) :
    s.allocPage.1.pages.chunkList.map bounds = s.pages.chunkList.map bounds := by
  show (allocPhysPages s.pages 1).1.chunkList.map bounds = _
  unfold allocPhysPages
  rw [if_neg (by decide)]
  split
  · rfl
  · split
    · rfl
    · exact bounds_incPages

private theorem bounds_nextTable (s : Mach) (t : Nat) (i : Index) :
    (nextTable s t i).1.pages.chunkList.map bounds = s.pages.chunkList.map bounds := by
  unfold nextTable
  split
  · dsimp only
    split
    · exact bounds_allocPage s
    · exact bounds_allocPage s
  · rfl

private theorem bounds_updatePageTableIdmap (s : Mach) (r : Nat) (phys virt perm : Word) :
    (updatePageTableIdmap s r phys virt perm).1.pages.chunkList.map bounds = s.pages.chunkList.map bounds := by
  have hdescend : ∀ (ρ : List Index) (s : Mach) (t : Nat),
      (descend s t ρ).1.pages.chunkList.map bounds = s.pages.chunkList.map bounds := by
    intro ρ
    induction ρ with
    | nil => exact fun _ _ => rfl
    | cons i ρ ih =>
      intro s t
      have hnext := bounds_nextTable s t i
      rw [descend]
      rcases hn : nextTable s t i with ⟨s1, _ | t1⟩
      · rw [hn] at hnext
        exact hnext
      · rw [hn] at hnext
        exact (ih s1 t1).trans hnext
  have h := hdescend (tablePath virt) s r
  rw [updatePageTableIdmap_descend]
  rcases hd : descend s r (tablePath virt) with ⟨s1, _ | pt⟩
  · rw [hd] at h
    exact h
  · rw [hd] at h
    exact h

end Call

structure Mapping where
  phys : Word
  virt : Word
  perm : Word

def mapAll (pml4 : Nat) (ms : List Mapping) (t : Table) : Table :=
  ms.foldl (fun t m => mapPage pml4 m.perm m.phys m.virt t) t

section Run

variable {pml4 : Nat} {ms ms' : List Mapping} {m : Mapping} {t : Table}

private theorem mapAll_cons : mapAll pml4 (m :: ms) t = mapAll pml4 ms (mapPage pml4 m.perm m.phys m.virt t) := rfl

private theorem mapAll_append : mapAll pml4 (ms ++ ms') t = mapAll pml4 ms' (mapAll pml4 ms t) := foldl_append

private theorem bounds_mapAll :
    (mapAll pml4 ms t).mach.pages.chunkList.map bounds = t.mach.pages.chunkList.map bounds := by
  induction ms generalizing t with
  | nil => rfl
  | cons m ms ih =>
    rw [mapAll_cons, ih]
    exact bounds_updatePageTableIdmap t.mach pml4 m.phys m.virt m.perm

private theorem calls_mapAll (pml4 : Nat) (ms : List Mapping) (t : Table) :
    ∃ cs, (mapAll pml4 ms t).calls = t.calls ++ cs ∧ cs.map Call.virt = ms.map Mapping.virt := by
  induction ms generalizing t with
  | nil => exact ⟨[], by rw [append_nil]; rfl, rfl⟩
  | cons m ms ih =>
    obtain ⟨cs, hcs, hvirt⟩ := ih (mapPage pml4 m.perm m.phys m.virt t)
    refine ⟨⟨m.phys, m.virt, (updatePageTableIdmap t.mach pml4 m.phys m.virt m.perm).2⟩ :: cs, ?_, ?_⟩
    · rw [mapAll_cons, hcs]
      show (t.calls ++ [_]) ++ cs = _
      rw [List.append_assoc]
      rfl
    · rw [map_cons, hvirt]
      rfl

/-- While `phys_mem_virt_map_base` is `0`, a call that returns `0` maps its page and keeps the other entries. If no two
calls are for one page, in the end each page has its entry. -/
theorem mapAll_spec (hw : WellFormed (· ≠ selfRefEntry) t.mach (· = pml4)) (hb : t.mach.base = 0)
    (hslot : ∀ m ∈ ms, indexPml4e m.virt ≠ selfRefEntry) (hret : ∀ c ∈ (mapAll pml4 ms t).calls, c.ret = 0)
    (hpair : ms.Pairwise fun m m' => ¬ SamePage m.virt m'.virt) :
    WellFormed (· ≠ selfRefEntry) (mapAll pml4 ms t).mach (· = pml4) ∧
      (∀ m ∈ ms, leaf (mapAll pml4 ms t).mach.mem pml4 m.virt = some (leafEntry m.phys m.perm)) ∧
      ∀ v, indexPml4e v ≠ selfRefEntry → (∀ m ∈ ms, ¬ SamePage v m.virt) →
        leaf (mapAll pml4 ms t).mach.mem pml4 v = leaf t.mach.mem pml4 v := by
  induction ms generalizing t with
  | nil => exact ⟨hw, by simp, fun _ _ _ => rfl⟩
  | cons m ms ih =>
    rw [mapAll_cons] at hret ⊢
    obtain ⟨hm, hrest⟩ := pairwise_cons.1 hpair
    obtain ⟨cs, hcs, -⟩ := calls_mapAll pml4 ms (mapPage pml4 m.perm m.phys m.virt t)
    -- the first call
    have hzero : (updatePageTableIdmap t.mach pml4 m.phys m.virt m.perm).2 = 0 := by
      refine hret ⟨m.phys, m.virt, (updatePageTableIdmap t.mach pml4 m.phys m.virt m.perm).2⟩ ?_
      rw [hcs]
      exact mem_append_left _ (mem_append_right _ (mem_singleton.2 rfl))
    have hslot' := hslot m mem_cons_self
    obtain ⟨hw1, hb1, hhere, hother⟩ := updatePageTableIdmap_zero hw hb hslot' (Prod.ext rfl hzero)
    obtain ⟨hwf, hmem, hkeep⟩ := ih hw1 hb1 (fun m' hm' => hslot m' (mem_cons_of_mem _ hm')) hret hrest
    refine ⟨hwf, fun m' hm' => ?_, fun v hv hne => ?_⟩
    · rcases mem_cons.1 hm' with rfl | hm'
      · exact (hkeep _ hslot' hm).trans hhere
      · exact hmem m' hm'
    · rw [hkeep v hv fun m' hm' => hne m' (mem_cons_of_mem _ hm')]
      exact hother v hv (hne m mem_cons_self)

end Run

def pagesFrom (perm paddr vaddr : Word) (n : Nat) : List Mapping :=
  (List.range n).map fun i => ⟨paddr + ofNat 64 (4096 * i), vaddr + ofNat 64 (4096 * i), perm⟩

def boundsPages (physMemOffset : Word) (c : Nat × Nat) : List Mapping :=
  pagesFrom pageTransReadWrite (ofNat 64 c.1) (ofNat 64 c.1 + physMemOffset) ((c.2 - c.1) / 4096)

def plan (pKernStart pKernEnd : Word) (b : Setup) : List Mapping :=
  pagesFrom pageTransReadWrite pKernStart kernmem ((pKernEnd.toNat - pKernStart.toNat) / 4096) ++
    (⟨videoMemoryAddress, b.vdoStartAddr, pageTransReadWrite ||| pageTransUserSupervisor⟩ ::
      ⟨pAhciStart, b.ahciStartAddr, pageTransReadWrite ||| pageTransUserSupervisor⟩ ::
      (b.pages.chunkList.map bounds).flatMap (boundsPages b.physMemOffset))

section Plan

variable {pml4 fuel n : Nat} {perm stop paddr vaddr : Word} {t t' : Table}

private theorem pagesFrom_succ : pagesFrom perm paddr vaddr (n + 1) =
    ⟨paddr, vaddr, perm⟩ :: pagesFrom perm (paddr + Vma.sizeofPage) (vaddr + Vma.sizeofPage) n := by
  unfold pagesFrom
  rw [range_succ_eq_map, map_cons, List.map_map]
  refine cons_eq_cons.2 ⟨?_, ?_⟩
  · simp
  · refine map_congr_left fun i _ => ?_
    have hi : ofNat 64 (4096 * (i + 1)) = Vma.sizeofPage + ofNat 64 (4096 * i) := by
      rw [Nat.mul_succ, Nat.add_comm, ofNat_add]
      rfl
    rw [Function.comp_apply, hi, ← BitVec.add_assoc, ← BitVec.add_assoc]

private theorem mapRange_eq (hn : 4096 * n = stop.toNat - paddr.toNat)
    (h : mapRange pml4 perm stop fuel paddr vaddr t = some t') : t' = mapAll pml4 (pagesFrom perm paddr vaddr n) t := by
  induction n generalizing fuel paddr vaddr t with
  | zero =>
    cases fuel with
    | zero => cases h
    | succ fuel =>
      rw [mapRange, if_neg (by rw [lt_def]; omega)] at h
      exact (some.inj h).symm
  | succ n ih =>
    cases fuel with
    | zero => cases h
    | succ fuel =>
      have hnext : (paddr + Vma.sizeofPage).toNat = paddr.toNat + 4096 := by
        rw [BitVec.toNat_add, show Vma.sizeofPage.toNat = 4096 from rfl]
        omega
      rw [mapRange, if_pos (by rw [lt_def]; omega)] at h
      rw [pagesFrom_succ, mapAll_cons]
      exact ih (by omega) h

private theorem physMemOffsetMap_eq {physMemOffset : Word} {cs : List Chunk}
    (h : physMemOffsetMap pml4 physMemOffset cs t = some t') :
    t' = mapAll pml4 ((cs.map bounds).flatMap (boundsPages physMemOffset)) t := by
  induction cs generalizing t with
  | nil => exact (some.inj h).symm
  | cons c cs ih =>
    obtain ⟨t1, hrange, h⟩ := bind_eq_some_iff.1 h
    have hlen := c.length
    have hfits := c.fits
    have hone := c.nonempty
    unfold PhysPages.sizeofPage addrSpace at *
    have hn : 4096 * ((c.physAddrEnd - c.physAddrStart) / 4096) =
        (ofNat 64 c.physAddrEnd).toNat - (ofNat 64 c.physAddrStart).toNat := by
      rw [toNat_ofNat, toNat_ofNat, Nat.mod_eq_of_lt hfits, Nat.mod_eq_of_lt (hone.trans hfits)]
      omega
    have hfirst : t1 = mapAll pml4 (boundsPages physMemOffset c.bounds) t := mapRange_eq hn hrange
    rw [map_cons, flatMap_cons, mapAll_append, ← hfirst]
    exact ih h

private theorem bounds_getSelfrefPml4 (s : Mach) :
    (getSelfrefPml4 s).1.pages.chunkList.map bounds = s.pages.chunkList.map bounds := by
  unfold getSelfrefPml4
  dsimp only
  split
  · exact bounds_allocPage s
  · exact bounds_allocPage s

/-- The loops of `setup_kernel_memory` make the calls of the plan, in this order. -/
theorem setupKernelMemory_eq {env : Env} {mem : Memory} {pKernStart pKernEnd : Word} {smap : List Smap} {k : Kernel}
    (hks : pKernStart.toNat % 4096 = 0) (hke : pKernEnd.toNat % 4096 = 0)
    (h : setupKernelMemory env mem kernmem pKernStart pKernEnd videoMemoryAddress smap = some k) :
    setupPages env kernmem pKernStart pKernEnd videoMemoryAddress smap = some k.toSetup ∧
      ∃ s p, getSelfrefPml4 ⟨mem, k.pages, 0⟩ = (s, p) ∧ k.pml4 = p.getD 0 ∧
        k.mach.mem = (mapAll k.pml4 (plan pKernStart pKernEnd k.toSetup) ⟨s, []⟩).mach.mem ∧
        k.calls = (mapAll k.pml4 (plan pKernStart pKernEnd k.toSetup) ⟨s, []⟩).calls := by
  obtain ⟨b, hb, h⟩ := bind_eq_some_iff.1 h
  have hbounds := bounds_getSelfrefPml4 ⟨mem, b.pages, 0⟩
  rcases hself : getSelfrefPml4 ⟨mem, b.pages, 0⟩ with ⟨s, p⟩
  rw [hself] at h hbounds
  obtain ⟨t1, hkernel, h⟩ := bind_eq_some_iff.1 h
  obtain ⟨t2, hphys, rfl⟩ := map_eq_some_iff.1 h
  have h1 := mapRange_eq (n := (pKernEnd.toNat - pKernStart.toNat) / 4096) (by omega) hkernel
  have h2 := physMemOffsetMap_eq hphys
  -- the pages that tables are made of are counted in the chunks, whose bounds stay as they are
  have hchunks : ∀ t : Table, t.mach.pages.chunkList.map bounds = b.pages.chunkList.map bounds →
      ∀ perm phys virt, (mapPage (p.getD 0) perm phys virt t).mach.pages.chunkList.map bounds =
        b.pages.chunkList.map bounds := by
    intro t ht perm phys virt
    rw [← ht]
    exact bounds_updatePageTableIdmap t.mach _ phys virt perm
  rw [hchunks _ (hchunks _ (by rw [h1, bounds_mapAll, hbounds]) _ _ _) _ _ _] at h2
  refine ⟨hb, s, p, hself, rfl, ?_⟩
  rw [plan, mapAll_append, mapAll_cons, mapAll_cons, ← h1]
  exact ⟨congrArg (fun t : Table => t.mach.mem) h2, congrArg Table.calls h2⟩

end Plan

structure InZone (z : Zone) (m : Mapping) : Prop where
  above : z.start ≤ m.virt.toNat
  below : m.virt.toNat + 4096 ≤ z.start + z.size
  aligned : m.virt.toNat % 4096 = 0

def Distinct (m m' : Mapping) : Prop := m.virt.toNat ≠ m'.virt.toNat

private theorem InZone.distinct {z z' : Zone} {m m' : Mapping} (h : InZone z m) (h' : InZone z' m') (hap : z.Apart z') :
    Distinct m m' := by
  have h1 := h.above
  have h2 := h.below
  have h3 := h'.above
  have h4 := h'.below
  unfold Zone.Apart at hap
  unfold Distinct
  omega

section Pages

variable {perm paddr vaddr : Word} {n i : Nat} {m : Mapping} {z : Zone}

private theorem mem_pagesFrom : m ∈ pagesFrom perm paddr vaddr n ↔
    ∃ i < n, m = ⟨paddr + ofNat 64 (4096 * i), vaddr + ofNat 64 (4096 * i), perm⟩ := by
  unfold pagesFrom
  rw [List.mem_map]
  constructor
  · rintro ⟨i, hi, rfl⟩
    exact ⟨i, mem_range.1 hi, rfl⟩
  · rintro ⟨i, hi, rfl⟩
    exact ⟨i, mem_range.2 hi, rfl⟩

private theorem offset_mem_pagesFrom {d : Nat} (hd : d % 4096 = 0) (hlt : d < 4096 * n) :
    ⟨paddr + ofNat 64 d, vaddr + ofNat 64 d, perm⟩ ∈ pagesFrom perm paddr vaddr n := by
  refine mem_pagesFrom.2 ⟨d / 4096, by omega, ?_⟩
  rw [Nat.mul_div_cancel' (Nat.dvd_of_mod_eq_zero hd)]

private theorem toNat_add_page (hfit : vaddr.toNat + 4096 * n ≤ 2 ^ 64) (hi : i < n) :
    (vaddr + ofNat 64 (4096 * i)).toNat = vaddr.toNat + 4096 * i := by
  rw [BitVec.toNat_add, toNat_ofNat]
  omega

private theorem pagesFrom_distinct (hfit : vaddr.toNat + 4096 * n ≤ 2 ^ 64) :
    (pagesFrom perm paddr vaddr n).Pairwise Distinct := by
  unfold pagesFrom
  rw [pairwise_map]
  refine List.Pairwise.imp_of_mem (fun {i j} hi hj hij => ?_) pairwise_lt_range
  show (vaddr + _).toNat ≠ (vaddr + _).toNat
  rw [toNat_add_page hfit (mem_range.1 hi), toNat_add_page hfit (mem_range.1 hj)]
  omega

private theorem pagesFrom_inZone (hz : z.Ok) (h1 : z.start ≤ vaddr.toNat)
    (h2 : vaddr.toNat + 4096 * n ≤ z.start + z.size)
    (hal : vaddr.toNat % 4096 = 0) (hm : m ∈ pagesFrom perm paddr vaddr n) : InZone z m := by
  obtain ⟨i, hi, rfl⟩ := mem_pagesFrom.1 hm
  have hfits := hz.fits
  have hto : (vaddr + ofNat 64 (4096 * i)).toNat = vaddr.toNat + 4096 * i := toNat_add_page (by omega) hi
  refine ⟨?_, ?_, ?_⟩
  · show z.start ≤ (vaddr + _).toNat
    omega
  · show (vaddr + _).toNat + 4096 ≤ _
    omega
  · show (vaddr + _).toNat % 4096 = 0
    omega

end Pages

structure BoundsOk (physEnd : Nat) (c : Nat × Nat) : Prop where
  aligned : c.1 % 4096 = 0
  whole : c.2 % 4096 = 0
  le : c.1 ≤ c.2
  low : c.2 ≤ physEnd

section Chunks

variable {offset : Word} {physEnd : Nat} {c d : Nat × Nat} {m : Mapping}

private theorem boundsPages_inZone (hz : Zone.Ok ⟨offset.toNat, physEnd⟩) (hc : BoundsOk physEnd c)
    (hm : m ∈ boundsPages offset c) : InZone ⟨offset.toNat + c.1, c.2 - c.1⟩ m := by
  have h1 := hz.fits
  have h2 := hz.above
  have h3 := hz.aligned
  have h4 := hc.aligned
  have h6 := hc.le
  have h7 := hc.low
  dsimp only at h1 h2 h3
  have hto : (ofNat 64 c.1 + offset).toNat = offset.toNat + c.1 := by
    rw [BitVec.toNat_add, toNat_ofNat]
    omega
  refine pagesFrom_inZone ⟨?_, ?_, ?_⟩ hto.ge ?_ ?_ hm
  · show kernmem.toNat ≤ offset.toNat + c.1
    omega
  · show (offset.toNat + c.1) % 4096 = 0
    omega
  · show offset.toNat + c.1 + (c.2 - c.1) < 2 ^ 64
    omega
  · dsimp only
    omega
  · omega

private theorem boundsPages_distinct (hz : Zone.Ok ⟨offset.toNat, physEnd⟩) (hc : BoundsOk physEnd c) :
    (boundsPages offset c).Pairwise Distinct := by
  have h1 := hz.fits
  have h7 := hc.low
  dsimp only at h1
  refine pagesFrom_distinct ?_
  rw [BitVec.toNat_add, toNat_ofNat]
  omega

private theorem page_mem_boundsPages {c : Chunk} {p : Nat} (hp : p % 4096 = 0) (h1 : c.physAddrStart ≤ p)
    (h2 : p < c.physAddrEnd) : ⟨ofNat 64 p, offset + ofNat 64 p, pageTransReadWrite⟩ ∈ boundsPages offset c.bounds := by
  have hal := c.aligned
  have hlen := c.length
  unfold sizeofPage at hal hlen
  have hadd : ofNat 64 p = ofNat 64 c.physAddrStart + ofNat 64 (p - c.physAddrStart) := by
    rw [← ofNat_add, Nat.add_sub_cancel' h1]
  rw [hadd, ← BitVec.add_assoc, BitVec.add_comm offset]
  refine offset_mem_pagesFrom (by omega) ?_
  show p - c.physAddrStart < 4096 * ((c.physAddrEnd - c.physAddrStart) / 4096)
  omega

end Chunks

private theorem InZone.mono {z z' : Zone} {m : Mapping} (h : InZone z m) (h1 : z'.start ≤ z.start)
    (h2 : z.start + z.size ≤ z'.start + z'.size) : InZone z' m := by
  have h3 := h.above
  have h4 := h.below
  exact ⟨by omega, by omega, h.aligned⟩

section Plan

variable {pKernStart pKernEnd : Word} {b : Setup} {physEnd : Nat} {m : Mapping}
  (hlaid : Laid l (zones (pKernEnd - pKernStart).toNat physEnd b))
  (hbounds : ∀ c ∈ b.pages.chunkList.map Chunk.bounds, BoundsOk physEnd c)
include hlaid

private theorem kernel_inZone
    (hm : m ∈ pagesFrom pageTransReadWrite pKernStart kernmem ((pKernEnd.toNat - pKernStart.toNat) / 4096)) :
    InZone ⟨kernmem.toNat, (pKernEnd - pKernStart).toNat⟩ m := by
  refine pagesFrom_inZone (hlaid.ok _ (by simp [zones])) le_rfl ?_ (by decide) hm
  rw [toNat_sub]
  dsimp only
  omega

include hbounds

private theorem chunks_inZone (hm : m ∈ (b.pages.chunkList.map Chunk.bounds).flatMap (boundsPages b.physMemOffset)) :
    InZone ⟨b.physMemOffset.toNat, physEnd⟩ m := by
  obtain ⟨c, hc, hm⟩ := mem_flatMap.1 hm
  have hok := hbounds c hc
  have hle := hok.le
  have hlow := hok.low
  refine (boundsPages_inZone (hlaid.ok _ (by simp [zones])) hok hm).mono (Nat.le_add_right _ _) ?_
  dsimp only
  omega

private theorem plan_distinct (hap : (b.pages.chunkList.map Chunk.bounds).Pairwise fun c d => c.2 ≤ d.1 ∨ d.2 ≤ c.1) :
    (plan pKernStart pKernEnd b).Pairwise Distinct := by
  have hphys : Zone.Ok ⟨b.physMemOffset.toNat, physEnd⟩ := hlaid.ok _ (by simp [zones])
  have hkernel : Zone.Ok ⟨kernmem.toNat, (pKernEnd - pKernStart).toNat⟩ := hlaid.ok _ (by simp [zones])
  have hvdo : Zone.Ok ⟨b.vdoStartAddr.toNat, 4096⟩ := hlaid.ok _ (by simp [zones])
  have hahci : Zone.Ok ⟨b.ahciStartAddr.toNat, 4096⟩ := hlaid.ok _ (by simp [zones])
  obtain ⟨hk, happ⟩ := pairwise_cons.1 hlaid.apart
  obtain ⟨hv, happ⟩ := pairwise_cons.1 happ
  obtain ⟨ha, -⟩ := pairwise_cons.1 happ
  have hinv : InZone ⟨b.vdoStartAddr.toNat, 4096⟩
      ⟨videoMemoryAddress, b.vdoStartAddr, pageTransReadWrite ||| pageTransUserSupervisor⟩ :=
        ⟨le_rfl, le_rfl, hvdo.aligned⟩
  have hina : InZone ⟨b.ahciStartAddr.toNat, 4096⟩
      ⟨pAhciStart, b.ahciStartAddr, pageTransReadWrite ||| pageTransUserSupervisor⟩ := ⟨le_rfl, le_rfl, hahci.aligned⟩
  refine pairwise_append.2 ⟨pagesFrom_distinct ?_, pairwise_cons.2 ⟨fun m hm => ?_, pairwise_cons.2
    ⟨fun m hm => ?_, pairwise_flatMap.2 ⟨fun c hc => boundsPages_distinct hphys (hbounds c hc), ?_⟩⟩⟩,
      fun m hm m' hm' => ?_⟩
  · have hfits := hkernel.fits
    rw [toNat_sub] at hfits
    dsimp only at hfits
    omega
  · rcases mem_cons.1 hm with rfl | hm
    · exact hinv.distinct hina (hv _ (by simp))
    · exact hinv.distinct (chunks_inZone hlaid hbounds hm) (hv _ (by simp))
  · exact hina.distinct (chunks_inZone hlaid hbounds hm) (ha _ (by simp))
  · -- two chunks
    refine List.Pairwise.imp_of_mem (fun {c d} hc hd hcd m hm m' hm' => ?_) hap
    have hc' := hbounds c hc
    have hd' := hbounds d hd
    refine (boundsPages_inZone hphys hc' hm).distinct (boundsPages_inZone hphys hd' hm') ?_
    have h1 := hc'.le
    have h2 := hd'.le
    unfold Zone.Apart
    dsimp only
    omega
  · have hmk := kernel_inZone hlaid hm
    rcases mem_cons.1 hm' with rfl | hm'
    · exact hmk.distinct hinv (hk _ (by simp))
    · rcases mem_cons.1 hm' with rfl | hm'
      · exact hmk.distinct hina (hk _ (by simp))
      · exact hmk.distinct (chunks_inZone hlaid hbounds hm') (hk _ (by simp))

private theorem plan_above (hm : m ∈ plan pKernStart pKernEnd b) :
    kernmem.toNat ≤ m.virt.toNat ∧ m.virt.toNat % 4096 = 0 := by
  rcases mem_append.1 hm with hm | hm
  · have h := kernel_inZone hlaid hm
    exact ⟨h.above, h.aligned⟩
  · rcases mem_cons.1 hm with rfl | hm
    · have h := hlaid.ok ⟨b.vdoStartAddr.toNat, 4096⟩ (by simp [zones])
      exact ⟨h.above, h.aligned⟩
    · rcases mem_cons.1 hm with rfl | hm
      · have h := hlaid.ok ⟨b.ahciStartAddr.toNat, 4096⟩ (by simp [zones])
        exact ⟨h.above, h.aligned⟩
      · have h := chunks_inZone hlaid hbounds hm
        have hz := hlaid.ok ⟨b.physMemOffset.toNat, physEnd⟩ (by simp [zones])
        exact ⟨Nat.le_trans hz.above h.above, h.aligned⟩

private theorem plan_pairwise (hap : (b.pages.chunkList.map Chunk.bounds).Pairwise fun c d => c.2 ≤ d.1 ∨ d.2 ≤ c.1) :
    (plan pKernStart pKernEnd b).Pairwise fun m m' => ¬ SamePage m.virt m'.virt := by
  refine List.Pairwise.imp_of_mem (fun {m m'} hm hm' hne hsame => hne ?_) (plan_distinct hlaid hbounds hap)
  obtain ⟨h1, h2⟩ := plan_above hlaid hbounds hm
  obtain ⟨h3, h4⟩ := plan_above hlaid hbounds hm'
  have hupper : ∀ a : Word, kernmem.toNat ≤ a.toNat → Vma.Unmap.Canonical a := by
    intro a ha
    refine .inr (Nat.le_trans ?_ ha)
    decide
  have hpage := Space.page_eq_of_samePage (hupper _ h1) (hupper _ h3) hsame
  omega

end Plan

section Course

variable {env : Env} {pKernStart pKernEnd : Word} {smap : List Smap} {b : Setup} {l₁ l₂ l₃ : List VmArea} {sc : Scan}
  {s₁ s₂ s₃ : Pages} (h : Course env kernmem pKernStart pKernEnd videoMemoryAddress smap b l₁ l₂ l₃ sc s₁ s₂ s₃)
  (hwrap : ∀ e ∈ smap, e.Usable → e.stop < 2 ^ 64)
include h

private theorem Course.physEnd_lt (hks : pKernStart.toNat % 4096 = 0) (hke : pKernEnd.toNat % 4096 = 0) :
    sc.physEndAddr.toNat < 2 ^ 31 := by
  have hz : Zone.Ok ⟨b.physMemOffset.toNat, sc.physEndAddr.toNat⟩ := (h.laid hks hke).ok _ (by simp [zones])
  have h1 := hz.above
  have h2 := hz.fits
  rw [show kernmem.toNat = 0xffffffff80200000 from rfl] at h1
  dsimp only at h1 h2
  omega

private theorem Course.bounds_pages : b.pages.chunkList.map Chunk.bounds = sc.chunks.map Chunk.bounds := by
  rw [h.pages_eq, ← h.bounds]
  rfl

include hwrap

private theorem Course.stop_le : ∀ e ∈ smap, e.Usable → e.stop ≤ sc.physEndAddr.toNat := by
  intro e he hu
  obtain ⟨cs, hcs⟩ := scanMap_spec h.scan
  have hle := le_def.1 (hcs.bound.2 e he hu)
  have hfit : e.base.toNat + e.length.toNat < 2 ^ 64 := hwrap e he hu
  rw [BitVec.toNat_add, Nat.mod_eq_of_lt hfit] at hle
  exact hle

variable (hlt : sc.physEndAddr.toNat < 2 ^ 31)
include hlt

private theorem Course.boundsOk : ∀ c ∈ b.pages.chunkList.map Chunk.bounds, BoundsOk sc.physEndAddr.toNat c := by
  intro p hp
  rw [h.bounds_pages] at hp
  obtain ⟨c, hc, rfl⟩ := List.mem_map.1 hp
  obtain ⟨cs, hcs⟩ := scanMap_spec h.scan
  rw [hcs.chunks_eq] at hc
  obtain ⟨e, he, hec⟩ := entry_of_mem hcs.entries hc
  obtain ⟨hmem, huse⟩ : e ∈ smap ∧ e.Usable := by simpa using he
  have hstop := h.stop_le hwrap e hmem huse
  have hin := hec.inside (by unfold sizeofPage addrSpace; omega)
  have hlen := c.length
  have hal := c.aligned
  unfold sizeofPage at hlen hal
  refine ⟨hal, ?_, Nat.le_of_lt c.nonempty, hin.2.trans hstop⟩
  show c.physAddrEnd % 4096 = 0
  omega

private theorem Course.boundsApart (hap : EntriesApart smap) :
    (b.pages.chunkList.map Chunk.bounds).Pairwise fun c d => c.2 ≤ d.1 ∨ d.2 ≤ c.1 := by
  obtain ⟨cs, hcs⟩ := scanMap_spec h.scan
  rw [h.bounds_pages, ← chunksApart_iff, hcs.chunks_eq]
  refine chunksApart_of_entries hcs.entries ?_ fun e he => ?_
  · rw [pairwise_filter]
    exact hap.imp fun hef he hf => hef (by simpa using he) (by simpa using hf)
  · obtain ⟨hmem, huse⟩ : e ∈ smap ∧ e.Usable := by simpa using he
    have hstop := h.stop_le hwrap e hmem huse
    unfold sizeofPage addrSpace
    omega

private theorem Course.kernel_lt (hks : pKernStart.toNat % 4096 = 0) (hke : pKernEnd.toNat % 4096 = 0)
    (hpos : pKernStart.toNat < pKernEnd.toNat) : pKernStart.toNat < sc.physEndAddr.toNat := by
  obtain ⟨q, hq, c, hc, hcov⟩ := mark_meets hks hke hpos (kernel_short h.kernelArea) pKernEnd.isLt h.kernel
  have hmem : c.bounds ∈ b.pages.chunkList.map Chunk.bounds := by
    rw [h.bounds_pages, ← bounds_mark h.zero]
    exact List.mem_map_of_mem hc
  have hlow : c.physAddrEnd ≤ _ := (h.boundsOk hwrap hlt _ hmem).low
  have hin := Chunk.covers_iff.1 hcov
  omega

private theorem Course.plan_phys (hks : pKernStart.toNat % 4096 = 0) (hke : pKernEnd.toNat % 4096 = 0) {m : Mapping}
    (hm : m ∈ plan pKernStart pKernEnd b) : PageAddr m.phys.toNat := by
  have hrange : ∀ {perm paddr vaddr : Word} {n : Nat}, paddr.toNat % 4096 = 0 → paddr.toNat + 4096 * n < 2 ^ 51 →
      m ∈ pagesFrom perm paddr vaddr n → PageAddr m.phys.toNat := by
    intro perm paddr vaddr n hal hfit hm
    obtain ⟨i, hi, rfl⟩ := mem_pagesFrom.1 hm
    have hto : (paddr + ofNat 64 (4096 * i)).toNat = paddr.toNat + 4096 * i := toNat_add_page (by omega) hi
    constructor
    · show (paddr + _).toNat % 4096 = 0
      omega
    · show (paddr + _).toNat < 2 ^ 51
      omega
  have hvideo : PageAddr videoMemoryAddress.toNat := ⟨by decide, by decide⟩
  have hahci : PageAddr pAhciStart.toNat := ⟨by decide, by decide⟩
  rcases mem_append.1 hm with hm | hm
  · obtain ⟨i, hi, -⟩ := mem_pagesFrom.1 hm
    have hkernel := h.kernel_lt hwrap hlt hks hke (by omega)
    have hshort := kernel_short h.kernelArea
    exact hrange hks (by omega) hm
  · rcases mem_cons.1 hm with rfl | hm
    · exact hvideo
    · rcases mem_cons.1 hm with rfl | hm
      · exact hahci
      · obtain ⟨c, hc, hm⟩ := mem_flatMap.1 hm
        have hok := h.boundsOk hwrap hlt c hc
        have h1 := hok.le
        have h2 := hok.low
        have h3 := hok.aligned
        have hto : (ofNat 64 c.1).toNat = c.1 := by
          rw [toNat_ofNat]
          omega
        exact hrange (by omega) (by omega) hm

end Course

private theorem getSelfrefPml4_wellFormed {s u : Mach} {child : Nat} (hl : Listed s.pages) (hb : s.base = 0)
    (hfree : ∀ q, Free s q → PageAddr q) (h : getSelfrefPml4 s = (u, some child)) (h0 : child ≠ 0) :
    WellFormed (· ≠ selfRefEntry) u (· = child) ∧ u.base = 0 := by
  have hm := getSelfrefPml4_spec hl h
  have hbase : u.base = 0 := hm.base_eq.trans hb
  have hpage : ∀ q, Free u q → PageAddr q := fun q hq => hfree q ((hm.free_iff q).1 hq).1
  obtain ⟨hchild, -⟩ := hm.page.resolve_left h0
  refine ⟨wellFormed_empty (fun i hi => ?_) (hfree child hchild) h0 hpage ?_ hm.listed fun q hq => ?_, hbase⟩
  · rw [hm.mem_eq]
    unfold startMem
    rw [if_pos rfl, if_neg hi]
  · intro hf
    exact ((hm.free_iff child).1 hf).2 rfl
  · have hlt := (hpage q hq).lt
    rw [hbase]
    show q + 0 < 2 ^ 64
    omega

private theorem Course.free_pageAddr {env : Env} {pKernStart pKernEnd : Word} {smap : List Smap} {b : Setup}
    {l₁ l₂ l₃ : List VmArea} {sc : Scan} {s₁ s₂ s₃ : Pages}
    (h : Course env kernmem pKernStart pKernEnd videoMemoryAddress smap b l₁ l₂ l₃ sc s₁ s₂ s₃)
    (hap : EntriesApart smap) (hlow : ∀ e ∈ smap, e.Usable → e.stop ≤ 2 ^ 31) :
    Listed b.pages ∧ ∀ q, Covers b.pages.physFreeList q → PageAddr q := by
  have hlow' : ∀ e ∈ smap, e.Usable → e.stop ≤ 2 ^ 43 := fun e he hu => (hlow e he hu).trans (by decide)
  obtain ⟨hlisted, hfree⟩ := h.freeList hap hlow'
  refine ⟨hlisted, fun q hq => ⟨(hlisted.page q hq).1, ?_⟩⟩
  by_contra hge
  refine hfree q hq q le_rfl (by unfold sizeofPage; omega) (.inr (.inr (.inr fun e he hu hin => ?_)))
  have h1 := hlow e he hu
  have h2 := hin.2
  omega

/-- A run of `setup_kernel_memory` that succeeds: the image has whole pages, no usable entry wraps around, there is a
PML4, and each call of `update_page_table_idmap` returns `0`. -/
structure Boots (env : Env) (mem : Memory) (pKernStart pKernEnd : Word) (smap : List Smap) (k : Kernel) : Prop where
  startAligned : pKernStart.toNat % 4096 = 0
  endAligned : pKernEnd.toNat % 4096 = 0
  noWrap : ∀ e ∈ smap, e.Usable → e.stop < 2 ^ 64
  run : setupKernelMemory env mem kernmem pKernStart pKernEnd videoMemoryAddress smap = some k
  root : k.pml4 ≠ 0
  returned : ∀ c ∈ k.calls, c.ret = 0

/-- The table that is loaded translates the image, the chunks, the video buffer and the AHCI registers as it should,
and no page has been mapped twice. -/
structure BootTable (pKernStart pKernEnd : Word) (k : Kernel) : Prop where
  image : ∀ d, d % 4096 = 0 → d < pKernEnd.toNat - pKernStart.toNat →
    hardwareWalk k.mach k.pml4 (kernmem + ofNat 64 d) = some (pKernStart.toNat + d)
  memory : ∀ c ∈ k.pages.chunkList, ∀ p, p % 4096 = 0 → c.physAddrStart ≤ p → p < c.physAddrEnd →
    hardwareWalk k.mach k.pml4 (k.physMemOffset + ofNat 64 p) = some p
  video : hardwareWalk k.mach k.pml4 k.vdoStartAddr = some videoMemoryAddress.toNat
  ahci : hardwareWalk k.mach k.pml4 k.ahciStartAddr = some pAhciStart.toNat
  once : k.calls.Pairwise fun c c' => ¬ SamePage c.virt c'.virt

section Result

variable {env : Env} {mem : Memory} {pKernStart pKernEnd : Word} {smap : List Smap} {k : Kernel}

private theorem Boots.plan_translates (h : Boots env mem pKernStart pKernEnd smap k) (hap : EntriesApart smap) :
    (∀ m ∈ plan pKernStart pKernEnd k.toSetup, hardwareWalk k.mach k.pml4 m.virt = some m.phys.toNat) ∧
      k.calls.Pairwise fun c c' => ¬ SamePage c.virt c'.virt := by
  obtain ⟨hks, hke, hwrap, hrun, h0, hret⟩ := h
  obtain ⟨hsetup, s, p, hself, hp, hmem, hcalls⟩ := setupKernelMemory_eq hks hke hrun
  obtain ⟨l₁, l₂, l₃, sc, s₁, s₂, s₃, hc⟩ := setupPages_course hsetup
  have hlaid := hc.laid hks hke
  have hlt := hc.physEnd_lt hks hke
  have hbounds := hc.boundsOk hwrap hlt
  have hpair := plan_pairwise hlaid hbounds (hc.boundsApart hwrap hlt hap)
  -- the PML4
  obtain ⟨hlisted, hfree⟩ :=
    hc.free_pageAddr hap fun e he hu => Nat.le_trans (hc.stop_le hwrap e he hu) (Nat.le_of_lt hlt)
  obtain ⟨child, rfl⟩ : ∃ child, p = some child := by
    cases p with
    | none => exact absurd hp h0
    | some child => exact ⟨child, rfl⟩
  rw [getD_some] at hp
  obtain ⟨hw, hb⟩ := getSelfrefPml4_wellFormed (s := ⟨mem, k.pages, 0⟩) hlisted rfl hfree hself (hp ▸ h0)
  rw [← hp] at hw
  -- the calls
  have hslot : ∀ m ∈ plan pKernStart pKernEnd k.toSetup, indexPml4e m.virt ≠ selfRefEntry := by
    intro m hm
    rw [indexPml4e_top (Nat.le_trans (by decide) (plan_above hlaid hbounds hm).1)]
    decide
  rw [hcalls] at hret
  obtain ⟨hw', hleaf, -⟩ := mapAll_spec hw hb hslot hret hpair
  refine ⟨fun m hm => ?_, ?_⟩
  · have hphys := hc.plan_phys hwrap hlt hks hke hm
    have hnext : entryFormat.next (leafEntry m.phys m.perm) = m.phys.toNat := next_leafEntry hphys
    have hwalk := hardwareWalk_of_entry hw' (hslot m hm) (hleaf m hm) (hnext ▸ hphys.lt)
    unfold hardwareWalk at hwalk ⊢
    rw [hmem, hwalk, hnext]
  · obtain ⟨cs, hcs, hvirt⟩ := calls_mapAll k.pml4 (plan pKernStart pKernEnd k.toSetup) ⟨s, []⟩
    rw [hcalls, hcs]
    have hmap : (cs.map Call.virt).Pairwise fun v v' => ¬ SamePage v v' := by
      rw [hvirt, pairwise_map]
      exact hpair
    exact pairwise_map.1 hmap

/-- For every memory map whose usable entries do not overlap, the table of a successful `setup_kernel_memory`
translates the image, the chunks and the devices, and no entry is written twice. -/
theorem boot_table_translates (env : Env) (mem : Memory) (pKernStart pKernEnd : Word) (smap : List Smap) (k : Kernel)
    (h : Boots env mem pKernStart pKernEnd smap k) (hap : EntriesApart smap) : BootTable pKernStart pKernEnd k := by
  obtain ⟨hplan, honce⟩ := h.plan_translates hap
  refine ⟨fun d hd hlt => ?_, fun c hc p hp h1 h2 => ?_, ?_, ?_, honce⟩
  · have hks := h.startAligned
    have hke := h.endAligned
    have hto : (pKernStart + ofNat 64 d).toNat = pKernStart.toNat + d := by
      rw [BitVec.toNat_add, toNat_ofNat]
      omega
    have hmem : ⟨pKernStart + ofNat 64 d, kernmem + ofNat 64 d, pageTransReadWrite⟩ ∈
        pagesFrom pageTransReadWrite pKernStart kernmem ((pKernEnd.toNat - pKernStart.toNat) / 4096) :=
      offset_mem_pagesFrom hd (by omega)
    have hwalk := hplan _ (mem_append_left _ hmem)
    rw [hto] at hwalk
    exact hwalk
  · have hfits := c.fits
    unfold addrSpace at hfits
    have hto : (ofNat 64 p).toNat = p := by
      rw [toNat_ofNat]
      omega
    have hmem : ⟨ofNat 64 p, k.physMemOffset + ofNat 64 p, pageTransReadWrite⟩ ∈
        (k.pages.chunkList.map Chunk.bounds).flatMap (boundsPages k.physMemOffset) :=
      mem_flatMap.2 ⟨c.bounds, List.mem_map_of_mem hc, page_mem_boundsPages hp h1 h2⟩
    have hwalk := hplan _ (mem_append_right _ (mem_cons_of_mem _ (mem_cons_of_mem _ hmem)))
    rw [hto] at hwalk
    exact hwalk
  · have hwalk := hplan _ (mem_append_right _ mem_cons_self)
    exact hwalk
  · have hwalk := hplan _ (mem_append_right _ (mem_cons_of_mem _ mem_cons_self))
    exact hwalk

private theorem returned_of_replicate {cs : List Call} {n : Nat} (h : cs.map Call.ret = List.replicate n 0) :
    ∀ c ∈ cs, c.ret = 0 := by
  intro c hc
  have hmem : c.ret ∈ cs.map Call.ret := List.mem_map_of_mem hc
  rw [h] at hmem
  exact eq_of_mem_replicate hmem

def twoEntries : List Smap := [⟨0, 0x1000, 1⟩, ⟨0x1000, 0x7000, 1⟩]

theorem boot_table_translates_two :
    ∃ k, Boots plentiful (fun _ _ => 0) 0x1000 0x3000 twoEntries k ∧ EntriesApart twoEntries ∧
    BootTable 0x1000 0x3000 k ∧ k.pml4 = 0x3000 ∧ k.calls.length = 12 := by
  have hrun : (setupKernelMemory plentiful (fun _ _ => 0) kernmem 0x1000 0x3000 videoMemoryAddress twoEntries).map
      (fun k => (k.pml4, k.calls.map Call.ret)) = some (0x3000, List.replicate 12 0) := by
    decide +kernel
  obtain ⟨k, hk, heq⟩ := map_eq_some_iff.1 hrun
  obtain ⟨hpml4, hrets⟩ := Prod.mk.inj heq
  have hboots : Boots plentiful (fun _ _ => 0) 0x1000 0x3000 twoEntries k := by
    refine ⟨by decide, by decide, ?_, hk, by rw [hpml4]; decide, returned_of_replicate hrets⟩
    unfold twoEntries
    simp [Smap.stop]
  have hap : EntriesApart twoEntries := by
    unfold EntriesApart twoEntries
    simp [Smap.Apart, Smap.stop, Smap.Usable]
  have hlen := congrArg List.length hrets
  rw [length_map] at hlen
  exact ⟨k, hboots, hap, boot_table_translates _ _ _ _ _ k hboots hap, hpml4, hlen⟩

def twiceEntries : List Smap := [⟨0, 0x1000, 1⟩, ⟨0x1000, 0x3000, 1⟩, ⟨0x1000, 0x3000, 1⟩, ⟨0x8000, 0x5000, 1⟩]

/-- For maps with entries that overlap this does not hold. Pages are on the free list twice, the PML4 is taken once
more as a table and cleared, and in the end the image is not mapped, though each call has returned `0`. -/
theorem overlap_unmaps_image :
    ¬ ∀ (env : Env) (mem : Memory) (pKernStart pKernEnd : Word) (smap : List Smap) (k : Kernel),
    Boots env mem pKernStart pKernEnd smap k → BootTable pKernStart pKernEnd k := by
  intro hall
  have hrun : (setupKernelMemory plentiful (fun _ _ => 0) kernmem 0x1000 0x2000 videoMemoryAddress twiceEntries).map
      (fun k => (k.pml4, k.calls.map Call.ret, hardwareWalk k.mach k.pml4 kernmem)) =
        some (0x2000, List.replicate 15 0, none) := by
    decide +kernel
  obtain ⟨k, hk, heq⟩ := map_eq_some_iff.1 hrun
  obtain ⟨hpml4, heq⟩ := Prod.mk.inj heq
  obtain ⟨hrets, hwalk⟩ := Prod.mk.inj heq
  have hboots : Boots plentiful (fun _ _ => 0) 0x1000 0x2000 twiceEntries k := by
    refine ⟨by decide, by decide, ?_, hk, by rw [hpml4]; decide, returned_of_replicate hrets⟩
    unfold twiceEntries
    simp [Smap.stop]
  have himage := (hall _ _ _ _ _ k hboots).image 0 rfl (by decide)
  rw [show kernmem + ofNat 64 0 = kernmem from rfl, hwalk] at himage
  cases himage

end Result

end Adix.Boot
