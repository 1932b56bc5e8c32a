import Adix.Boot.Pages

/-!
# The memory and the areas of the kernel after boot

The pages that `alloc_phys_pages` returns are whole pages of the usable entries of the memory map. In the address space
of the kernel, the image, the video buffer, the AHCI registers and the map of physical memory are placed one after the
other.
-/

namespace Adix.Boot

open PageTable PhysPages List Option BitVec
open Vma (VmArea getUnmappedArea Valid)

variable {env : Env} {pKernStart pKernEnd pVdoBuffStart start len prot : Word} {smap : List Smap} {b : Setup}
  {s s' s1 s2 s3 : Pages} {q x : Nat} {l₁ l₂ l₃ l l' : List VmArea} {venv : Vma.Env} {sc : Scan}

/-- The course of `setup_kernel_memory` up to the page table, with the lists of areas and the states in between. -/
structure Course (env : Env) (kernmem pKernStart pKernEnd pVdoBuffStart : Word) (smap : List Smap) (b : Setup)
    (l₁ l₂ l₃ : List VmArea) (sc : Scan) (s₁ s₂ s₃ : Pages) : Prop where
  kernelArea : setKernelMemory env.kernelArea [] kernmem (kernmem - pKernStart + pKernEnd) = some l₁
  vdo_eq : b.vdoStartAddr = getUnmappedArea l₁ (kernmem + pVdoBuffStart) Vma.sizeofPage
  videoArea : setVideoBufferMemory env.videoArea l₁ b.vdoStartAddr (b.vdoStartAddr + Vma.sizeofPage) = some l₂
  ahci_eq : b.ahciStartAddr = getUnmappedArea l₂ kernmem Vma.sizeofPage
  ahciArea : setAhciMemory env.ahciArea l₂ b.ahciStartAddr (b.ahciStartAddr + Vma.sizeofPage) = some l₃
  scan : scanMap env.chunkOk smap ⟨0, none, []⟩ = some sc
  phys_eq : b.physMemOffset = getUnmappedArea l₃ kernmem sc.physEndAddr
  physArea : setPhysMemory env.physArea l₃ b.physMemOffset (b.physMemOffset + sc.physEndAddr) = some b.mmap
  zero : mark ⟨sc.chunks, []⟩ 0 sizeofPage = some s₁
  kernel : mark s₁ pKernStart.toNat pKernEnd.toNat = some s₂
  lower : mark s₂ (sc.lowerChunk.getD (0, 0)).1.toNat (sc.lowerChunk.getD (0, 0)).2.toNat = some s₃
  init : (initFreePhysPageManager env.nodeOk s₃).2 ≠ -1
  pages_eq : b.pages = (initFreePhysPageManager env.nodeOk s₃).1

/-- A call that succeeds has gone through such a course. -/
theorem setupPages_course {kernmem : Word}
    (h : setupPages env kernmem pKernStart pKernEnd pVdoBuffStart smap = some b) :
    ∃ l₁ l₂ l₃ sc s1 s2 s3, Course env kernmem pKernStart pKernEnd pVdoBuffStart smap b l₁ l₂ l₃ sc s1 s2 s3 := by
  obtain ⟨l₁, h1, h⟩ := bind_eq_some_iff.1 h
  obtain ⟨l₂, h2, h⟩ := bind_eq_some_iff.1 h
  obtain ⟨l₃, h3, h⟩ := bind_eq_some_iff.1 h
  obtain ⟨sc, h4, h⟩ := bind_eq_some_iff.1 h
  obtain ⟨l4, h5, h⟩ := bind_eq_some_iff.1 h
  split at h
  · obtain ⟨s1, h6, h⟩ := bind_eq_some_iff.1 h
    obtain ⟨s2, h7, h⟩ := bind_eq_some_iff.1 h
    obtain ⟨s3, h8, h⟩ := bind_eq_some_iff.1 h
    dsimp only at h
    split at h
    · cases h
    · next hr =>
      cases h
      exact ⟨l₁, l₂, l₃, sc, s1, s2, s3, h1, rfl, h2, rfl, h3, h4, rfl, h5, h6, h7, h8, hr, rfl⟩
  · cases h

/-- Marks do not change the bounds of the chunks. -/
theorem Course.bounds {kernmem : Word} {s₁ s₂ s₃ : Pages}
    (h : Course env kernmem pKernStart pKernEnd pVdoBuffStart smap b l₁ l₂ l₃ sc s₁ s₂ s₃) :
    s₃.chunkList.map Chunk.bounds = sc.chunks.map Chunk.bounds :=
  (bounds_mark h.lower).trans ((bounds_mark h.kernel).trans (bounds_mark h.zero))

private theorem setMemory_lt {stop : Word} {venv : Vma.Env}
    (h : setMemory prot venv l start stop = some l') : start < stop := by
  by_contra hle
  unfold setMemory Vma.addVma Vma.addVmaGrowable at h
  rw [if_pos (BitVec.not_lt.1 hle)] at h
  exact absurd h (by simp)

def allocs : Pages → List Nat → List PhysFree
  | _, [] => []
  | s, n :: ns => ⟨(allocPhysPages s n).2, n⟩ :: allocs (allocPhysPages s n).1 ns

private theorem allocs_free {ns : List Nat} {r : PhysFree} (h : Listed s) (hr : r ∈ allocs s ns) (h0 : r.addr ≠ 0)
    (hq : r.Has q) : Covers s.physFreeList q := by
  induction ns generalizing s with
  | nil => cases hr
  | cons n ns ih =>
    rw [allocs] at hr
    obtain heq | ⟨s', a, heq, hal⟩ := allocPhysPages_listed h n
    · rw [heq] at hr
      rcases mem_cons.1 hr with rfl | hr
      · exact absurd rfl h0
      · exact ih h hr
    · rw [heq] at hr
      rcases mem_cons.1 hr with rfl | hr
      · exact hal.free q hq
      · exact ((hal.covers q).1 (ih hal.listed hr)).1

/-- The byte is not to be given away: it is in page 0, in the kernel image, in the first usable entry, or in none. -/
def Reserved (pKernStart pKernEnd : Word) (smap : List Smap) (x : Nat) : Prop :=
  x < sizeofPage ∨ (pKernStart.toNat ≤ x ∧ x < pKernEnd.toNat) ∨
    (∃ e, (smap.find? fun e => decide e.Usable) = some e ∧ e.Has x) ∨ ∀ e ∈ smap, e.Usable → ¬ e.Has x

private theorem touched_of_mem {lo hi : Nat} (hhi : hi + sizeofPage ≤ addrSpace) (hq : q % sizeofPage = 0) (h1 : q ≤ x)
    (h2 : x < q + sizeofPage) (hlo : lo ≤ x) (hx : x < hi) : Touched lo hi q := by
  have hmod : (hi + sizeofPage - 1) % addrSpace = hi + sizeofPage - 1 := by
    apply Nat.mod_eq_of_lt
    omega
  unfold Touched
  rw [hmod]
  unfold pageAlign sizeofPage at *
  omega

/-- An image that `set_kernel_memory` accepts has less than 2 GiB. -/
theorem kernel_short {venv : Vma.Env} (h : setKernelMemory venv [] kernmem (kernmem - pKernStart + pKernEnd) = some l) :
    pKernEnd.toNat < pKernStart.toNat + 2 ^ 31 := by
  have hlt := BitVec.lt_def.1 (setMemory_lt h)
  rw [BitVec.toNat_add, BitVec.toNat_sub, show kernmem.toNat = 0xffffffff80200000 from rfl] at hlt
  omega

/-- The free list is in order, and no page of it has a reserved byte. -/
theorem Course.freeList (hap : EntriesApart smap) (hlow : ∀ e ∈ smap, e.Usable → e.stop ≤ 2 ^ 43)
    (h : Course env kernmem pKernStart pKernEnd pVdoBuffStart smap b l₁ l₂ l₃ sc s1 s2 s3) :
    Listed b.pages ∧ ∀ q, Covers b.pages.physFreeList q →
      ∀ x, q ≤ x → x < q + sizeofPage → ¬ Reserved pKernStart pKernEnd smap x := by
  obtain ⟨cs, hcs⟩ := scanMap_spec h.scan
  have husable : ∀ e ∈ smap.filter fun e => decide e.Usable, e ∈ smap ∧ e.Usable := by
    intro e he
    simpa using he
  have hapart : (smap.filter fun e => decide e.Usable).Pairwise Smap.Apart := by
    rw [pairwise_filter]
    exact hap.imp fun hef he hf => hef (by simpa using he) (by simpa using hf)
  -- the three ranges
  have hm0 := marks_new hcs.entries []
  rw [show cs = sc.chunks from (hcs.chunks_eq).symm] at hm0
  have hm := ((hm0.mark (by decide) h.zero).mark (by decide) h.kernel).mark (by decide) h.lower
  have hempty : s3.physFreeList = [] :=
    (physFreeList_mark h.lower).trans ((physFreeList_mark h.kernel).trans (physFreeList_mark h.zero))
  obtain ⟨happ, hpage⟩ := initFreePhysPageManager_freeList hcs.entries hapart
    (fun e he => hlow e (husable e he).1 (husable e he).2) (h.bounds.trans (congrArg _ hcs.chunks_eq)) hempty hm h.init
  rw [← h.pages_eq] at happ hpage
  have hsmall : ∀ {hi : Nat}, hi ≤ 2 ^ 43 + 2 ^ 31 → hi + sizeofPage ≤ addrSpace := by
    intro hi hle
    unfold sizeofPage addrSpace
    omega
  have hfree : ∀ q, Covers b.pages.physFreeList q →
      ∀ x, q ≤ x → x < q + sizeofPage → ¬ Reserved pKernStart pKernEnd smap x := by
    intro q hq x hx1 hx2 hres
    obtain ⟨hal, hU, e, he, h1, h2⟩ := hpage q hq
    obtain ⟨hmem, huse⟩ := husable e he
    have hstop := hlow e hmem huse
    apply hU
    rcases hres with hzero | ⟨hk1, hk2⟩ | ⟨f, hf, hf1, hf2⟩ | hnone
    · refine .inl (.inl (.inr (touched_of_mem (hsmall ?_) hal hx1 hx2 (Nat.zero_le x) hzero)))
      decide
    · have hshort := kernel_short h.kernelArea
      exact .inl (.inr (touched_of_mem (hsmall (by omega)) hal hx1 hx2 hk1 hk2))
    · have hfuse : f.Usable := by simpa using find?_some hf
      have hfstop := hlow f (mem_of_find?_eq_some hf) hfuse
      have hend : (f.base + f.length).toNat = f.stop := by
        rw [BitVec.toNat_add]
        apply Nat.mod_eq_of_lt
        show f.stop < 2 ^ 64
        omega
      have hlower : sc.lowerChunk = some (f.base, f.base + f.length) := by
        rw [hcs.lower, hf]
        rfl
      refine .inr ?_
      rw [hlower, getD_some]
      rw [hend]
      exact touched_of_mem (hsmall (by omega)) hal hx1 hx2 hf1 hf2
    · exact absurd ⟨by omega, by omega⟩ (hnone e hmem huse)
  refine ⟨⟨happ, fun q hq => ?_⟩, hfree⟩
  obtain ⟨hal, -, e, he, -, hend⟩ := hpage q hq
  have hstop := hlow e (husable e he).1 (husable e he).2
  refine ⟨hal, fun h0 => hfree q hq q le_rfl (by unfold sizeofPage; omega) (.inl ?_), ?_⟩
  · rw [h0]
    decide
  · unfold addrSpace
    omega

/-- For a memory map whose usable entries do not overlap: once the boot has got past `init_free_phys_page_manager`, no
page that `alloc_phys_pages` returns has a byte of page 0, of the image, of the first usable entry, or outside the
usable entries. -/
theorem reserved_not_returned (env : Env) (pKernStart pKernEnd pVdoBuffStart : Word) (smap : List Smap)
    (hap : EntriesApart smap) (hlow : ∀ e ∈ smap, e.Usable → e.stop ≤ 2 ^ 43) (b : Setup)
    (h : setupPages env kernmem pKernStart pKernEnd pVdoBuffStart smap = some b) (ns : List Nat) :
    ∀ r ∈ allocs b.pages ns, r.addr ≠ 0 → ∀ q, r.Has q → ∀ x, q ≤ x → x < q + sizeofPage →
      ¬ Reserved pKernStart pKernEnd smap x := by
  obtain ⟨l₁, l₂, l₃, sc, s1, s2, s3, hcourse⟩ := setupPages_course h
  obtain ⟨hlisted, hfree⟩ := hcourse.freeList hap hlow
  intro r hr h0 q hq
  exact hfree q (allocs_free hlisted hr h0 hq)

def threeEntries : List Smap := [⟨0, 0x1800, 1⟩, ⟨0x7000, 0x800, 2⟩, ⟨0x8000, 0x2000, 1⟩, ⟨0x1900, 0x4f00, 1⟩]

def plentiful : Env :=
  let area : Vma.Env := ⟨true, ⟨0, 0, 0, 0, 0⟩⟩
  ⟨area, area, area, area, fun _ => true, true, fun _ => true⟩

theorem reserved_not_returned_three : ∃ b, setupPages plentiful kernmem 0x2400 0x3100 0xb8000 threeEntries = some b ∧
    allocs b.pages [1, 2, 1] = [⟨0x8000, 1⟩, ⟨0x4000, 2⟩, ⟨0x9000, 1⟩] ∧
    ∀ x, 0x4000 ≤ x → x < 0x5000 → ¬ Reserved 0x2400 0x3100 threeEntries x := by
  have hrun : (setupPages plentiful kernmem 0x2400 0x3100 0xb8000 threeEntries).map
      (fun b => allocs b.pages [1, 2, 1]) = some [⟨0x8000, 1⟩, ⟨0x4000, 2⟩, ⟨0x9000, 1⟩] := by
    decide +kernel
  obtain ⟨b, hb, hallocs⟩ := map_eq_some_iff.1 hrun
  have hap : EntriesApart threeEntries := by
    unfold EntriesApart threeEntries
    simp [Smap.Apart, Smap.stop, Smap.Usable]
  have hlow : ∀ e ∈ threeEntries, e.Usable → e.stop ≤ 2 ^ 43 := by
    unfold threeEntries
    simp [Smap.stop]
  refine ⟨b, hb, hallocs, fun x h1 h2 => ?_⟩
  refine reserved_not_returned plentiful 0x2400 0x3100 0xb8000 threeEntries hap hlow b hb [1, 2, 1] ⟨0x4000, 2⟩ ?_
    (by decide) 0x4000 ⟨0, by decide, rfl⟩ x h1 h2
  rw [hallocs]
  simp

structure Zone where
  start : Nat
  size : Nat

def Zone.Apart (z z' : Zone) : Prop := z.start + z.size ≤ z'.start ∨ z'.start + z'.size ≤ z.start

structure Zone.Ok (z : Zone) : Prop where
  above : kernmem.toNat ≤ z.start
  aligned : z.start % 4096 = 0
  fits : z.start + z.size < 2 ^ 64

structure Laid (l : List VmArea) (zs : List Zone) : Prop where
  valid : Valid l
  area : ∀ z ∈ zs, ∃ w ∈ l, w.vmStart.toNat = z.start ∧ w.vmEnd.toNat = z.start + z.size
  ok : ∀ z ∈ zs, z.Ok
  apart : zs.Pairwise Zone.Apart

def EndAligned (l : List VmArea) : Prop := ∀ w ∈ l, w.vmEnd.toNat % 4096 = 0

private theorem Laid.nil : Laid [] [] := ⟨.nil, by simp, by simp, List.Pairwise.nil⟩

private theorem toNat_stop (h : start < start + len) : (start + len).toNat = start.toNat + len.toNat := by
  have h1 := lt_def.1 h
  rw [BitVec.toNat_add] at h1 ⊢
  omega

private theorem setMemory_inserts {stop : Word} (h : Valid l) (hs : setMemory prot venv l start stop = some l') :
    Vma.Inserted ⟨start, stop, prot, 0, -1⟩ l l' := by
  unfold setMemory Vma.addVma at hs
  obtain heq | ⟨-, l1, heq, hins⟩ := Vma.addVmaGrowable_spec h venv start stop prot 0 (-1)
  · rw [heq] at hs
    cases hs
  · rw [heq] at hs
    cases hs
    exact hins

private theorem Laid.add {zs : List Zone} (h : Laid l zs) (hs : setMemory prot venv l start (start + len) = some l')
    (habove : kernmem.toNat ≤ start.toNat) (hal : start.toNat % 4096 = 0) :
    Laid l' (zs ++ [⟨start.toNat, len.toNat⟩]) := by
  have hlt := setMemory_lt hs
  have hstop := toNat_stop hlt
  have hins := setMemory_inserts h.valid hs
  have hvalid := hins.valid h.valid hlt
  obtain ⟨m1, m2, rfl, rfl, hbelow, habove'⟩ := hins
  refine ⟨hvalid, fun z hz => ?_, fun z hz => ?_, ?_⟩
  · rcases mem_append.1 hz with hz | hz
    · obtain ⟨w, hw, hz⟩ := h.area z hz
      exact ⟨w, mem_append.2 ((mem_append.1 hw).imp_right (mem_cons_of_mem _)), hz⟩
    · obtain rfl := mem_singleton.1 hz
      exact ⟨_, mem_append_right _ mem_cons_self, rfl, hstop⟩
  · rcases mem_append.1 hz with hz | hz
    · exact h.ok z hz
    · obtain rfl := mem_singleton.1 hz
      exact ⟨habove, hal, hstop ▸ (start + len).isLt⟩
  · refine pairwise_append.2 ⟨h.apart, pairwise_singleton _ _, fun z hz z' hz' => ?_⟩
    obtain rfl := mem_singleton.1 hz'
    obtain ⟨w, hw, h1, h2⟩ := h.area z hz
    rcases mem_append.1 hw with hw | hw
    · have := le_def.1 (hbelow w hw)
      exact .inl (by dsimp only at *; omega)
    · have := le_def.1 (habove' w hw)
      exact .inr (by dsimp only at *; omega)

private theorem EndAligned.add (h : EndAligned l) (hv : Valid l)
    (hs : setMemory prot venv l start (start + len) = some l')
    (hal : start.toNat % 4096 = 0) (hlen : len.toNat % 4096 = 0) : EndAligned l' := by
  have hstop := toNat_stop (setMemory_lt hs)
  obtain ⟨m1, m2, rfl, rfl, -⟩ := setMemory_inserts hv hs
  intro w hw
  rcases mem_append.1 hw with hw | hw
  · exact h w (mem_append_left _ hw)
  · rcases mem_cons.1 hw with rfl | hw
    · show (start + len).toNat % 4096 = 0
      omega
    · exact h w (mem_append_right _ hw)

private theorem searchGap_cases (len addr : Word) (l : List VmArea) :
    Vma.searchGap len addr l = addr ∨ ∃ w ∈ l, Vma.searchGap len addr l = w.vmEnd := by
  induction l generalizing addr with
  | nil => exact .inl rfl
  | cons w l ih =>
    rw [Vma.searchGap]
    split
    · exact .inl rfl
    · obtain heq | ⟨w', hw', heq⟩ := ih w.vmEnd
      · exact .inr ⟨w, mem_cons_self, heq⟩
      · exact .inr ⟨w', mem_cons_of_mem _ hw', heq⟩

private theorem getUnmappedArea_aligned {addr : Word} (h : EndAligned l) (hal : addr.toNat % 4096 = 0) :
    (getUnmappedArea l addr len).toNat % 4096 = 0 := by
  unfold Vma.getUnmappedArea
  obtain heq | ⟨w, hw, heq⟩ := searchGap_cases len addr (Vma.fromVma addr l)
  · rw [heq]
    exact hal
  · rw [heq]
    exact h w (Vma.fromVma_sublist.subset hw)

def zones (imageSize physEnd : Nat) (b : Setup) : List Zone :=
  [⟨kernmem.toNat, imageSize⟩, ⟨b.vdoStartAddr.toNat, 4096⟩, ⟨b.ahciStartAddr.toNat, 4096⟩,
    ⟨b.physMemOffset.toNat, physEnd⟩]

/-- The areas of the kernel lie in zones of their own. -/
theorem Course.laid {env : Env} {b : Setup} {l1 l2 l3 : List VmArea}
    (h : Course env kernmem pKernStart pKernEnd videoMemoryAddress smap b l1 l2 l3 sc s1 s2 s3)
    (hks : pKernStart.toNat % 4096 = 0) (hke : pKernEnd.toNat % 4096 = 0) :
    Laid b.mmap (zones (pKernEnd - pKernStart).toNat sc.physEndAddr.toNat b) := by
  have hkernel := h.kernelArea
  rw [show kernmem - pKernStart + pKernEnd = kernmem + (pKernEnd - pKernStart) by bv_omega] at hkernel
  have hsize : (pKernEnd - pKernStart).toNat % 4096 = 0 := by
    rw [toNat_sub]
    omega
  have habove : ∀ {l : List VmArea} {addr len : Word}, Valid l → kernmem.toNat ≤ addr.toNat →
      kernmem.toNat ≤ (getUnmappedArea l addr len).toNat :=
    fun hv ha => Nat.le_trans ha (le_def.1 (Vma.le_getUnmappedArea hv _ _))
  have hl1 := Laid.nil.add hkernel le_rfl (by decide)
  have he1 : EndAligned l1 := EndAligned.add (fun _ hw => by cases hw) .nil hkernel (by decide) hsize
  have hvdo : b.vdoStartAddr.toNat % 4096 = 0 := by
    rw [h.vdo_eq]
    exact getUnmappedArea_aligned he1 (by decide)
  have hl2 := hl1.add h.videoArea (by rw [h.vdo_eq]; exact habove hl1.valid (by decide)) hvdo
  have he2 := he1.add hl1.valid h.videoArea hvdo (by decide)
  have hahci : b.ahciStartAddr.toNat % 4096 = 0 := by
    rw [h.ahci_eq]
    exact getUnmappedArea_aligned he2 (by decide)
  have hl3 := hl2.add h.ahciArea (by rw [h.ahci_eq]; exact habove hl2.valid le_rfl) hahci
  have he3 := he2.add hl2.valid h.ahciArea hahci (by decide)
  have hphys : b.physMemOffset.toNat % 4096 = 0 := by
    rw [h.phys_eq]
    exact getUnmappedArea_aligned he3 (by decide)
  exact hl3.add h.physArea (by rw [h.phys_eq]; exact habove hl3.valid le_rfl) hphys

end Adix.Boot
