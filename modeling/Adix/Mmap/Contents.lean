import Adix.Mmap.Spill

/-!
# The bytes that `do_mmap` loads

At an address that is not at the start of a page, what a round reads behind the end of the first page goes to a page
that the next round replaces. The bytes there are then those that the new page had when it was free.
-/

namespace Adix.Mmap

open PageTable PhysPages Cow Space Tarfs List Option
open BitVec (ofNat)
open Kernel (byteOf withMach_mach entry_eq load_eq)
open Vma (mmap)

variable {n fd i : Nat} {a v w prot offset addr len bytes : Word} {k k' : Kernel} {proc : Proc} {files : Files}
  {t : Tape} {l : List (BitVec 8)}

def SameButFree (k k' : Kernel) : Prop :=
  ∃ mem, k' = k.withMach { k.sys.mach with mem := mem } ∧ ∀ q, ¬ Free k.sys.mach q → mem q = k.sys.mach.mem q

/-- The call returns, and the bytes of the file with the contents `l` are in memory. -/
def LoadsFile (k : Kernel) (files : Files) (fd : Nat) (offset addr len prot : Word) (l : List (BitVec 8)) : Prop :=
  ∃ k' files', doMmap k files fd offset addr len prot = some (k', files') ∧
    VirtMem.Holds k' addr ((l.drop offset.toNat).take len.toNat)

namespace SameButFree

variable (h : SameButFree k k') (hk : Ready k proc)
include h

private theorem proc_eq : k'.proc? = k.proc? := by
  obtain ⟨mem, rfl, -⟩ := h
  rfl

include hk

private theorem keepsTables : KeepsTables proc.pml4 k.sys.mach k'.sys.mach := by
  obtain ⟨mem, rfl, hmem⟩ := h
  exact ⟨fun q hq => hmem q (hk.wf.table q hq).2.2, hk.wf.listed, rfl, fun _ hq => hq⟩

private theorem ready : Ready k' proc := by
  have hkeeps := h.keepsTables hk
  refine ⟨h.proc_eq.trans hk.running, hkeeps.wf hk.wf, hkeeps.self hk.self, fun b e hb he => ?_⟩
  rw [hkeeps.leaf_eq hb] at he
  obtain ⟨mem, rfl, -⟩ := h
  exact hk.used b e hb he

private theorem archiveIn (hsrc : ArchiveIn t k proc) : ArchiveIn t k' proc := by
  have hkeeps := h.keepsTables hk
  have hk' := h.ready hk
  refine ⟨hsrc.bytes.congr fun j hj => ?_, fun a ha => ?_⟩
  · obtain ⟨hslot, e, he, -, hf⟩ := hsrc.mapped _ (Tape.has_add hj)
    rw [load_eq hk'.running hk'.wf hslot, load_eq hk.running hk.wf hslot, hkeeps.leaf_eq hslot, he,
      map_some, map_some]
    obtain ⟨mem, rfl, hmem⟩ := h
    exact congrArg (fun page => some (byteOf page _)) (hmem _ hf)
  · obtain ⟨hslot, e, he, ht, hf⟩ := hsrc.mapped a ha
    refine ⟨hslot, e, (hkeeps.leaf_eq hslot).trans he, (isTable_of_tables hkeeps.mem_eq).not.2 ht, ?_⟩
    obtain ⟨mem, rfl, -⟩ := h
    exact hf

private theorem openOn (hopen : OpenOn k proc files fd l) : OpenOn k' proc files fd l := by
  obtain ⟨t, i, x, p, hsrc, hrest⟩ := hopen
  exact ⟨t, i, x, p, h.archiveIn hk hsrc, hrest⟩

private theorem unmapped (hhalf : addr.toNat + len.toNat + 8192 ≤ 2 ^ 47)
    (hunmapped : ∀ j < len.toNat, k.entry (addr + ofNat 64 j) = none) :
    ∀ j < len.toNat, k'.entry (addr + ofNat 64 j) = none := by
  intro j hj
  have hto : (addr + ofNat 64 j).toNat = addr.toNat + j := toNat_add_of_lt (by omega)
  have hslot := Vma.Unmap.lower_slot (show (addr + ofNat 64 j).toNat < 2 ^ 47 by omega)
  have hk' := h.ready hk
  rw [entry_eq hk'.running hk'.wf hslot, (h.keepsTables hk).leaf_eq hslot, ← entry_eq hk.running hk.wf hslot]
  exact hunmapped j hj

end SameButFree

private theorem areaOf_placed {m : List Vma.VmArea} (hvalid : Vma.Valid m) (env : Vma.Env) (hne : addr ≠ -1)
    (hplaced : (mmap env m addr len prot 0).2 = addr) (h1 : addr ≤ a) (h2 : a < addr + len) :
    areaOf (mmap env m addr len prot 0).1 a = some ⟨addr, addr + len, prot, 0, -1⟩ := by
  obtain he | ⟨m', r, he, -, -, hmapped⟩ := Vma.mmapGrowable_spec hvalid env ⟨addr, len, prot, 0, -1⟩
  · rw [mmap, he] at hplaced
    exact absurd hplaced.symm hne
  · rw [mmap, he] at hplaced ⊢
    obtain rfl : r = addr := hplaced
    obtain ⟨l1, l2, rfl, rfl⟩ := hmapped.added
    unfold areaOf
    rw [find?_append, find?_eq_none.2 fun u hu => ?_, none_or, find?_cons_of_pos]
    · exact decide_eq_true ⟨h1, h2⟩
    · intro hhas
      have hin := of_decide_eq_true hhas
      exact hmapped.disjoint u (mem_append_left _ hu) a hin.1 hin.2 ⟨h1, h2⟩

private theorem Reading.leftover {x : Member} (h : Reading t i x fd proc k files offset v bytes)
    (hc : 8 * (n + 2) ≤ freeCount k.sys.mach.pages) (hv : v.toNat + 4096 * n + 12288 ≤ 2 ^ 47)
    (hodd : v.toNat % 4096 ≠ 0) (ha : a.toNat = v.toNat + (4096 - v.toNat % 4096)) (prot : Word) :
    ∃ s' files' z, mmapLoop fd prot (n + 2) k files offset v bytes = some (k.withMach s', files') ∧ Free k.sys.mach z ∧
      VirtMem.load (k.withMach s') a = some (byteOf (k.sys.mach.mem z) a) := by
  have hnext := toNat_next (v := v) (by omega)
  have hnext' : (v + Vma.sizeofPage + Vma.sizeofPage).toNat = v.toNat + 8192 := by
    rw [toNat_next (by omega), hnext]
  obtain ⟨s1, z1, files1, hspilled1, -, h₁, heq1⟩ := h.step (by omega) (by omega) prot (n + 1)
  have hcount1 := hspilled1.count
  obtain ⟨s2, z, files2, hspilled2, -, h₂, heq2⟩ := h₁.step (by rw [withMach_mach]; omega) (by omega) prot n
  have hcount2 := hspilled2.count
  rw [withMach_mach] at hcount2
  obtain ⟨s', files', hrest, hmaps⟩ := h₂.returns (n := n) (by rw [withMach_mach]; omega) (by omega) prot
  refine ⟨s', files', z, by rw [heq1, heq2, hrest]; rfl, hspilled1.remaps.free_sub z hspilled2.wasFree, ?_⟩
  have hslot := Vma.Unmap.lower_slot (show a.toNat < 2 ^ 47 by omega)
  have hpage : SamePage a (v + Vma.sizeofPage) := by
    apply samePage_of_div
    omega
  obtain ⟨e, he, rfl⟩ := hspilled2.here
  -- the page of the second round is not touched again
  have hkeep : VirtMem.load (k.withMach s') a = VirtMem.load (k.withMach s2) a := by
    refine Remaps.load_eq (k := k.withMach s2) h.running hmaps (fun b hb hsame => ?_)
      ⟨hslot, e, (leaf_samePage hpage).trans he, hspilled2.data, hspilled2.taken⟩ h₂.wf
    have h1 := (Vma.Unmap.samePage_iff_div (by omega) hb.2).1 hsame
    have h2 := hb.1
    omega
  -- and it was free during the first round
  have hfirst : s1.mem (hardwareFormat.next e) = k.sys.mach.mem (hardwareFormat.next e) :=
    hspilled1.remaps.outside _ (fun ht => (h.wf.table _ ht).2.2 (hspilled1.remaps.free_sub _ hspilled2.wasFree))
      fun _ => hspilled2.wasFree
  rw [hkeep, load_eq (k := k.withMach s2) h.running h₂.wf hslot, withMach_mach, leaf_samePage hpage, he,
    map_some, hspilled2.low a hpage (by omega), withMach_mach, hfirst]

private theorem exists_other (c : BitVec 8) : ∃ w : Word, ∀ a, byteOf (fun _ => w) a ≠ c := by
  have hzero : ∀ j < 8, getByte 0 j = 0 := by decide
  have hones : ∀ j < 8, getByte (-1) j = 0xff := by decide
  by_cases hc : c = 0
  · refine ⟨-1, fun a => ?_⟩
    rw [byteOf, hones _ (Nat.mod_lt _ (by decide)), hc]
    decide
  · refine ⟨0, fun a => ?_⟩
    rw [byteOf, hzero _ (Nat.mod_lt _ (by decide))]
    exact Ne.symm hc

/-- The call is for a part of a file that `mmap` places at `addr`, where nothing is mapped, and there are free pages
for it and for its tables. -/
structure Placed (k : Kernel) (proc : Proc) (files : Files) (fd : Nat) (l : List (BitVec 8))
    (offset addr len prot : Word) : Prop where
  ready : Ready k proc
  valid : Vma.Valid proc.mmap
  opened : OpenOn k proc files fd l
  inside : offset.toNat + len.toNat ≤ l.length
  writes : prot.getLsbD 1 = true
  half : addr.toNat + len.toNat + 8192 ≤ 2 ^ 47
  below : addr.toNat + len.toNat ≤ k.sys.startKernel.toNat
  placed : (mmap k.env.toEnv proc.mmap addr len prot 0).2 = addr
  unmapped : ∀ j < len.toNat, k.entry (addr + ofNat 64 j) = none
  enough : 8 * numPages len ≤ freeCount k.sys.mach.pages

private theorem SameButFree.placed (h : SameButFree k k') (hp : Placed k proc files fd l offset addr len prot) :
    Placed k' proc files fd l offset addr len prot := by
  have hk' := h.ready hp.ready
  have hopen := h.openOn hp.ready hp.opened
  have hnone := h.unmapped hp.ready hp.half hp.unmapped
  obtain ⟨mem, rfl, -⟩ := h
  exact { hp with ready := hk', opened := hopen, unmapped := hnone }

namespace Placed

variable (h : Placed k proc files fd l offset addr len prot)
include h

private theorem reading : ∃ t i x proc', x.contents = l ∧ Reading t i x fd proc'
    (k.withAreas proc (mmap k.env.toEnv proc.mmap addr len prot 0).1) files offset addr len := by
  obtain ⟨hk, hvalid, hopen, hin, hprot, hhalf, hkernel, hplaced, hunmapped, -⟩ := h
  obtain ⟨t, i, x, p, hsrc, hx, hreg, rfl, hfd⟩ := hopen
  refine ⟨t, i, x, _, rfl, Kernel.withAreas_proc hk.running, hk.wf, hk.self, hsrc.withAreas hk.running, hx, hreg,
    ⟨p, hfd⟩, .inl hin, by omega, fun j hj _ => ?_⟩
  have hto : (addr + ofNat 64 j).toNat = addr.toNat + j := toNat_add_of_lt (by omega)
  have hend : (addr + len).toNat = addr.toNat + len.toNat := by
    rw [BitVec.toNat_add, Nat.mod_eq_of_lt (by omega)]
  have hslot := Vma.Unmap.lower_slot (show (addr + ofNat 64 j).toNat < 2 ^ 47 by omega)
  refine ⟨⟨_, areaOf_placed hvalid _ ?_ hplaced ?_ ?_, hprot, ?_⟩, ?_⟩
  · rintro rfl
    have hones : (-1 : Word).toNat = 2 ^ 64 - 1 := by decide
    omega
  · rw [BitVec.le_def]
    omega
  · rw [BitVec.lt_def]
    omega
  · rw [BitVec.le_def]
    show ¬ k.sys.startKernel.toNat ≤ _
    omega
  · exact (entry_eq hk.running hk.wf hslot).symm.trans (hunmapped j hj)

private theorem loads (hcond : addr.toNat % 4096 = 0 ∨ len.toNat < 4096) :
    LoadsFile k files fd offset addr len prot l := by
  have hhalf := h.half
  have hmem := h.enough
  by_cases haddr : addr.toNat % 4096 = 0
  · obtain ⟨s', files', hcall, -, -, hholds⟩ :=
      doMmap_loads h.ready haddr (by omega) h.placed (by omega) h.opened h.inside rfl
    exact ⟨_, files', hcall, hholds⟩
  · have hrounds : numPages len = 0 + 1 := by
      rw [numPages_of_lt (by omega)]
      omega
    obtain ⟨t, i, x, proc', rfl, hreading⟩ := h.reading
    obtain ⟨s', z, files', -, hholds, -, heq⟩ := hreading.step (by rw [Kernel.withAreas_mach]; omega) (by omega) prot 0
    rw [roundBytes_of_le (by omega)] at hholds
    refine ⟨_, files', ?_, hholds⟩
    rw [doMmap_placed h.ready.running h.placed, hrounds, heq]
    rfl

private theorem not_loads (hodd : addr.toNat % 4096 ≠ 0) (hlong : 4096 ≤ len.toNat) {m : Nat}
    (hm : m = 4096 - addr.toNat % 4096)
    (hfree : ∀ z, Free k.sys.mach z → ∀ a, some (byteOf (k.sys.mach.mem z) a) ≠ l[offset.toNat + m]?) :
    ¬ LoadsFile k files fd offset addr len prot l := by
  rintro ⟨k', files', hcall, hholds⟩
  have hhalf := h.half
  have hin := h.inside
  obtain ⟨t, i, x, proc', rfl, hreading⟩ := h.reading
  have hshort := (Tape.openFile hreading.archive.bytes hreading.member hreading.regular).file.short
  have hrounds : numPages len = len.toNat / 4096 - 1 + 2 := by
    rw [numPages_of_lt (by omega)]
    omega
  have hto : (addr + ofNat 64 m).toNat = addr.toNat + m := toNat_add_of_lt (by omega)
  obtain ⟨s', files'', z, hloop, hz, hload⟩ := hreading.leftover (a := addr + ofNat 64 m) (n := len.toNat / 4096 - 1)
    (by rw [← hrounds]; exact h.enough) (by omega) hodd (by omega) prot
  rw [doMmap_placed h.ready.running h.placed, hrounds, hloop] at hcall
  cases hcall
  have hbyte : ((x.contents.drop offset.toNat).take len.toNat)[m]? = x.contents[offset.toNat + m]? := by
    rw [getElem?_take_of_lt (by omega), getElem?_drop]
  have hget := List.getElem?_eq_getElem (show offset.toNat + m < x.contents.length by omega)
  have hheld := hholds m _ (hbyte.trans hget)
  rw [hload, ← hget] at hheld
  exact hfree z hz _ hheld

private theorem exists_lost (hodd : addr.toNat % 4096 ≠ 0) (hlong : 4096 ≤ len.toNat) :
    ∃ k', SameButFree k k' ∧ ¬ LoadsFile k' files fd offset addr len prot l := by
  have hin := h.inside
  have hlt : offset.toNat + (4096 - addr.toNat % 4096) < l.length := by omega
  obtain ⟨w, hw⟩ := exists_other (l.get ⟨_, hlt⟩)
  classical
  obtain ⟨mem, hfill⟩ : ∃ mem : Memory, ∀ q, mem q = if Free k.sys.mach q then fun _ => w else k.sys.mach.mem q :=
    ⟨_, fun _ => rfl⟩
  have hsame : SameButFree k (k.withMach { k.sys.mach with mem := mem }) :=
    ⟨mem, rfl, fun q hq => by rw [hfill, if_neg hq]⟩
  refine ⟨_, hsame, (hsame.placed h).not_loads hodd hlong rfl fun z hz a hbyte => ?_⟩
  change some (byteOf (mem z) a) = _ at hbyte
  rw [hfill, if_pos (show Free k.sys.mach z from hz), List.getElem?_eq_getElem hlt] at hbyte
  exact hw a (some.inj hbyte)

end Placed

/-- For a part of a file that `mmap` places at `addr`, where nothing is mapped: the call loads the bytes of the file,
whatever the free pages hold, if and only if the address is at the start of a page or the length is less than a page. -/
theorem mapping_contents_iff (k : Kernel) (proc : Proc) (hk : Ready k proc) (hvalid : Vma.Valid proc.mmap)
    (files : Files) (fd : Nat) (l : List (BitVec 8)) (hopen : OpenOn k proc files fd l) (offset addr len prot : Word)
    (hin : offset.toNat + len.toNat ≤ l.length) (hprot : prot.getLsbD 1 = true)
    (hhalf : addr.toNat + len.toNat + 8192 ≤ 2 ^ 47) (hkernel : addr.toNat + len.toNat ≤ k.sys.startKernel.toNat)
    (hplaced : (mmap k.env.toEnv proc.mmap addr len prot 0).2 = addr)
    (hunmapped : ∀ j < len.toNat, k.entry (addr + ofNat 64 j) = none)
    (hmem : 8 * numPages len ≤ freeCount k.sys.mach.pages) :
    (∀ k', SameButFree k k' → LoadsFile k' files fd offset addr len prot l) ↔
      addr.toNat % 4096 = 0 ∨ len.toNat < 4096 := by
  have h : Placed k proc files fd l offset addr len prot :=
    ⟨hk, hvalid, hopen, hin, hprot, hhalf, hkernel, hplaced, hunmapped, hmem⟩
  constructor
  · intro hall
    by_contra hbad
    rw [not_or] at hbad
    obtain ⟨k', hsame, hlost⟩ := h.exists_lost hbad.1 (by omega)
    exact hlost (hall k' hsame)
  · exact fun hcond k' hsame => (hsame.placed h).loads hcond

private theorem entry_none (hk : Ready k proc)
    (hlow : ∀ a : Word, a.toNat < 2 ^ 47 → leaf k.sys.mach.mem proc.pml4 a = none)
    (hhalf : addr.toNat + len.toNat + 8192 ≤ 2 ^ 47) : ∀ j < len.toNat, k.entry (addr + ofNat 64 j) = none := by
  intro j hj
  have hto : (addr + ofNat 64 j).toNat = addr.toNat + j := toNat_add_of_lt (by omega)
  rw [entry_eq hk.running hk.wf (Vma.Unmap.lower_slot (by omega))]
  exact hlow _ (by omega)

theorem mapping_contents_across : ∃ k proc files, Ready k proc ∧ OpenOn k proc files 3 (List.replicate 0x2000 1) ∧
    ∀ k', SameButFree k k' → LoadsFile k' files 3 0x10 0x400f00 0x800 6 (List.replicate 0x2000 1) := by
  obtain ⟨k, proc, files, hk, hopen, hc, hmmap, henv, hstart, hlow⟩ := exists_open (List.replicate 0x2000 1)
    (by rw [length_replicate]; decide)
  have hplaced : (mmap k.env.toEnv proc.mmap 0x400f00 0x800 6 0).2 = 0x400f00 := by
    rw [henv, hmmap]
    decide
  have hpages : numPages 0x800 = 1 := by decide
  refine ⟨k, proc, files, hk, hopen, (mapping_contents_iff k proc hk (by rw [hmmap]; exact .nil) files 3 _ hopen 0x10
    0x400f00 0x800 6 (by rw [length_replicate]; decide) (by decide) (by decide) (by rw [hstart]; decide) hplaced
    (entry_none hk hlow (by decide)) (by omega)).2 (.inr (by decide))⟩

/-- A page of a file, to an address in the middle of a page. -/
theorem mapping_contents_lost :
    ¬ ∀ k proc, Ready k proc → Vma.Valid proc.mmap → ∀ files fd l, OpenOn k proc files fd l →
    ∀ offset addr len prot : Word, 0 < len.toNat → offset.toNat + len.toNat ≤ l.length → prot.getLsbD 1 = true →
    addr.toNat + len.toNat + 8192 ≤ 2 ^ 47 → addr.toNat + len.toNat ≤ k.sys.startKernel.toNat →
    (mmap k.env.toEnv proc.mmap addr len prot 0).2 = addr →
    (∀ j < len.toNat, k.entry (addr + ofNat 64 j) = none) → 8 * numPages len ≤ freeCount k.sys.mach.pages →
    LoadsFile k files fd offset addr len prot l := by
  intro h
  obtain ⟨k, proc, files, hk, hopen, hc, hmmap, henv, hstart, hlow⟩ := exists_open (List.replicate 0x2000 1)
    (by rw [length_replicate]; decide)
  have hp : Placed k proc files 3 (List.replicate 0x2000 1) 0 0x400800 0x1000 6 := by
    refine ⟨hk, by rw [hmmap]; exact .nil,
      hopen, by rw [length_replicate]; decide, by decide, by decide, by rw [hstart]; decide, ?_,
      entry_none hk hlow (by decide), le_trans (by decide) hc⟩
    rw [henv, hmmap]
    decide
  obtain ⟨k', hsame, hlost⟩ := hp.exists_lost (by decide) (by decide)
  have hp' := hsame.placed hp
  exact hlost (h k' proc hp'.ready hp'.valid files 3 _ hp'.opened 0 0x400800 0x1000 6 (by decide) hp'.inside hp'.writes
    hp'.half hp'.below hp'.placed hp'.unmapped hp'.enough)

end Adix.Mmap
