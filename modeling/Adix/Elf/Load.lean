import Adix.Elf.Headers

/-!
# The memory image of a program

`load_elf` has each segment mapped with its length in memory, so that all of these bytes come from the file. A segment
that is loaded stays as it is while later ones are mapped.
-/

namespace Adix.Elf

open PageTable PhysPages Cow Space Tarfs Mmap VirtMem List Option BitVec
open BitVec (ofNat)

variable {k k' : Kernel} {proc proc' : Proc} {files files' : Files} {fd n i : Nat} {l : List (BitVec 8)} {s ph : Phdr}
  {phs done : List Phdr} {u : Mach} {areas : List Vma.VmArea}

def entryOf (l : List (BitVec 8)) : Word := ofNat 64 (numberAt l eEntry 8)
def phoffOf (l : List (BitVec 8)) : Nat := numberAt l ePhoff 8
def phnumOf (l : List (BitVec 8)) : Nat := numberAt l ePhnum 2

def segments (l : List (BitVec 8)) : List Phdr := loadable (headers l (phnumOf l) (phoffOf l))

/-- A segment of the lower half at the start of a page, with all its bytes in the file. -/
structure Phdr.Fits (s : Phdr) (l : List (BitVec 8)) : Prop where
  aligned : s.pVaddr.toNat % 4096 = 0
  lower : s.pVaddr.toNat + s.pMemsz.toNat + 4096 ≤ 2 ^ 47
  inFile : s.pOffset.toNat + s.pMemsz.toNat ≤ l.length

/-- `mmap` places each segment at its address. -/
def Placed (env : Vma.Env) : List Phdr → List Vma.VmArea → Prop
  | [], _ => True
  | s :: phs, areas =>
    (Vma.mmap env areas s.pVaddr s.pMemsz (segmentProt s.pFlags) 0).2 = s.pVaddr ∧
      Placed env phs (Vma.mmap env areas s.pVaddr s.pMemsz (segmentProt s.pFlags) 0).1

def pagesOf (phs : List Phdr) : Nat := (phs.map fun s => Mmap.numPages s.pMemsz).sum

/-- The segment is in memory: the bytes of the file, and zeros behind `p_filesz`. -/
def SegmentLoaded (k : Kernel) (l : List (BitVec 8)) (s : Phdr) : Prop :=
  ∀ i < s.pMemsz.toNat, load k (s.pVaddr + ofNat 64 i) =
    if i < s.pFilesz.toNat then l[s.pOffset.toNat + i]? else some 0

structure InMemory (k : Kernel) (proc : Proc) (l : List (BitVec 8)) (s : Phdr) : Prop where
  area : ∃ w ∈ proc.mmap, w.vmStart = s.pVaddr ∧ w.vmEnd = s.pVaddr + s.pMemsz
  mapped : ∀ i < s.pMemsz.toNat, MappedData proc.pml4 k.sys.mach (s.pVaddr + ofNat 64 i)
  bytes : Holds k s.pVaddr ((l.drop s.pOffset.toNat).take s.pMemsz.toNat)

private theorem Phdr.Fits.toNat_add (hs : s.Fits l) (hi : i ≤ s.pMemsz.toNat) :
    (s.pVaddr + ofNat 64 i).toNat = s.pVaddr.toNat + i := by
  have := hs.lower
  exact toNat_add_of_lt (by omega)

private theorem Phdr.Fits.toNat_end (hs : s.Fits l) :
    (s.pVaddr + s.pMemsz).toNat = s.pVaddr.toNat + s.pMemsz.toNat := by
  have h := hs.toNat_add le_rfl
  rwa [BitVec.ofNat_toNat, setWidth_eq] at h

private theorem Phdr.Fits.numPages_eq (hs : s.Fits l) (hl : l.length < 2 ^ 31) :
    Mmap.numPages s.pMemsz = s.pMemsz.toNat / 4096 + 1 := by
  have := hs.inFile
  exact numPages_of_lt (by omega)

section Later

variable (hl : l.length < 2 ^ 31) (hs : s.Fits l) (hph : ph.Fits l)
  (hgap : s.pVaddr + s.pMemsz ≤ ph.pVaddr ∨ ph.pVaddr + ph.pMemsz < s.pVaddr)
include hl hs hph hgap

private theorem not_samePage_of_gap {a : Word} (hi : i < s.pMemsz.toNat)
    (ha : Span ph.pVaddr (Mmap.numPages ph.pMemsz) a) : ¬ SamePage (s.pVaddr + ofNat 64 i) a := by
  have h1 := hs.toNat_end
  have h2 := hph.toNat_end
  have h3 := hs.toNat_add hi.le
  have h4 := hs.aligned
  have h5 := hph.aligned
  have h6 := hs.lower
  have h7 := hph.lower
  have hpages := hph.numPages_eq hl
  refine not_samePage_span h5 (by omega) (by omega) (fun hin => ?_) ha
  obtain ⟨hle, hlt⟩ := hin
  rcases hgap with hgap | hgap
  · have := le_def.1 hgap
    omega
  · have := lt_def.1 hgap
    omega

private theorem InMemory.mmap (h : InMemory k proc l s) (hk : Ready k proc)
    (hr : Replaced proc.pml4 k.sys.mach u ph.pVaddr (Mmap.numPages ph.pMemsz)) (hsub : ∀ w ∈ proc.mmap, w ∈ areas) :
    InMemory ((k.withAreas proc areas).withMach u) { proc with mmap := areas } l s := by
  obtain ⟨w, hw, hends⟩ := h.area
  refine ⟨⟨w, hsub w hw, hends⟩, fun i hi => ?_, h.bytes.congr fun i hi => ?_⟩
  · exact hr.remaps.mappedData (fun a => not_samePage_of_gap hl hs hph hgap hi) (h.mapped i hi)
  · have hi : i < s.pMemsz.toNat := by
      rw [length_take] at hi
      omega
    have hp := Kernel.withAreas_proc (l := areas) hk.running
    rw [Remaps.load_eq hp hr.remaps (fun a => not_samePage_of_gap hl hs hph hgap hi) (h.mapped i hi) hk.wf,
      Kernel.withAreas_load hk.running]

end Later

private theorem inMemory_new (hl : l.length < 2 ^ 31) (hs : s.Fits l)
    (hr : Replaced proc.pml4 k.sys.mach u s.pVaddr (Mmap.numPages s.pMemsz))
    (hw : ∃ w ∈ areas, w.vmStart = s.pVaddr ∧ w.vmEnd = s.pVaddr + s.pMemsz)
    (hbytes : Holds ((k.withAreas proc areas).withMach u) s.pVaddr ((l.drop s.pOffset.toNat).take s.pMemsz.toNat)) :
    InMemory ((k.withAreas proc areas).withMach u) { proc with mmap := areas } l s := by
  refine ⟨hw, fun i hi => ?_, hbytes⟩
  have hto := hs.toNat_add hi.le
  have hlower := hs.lower
  have hpages := hs.numPages_eq hl
  obtain ⟨e, he, -, hdata⟩ := hr.frame (s.pVaddr + ofNat 64 i) ⟨by omega, by omega⟩
  exact ⟨Vma.Unmap.lower_slot (by omega), e, he, hdata⟩

private theorem mapSegments_loads (done : List Phdr) (hk : Ready k proc) (hvalid : Vma.Valid proc.mmap)
    (hopen : OpenOn k proc files fd l) (hplaced : Placed k.env.toEnv phs proc.mmap)
    (hmem : 4 * pagesOf phs ≤ freeCount k.sys.mach.pages) (hfits : ∀ s ∈ done ++ phs, s.Fits l)
    (hdone : ∀ s ∈ done, InMemory k proc l s) : ∃ k' proc' files', mapSegments fd phs k files = some (k', files') ∧
      ∀ s ∈ done ++ phs, InMemory k' proc' l s := by
  induction phs generalizing k proc files done with
  | nil => exact ⟨k, proc, files, rfl, by simpa using hdone⟩
  | cons ph phs ih =>
    obtain ⟨hhead, htail⟩ := hplaced
    have hl := hopen.short
    have hph : ph.Fits l := hfits ph (by simp)
    have hlower := hph.lower
    have hne : ph.pVaddr ≠ -1 := by
      intro h
      have : ph.pVaddr.toNat = 2 ^ 64 - 1 := by rw [h]; rfl
      omega
    have hsum : pagesOf (ph :: phs) = Mmap.numPages ph.pMemsz + pagesOf phs := by simp [pagesOf]
    obtain ⟨hvalid', hgap, hsub, hnew⟩ := Vma.mmap_placed hvalid hne hhead
    obtain ⟨areas, hareas⟩ :
      ∃ areas, areas = (Vma.mmap k.env.toEnv proc.mmap ph.pVaddr ph.pMemsz (segmentProt ph.pFlags) 0).1 :=
      ⟨_, rfl⟩
    rw [← hareas] at htail hvalid' hsub hnew
    obtain ⟨u, files1, heq, hr, hopen1, hbytes⟩ :=
      doMmap_loads hk hph.aligned hlower hhead (by omega) hopen hph.inFile hareas
    have hcount := hr.count
    -- the segments before this one are at a distance
    have hkept : ∀ s ∈ done, InMemory ((k.withAreas proc areas).withMach u) { proc with mmap := areas } l s := by
      intro s hs
      obtain ⟨w, hw, h1, h2⟩ := (hdone s hs).area
      have hgap' := hgap w hw
      rw [h1, h2] at hgap'
      exact (hdone s hs).mmap hl (hfits s (by simp [hs])) hph hgap' hk hr hsub
    obtain ⟨k', proc', files', hrest, hall⟩ := ih (done ++ [ph]) (hr.ready hk) hvalid' hopen1 htail
      (by rw [Kernel.withMach_mach]; omega) (by simpa using hfits) (by
        intro s hs
        rcases mem_append.1 hs with hs | hs
        · exact hkept s hs
        · obtain rfl := mem_singleton.1 hs
          exact inMemory_new hl hph hr ⟨_, hnew, rfl, rfl⟩ hbytes)
    refine ⟨k', proc', files', ?_, by simpa using hall⟩
    rw [mapSegments, heq, bind_some]
    exact hrest

/-- All bytes come from the file, so those behind `p_filesz` are zero only if they are in the file. -/
private theorem InMemory.loaded_iff (h : InMemory k proc l s) (hs : s.Fits l) : SegmentLoaded k l s ↔
    ∀ i, s.pFilesz.toNat ≤ i → i < s.pMemsz.toNat → l[s.pOffset.toNat + i]? = some 0 := by
  have hin := hs.inFile
  have hbyte : ∀ i < s.pMemsz.toNat, load k (s.pVaddr + ofNat 64 i) = l[s.pOffset.toNat + i]? := by
    intro i hi
    obtain ⟨c, hc⟩ : ∃ c, l[s.pOffset.toNat + i]? = some c := ⟨_, List.getElem?_eq_getElem (by omega)⟩
    rw [hc]
    refine h.bytes i c ?_
    rw [getElem?_take_of_lt hi, getElem?_drop, hc]
  constructor
  · intro hloaded i h1 h2
    have hi := hloaded i h2
    rw [hbyte i h2, if_neg (by omega)] at hi
    exact hi
  · intro hzero i hi
    rw [hbyte i hi]
    split
    · rfl
    · exact hzero i (by omega) hi

/-- An ELF file with the program headers behind its header. -/
structure IsElfFile (l : List (BitVec 8)) : Prop where
  magic : l.take 4 = magic
  phoff : phoffOf l = 64
  table : 64 + 56 * phnumOf l ≤ l.length

/-- A process calls `load_elf` with the name of a file, which has the contents `l`. The local variables are apart from
the archive. -/
structure Called (t : Tape) (m : Locals) (proc : Proc) (files : Files) (filename l : List (BitVec 8))
    (ehdr phdrs : Word) : Prop where
  ready : Ready m.kernel proc
  areas : Vma.Valid proc.mmap
  archive : ArchiveIn t m.kernel proc
  file : ∃ i x, found t.members filename = some i ∧ t.members[i]? = some x ∧ x.Regular ∧ x.contents = l
  name : 0 ∉ filename
  slot : files.HasFree
  off : ∀ a, t.Has a → m.stack a = none
  ehdr_local : ∀ j < 64, (m.stack (ehdr + ofNat 64 j)).isSome
  phdrs_local : ∀ j < 56 * phnumOf l, (m.stack (phdrs + ofNat 64 j)).isSome

variable {t : Tape} {m : Locals} {filename : List (BitVec 8)} {ehdr phdrs : Word} {fuel : Nat}

private theorem numberAt_take {o : Nat} (h : o + n ≤ 64) : numberAt (l.take 64) o n = numberAt l o n := by
  rw [numberAt, numberAt, drop_take, take_take, Nat.min_eq_left (by omega)]

/-- `load_elf` reads the headers and maps the segments that they describe. -/
private theorem Called.loadElf_eq (h : Called t m proc files filename l ehdr phdrs) (helf : IsElfFile l)
    (hfuel : t.members.length < fuel) : ∃ (m1 : Locals) (files1 : Files) (fd : Nat),
      OpenOn m.kernel proc files1 fd l ∧ loadElf fuel m t.start files filename true ehdr phdrs =
        (mapSegments fd (segments l) m.kernel files1).map fun (k, files') =>
          ({ m1 with kernel := k }, (sysClose files' fd).1, entryOf l) := by
  obtain ⟨i, x, hfound, hx, hreg, rfl⟩ := h.file
  obtain ⟨fd, -, hadd⟩ := addToProcessFileTable_eq h.slot
  have htable := helf.table
  have hbytes : Holds m t.start (tape t.members) := by
    intro j c hc
    rw [load_kernel (h.off _ (Tape.has_add (List.getElem?_eq_some_iff.1 hc).1))]
    exact h.archive.bytes j c hc
  have hopen : sysOpen fuel m t.start files filename true = some (files.set fd (some ⟨t.headerOf i, 0⟩), some fd) := by
    rw [sysOpen_eq hbytes h.name hadd hfuel, hfound]
    rfl
  have hat : At t i x m (files.set fd (some ⟨t.headerOf i, 0⟩)) fd 0 := ⟨hbytes, hx, hreg, h.off, Files.set_same _ _ _⟩
  -- the header
  obtain ⟨m1, r, hread, hfills1, hhas1, hat1⟩ := hat.read sizeofEhdr (by show 0 + 64 ≤ _; omega) h.ehdr_local
  rw [show 0 + sizeofEhdr.toNat = 64 from rfl, Files.set_set] at hread hat1
  rw [drop_zero, show sizeofEhdr.toNat = 64 from rfl] at hhas1
  have hlen : (x.contents.take 64).length = 64 := by
    rw [length_take]
    omega
  have hmagic : isElf m1 ehdr magic = some true := by
    rw [isElf_eq hhas1.holds (by rw [hlen]; decide), take_take]
    exact congrArg some (decide_eq_true helf.magic)
  have hphnum : loadLE m1 (ehdr + ofNat 64 ePhnum) 2 = some (phnumOf x.contents) := by
    rw [loadLE_numberAt hhas1.holds (by rw [hlen]; decide), numberAt_take (by decide)]
    rfl
  have hentry : loadLE m1 (ehdr + ofNat 64 eEntry) 8 = some (numberAt x.contents eEntry 8) := by
    rw [loadLE_numberAt hhas1.holds (by rw [hlen]; decide), numberAt_take (by decide)]
  -- the program headers
  have hthere : ∀ j < 56 * phnumOf x.contents, (m1.stack (phdrs + ofNat 64 j)).isSome := by
    intro j hj
    by_cases hin : ∃ o < sizeofEhdr.toNat, phdrs + ofNat 64 j = ehdr + ofNat 64 o
    · obtain ⟨o, ho, heq⟩ := hin
      rw [heq]
      exact hfills1.there o ho
    · rw [hfills1.stack_eq _ fun o ho heq => hin ⟨o, ho, heq⟩]
      exact h.phdrs_local j hj
  obtain ⟨m2, hheaders, hfills2, hhas2, hat2⟩ := hat1.readPrgmHeaders htable hthere
  have hkernel : m2.kernel = m.kernel := hfills2.kernel_eq.trans hfills1.kernel_eq
  refine ⟨m2, _, fd, ⟨t, i, x, _, h.archive, hx, hreg, rfl, hat2.slot⟩, ?_⟩
  rw [loadElf, hopen, bind_some]
  dsimp only
  rw [hread, bind_some]
  dsimp only
  rw [hmagic, bind_some]
  dsimp only
  rw [hphnum, bind_some, hentry, bind_some, hheaders, bind_some]
  dsimp only
  rw [loadSegments_eq hhas2 htable, hkernel, Option.map_map, segments, helf.phoff]
  rfl

/-- For an ELF file with aligned segments that `mmap` places at their addresses: `load_elf` returns the entry point,
and each segment is in memory as it should be if and only if the file has zeros behind `p_filesz` where a segment goes
on. -/
theorem segments_loaded_iff (t : Tape) (m : Locals) (proc : Proc) (files : Files) (filename l : List (BitVec 8))
    (ehdr phdrs : Word) (h : Called t m proc files filename l ehdr phdrs) (helf : IsElfFile l)
    (hfits : ∀ s ∈ segments l, s.Fits l) (hplaced : Placed m.kernel.env.toEnv (segments l) proc.mmap)
    (hmem : 4 * pagesOf (segments l) ≤ freeCount m.kernel.sys.mach.pages) (fuel : Nat)
    (hfuel : t.members.length < fuel) :
    ∃ m' files', loadElf fuel m t.start files filename true ehdr phdrs = some (m', files', entryOf l) ∧
      ((∀ s ∈ segments l, SegmentLoaded m'.kernel l s) ↔
        ∀ s ∈ segments l, ∀ i, s.pFilesz.toNat ≤ i → i < s.pMemsz.toNat → l[s.pOffset.toNat + i]? = some 0) := by
  obtain ⟨m1, files1, fd, hopen, heq⟩ := h.loadElf_eq helf hfuel
  obtain ⟨k', proc', files', hmap, hin⟩ := mapSegments_loads [] h.ready h.areas hopen hplaced hmem hfits (by simp)
  refine ⟨{ m1 with kernel := k' }, (sysClose files' fd).1, by rw [heq, hmap]; rfl, ?_⟩
  exact forall₂_congr fun s hs => (hin s hs).loaded_iff (hfits s hs)

def smallElf (filesz : BitVec 8) : List (BitVec 8) :=
  [0x7f, 0x45, 0x4c, 0x46, 2, 1, 1, 0, 0, 0, 0, 0, 0, 0, 0, 0,
    2, 0, 0x3e, 0, 1, 0, 0, 0, 0x78, 0, 0x40, 0, 0, 0, 0, 0,
    64, 0, 0, 0, 0, 0, 0, 0, 0, 0, 0, 0, 0, 0, 0, 0,
    0, 0, 0, 0, 64, 0, 56, 0, 1, 0, 64, 0, 0, 0, 0, 0,
    1, 0, 0, 0, 7, 0, 0, 0, 0, 0, 0, 0, 0, 0, 0, 0,
    0, 0, 0x40, 0, 0, 0, 0, 0, 0, 0, 0x40, 0, 0, 0, 0, 0,
    filesz, 0, 0, 0, 0, 0, 0, 0, 128, 0, 0, 0, 0, 0, 0, 0,
    0, 0x10, 0, 0, 0, 0, 0, 0, 0xeb, 0xfe, 0x61, 0x64, 0x69, 0x78, 0, 0]

private theorem length_smallElf (filesz : BitVec 8) : (smallElf filesz).length = 128 := by
  simp only [smallElf, length_cons, length_nil]

private theorem smallElf_fits {filesz : BitVec 8} {g : Word}
    (hsegments : segments (smallElf filesz) = [⟨1, 7, 0, 0x400000, g, 128⟩]) :
    (∀ s ∈ segments (smallElf filesz), s.Fits (smallElf filesz)) ∧
      Placed quietEnv.toEnv (segments (smallElf filesz)) [] ∧ pagesOf (segments (smallElf filesz)) = 1 := by
  rw [hsegments]
  have hplaced : (Vma.mmap quietEnv.toEnv [] 0x400000 128 (segmentProt 7) 0).2 = 0x400000 := by decide
  have hpages : Mmap.numPages 128#64 = 1 := by decide
  refine ⟨fun s hs => ?_, ⟨hplaced, trivial⟩, by simp [pagesOf, hpages]⟩
  obtain rfl := mem_singleton.1 hs
  exact ⟨by show (0x400000 : Word).toNat % 4096 = 0; decide,
    by show (0x400000 : Word).toNat + (128 : Word).toNat + 4096 ≤ 2 ^ 47; decide,
    by rw [length_smallElf]; show (0 : Word).toNat + (128 : Word).toNat ≤ 128; decide⟩

def stackPage (a : Word) : Option (BitVec 8) := if 0xffffffff80200 = a.toNat / 4096 then some 0 else none

/-- There is such a call for every small file. -/
theorem exists_called (l : List (BitVec 8)) (hl : l.length ≤ 0x30000) (hnum : 56 * phnumOf l ≤ 0x800) :
    ∃ t m proc files, Called t m proc files [0x61] l 0xffffffff80200000 0xffffffff80200800 ∧ t.members.length = 1 ∧
      800 ≤ freeCount m.kernel.sys.mach.pages ∧ proc.mmap = [] ∧ m.kernel.env = quietEnv := by
  obtain ⟨k, proc, hready, hsrc, hc, hmmap, henv, -⟩ := exists_ready_oneFile l hl
  obtain ⟨x, hx, hreg, hcontents⟩ := @oneFile_member l hl
  have hlocal : ∀ o j : Nat, o + j < 0x1000 → (stackPage (ofNat 64 (0xffffffff80200000 + o) + ofNat 64 j)).isSome := by
    intro o j hj
    have hto : (ofNat 64 (0xffffffff80200000 + o) + ofNat 64 j).toNat = 0xffffffff80200000 + o + j := by
      rw [← ofNat_add, toNat_ofNat]
      exact Nat.mod_eq_of_lt (by omega)
    unfold stackPage
    rw [if_pos (by omega)]
    rfl
  refine ⟨(oneFile l hl).toTape, ⟨k, stackPage⟩, proc, ⟨fun _ => none, 1024⟩, ⟨hready, by rw [hmmap]; exact .nil, hsrc,
    ⟨0, x, ?_, hx, hreg, hcontents⟩, by decide, ⟨0, by decide, rfl⟩, fun a ha => ?_, fun j hj => ?_, fun j hj => ?_⟩,
      rfl, hc,
    hmmap, henv⟩
  · refine (@lookup_toMember [fileEntry l hl] ?_ [0x61] (by simp)).1
    intro e he
    obtain rfl := mem_singleton.1 he
    rfl
  · have h1 := ha.1
    rw [oneFile_start] at h1
    exact if_neg (by omega)
  · exact hlocal 0 j (by omega)
  · exact hlocal 0x800 j (by omega)

theorem segments_loaded_whole : ∃ t m proc files,
    Called t m proc files [0x61] (smallElf 128) 0xffffffff80200000 0xffffffff80200800 ∧ ∃ m' files',
      loadElf 2 m t.start files [0x61] true 0xffffffff80200000 0xffffffff80200800 = some (m', files', 0x400078) ∧
      SegmentLoaded m'.kernel (smallElf 128) ⟨1, 7, 0, 0x400000, 128, 128⟩ := by
  have hsegments : segments (smallElf 128) = [⟨1, 7, 0, 0x400000, 128, 128⟩] := by decide +kernel
  obtain ⟨hfits, hplaced, hpages⟩ := smallElf_fits hsegments
  obtain ⟨t, m, proc, files, hcall, hone, hc, hmmap, henv⟩ :=
    exists_called (smallElf 128) (by rw [length_smallElf]; decide) (by decide +kernel)
  have hentry : entryOf (smallElf 128) = 0x400078 := by decide +kernel
  obtain ⟨m', files', heq, hiff⟩ := segments_loaded_iff t m proc files _ _ _ _ hcall
    ⟨by decide +kernel, by decide +kernel, by decide +kernel⟩ hfits (by rw [henv, hmmap]; exact hplaced) (by omega) 2
      (by omega)
  rw [hentry] at heq
  refine ⟨t, m, proc, files, hcall, m', files', heq, hiff.2 (fun s hs i h1 h2 => ?_) _ (by rw [hsegments]; simp)⟩
  rw [hsegments] at hs
  obtain rfl := mem_singleton.1 hs
  exact absurd (h1.trans_lt h2) (lt_irrefl _)

def Phdr.Apart (s s' : Phdr) : Prop :=
  (s.pVaddr.toNat + s.pMemsz.toNat + 4095) / 4096 ≤ s'.pVaddr.toNat / 4096 ∨
    (s'.pVaddr.toNat + s'.pMemsz.toNat + 4095) / 4096 ≤ s.pVaddr.toNat / 4096

/-- Behind the 120 bytes of the file that belong to the segment, the file has other bytes, and these are in memory too.
-/
theorem segments_loaded_tail : ¬ ∀ t m proc files filename l ehdr phdrs, Called t m proc files filename l ehdr phdrs →
    IsElfFile l → (∀ s ∈ segments l, s.Fits l ∧ s.pFilesz.toNat ≤ s.pMemsz.toNat) → (segments l).Pairwise Phdr.Apart →
    Placed m.kernel.env.toEnv (segments l) proc.mmap → 4 * pagesOf (segments l) ≤ freeCount m.kernel.sys.mach.pages →
    ∀ fuel m' files', loadElf fuel m t.start files filename true ehdr phdrs = some (m', files', entryOf l) →
      ∀ s ∈ segments l, SegmentLoaded m'.kernel l s := by
  intro h
  have hsegments : segments (smallElf 120) = [⟨1, 7, 0, 0x400000, 120, 128⟩] := by decide +kernel
  have helf : IsElfFile (smallElf 120) := ⟨by decide +kernel, by decide +kernel, by decide +kernel⟩
  obtain ⟨hfits, hplaced, hpages⟩ := smallElf_fits hsegments
  obtain ⟨t, m, proc, files, hcall, hone, hc, hmmap, henv⟩ :=
    exists_called (smallElf 120) (by rw [length_smallElf]; decide) (by decide +kernel)
  rw [← henv, ← hmmap] at hplaced
  have hfuel : t.members.length < 2 := by omega
  obtain ⟨m1, files1, fd, hopen, heq⟩ := hcall.loadElf_eq helf hfuel
  obtain ⟨k', proc', files', hmap, hin⟩ := mapSegments_loads [] hcall.ready hcall.areas hopen hplaced (by omega)
    hfits (by simp)
  have hs : (⟨1, 7, 0, 0x400000, 120, 128⟩ : Phdr) ∈ segments (smallElf 120) := by rw [hsegments]; simp
  have hloaded := h t m proc files _ _ _ _ hcall helf (fun s hs => ⟨hfits s hs, ?_⟩) (by rw [hsegments]; simp) hplaced
    (by omega) 2 _ _ (by rw [heq, hmap]; rfl) _ hs
  · rw [(hin _ hs).loaded_iff (hfits _ hs)] at hloaded
    exact absurd (hloaded 120 (by decide) (by decide)) (by decide +kernel)
  · rw [hsegments] at hs
    obtain rfl := mem_singleton.1 hs
    decide

end Adix.Elf
