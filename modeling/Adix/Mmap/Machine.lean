import Adix.Mmap.Pages
import Adix.Space.Protect

/-!
# A process in a machine with an archive

For every archive there is a machine that has it in memory, where the kernel image is, and a process that has nothing
else mapped.
-/

namespace Adix.Mmap

open PageTable PhysPages Cow Space Tarfs List Option
open BitVec (ofNat)

variable {s s' : Mach} {r m j o q : Nat} {a b v : Word} {l : List (BitVec 8)} {t : Tape}

/-- A process with its tables; what is mapped is in use. -/
structure Ready (k : Kernel) (proc : Proc) : Prop where
  running : k.proc? = some proc
  wf : WellFormed (· ≠ selfRefEntry) k.sys.mach (· = proc.pml4)
  self : SelfRef k.sys.mach proc.pml4
  used : ∀ b e, indexPml4e b ≠ selfRefEntry → leaf k.sys.mach.mem proc.pml4 b = some e →
    ¬ Free k.sys.mach (hardwareFormat.next e)

/-- `fd` is open on a file with the contents `l`, in an archive that is in memory. -/
def OpenOn (k : Kernel) (proc : Proc) (files : Files) (fd : Nat) (l : List (BitVec 8)) : Prop :=
  ∃ t i x p, ArchiveIn t k proc ∧ t.members[i]? = some x ∧ x.Regular ∧ x.contents = l ∧
    files.openFiles fd = some ⟨t.headerOf i, p⟩

theorem OpenOn.short {k : Kernel} {proc : Proc} {files : Files} {fd : Nat} (h : OpenOn k proc files fd l) :
    l.length < 2 ^ 31 := by
  obtain ⟨t, i, x, p, hsrc, hx, hreg, rfl, -⟩ := h
  exact (Tape.openFile hsrc.bytes hx hreg).file.short

def Span (v : Word) (n : Nat) (a : Word) : Prop := v.toNat ≤ a.toNat ∧ a.toNat < v.toNat + 4096 * n

def wordAt (l : List (BitVec 8)) (o : Nat) : Word := (List.range 8).foldl (fun w j => setByte w j (l.getD (o + j) 0)) 0

private theorem getByte_wordAt (hj : j < 8) : getByte (wordAt l o) j = l.getD (o + j) 0 := by
  have hfold : ∀ n ≤ 8, j < n →
      getByte ((List.range n).foldl (fun w j => setByte w j (l.getD (o + j) 0)) (0 : Word)) j = l.getD (o + j) 0 := by
    intro n hn hjn
    induction n with
    | zero => omega
    | succ n ih =>
      rw [range_succ, foldl_append, foldl_cons, foldl_nil, getByte_setByte hj (by omega)]
      by_cases hlast : j = n
      · rw [if_pos hlast, hlast]
      · rw [if_neg hlast]
        exact ih (by omega) (by omega)
  exact hfold 8 le_rfl hj

def freePages : Chunk where
  physAddrStart := 0x1000000
  physAddrEnd := 0x1400000
  physPagePointer := List.replicate 1024 ⟨0, 0⟩
  aligned := rfl
  length := by simp only [length_replicate, PhysPages.sizeofPage]
  nonempty := by decide
  fits := by simp [addrSpace]

def archiveMach (l : List (BitVec 8)) : Mach where
  mem q i := if q < 0x100000 then if q = 0x1000 ∧ i = selfRefEntry then 0x1003 else 0 else wordAt l
    (q - 0x100000 + 8 * i.toNat)
  pages := ⟨[freePages], [⟨0x1000000, 1024⟩]⟩
  base := 0

private theorem archiveMach_empty (l : List (BitVec 8)) (i : Index) (hi : i ≠ selfRefEntry) :
    (archiveMach l).mem 0x1000 i = 0 := by
  unfold archiveMach
  simp [hi]

private theorem free_archiveMach (h : Free (archiveMach l) q) : 0x1000000 ≤ q :=
  (PhysPages.covers_run (by decide) h).2.1

private theorem wellFormed_archiveMach (l : List (BitVec 8)) :
    WellFormed (· ≠ selfRefEntry) (archiveMach l) (· = 0x1000) :=
  wellFormed_run (archiveMach_empty l) (by decide) (by decide) (by decide) (by decide)

private theorem selfRef_archiveMach (l : List (BitVec 8)) : SelfRef (archiveMach l) 0x1000 := by
  have hword : (archiveMach l).mem 0x1000 selfRefEntry = 0x1003 := rfl
  show hardwareFormat.link ((archiveMach l).mem 0x1000 selfRefEntry) = some 0x1000
  rw [hword]
  decide +kernel

private theorem byteOf_archiveMach {i : Nat} {c : BitVec 8} (hv : v.toNat % 4096 = 0) (ha : a.toNat = v.toNat + i)
    (hc : l[i]? = some c) : Kernel.byteOf ((archiveMach l).mem (0x100000 + 4096 * (i / 4096))) a = c := by
  show getByte (if 0x100000 + 4096 * (i / 4096) < 0x100000 then _ else _) _ = _
  rw [if_neg (by omega), getByte_wordAt (by omega), toNat_indexWord,
    show 0x100000 + 4096 * (i / 4096) - 0x100000 + 8 * (a.toNat / 8 % 512) + a.toNat % 8 = i by omega,
    getD_eq_getElem?_getD, hc]
  rfl

private theorem tableOf_archiveMach (h : TableOf 0x1000 (archiveMach l) q) : q = 0x1000 := by
  obtain ⟨r, σ, rfl, hσ, hq⟩ := h
  cases σ with
  | nil => exact (some.inj hq).symm
  | cons i σ =>
    rw [Radix.walk_cons, archiveMach_empty l i (hσ.2 i rfl), link_zero] at hq
    cases hq

private theorem leaf_archiveMach (hb : indexPml4e b ≠ selfRefEntry) : leaf (archiveMach l).mem 0x1000 b = none := by
  unfold leaf tablePath
  rw [Radix.lookup_cons, archiveMach_empty l _ hb, link_zero]
  rfl

theorem kernel_slot (ha : kernmem ≤ a.toNat) : indexPml4e a ≠ selfRefEntry := by
  rw [indexPml4e_top (Nat.le_trans (by decide) ha)]
  decide

private theorem exists_mapped (hv : kernmem ≤ v.toNat) (halign : v.toNat % 4096 = 0)
    (hend : v.toNat + 4096 * m ≤ 2 ^ 64) (hm : m ≤ 64) :
    ∃ s', Remaps 0x1000 (archiveMach l) s' (Span v m) ∧ 1024 ≤ freeCount s'.pages + 3 * m ∧ ∀ a, Span v m a →
        leaf s'.mem 0x1000 a = some (leafEntry (ofNat 64 (0x100000 + 4096 * ((a.toNat - v.toNat) / 4096))) 3) := by
  induction m with
  | zero =>
    refine ⟨archiveMach l, .refl (wellFormed_archiveMach l) (selfRef_archiveMach l), le_rfl, fun a ha => ?_⟩
    unfold Span at ha
    omega
  | succ m ih =>
    rw [Nat.mul_succ, ← Nat.add_assoc] at hend
    obtain ⟨s, hs, hc, hleaf⟩ := ih (by omega) (by omega)
    have hto : (v + ofNat 64 (4096 * m)).toNat = v.toNat + 4096 * m := toNat_add_of_lt (by omega)
    have hnext : kernmem ≤ (v + ofNat 64 (4096 * m)).toNat := by omega
    have hphys : ofNat 64 (0x100000 + 4096 * m) ≠ (0 : Word) := by
      intro h0
      have := congrArg BitVec.toNat h0
      rw [BitVec.toNat_ofNat, Nat.mod_eq_of_lt (by omega)] at this
      change _ = 0 at this
      omega
    have hmissing := missing_le s.mem 0x1000 (v + ofNat 64 (4096 * m))
    obtain ⟨s', -, hmaps, hcount⟩ := updateCurrPageTable_maps hs.wf hs.self (kernel_slot hnext) hphys (by omega) 3
    have hcanon : ∀ a : Word, v.toNat ≤ a.toNat → Vma.Unmap.Canonical a := by
      intro a ha
      unfold kernmem at hv
      exact .inr (by omega)
    refine ⟨s', (hs.mono ?_).trans ((Remaps.of_maps hmaps).mono ?_), by omega, fun a ha => ?_⟩
    · intro a ha
      unfold Span at ha ⊢
      omega
    · rintro _ rfl
      unfold Span
      omega
    · obtain ⟨h1, h2⟩ := ha
      by_cases hlast : a.toNat < v.toNat + 4096 * m
      · rw [hmaps.elsewhere a (kernel_slot (by omega)) fun hsame => ?_, hleaf a ⟨h1, hlast⟩]
        have := page_eq_of_samePage (hcanon a h1) (hcanon _ (by omega)) hsame
        omega
      · have hpage : SamePage a (v + ofNat 64 (4096 * m)) := by
          apply samePage_of_div
          omega
        rw [leaf_samePage hpage, hmaps.here, show (a.toNat - v.toNat) / 4096 = m by omega]

/-- The process has no areas and nothing mapped in the lower half, and many pages are free. -/
structure Fresh (k : Kernel) (proc : Proc) : Prop where
  room : 800 ≤ freeCount k.sys.mach.pages
  areas : proc.mmap = []
  env : k.env = quietEnv
  start : k.sys.startKernel = 0xffffffff80000000
  lower : ∀ a : Word, a.toNat < 2 ^ 47 → leaf k.sys.mach.mem proc.pml4 a = none

/-- The frames of the archive are neither tables nor free, so that the table can be built page by page without losing
them. -/
private theorem exists_ready (t : Tape) (halign : t.start.toNat % 4096 = 0) (hlen : (tape t.members).length ≤ 0x40000)
    (hfits : t.start.toNat + 0x40000 ≤ 2 ^ 64) : ∃ k proc, Ready k proc ∧ ArchiveIn t k proc ∧ Fresh k proc := by
  obtain ⟨s, hs, hc, hleaf⟩ := exists_mapped (l := tape t.members) (m := 64) t.placed halign (by omega) le_rfl
  -- the frame of a page of the archive
  have hdata : ∀ a, Span t.start 64 a → ∃ e, leaf s.mem 0x1000 a = some e ∧
      hardwareFormat.next e = 0x100000 + 4096 * ((a.toNat - t.start.toNat) / 4096) ∧
      ¬ TableOf 0x1000 s (hardwareFormat.next e) ∧ ¬ Free s (hardwareFormat.next e) ∧
      s.mem (hardwareFormat.next e) = (archiveMach (tape t.members)).mem (hardwareFormat.next e) := by
    intro a ha
    obtain ⟨h1, h2⟩ := ha
    have hpage : PageAddr (0x100000 + 4096 * ((a.toNat - t.start.toNat) / 4096)) := ⟨by omega, by omega⟩
    refine ⟨_, hleaf a ⟨h1, h2⟩, hardware_next_leafEntry hpage, ?_⟩
    rw [hardware_next_leafEntry hpage]
    have htable : ¬ TableOf 0x1000 (archiveMach (tape t.members))
        (0x100000 + 4096 * ((a.toNat - t.start.toNat) / 4096)) := by
      intro h
      have := tableOf_archiveMach h
      omega
    have hfree : ¬ Free (archiveMach (tape t.members)) (0x100000 + 4096 * ((a.toNat - t.start.toNat) / 4096)) := by
      intro h
      have := free_archiveMach h
      omega
    exact ⟨(hs.data htable hfree).1, (hs.data htable hfree).2, hs.outside _ htable fun h => absurd h hfree⟩
  have hspan : ∀ a, t.Has a → Span t.start 64 a := by
    intro a ha
    exact ⟨ha.1, by have := ha.2; omega⟩
  refine ⟨⟨⟨s, [⟨0x1000, []⟩], [], 0xffffffff80000000⟩, 0, quietEnv⟩, ⟨0x1000, []⟩, ⟨rfl, hs.wf, hs.self, ?_⟩, ⟨?_, ?_⟩,
    ?_, rfl, rfl, rfl, ?_⟩
  · intro b e hb he
    by_cases hin : ∃ a, Span t.start 64 a ∧ SamePage b a
    · obtain ⟨a, ha, hsame⟩ := hin
      obtain ⟨e', he', -, -, hfree, -⟩ := hdata a ha
      rw [← leaf_samePage hsame] at he'
      cases he.symm.trans he'
      exact hfree
    · have hnone := (hs.elsewhere b hb fun a ha hsame => hin ⟨a, ha, hsame⟩).trans (leaf_archiveMach hb)
      cases he.symm.trans hnone
  · intro i b hb
    have hi : i < (tape t.members).length := (List.getElem?_eq_some_iff.1 hb).1
    have hto : (t.start + ofNat 64 i).toNat = t.start.toNat + i := Tape.toNat_add hi
    have ha := Tape.has_add hi
    obtain ⟨e, he, hframe, -, -, hmem⟩ := hdata _ (hspan _ ha)
    have hp : Kernel.proc? ⟨⟨s, [⟨0x1000, []⟩], [], 0xffffffff80000000⟩, 0, quietEnv⟩ = some ⟨0x1000, []⟩ := rfl
    rw [Kernel.load_eq hp hs.wf (kernel_slot (t.placed.trans ha.1)), he, map_some, hmem, hframe, hto,
      Nat.add_sub_cancel_left]
    exact congrArg some (byteOf_archiveMach halign hto hb)
  · intro a ha
    obtain ⟨e, he, -, ht, hf, -⟩ := hdata a (hspan a ha)
    exact ⟨kernel_slot (t.placed.trans ha.1), e, he, ht, hf⟩
  · show 800 ≤ freeCount s.pages
    omega
  · intro a ha
    have hslot := Vma.Unmap.lower_slot ha
    refine (hs.elsewhere a hslot fun b hb => ?_).trans (leaf_archiveMach hslot)
    intro hsame
    have hb' : 2 ^ 64 - 2 ^ 47 ≤ b.toNat := by
      have := t.placed
      have := hb.1
      unfold kernmem at *
      omega
    exact Vma.Unmap.not_samePage_upper hb' ha fun i h1 h2 => (hsame i h1 h2).symm

def fileEntry (l : List (BitVec 8)) (hl : l.length ≤ 0x30000) : Entry :=
  plainEntry [0x61] .regular l smallFile.name_ne smallFile.name_length smallFile.name_text (by omega)

private theorem length_archive_file {hl : l.length ≤ 0x30000} : (archive [fileEntry l hl]).length ≤ 0x40000 := by
  have hcontents : (fileEntry l hl).contents = l := rfl
  rw [length_archive_cons, length_encode, archive, flatMap_nil, nil_append, length_replicate, hcontents]
  split <;> omega

def oneFile (l : List (BitVec 8)) (hl : l.length ≤ 0x30000) : Image where
  entries := [fileEntry l hl]
  start := 0xffffffff80300000
  placed := smallImage.placed
  fits := le_trans (Nat.add_le_add_left length_archive_file _) (by decide)

theorem oneFile_start {hl : l.length ≤ 0x30000} : (oneFile l hl).toTape.start.toNat = 0xffffffff80300000 := by
  show BitVec.toNat (0xffffffff80300000 : Word) = _
  decide

theorem oneFile_member {hl : l.length ≤ 0x30000} :
    ∃ x, (oneFile l hl).toTape.members[0]? = some x ∧ x.Regular ∧ x.contents = l :=
  ⟨(fileEntry l hl).toMember, rfl, ⟨toMember_typeflag, toMember_unlinked rfl⟩, rfl⟩

theorem exists_ready_oneFile (l : List (BitVec 8)) (hl : l.length ≤ 0x30000) :
    ∃ k proc, Ready k proc ∧ ArchiveIn (oneFile l hl).toTape k proc ∧ Fresh k proc := by
  have hlen : (tape (oneFile l hl).toTape.members).length ≤ 0x40000 := by
    show (tape ([fileEntry l hl].map Entry.toMember)).length ≤ _
    rw [tape_toMember]
    exact length_archive_file
  exact exists_ready (oneFile l hl).toTape (by rw [oneFile_start]) hlen (by rw [oneFile_start]; decide)

/-- There is a process with an open file of any contents up to this length. -/
theorem exists_open (l : List (BitVec 8)) (hl : l.length ≤ 0x30000) :
    ∃ k proc files, Ready k proc ∧ OpenOn k proc files 3 l ∧ Fresh k proc := by
  obtain ⟨k, proc, hready, hsrc, hrest⟩ := exists_ready_oneFile l hl
  obtain ⟨x, hx, hreg, hcontents⟩ := @oneFile_member l hl
  refine ⟨k, proc, Files.set ⟨fun _ => none, 1024⟩ 3 (some ⟨(oneFile l hl).toTape.headerOf 0, 0⟩), hready, ?_, hrest⟩
  exact ⟨_, 0, x, 0, hsrc, hx, hreg, hcontents, Files.set_same _ _ _⟩

end Adix.Mmap
