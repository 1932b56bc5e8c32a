import Adix.Tarfs.Lookup
import Adix.Mmap.Extent

/-!
# Loading programs (`sys/parser/parseelf.c`)

`Locals` is the memory of the kernel together with the local variables of `load_elf`. The call finds the bytes of the
file in them: the ELF header in the first 64, and the program headers behind it. `do_mmap` always returns 0, so that
the loop is never left before its end.
-/

namespace Adix.Elf

open PageTable Cow Tarfs Mmap VirtMem
open BitVec (ofNat)

structure Locals where
  kernel : Kernel
  stack : Word → Option (BitVec 8)

instance : VirtMem Locals where
  load m a := (m.stack a).or (load m.kernel a)
  store m a b :=
    if (m.stack a).isSome then some { m with stack := fun x => if x = a then some b else m.stack x }
    else (store m.kernel a b).map fun k => { m with kernel := k }

/-- `Elf64_Phdr`, without `p_paddr` and `p_align`. -/
structure Phdr where
  pType : BitVec 32
  pFlags : BitVec 32
  pOffset : Word
  pVaddr : Word
  pFilesz : Word
  pMemsz : Word
  deriving DecidableEq

def sizeofEhdr : Word := 64
def sizeofPhdr : Word := 56

/-- The offsets of `e_entry`, `e_phoff` and `e_phnum` in `Elf64_Ehdr`. -/
def eEntry : Nat := 24
def ePhoff : Nat := 32
def ePhnum : Nat := 56

def magic : List (BitVec 8) := [0x7f, 0x45, 0x4c, 0x46]

def ptLoad : BitVec 32 := 1

def ptW : Word := 2

variable {M : Type} [VirtMem M]

/-- The comparisons of `is_elf`, one byte after the other. -/
def isElf (m : M) (a : Word) : List (BitVec 8) → Option Bool
  | [] => some true
  | c :: rest => (load m a).bind fun b => if b = c then isElf m (a + 1) rest else some false

def loadPhdr (m : M) (a : Word) : Option Phdr :=
  (loadLE m a 4).bind fun pType => (loadLE m (a + 4) 4).bind fun pFlags => (loadLE m (a + 8) 8).bind fun pOffset =>
    (loadLE m (a + 16) 8).bind fun pVaddr => (loadLE m (a + 32) 8).bind fun pFilesz =>
      (loadLE m (a + 40) 8).map fun pMemsz =>
      ⟨ofNat 32 pType, ofNat 32 pFlags, ofNat 64 pOffset, ofNat 64 pVaddr, ofNat 64 pFilesz,
        ofNat 64 pMemsz⟩

/-- The loop that reads `n` program headers to `a` (`read_prgm_header`). -/
def readPrgmHeaders (fd : Nat) : Nat → M → Files → Word → Option (M × Files)
  | 0, m, files, _ => some (m, files)
  | n + 1, m, files, a => (sysRead m files fd a sizeofPhdr).bind fun (m, files, _) =>
    readPrgmHeaders fd n m files (a + sizeofPhdr)

def segmentProt (flags : BitVec 32) : Word :=
  if flags.setWidth 64 &&& ptW ≠ 0 then pageTransUserSupervisor ||| pageTransReadWrite else pageTransUserSupervisor

/-- The loop that maps the segments of the `n` program headers from `a` on. -/
def loadSegments (fd : Nat) : Nat → Locals → Files → Word → Option (Locals × Files)
  | 0, m, files, _ => some (m, files)
  | n + 1, m, files, a => (loadPhdr m a).bind fun ph =>
    if ph.pType = ptLoad then
      (doMmap m.kernel files fd ph.pOffset ph.pVaddr ph.pMemsz (segmentProt ph.pFlags)).bind fun (k, files) =>
        loadSegments fd n { m with kernel := k } files (a + sizeofPhdr)
    else loadSegments fd n m files (a + sizeofPhdr)

/-- `load_elf`, with `elf_header` at `ehdr` and `prgm_header` at `phdrs`: the entry point, or -1. -/
def loadElf (fuel : Nat) (m : Locals) (start : Word) (files : Files) (filename : List (BitVec 8)) (kmallocOk : Bool)
    (ehdr phdrs : Word) : Option (Locals × Files × Word) :=
  (sysOpen fuel m start files filename kmallocOk).bind fun
    | (files, none) => some (m, files, -1)
    | (files, some fd) => (sysRead m files fd ehdr sizeofEhdr).bind fun (m, files, _) =>
      (isElf m ehdr magic).bind fun
        | true => (loadLE m (ehdr + ofNat 64 ePhnum) 2).bind fun numPh =>
          (loadLE m (ehdr + ofNat 64 eEntry) 8).bind fun entry =>
            (readPrgmHeaders fd numPh m files phdrs).bind fun (m, files) =>
              (loadSegments fd numPh m files phdrs).map fun (m, files) => (m, (sysClose files fd).1, ofNat 64 entry)
        | false => some (m, (sysClose files fd).1, -1)

open PhysPages List Option BitVec

variable {m m' m₀ : Locals} {a b buf : Word} {n i fd q : Nat} {c : BitVec 8} {l h : List (BitVec 8)} {files : Files}
  {t : Tape} {x : Member} {S : Word → Prop}

theorem load_stack (ha : m.stack a = some c) : load m a = some c := by
  show (m.stack a).or _ = _
  rw [ha]
  rfl

theorem load_kernel (ha : m.stack a = none) : load m a = load m.kernel a := by
  show (m.stack a).or _ = _
  rw [ha]
  rfl

/-- Nothing has changed but the `n` local bytes from `buf` on. -/
structure Fills (m₀ : Locals) (buf : Word) (n : Nat) (m : Locals) : Prop where
  kernel_eq : m.kernel = m₀.kernel
  stack_eq : ∀ a, (∀ j < n, a ≠ buf + ofNat 64 j) → m.stack a = m₀.stack a
  there : ∀ j < n, (m.stack (buf + ofNat 64 j)).isSome

theorem add_ofNat_ne {j : Nat} (hn : n ≤ 2 ^ 64) (hi : i < n) (hj : j < n) (hij : i ≠ j) :
    buf + ofNat 64 i ≠ buf + ofNat 64 j := by
  intro hc
  have h := congrArg BitVec.toNat ((BitVec.add_right_inj _).1 hc)
  rw [toNat_ofNat, toNat_ofNat, Nat.mod_eq_of_lt (by omega), Nat.mod_eq_of_lt (by omega)] at h
  exact hij h

theorem Fills.buffer (hn : n ≤ 2 ^ 64) (hS : ∀ a, S a → m₀.stack a = none)
    (hbuf : ∀ j < n, (m₀.stack (buf + ofNat 64 j)).isSome) : Buffer (Fills m₀ buf n) S buf n := by
  refine ⟨fun m hm i hi b => ⟨{ m with stack := fun y => if y = buf + ofNat 64 i then some b else m.stack y }, ?_, ?_,
    ?_, fun j hj c hc => ?_, fun a ha => ?_⟩⟩
  · exact if_pos (hm.there i hi)
  · refine ⟨hm.kernel_eq, fun a ha => ?_, fun j hj => ?_⟩
    · rw [← hm.stack_eq a ha]
      exact if_neg (ha i hi)
    · show (if _ then some b else _).isSome
      split
      · rfl
      · exact hm.there j hj
  · exact load_stack (if_pos rfl)
  · obtain ⟨d, hd⟩ := isSome_iff_exists.1 (hm.there j (hj.trans hi))
    rw [load_stack hd] at hc
    exact load_stack ((if_neg (add_ofNat_ne hn (hj.trans hi) hi (by omega))).trans (hd.trans hc))
  · have hne : ∀ j < n, a ≠ buf + ofNat 64 j := by
      rintro j hj rfl
      have := hbuf j hj
      rw [hS _ ha] at this
      cases this
    have hstack : m.stack a = none := (hm.stack_eq a hne).trans (hS a ha)
    rw [load_kernel (m := ⟨_, _⟩) ((if_neg (hne i hi)).trans hstack), load_kernel hstack]

theorem Fills.refl (hbuf : ∀ j < n, (m₀.stack (buf + ofNat 64 j)).isSome) : Fills m₀ buf n m₀ :=
  ⟨rfl, fun _ _ => rfl, hbuf⟩

def StackHas (stack : Word → Option (BitVec 8)) (a : Word) (h : List (BitVec 8)) : Prop :=
  ∀ j c, h[j]? = some c → stack (a + ofNat 64 j) = some c

theorem StackHas.holds (hs : StackHas m.stack a h) : Holds m a h := fun j c hc => load_stack (hs j c hc)

private theorem Fills.stackHas (hf : Fills m₀ buf n m) (hh : Holds m buf h) (hlen : h.length ≤ n) :
    StackHas m.stack buf h := by
  intro j c hc
  obtain ⟨hj, -⟩ := List.getElem?_eq_some_iff.1 hc
  obtain ⟨d, hd⟩ := isSome_iff_exists.1 (hf.there j (by omega))
  have hload := hh j c hc
  rw [load_stack hd] at hload
  rw [hd, hload]

/-- The descriptor stands at the byte `q` of a file of the archive. -/
structure At (t : Tape) (i : Nat) (x : Member) (m : Locals) (files : Files) (fd q : Nat) : Prop where
  bytes : Holds m t.start (tape t.members)
  member : t.members[i]? = some x
  regular : x.Regular
  off : ∀ a, t.Has a → m.stack a = none
  slot : files.openFiles fd = some ⟨t.headerOf i, ofNat 64 q⟩

private theorem Fills.off (hf : Fills m₀ buf n m) (ha : m₀.stack a = none)
    (hbuf : ∀ j < n, (m₀.stack (buf + ofNat 64 j)).isSome) : m.stack a = none := by
  rw [hf.stack_eq a, ha]
  rintro j hj rfl
  have := hbuf j hj
  rw [ha] at this
  cases this

/-- A read delivers the next bytes to the local variables and moves the descriptor on. -/
theorem At.read (h : At t i x m files fd q) (count : Word) (hin : q + count.toNat ≤ x.contents.length)
    (hbuf : ∀ j < count.toNat, (m.stack (buf + ofNat 64 j)).isSome) :
    ∃ m' r, sysRead m files fd buf count =
        some (m', files.set fd (some ⟨t.headerOf i, ofNat 64 (q + count.toNat)⟩), r) ∧
      Fills m buf count.toNat m' ∧ StackHas m'.stack buf ((x.contents.drop q).take count.toNat) ∧
      At t i x m' (files.set fd (some ⟨t.headerOf i, ofNat 64 (q + count.toNat)⟩)) fd (q + count.toNat) := by
  have hopen := Tape.openFile h.bytes h.member h.regular
  have hshort := hopen.file.short
  have hq : (ofNat 64 q).toNat = q := by
    rw [toNat_ofNat, Nat.mod_eq_of_lt (by omega)]
  have hbuffer : Buffer (Fills m buf count.toNat) t.Has buf count.toNat := Fills.buffer (by omega) h.off hbuf
  obtain ⟨m', r, hread, hfills, ⟨-, hholds⟩, hkeep⟩ :=
    sysRead_within hopen h.slot hbuffer (.refl hbuf) (.inl (by omega))
  rw [hq, show min count.toNat (x.contents.length - q) = count.toNat by omega, ← ofNat_add] at hread
  rw [hq] at hholds
  refine ⟨m', r, hread, hfills, hfills.stackHas hholds (by rw [length_take]; omega), ?_, h.member, h.regular,
    fun a ha => hfills.off (h.off a ha) hbuf, Files.set_same _ _ _⟩
  exact h.bytes.congr fun j hj => hkeep _ (Tape.has_add hj)

/-- The loop reads the program headers, one after the other. -/
theorem At.readPrgmHeaders (h : At t i x m files fd q) (hin : q + 56 * n ≤ x.contents.length)
    (hbuf : ∀ j < 56 * n, (m.stack (a + ofNat 64 j)).isSome) :
    ∃ m', readPrgmHeaders fd n m files a = some (m', files.set fd (some ⟨t.headerOf i, ofNat 64 (q + 56 * n)⟩)) ∧
      Fills m a (56 * n) m' ∧ StackHas m'.stack a ((x.contents.drop q).take (56 * n)) ∧
      At t i x m' (files.set fd (some ⟨t.headerOf i, ofNat 64 (q + 56 * n)⟩)) fd (q + 56 * n) := by
  have hshort := (Tape.openFile h.bytes h.member h.regular).file.short
  induction n generalizing m files a q with
  | zero =>
    refine ⟨m, ?_, .refl (by omega), ?_, ?_⟩
    · rw [Elf.readPrgmHeaders, Nat.mul_zero, Nat.add_zero, Files.set_slot h.slot]
    · intro j c hc
      simp at hc
    · rw [Nat.mul_zero, Nat.add_zero, Files.set_slot h.slot]
      exact h
  | succ n ih =>
    have hsize : sizeofPhdr.toNat = 56 := rfl
    have hnext : ∀ j, a + sizeofPhdr + ofNat 64 j = a + ofNat 64 (56 + j) := by
      intro j
      rw [ofNat_add, ← BitVec.add_assoc]
      rfl
    have hne : ∀ j < 56, ∀ i < 56 * n, a + ofNat 64 j ≠ a + sizeofPhdr + ofNat 64 i := by
      intro j hj i hi
      rw [hnext]
      exact add_ofNat_ne (show 56 * (n + 1) ≤ 2 ^ 64 by omega) (by omega) (by omega) (by omega)
    obtain ⟨m1, r, hread, hfills1, hhas1, hat1⟩ := h.read sizeofPhdr (by omega) fun j hj => hbuf j (by omega)
    rw [hsize] at hread hfills1 hhas1 hat1
    have hbuf1 : ∀ j < 56 * n, (m1.stack (a + sizeofPhdr + ofNat 64 j)).isSome := by
      intro j hj
      rw [hfills1.stack_eq _ fun i hi => (hne i hi j hj).symm, hnext]
      exact hbuf (56 + j) (by omega)
    obtain ⟨m', heq, hfills, hhas, hat⟩ := ih hat1 (by omega) hbuf1
    rw [Files.set_set, show q + 56 + 56 * n = q + 56 * (n + 1) by omega] at heq hat
    refine ⟨m', ?_, ⟨hfills.kernel_eq.trans hfills1.kernel_eq, fun b hb => ?_, fun j hj => ?_⟩, fun j c hc => ?_, hat⟩
    · rw [Elf.readPrgmHeaders, hread, bind_some]
      exact heq
    · rw [hfills.stack_eq b fun j hj => ?_, hfills1.stack_eq b fun j hj => hb j (by omega)]
      rw [hnext]
      exact hb (56 + j) (by omega)
    · by_cases hfirst : j < 56
      · rw [hfills.stack_eq _ (hne j hfirst)]
        exact hfills1.there j hfirst
      · have hthere := hfills.there (j - 56) (by omega)
        rw [hnext, show 56 + (j - 56) = j by omega] at hthere
        exact hthere
    · obtain ⟨hj, -⟩ := List.getElem?_eq_some_iff.1 hc
      rw [length_take] at hj
      rw [getElem?_take_of_lt (by omega), getElem?_drop] at hc
      by_cases hfirst : j < 56
      · rw [hfills.stack_eq _ (hne j hfirst)]
        refine hhas1 j c ?_
        rw [getElem?_take_of_lt hfirst, getElem?_drop, hc]
      · have hbyte := hhas (j - 56) c
        rw [getElem?_take_of_lt (by omega), getElem?_drop, show q + 56 + (j - 56) = q + j by omega, hnext,
          show 56 + (j - 56) = j by omega] at hbyte
        exact hbyte hc

def numberAt (h : List (BitVec 8)) (o n : Nat) : Nat := ofBytes ((h.drop o).take n)

def phdrOf (h : List (BitVec 8)) : Phdr where
  pType := ofNat 32 (numberAt h 0 4)
  pFlags := ofNat 32 (numberAt h 4 4)
  pOffset := ofNat 64 (numberAt h 8 8)
  pVaddr := ofNat 64 (numberAt h 16 8)
  pFilesz := ofNat 64 (numberAt h 32 8)
  pMemsz := ofNat 64 (numberAt h 40 8)

def headers (l : List (BitVec 8)) : Nat → Nat → List Phdr
  | 0, _ => []
  | n + 1, q => phdrOf ((l.drop q).take 56) :: headers l n (q + 56)

section Parse

variable {M : Type} [VirtMem M] {w : M} (hh : Holds w a h)
include hh

theorem loadLE_numberAt {o : Nat} (hlen : o + n ≤ h.length) : loadLE w (a + ofNat 64 o) n = some (numberAt h o n) := by
  have hslice := hh.slice o n
  have hn : ((h.drop o).take n).length = n := by
    rw [length_take, length_drop]
    omega
  rw [numberAt, ← hslice.loadLE_eq, hn]

private theorem loadPhdr_eq (hlen : 48 ≤ h.length) : loadPhdr w a = some (phdrOf h) := by
  have hfirst := loadLE_numberAt (o := 0) (n := 4) hh (by omega)
  rw [BitVec.add_zero] at hfirst
  have hflags : loadLE w (a + 4) 4 = _ := loadLE_numberAt (o := 4) hh (by omega)
  have hoffset : loadLE w (a + 8) 8 = _ := loadLE_numberAt (o := 8) hh (by omega)
  have hvaddr : loadLE w (a + 16) 8 = _ := loadLE_numberAt (o := 16) hh (by omega)
  have hfilesz : loadLE w (a + 32) 8 = _ := loadLE_numberAt (o := 32) hh (by omega)
  have hmemsz : loadLE w (a + 40) 8 = _ := loadLE_numberAt (o := 40) hh (by omega)
  simp only [loadPhdr, hfirst, hflags, hoffset, hvaddr, hfilesz, hmemsz, bind_some, map_some]
  rfl

/-- `is_elf` compares the first bytes. -/
theorem isElf_eq {pat : List (BitVec 8)} (hlen : pat.length ≤ h.length) :
    isElf w a pat = some (decide (h.take pat.length = pat)) := by
  induction pat generalizing a h with
  | nil => simp [isElf]
  | cons c pat ih =>
    cases h with
    | nil => simp at hlen
    | cons b h =>
      obtain ⟨hb, hrest⟩ := holds_cons.1 hh
      rw [isElf, hb, bind_some]
      by_cases hbc : b = c
      · rw [if_pos hbc, ih hrest (by simpa using hlen)]
        simp [hbc]
      · rw [if_neg hbc]
        simp [hbc]

end Parse

def mapSegments (fd : Nat) : List Phdr → Kernel → Files → Option (Kernel × Files)
  | [], k, files => some (k, files)
  | ph :: phs, k, files =>
    (doMmap k files fd ph.pOffset ph.pVaddr ph.pMemsz (segmentProt ph.pFlags)).bind fun (k, files) =>
    mapSegments fd phs k files

def loadable (phs : List Phdr) : List Phdr := phs.filter fun ph => ph.pType = ptLoad

/-- The loop over the program headers is the loop over the list that their bytes encode. -/
theorem loadSegments_eq (hs : StackHas m.stack a ((l.drop q).take (56 * n))) (hlen : q + 56 * n ≤ l.length) :
    loadSegments fd n m files a =
      (mapSegments fd (loadable (headers l n q)) m.kernel files).map fun (k, files) =>
        ({ m with kernel := k }, files) := by
  induction n generalizing m files a q with
  | zero => rfl
  | succ n ih =>
    have hnext : ∀ j, a + sizeofPhdr + ofNat 64 j = a + ofNat 64 (56 + j) := by
      intro j
      rw [ofNat_add, ← BitVec.add_assoc]
      rfl
    have hhead : StackHas m.stack a ((l.drop q).take 56) := by
      intro j c hc
      obtain ⟨hj, -⟩ := List.getElem?_eq_some_iff.1 hc
      rw [length_take] at hj
      refine hs j c ?_
      rw [getElem?_take_of_lt (by omega)] at hc ⊢
      exact hc
    have htail : StackHas m.stack (a + sizeofPhdr) ((l.drop (q + 56)).take (56 * n)) := by
      intro j c hc
      obtain ⟨hj, -⟩ := List.getElem?_eq_some_iff.1 hc
      rw [length_take] at hj
      rw [hnext]
      refine hs (56 + j) c ?_
      rw [getElem?_take_of_lt (by omega), getElem?_drop] at hc ⊢
      rw [← Nat.add_assoc]
      exact hc
    have hph := loadPhdr_eq hhead.holds (by rw [length_take, length_drop]; omega)
    rw [loadSegments, hph, bind_some, headers, loadable]
    by_cases hload : (phdrOf ((l.drop q).take 56)).pType = ptLoad
    · rw [if_pos hload, filter_cons_of_pos (by simpa using hload), mapSegments]
      cases hcall : doMmap m.kernel files fd _ _ _ _ with
      | none => rfl
      | some res =>
        rw [bind_some, bind_some]
        exact ih (m := { m with kernel := res.1 }) htail (by omega)
    · rw [if_neg hload, filter_cons_of_neg (by simpa using hload)]
      exact ih htail (by omega)

end Adix.Elf
