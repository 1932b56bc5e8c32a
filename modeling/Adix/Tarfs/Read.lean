import Adix.Tarfs.Members

/-!
# Opening and reading the files of an archive

`cat` (`bin/cat/cat.c`) and `get_file_size` of the shell (`bin/adsh/adix_shell.c`) read a file into one small buffer
until a call returns 0; `read` returns an `int64_t`, which both take as an `int`.
-/

namespace Adix.Tarfs

open VirtMem List Option BitVec
open BitVec (ofNat)

variable {M : Type} [VirtMem M] {m m' : M} {I : M → Prop} {S : BitVec 64 → Prop} {src buf offset header : BitVec 64}
  {n o d N fd fuel : Nat} {l : List (BitVec 8)} {e : Entry} {files : Files} {c : BitVec 8}

def loadBytes (m : M) (a : BitVec 64) : Nat → Option (List (BitVec 8))
  | 0 => some []
  | n + 1 => (load m a).bind fun c => (loadBytes m (a + 1) n).map (c :: ·)

/-- Calls of `sys_read` one after the other, with the buffers and counts given: what each returns and delivers. -/
def reads (fd : Nat) : List (BitVec 64 × BitVec 64) → M → Files → Option (List (BitVec 64 × List (BitVec 8)))
  | [], _, _ => some []
  | (buf, count) :: rest, m, files => (sysRead m files fd buf count).bind fun (m, files, r) =>
    if r = -1 then none
    else (loadBytes m buf r.toNat).bind fun l => (reads fd rest m files).map ((r, l) :: ·)

theorem loadBytes_eq {a : BitVec 64} (h : Holds m a l) : loadBytes m a l.length = some l := by
  induction l generalizing a with
  | nil => rfl
  | cons c l ih =>
    rw [holds_cons] at h
    rw [length_cons, loadBytes, h.1, bind_some, ih h.2]
    rfl

structure FileAt (S : BitVec 64 → Prop) (src : BitVec 64) (l : List (BitVec 8)) (m : M) : Prop where
  bytes : Holds m src l
  behind : ∃ c, load m (src + ofNat 64 l.length) = some c
  kept : ∀ i ≤ l.length, S (src + ofNat 64 i)
  short : l.length < 2 ^ 31

private theorem FileAt.congr (h : FileAt S src l m) (hsame : ∀ a, S a → load m' a = load m a) : FileAt S src l m' := by
  refine ⟨h.bytes.congr fun i hi => hsame _ (h.kept i (by omega)), ?_, h.kept, h.short⟩
  rw [hsame _ (h.kept _ le_rfl)]
  exact h.behind

/-- The loop copies the next bytes, and at the end of the file one more. -/
private theorem readLoop_spec (hbuf : Buffer I S buf N) (hm : I m) (hf : FileAt S src l m)
    (hc : load m (src + ofNat 64 l.length) = some c) (ho : o ≤ l.length) (hN : d + min n (l.length - o + 1) ≤ N) :
    ∃ m', readLoop (ofNat 64 l.length) n m (ofNat 64 o) (src + ofNat 64 o) (buf + ofNat 64 d) (ofNat 64 d) =
          some (m', ofNat 64 (o + min n (l.length - o)), ofNat 64 (d + min n (l.length - o))) ∧
      I m' ∧ Holds m' (buf + ofNat 64 d) ((l.drop o ++ [c]).take n) ∧
      (∀ j < d, ∀ c, load m (buf + ofNat 64 j) = some c → load m' (buf + ofNat 64 j) = some c) ∧
      ∀ a, S a → load m' a = load m a := by
  induction n generalizing m o d with
  | zero =>
    refine ⟨m, ?_, hm, ?_, fun _ _ _ hc => hc, fun _ _ => rfl⟩
    · simp [readLoop]
    · simp
  | succ n ih =>
    rcases Nat.eq_or_lt_of_le ho with rfl | hlt
    · -- the end of the file: one more byte is copied, and not counted
      obtain ⟨m', hstore, hI, hback, hother, hS⟩ := hbuf.write m hm d (by omega) c
      refine ⟨m', ?_, hI, ?_, hother, hS⟩
      · rw [readLoop, if_pos rfl, hc, bind_some, hstore]
        simp
      · rw [drop_length, nil_append, take_succ_cons, take_nil]
        exact holds_cons.2 ⟨hback, holds_nil⟩
    · have hshort := hf.short
      have hne : ofNat 64 l.length ≠ ofNat 64 o := by
        intro hc
        have := congrArg BitVec.toNat hc
        rw [toNat_ofNat, toNat_ofNat, Nat.mod_eq_of_lt (by omega), Nat.mod_eq_of_lt (by omega)] at this
        omega
      have hload := hf.bytes o (l.get ⟨o, hlt⟩) (List.getElem?_eq_getElem hlt)
      obtain ⟨m1, hstore, hI, hback, hother, hS⟩ := hbuf.write m hm d (by omega) (l.get ⟨o, hlt⟩)
      have hc1 : load m1 (src + ofNat 64 l.length) = some c := (hS _ (hf.kept _ le_rfl)).trans hc
      obtain ⟨m', hloop, hI', hholds, hbelow, hS'⟩ :=
        ih hI (hf.congr hS) hc1 hlt (show d + 1 + min n (l.length - (o + 1) + 1) ≤ N by omega)
      refine ⟨m', ?_, hI', ?_, fun j hj c hc => ?_, fun a ha => (hS' a ha).trans (hS a ha)⟩
      · rw [readLoop, if_neg hne, hload, bind_some, hstore, bind_some, add_ofNat_succ, add_ofNat_succ,
          ofNat_add_one, ofNat_add_one, hloop]
        congr 3 <;> congr 1 <;> omega
      · rw [drop_eq_getElem_cons hlt, List.cons_append, take_succ_cons, holds_cons, add_ofNat_succ]
        exact ⟨hbelow d (by omega) _ hback, hholds⟩
      · exact hbelow j (by omega) c (hother j (by omega) c hc)

private theorem readLoop_keeps {size offset' readptr i i' : BitVec 64} (hbuf : Buffer I S buf N) (hm : I m)
    (hN : d + n ≤ N) (h : readLoop size n m offset readptr (buf + ofNat 64 d) i = some (m', offset', i')) : I m' := by
  induction n generalizing m offset readptr i d with
  | zero =>
    simp only [readLoop, some.injEq, Prod.mk.injEq] at h
    exact h.1 ▸ hm
  | succ n ih =>
    rw [readLoop] at h
    split at h
    · obtain ⟨c, -, h⟩ := bind_eq_some_iff.1 h
      obtain ⟨m1, hstore, h⟩ := map_eq_some_iff.1 h
      obtain ⟨m2, hstore2, hI, -⟩ := hbuf.write m hm d (by omega) c
      obtain rfl : m1 = m2 := some.inj (hstore.symm.trans hstore2)
      exact (Prod.mk.inj h).1 ▸ hI
    · obtain ⟨c, -, h⟩ := bind_eq_some_iff.1 h
      obtain ⟨m1, hstore, h⟩ := bind_eq_some_iff.1 h
      obtain ⟨m2, hstore2, hI, -⟩ := hbuf.write m hm d (by omega) c
      obtain rfl : m1 = m2 := some.inj (hstore.symm.trans hstore2)
      rw [add_ofNat_succ] at h
      exact ih hI (by omega) h

/-- A read writes to its buffer only. -/
theorem sysRead_keeps {files' : Files} {count r : BitVec 64} (hbuf : Buffer I S buf count.toNat) (hm : I m)
    (h : sysRead m files fd buf count = some (m', files', r)) : I m' := by
  unfold sysRead at h
  split at h
  · cases h
    exact hm
  · obtain ⟨dir, -, h⟩ := bind_eq_some_iff.1 h
    split at h
    · cases h
      exact hm
    · obtain ⟨file, -, h⟩ := bind_eq_some_iff.1 h
      split at h
      · obtain ⟨size, -, h⟩ := bind_eq_some_iff.1 h
        obtain ⟨⟨m1, offset, i⟩, hloop, heq⟩ := map_eq_some_iff.1 h
        cases heq
        rw [← BitVec.add_zero buf] at hloop
        exact readLoop_keeps (d := 0) hbuf hm (Nat.zero_add _).le hloop
      · cases h
        exact hm

structure OpenAt (S : BitVec 64 → Prop) (header : BitVec 64) (e : Entry) (m : M) : Prop where
  head : HeaderAt m header e
  file : FileAt S (header + 512) e.contents m
  kept : ∀ i < 512, S (header + ofNat 64 i)
  regular : e.kind = .regular

/-- What `sys_read` needs to know of a regular file with the contents `l`. -/
structure OpenFile (S : BitVec 64 → Prop) (header : BitVec 64) (l : List (BitVec 8)) (m : M) : Prop where
  size : Holds m (header + sizeField) (octal 11 l.length)
  flag : Holds m (header + typeflagField) [0x30, 0]
  file : FileAt S (header + 512) l m
  kept : ∀ i < 512, S (header + ofNat 64 i)

theorem OpenFile.congr (h : OpenFile S header l m) (hsame : ∀ a, S a → load m' a = load m a) :
    OpenFile S header l m' := by
  refine ⟨h.size.congr fun i hi => ?_, h.flag.congr fun i hi => ?_, h.file.congr hsame, h.kept⟩
  · rw [length_octal] at hi
    rw [sizeField, BitVec.add_assoc]
    exact hsame _ (ofNat_add (n := 64) 124 i ▸ h.kept (124 + i) (by omega))
  · rw [typeflagField, BitVec.add_assoc]
    exact hsame _ (ofNat_add (n := 64) 156 i ▸ h.kept (156 + i) (by simp at hi; omega))

private theorem OpenAt.openFile (h : OpenAt S header e m) : OpenFile S header e.contents m := by
  obtain ⟨z, rest, hlink⟩ : ∃ z rest, e.linkname = z :: rest := by
    apply exists_cons_of_ne_nil
    intro hnil
    have := e.linkname_length
    simp [hnil] at this
  obtain rfl : z = 0 := by
    have := e.linkname_empty h.regular
    rw [hlink] at this
    exact some.inj this
  have ht := h.head.typeflag
  rw [h.regular, hlink, holds_cons, holds_cons] at ht
  exact ⟨h.head.size, holds_cons.2 ⟨ht.1, holds_cons.2 ⟨ht.2.1, holds_nil⟩⟩, h.file, h.kept⟩

private theorem OpenFile.strcmp_typeflag (h : OpenFile S header l m) (hc : c ≠ 0) :
    ∃ r, strcmp m (header + typeflagField) [c] = some r ∧ (r = 0 ↔ c = 0x30) := by
  have ht := h.flag
  rw [holds_cons, holds_cons] at ht
  obtain ⟨r, hr, hiff⟩ := strcmp_byte ht.1 ht.2.1 hc
  exact ⟨r, hr, hiff.trans (by simp [eq_comm])⟩

theorem sysRead_eq (count : BitVec 64) (ho : OpenFile S header l m) (hfd : files.openFiles fd = some ⟨header, offset⟩) :
    sysRead m files fd buf count = (readLoop (ofNat 64 l.length) count.toNat m offset (header + 512 + offset) buf 0).map
        fun (m, offset, i) => (m, files.set fd (some ⟨header, offset⟩), i) := by
  obtain ⟨dir, hdir, hdir0⟩ := ho.strcmp_typeflag (c := 0x35) (by decide)
  obtain ⟨reg, hreg, hreg0⟩ := ho.strcmp_typeflag (c := 0x30) (by decide)
  have hshort := ho.file.short
  rw [sysRead, hfd]
  dsimp only
  rw [hdir, bind_some, if_neg (hdir0.not.2 (by decide)), hreg, bind_some, if_pos (hreg0.2 rfl),
    getsize_octal (by omega) ho.size, bind_some, signExtend_ofNat hshort]

/-- A read from what is no regular file returns 0. -/
theorem sysRead_other {pft : ProcessFilesTable} {b z : BitVec 8} (count : BitVec 64)
    (hfd : files.openFiles fd = some pft) (hb : load m (pft.header + typeflagField) = some b)
    (hz : load m (pft.header + typeflagField + 1) = some z) (hnot : ¬ (b = 0x30 ∧ z = 0)) :
    sysRead m files fd buf count = some (m, files, 0) := by
  obtain ⟨dir, hdir, -⟩ := strcmp_byte hb hz (show (0x35 : BitVec 8) ≠ 0 by decide)
  obtain ⟨file, hfile, hfile0⟩ := strcmp_byte hb hz (show (0x30 : BitVec 8) ≠ 0 by decide)
  rw [sysRead, hfd]
  dsimp only
  rw [hdir, bind_some]
  split
  · rfl
  · rw [hfile, bind_some, if_neg (hfile0.not.2 hnot)]

/-- A read up to the end also delivers the byte behind the contents. -/
theorem sysRead_behind (count : BitVec 64) (hbuf : Buffer I S buf N) (hm : I m)
    (ho : OpenFile S header l m) (hc : load m (header + 512 + ofNat 64 l.length) = some c)
    (hfd : files.openFiles fd = some ⟨header, ofNat 64 o⟩) (hoff : o ≤ l.length)
    (hN : min count.toNat (l.length - o + 1) ≤ N) :
    ∃ m', sysRead m files fd buf count =
          some (m', files.set fd (some ⟨header, ofNat 64 (o + min count.toNat (l.length - o))⟩),
          ofNat 64 (min count.toNat (l.length - o))) ∧
      I m' ∧ Holds m' buf ((l.drop o ++ [c]).take count.toNat) ∧ ∀ a, S a → load m' a = load m a := by
  obtain ⟨m', hloop, hI, hholds, -, hS⟩ := readLoop_spec (d := 0) (n := count.toNat) hbuf hm ho.file hc hoff (by omega)
  refine ⟨m', ?_, hI, by simpa using hholds, hS⟩
  rw [BitVec.add_zero, Nat.zero_add] at hloop
  rw [sysRead_eq count ho hfd, show (0 : BitVec 64) = ofNat 64 0 from rfl, hloop]
  rfl

/-- A call of `sys_read` copies the next bytes of the contents to the buffer, up to the end of the file, and moves the
offset on by the number that it returns. -/
theorem sysRead_spec (count : BitVec 64) (hbuf : Buffer I S buf N) (hm : I m)
    (ho : OpenFile S header l m) (hfd : files.openFiles fd = some ⟨header, ofNat 64 o⟩) (hoff : o ≤ l.length)
    (hN : min count.toNat (l.length - o + 1) ≤ N) :
    ∃ m', sysRead m files fd buf count =
          some (m', files.set fd (some ⟨header, ofNat 64 (o + min count.toNat (l.length - o))⟩),
          ofNat 64 (min count.toNat (l.length - o))) ∧
      I m' ∧ Holds m' buf ((l.drop o).take count.toNat) ∧ ∀ a, S a → load m' a = load m a := by
  obtain ⟨c, hc⟩ := ho.file.behind
  obtain ⟨m', hread, hI, hholds, hS⟩ := sysRead_behind count hbuf hm ho hc hfd hoff hN
  rw [take_append, holds_append] at hholds
  exact ⟨m', hread, hI, hholds.1, hS⟩

/-- The calls on one descriptor deliver the contents piece by piece. -/
private theorem reads_spec {requests : List (BitVec 64 × BitVec 64)} (hm : OpenFile S header l m)
    (hfd : files.openFiles fd = some ⟨header, ofNat 64 o⟩) (hoff : o ≤ l.length)
    (hbuf : ∀ q ∈ requests, Buffer (fun _ : M => True) S q.1 (min q.2.toNat (l.length + 1))) :
    ∃ outs, reads fd requests m files = some outs ∧
      (outs.map Prod.snd).flatten = (l.drop o).take (requests.map (·.2.toNat)).sum ∧
      ∀ out ∈ outs, out.1.toNat = out.2.length := by
  induction requests generalizing m files o with
  | nil => exact ⟨[], rfl, by simp, by simp⟩
  | cons q requests ih =>
    obtain ⟨buf, count⟩ := q
    have hlen := hm.file.short
    obtain ⟨m', hread, -, hholds, hS⟩ := sysRead_spec count (hbuf _ mem_cons_self) trivial hm hfd hoff
      (show _ ≤ min count.toNat (l.length + 1) by omega)
    set k := min count.toNat (l.length - o) with hk
    have hbytes : ((l.drop o).take count.toNat).length = k := by
      rw [length_take, length_drop]
    have hto : (ofNat 64 k).toNat = k := by
      rw [toNat_ofNat, Nat.mod_eq_of_lt (by omega)]
    have hslot : (files.set fd (some ⟨header, ofNat 64 (o + k)⟩)).openFiles fd =
        some ⟨header, ofNat 64 (o + k)⟩ := Files.set_same _ _ _
    obtain ⟨outs, hrest, hflat, hlens⟩ := ih (hm.congr hS) hslot (by omega) fun q hq => hbuf q (mem_cons_of_mem _ hq)
    refine ⟨(ofNat 64 k, (l.drop o).take count.toNat) :: outs, ?_, ?_, ?_⟩
    · have hne : ofNat 64 k ≠ -1 := by
        intro hc
        have h1 := congrArg BitVec.toNat hc
        rw [hto, show (-1 : BitVec 64).toNat = 2 ^ 64 - 1 from rfl] at h1
        omega
      have hload := loadBytes_eq hholds
      rw [hbytes] at hload
      rw [reads, hread, bind_some]
      dsimp only
      rw [if_neg hne, hto, hload, bind_some, hrest]
      rfl
    · -- what is left behind the bytes delivered
      have hdrop : l.drop (o + k) = (l.drop o).drop count.toNat := by
        rw [drop_drop]
        rcases Nat.le_total count.toNat (l.length - o) with hle | hle
        · rw [hk, Nat.min_eq_left hle]
        · rw [drop_eq_nil_of_le (by omega), drop_eq_nil_of_le (by omega)]
      rw [map_cons, flatten_cons, hflat, map_cons, sum_cons, take_add, hdrop]
    · intro out hout
      rcases mem_cons.1 hout with rfl | hout
      · exact hto.trans hbytes.symm
      · exact hlens out hout

/-- The bytes that a call for the entry may write to are not in the archive. -/
def Image.Clear (im : Image) (e : Entry) (request : BitVec 64 × BitVec 64) : Prop :=
  ∀ i < min request.2.toNat (e.contents.length + 1), ¬ im.Has (request.1 + ofNat 64 i)

def Files.HasFree (files : Files) : Prop := ∃ i < files.rlimitNofile, files.openFiles i = none

/-- An open takes a free slot. -/
theorem addToProcessFileTable_eq (h : files.HasFree) : ∃ fd, files.openFiles fd = none ∧
    ∀ pft, addToProcessFileTable files pft = (files.set fd (some pft), some fd) := by
  obtain ⟨i, hi, hnone⟩ := h
  have hfound : ((List.range files.rlimitNofile).find? fun i => (files.openFiles i).isNone).isSome := by
    rw [find?_isSome]
    exact ⟨i, mem_range.2 hi, by rw [hnone]; rfl⟩
  obtain ⟨fd, hfd⟩ := isSome_iff_exists.1 hfound
  have hfree := find?_some hfd
  refine ⟨fd, isNone_iff_eq_none.1 hfree, fun pft => ?_⟩
  rw [addToProcessFileTable, hfd]

namespace Image

variable {im : Image}

private theorem has_add {q : Nat} (hq : q < (archive im.entries).length) : im.Has (im.start + ofNat 64 q) := by
  have h1 := im.fits
  have hto : (im.start + ofNat 64 q).toNat = im.start.toNat + q := by
    rw [BitVec.toNat_add, toNat_ofNat, Nat.mod_eq_of_lt (show q < 2 ^ 64 by omega), Nat.mod_eq_of_lt (by omega)]
  unfold Has
  omega

private theorem openAt {before after : List Entry} (hentries : im.entries = before ++ e :: after)
    (hreg : e.kind = .regular)
    (ha : ArchiveAt m (im.start + ofNat 64 (before.flatMap Entry.encode).length) (e :: after)) :
    OpenAt im.Has (im.start + ofNat 64 (before.flatMap Entry.encode).length) e m := by
  obtain ⟨c, hc⟩ : ∃ c, Holds m (_ + 512) (e.contents ++ [c]) := ha.members.contents
  rw [holds_append, holds_cons] at hc
  have hlen : (archive im.entries).length = (before.flatMap Entry.encode).length + (archive (e :: after)).length := by
    rw [hentries, archive, flatMap_append, List.append_assoc, length_append]
    rfl
  have hone := length_archive (mem_cons_self : e ∈ e :: after)
  have hhas : ∀ i ≤ 512 + e.contents.length,
      im.Has (im.start + ofNat 64 (before.flatMap Entry.encode).length + ofNat 64 i) := by
    intro i hi
    rw [BitVec.add_assoc, ← ofNat_add]
    exact has_add (by omega)
  refine ⟨headerAt ha.members.header, ⟨hc.1, ⟨c, hc.2.1⟩, fun i hi => ?_, e.contents_length⟩,
    fun i hi => hhas i (by omega), hreg⟩
  have := hhas (512 + i) (by omega)
  rwa [ofNat_add, ← BitVec.add_assoc] at this

end Image

/-- `parsetar` returns the number of entries; after `sys_open` of the first entry with its name, if it is a regular
file, the calls of `sys_read` deliver its contents piece after piece, and return the lengths of the pieces. -/
theorem tar_reading (im : Image) (m : FlatMem) (hm : Holds m im.start (archive im.entries)) :
    (im.entries.length < 2 ^ 31 ∧ ∀ fuel, im.entries.length < fuel →
      parsetar fuel m im.start = some (ofNat 32 im.entries.length)) ∧
    ∀ (before after : List Entry) (e : Entry), im.entries = before ++ e :: after → (∀ d ∈ before, d.name ≠ e.name) →
      e.kind = .regular → ∀ files : Files, files.HasFree →
        ∃ files' fd, (∀ fuel, im.entries.length < fuel → sysOpen fuel m im.start files e.name true =
          some (files', some fd)) ∧ ∀ requests : List (BitVec 64 × BitVec 64), (∀ q ∈ requests, im.Clear e q) →
            ∃ outs, reads fd requests m files' = some outs ∧
              (outs.map Prod.snd).flatten = e.contents.take (requests.map (·.2.toNat)).sum ∧
              ∀ out ∈ outs, out.1.toNat = out.2.length := by
  have ha := Image.archiveAt hm
  refine ⟨⟨?_, fun fuel hfuel => ?_⟩, fun before after e hentries hfirst hreg files hfree => ?_⟩
  · have h1 := length_entries_le im.entries
    have h2 := im.length_le
    omega
  · rw [parsetar, parsetarLoop_eq ha.members (by simpa using hfuel)]
    simp
  · have hsplit : ArchiveAt m im.start (before ++ e :: after) := by
      rw [← hentries]
      exact ha
    have hat := hsplit.drop
    set header := im.start + ofNat 64 (before.flatMap Entry.encode).length with hheader
    obtain ⟨fd, -, hfd⟩ := addToProcessFileTable_eq hfree
    refine ⟨files.set fd (some ⟨header, 0⟩), fd, fun fuel hfuel => ?_, fun requests hclear => ?_⟩
    · have hcount : ((before ++ e :: after).map Entry.toMember).length < fuel := by
        rw [length_map, ← hentries]
        exact hfuel
      rw [sysOpen, findHeader_eq hsplit.members e.name_text hcount, found_toMember hfirst, map_some,
        offsetOf_toMember, bind_some]
      dsimp only
      rw [if_pos rfl, ← hheader, hfd]
    · have hopen := (Image.openAt hentries hreg hat).openFile
      have hslot : (files.set fd (some ⟨header, 0⟩)).openFiles fd = some ⟨header, ofNat 64 0⟩ := Files.set_same _ _ _
      obtain ⟨outs, hreads, hflat, hlens⟩ := reads_spec hopen hslot (Nat.zero_le _) fun q hq =>
        FlatMem.buffer (by have := q.2.isLt; omega) (hclear q hq)
      exact ⟨outs, hreads, by simpa using hflat, hlens⟩

def Image.memory (im : Image) : FlatMem := ⟨fun a => (archive im.entries).getD (a - im.start).toNat 0⟩

theorem Image.memory_holds (im : Image) : Holds im.memory im.start (archive im.entries) := by
  intro i b hb
  obtain ⟨hi, -⟩ := List.getElem?_eq_some_iff.1 hb
  have hfits := im.fits
  show some ((archive im.entries).getD (im.start + ofNat 64 i - im.start).toNat 0) = some b
  rw [add_sub_cancel_left, toNat_ofNat, Nat.mod_eq_of_lt (by omega), getD_eq_getElem?_getD, hb]
  rfl

def smallFile : Entry where
  name := [0x61]
  ids := List.replicate 24 0
  sizeEnd := 0
  times := List.replicate 20 0
  kind := .regular
  linkname := List.replicate 100 0
  rest := List.replicate 255 0
  contents := [0x68, 0x69]
  name_ne := by simp
  name_length := by simp
  name_text := by decide
  ids_length := length_replicate
  times_length := length_replicate
  linkname_length := length_linkname
  linkname_empty _ := rfl
  rest_length := length_replicate
  contents_length := by simp

def smallImage : Image where
  entries := [smallFile]
  start := 0xffffffff80300000
  placed := by decide
  fits := by
    rw [length_archive_cons, length_encode, archive, flatMap_nil, nil_append, length_replicate]
    decide

theorem tar_reading_small : parsetar 2 smallImage.memory smallImage.start = some 1 ∧
    ∃ files fd, sysOpen 2 smallImage.memory smallImage.start ⟨fun _ => none, 1024⟩ [0x61] true = some (files, some fd) ∧
      ∃ outs, reads fd [(0x1000, 1), (0x1000, 5)] smallImage.memory files = some outs ∧
        (outs.map Prod.snd).flatten = [0x68, 0x69] := by
  obtain ⟨⟨-, hparse⟩, hopen⟩ := tar_reading smallImage smallImage.memory smallImage.memory_holds
  obtain ⟨files, fd, hfd, hreads⟩ := hopen [] [] smallFile rfl nofun rfl ⟨fun _ => none, 1024⟩ ⟨0, by decide, rfl⟩
  refine ⟨hparse 2 (by decide), files, fd, hfd 2 (by decide), ?_⟩
  obtain ⟨outs, houts, hflat, -⟩ := hreads [(0x1000, 1), (0x1000, 5)] (by
    intro q hq i hi hhas
    have hstart : (0x1000 : BitVec 64).toNat = 0x1000 := rfl
    have hlow : q.1 = 0x1000 := by
      rcases mem_cons.1 hq with rfl | hq
      · rfl
      · rw [mem_singleton.1 hq]
    have hplace := hhas.1
    rw [hlow, BitVec.toNat_add, toNat_ofNat, hstart, show smallImage.start.toNat = 0xffffffff80300000 from rfl]
      at hplace
    have hsmall : i < 3 := lt_of_lt_of_le hi (Nat.min_le_right _ _)
    omega)
  exact ⟨outs, houts, hflat⟩

/-- `cat`, with its buffer at `buf`: the pieces that it writes, and whether it ends with an error. -/
def cat (fd : Nat) (buf : BitVec 64) : Nat → M → Files → Option (List (List (BitVec 8)) × Bool)
  | 0, _, _ => none
  | fuel + 1, m, files => (sysRead m files fd buf 512).bind fun (m, files, r) =>
    let n := (r.setWidth 32).toInt
    if 0 < n then (loadBytes m buf n.toNat).bind fun piece => (cat fd buf fuel m files).map fun (ps, e) =>
      (piece :: ps, e)
    else some ([], n < 0)

/-- The loop of `get_file_size`, from the size `n` on. -/
def getFileSize (fd : Nat) (buf : BitVec 64) : Nat → M → Files → BitVec 32 → Option (BitVec 32)
  | 0, _, _, _ => none
  | fuel + 1, m, files, n => (sysRead m files fd buf 10).bind fun (m, files, r) =>
    let count := r.setWidth 32
    if count = 0 then some (n + count) else getFileSize fd buf fuel m files (n + count)

/-- A call for `count` bytes, when what is left of the file is `l.drop o`. -/
theorem sysRead_piece (count : BitVec 64) (hbuf : Buffer (fun _ : M => True) S buf count.toNat)
    (hm : OpenFile S header l m) (hfd : files.openFiles fd = some ⟨header, ofNat 64 o⟩) (hoff : o ≤ l.length) :
    ∃ m' files' k r, k = min count.toNat (l.length - o) ∧ sysRead m files fd buf count = some (m', files', r) ∧
      r.setWidth 32 = ofNat 32 k ∧ loadBytes m' buf k = some ((l.drop o).take k) ∧ OpenFile S header l m' ∧
      files'.openFiles fd = some ⟨header, ofNat 64 (o + k)⟩ := by
  obtain ⟨m', hread, -, hholds, hS⟩ := sysRead_spec count hbuf trivial hm hfd hoff (Nat.min_le_left _ _)
  refine ⟨m', _, _, _, rfl, hread, setWidth_ofNat_of_le (by decide) _, ?_, hm.congr hS, Files.set_same _ _ _⟩
  have hload := loadBytes_eq hholds
  rw [length_take, length_drop] at hload
  rw [hload, ← length_drop, ← take_eq_take_min]

/-- `cat` writes what each call has delivered. -/
private theorem cat_eq (hbuf : Buffer (fun _ : M => True) S buf 512) (hm : OpenFile S header l m)
    (hfd : files.openFiles fd = some ⟨header, ofNat 64 o⟩) (hoff : o ≤ l.length) (hfuel : l.length - o < fuel) :
    ∃ ps, cat fd buf fuel m files = some (ps, false) ∧ ps.flatten = l.drop o ∧ ∀ p ∈ ps, 0 < p.length ∧
      p.length ≤ 512 := by
  induction fuel generalizing m files o with
  | zero => omega
  | succ fuel ih =>
    obtain ⟨m', files', k, r, hk, hread, hr, hload, hm', hfd'⟩ := sysRead_piece 512 hbuf hm hfd hoff
    change k = min 512 _ at hk
    have hint : (ofNat 32 k).toInt = k := by
      rw [toInt_ofNat', Int.bmod_eq_of_le (by omega) (by omega)]
    rw [cat, hread, bind_some]
    dsimp only
    rw [hr, hint]
    -- a call returns 0 only at the end of the file
    by_cases h0 : k = 0
    · subst h0
      refine ⟨[], rfl, ?_, nofun⟩
      rw [drop_eq_nil_of_le (by omega)]
      rfl
    · obtain ⟨ps, hcat, hflat, hlen⟩ := ih hm' hfd' (by omega) (by omega)
      refine ⟨(l.drop o).take k :: ps, ?_, ?_, forall_mem_cons.2 ⟨?_, hlen⟩⟩
      · rw [if_pos (by omega), Int.toNat_natCast, hload, bind_some, hcat]
        rfl
      · rw [flatten_cons, hflat, ← drop_drop, take_append_drop]
      · rw [length_take, length_drop]
        omega

/-- The shell adds up the numbers. -/
private theorem getFileSize_eq (hbuf : Buffer (fun _ : M => True) S buf 10) (hm : OpenFile S header l m)
    (hfd : files.openFiles fd = some ⟨header, ofNat 64 o⟩) (hoff : o ≤ l.length) (hfuel : l.length - o < fuel) :
    getFileSize fd buf fuel m files (ofNat 32 o) = some (ofNat 32 l.length) := by
  induction fuel generalizing m files o with
  | zero => omega
  | succ fuel ih =>
    obtain ⟨m', files', k, r, hk, hread, hr, -, hm', hfd'⟩ := sysRead_piece 10 hbuf hm hfd hoff
    change k = min 10 _ at hk
    rw [getFileSize, hread, bind_some]
    dsimp only
    rw [hr, ← ofNat_add]
    split
    · next h0 =>
      have := congrArg BitVec.toNat h0
      rw [toNat_ofNat] at this
      change k % 2 ^ 32 = 0 at this
      rw [show o + k = l.length by omega]
    · next h0 =>
      have : k ≠ 0 := fun hc => h0 (by rw [hc]; rfl)
      exact ih hm' hfd' (by omega) (by omega)

/-- `cat` of a regular file of the archive writes its contents, in pieces of at most 512 bytes, and `get_file_size`
returns its length. -/
theorem whole_file (im : Image) (m : FlatMem) (hm : Holds m im.start (archive im.entries)) (before after : List Entry)
    (e : Entry) (hentries : im.entries = before ++ e :: after) (hfirst : ∀ d ∈ before, d.name ≠ e.name)
    (hreg : e.kind = .regular) (files : Files) (hfree : files.HasFree) (buf : BitVec 64)
    (hbuf : ∀ i < 512, ¬ im.Has (buf + ofNat 64 i)) :
    ∃ files' fd, (∀ fuel, im.entries.length < fuel → sysOpen fuel m im.start files e.name true =
      some (files', some fd)) ∧
      ∀ fuel, e.contents.length < fuel → getFileSize fd buf fuel m files' 0 = some (ofNat 32 e.contents.length) ∧
        ∃ ps, cat fd buf fuel m files' = some (ps, false) ∧ ps.flatten = e.contents ∧ ∀ p ∈ ps, 0 < p.length ∧
          p.length ≤ 512 := by
  have ha := Image.archiveAt hm
  rw [hentries] at ha
  obtain ⟨fd, -, hfd⟩ := addToProcessFileTable_eq hfree
  set header := im.start + ofNat 64 (before.flatMap Entry.encode).length with hheader
  have hopen := (Image.openAt hentries hreg ha.drop).openFile
  have hslot : (files.set fd (some ⟨header, 0⟩)).openFiles fd = some ⟨header, ofNat 64 0⟩ := Files.set_same _ _ _
  refine ⟨files.set fd (some ⟨header, 0⟩), fd, fun fuel hfuel => ?_, fun fuel hfuel => ⟨?_, ?_⟩⟩
  · rw [sysOpen, findHeader_eq ha.members e.name_text (by rwa [length_map, ← hentries]), found_toMember hfirst,
      map_some, offsetOf_toMember, bind_some]
    dsimp only
    rw [if_pos rfl, ← hheader, hfd]
  · exact getFileSize_eq (FlatMem.buffer (by decide) fun i hi => hbuf i (by omega)) hopen hslot (Nat.zero_le _) hfuel
  · exact cat_eq (FlatMem.buffer (by decide) hbuf) hopen hslot (Nat.zero_le _) hfuel

theorem whole_file_small : ∃ files fd,
    sysOpen 2 smallImage.memory smallImage.start ⟨fun _ => none, 1024⟩ [0x61] true = some (files, some fd) ∧
      getFileSize fd 0x1000 3 smallImage.memory files 0 = some 2 := by
  have hbuf : ∀ i < 512, ¬ smallImage.Has (0x1000 + ofNat 64 i) := by
    intro i hi hhas
    have hplace := hhas.1
    rw [show smallImage.start = 0xffffffff80300000 from rfl] at hplace
    bv_omega
  obtain ⟨files, fd, hopen, hread⟩ := whole_file smallImage smallImage.memory smallImage.memory_holds [] []
    smallFile rfl nofun rfl ⟨fun _ => none, 1024⟩ ⟨0, by decide, rfl⟩ 0x1000 hbuf
  exact ⟨files, fd, hopen 2 (by decide), (hread 3 (by decide)).1⟩

end Adix.Tarfs
