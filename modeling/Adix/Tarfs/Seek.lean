import Adix.Tarfs.Read

/-!
# Seeking and reading

`sys_lseek` sets the position without a check, and `sys_read` stops where the position equals the size of the file.
-/

namespace Adix.Tarfs

open VirtMem List Option
open BitVec (ofNat)

variable {M : Type} [VirtMem M] {m m' : M} {S : BitVec 64 → Prop} {header p buf count : BitVec 64} {l : List (BitVec 8)}
  {files : Files} {fd i : Nat} {t : Tape} {x : Member}

inductive FileCall where
  | lseek (offset : BitVec 64) (whence : BitVec 32)
  | read (buf count : BitVec 64)

/-- What `sys_read` is to return and to deliver at the position `p` of a file with the contents `l`: as many bytes as
there are, none behind the end. -/
def Delivers (l : List (BitVec 8)) (p buf count r : BitVec 64) (m : M) : Prop :=
  r.toNat = min count.toNat (l.length - p.toNat) ∧ Holds m buf ((l.drop p.toNat).take count.toNat)

/-- Calls one after the other, in which each `sys_read` returns and delivers what it should. -/
def ReadsExact (l : List (BitVec 8)) (fd : Nat) : List FileCall → M → Files → Prop
  | [], _, _ => True
  | .lseek offset whence :: calls, m, files => ReadsExact l fd calls m (sysLseek files fd offset whence).1
  | .read buf count :: calls, m, files => ∃ pft m' files' r, files.openFiles fd = some pft ∧
      sysRead m files fd buf count = some (m', files', r) ∧ Delivers l pft.offset buf count r m' ∧
      ReadsExact l fd calls m' files'

/-- The calls ask for bytes only at positions from the start to the end of a file of the size `n`. -/
def Within (n : Nat) : List FileCall → BitVec 64 → Prop
  | [], _ => True
  | .lseek offset whence :: calls, p => Within n calls (seekTo p offset whence)
  | .read _ count :: calls, p =>
    (p.toNat ≤ n ∨ count = 0) ∧ Within n calls (p + ofNat 64 (min count.toNat (n - p.toNat)))

/-- A call at a position within the file delivers what is left of the file there. -/
theorem sysRead_within {I : M → Prop} (ho : OpenFile S header l m) (hfd : files.openFiles fd = some ⟨header, p⟩)
    (hbuf : Buffer I S buf count.toNat) (hm : I m) (hp : p.toNat ≤ l.length ∨ count = 0) :
    ∃ m' r, sysRead m files fd buf count =
        some (m', files.set fd (some ⟨header, p + ofNat 64 (min count.toNat (l.length - p.toNat))⟩), r) ∧
      I m' ∧ Delivers l p buf count r m' ∧ ∀ a, S a → load m' a = load m a := by
  by_cases hin : p.toNat ≤ l.length
  · have hfd' : files.openFiles fd = some ⟨header, ofNat 64 p.toNat⟩ := by
      rw [hfd, BitVec.ofNat_toNat, BitVec.setWidth_eq]
    obtain ⟨m', hread, hI, hholds, hS⟩ := sysRead_spec count hbuf hm ho hfd' hin (Nat.min_le_left _ _)
    rw [BitVec.ofNat_add, BitVec.ofNat_toNat, BitVec.setWidth_eq] at hread
    refine ⟨m', _, hread, hI, ⟨?_, hholds⟩, hS⟩
    rw [BitVec.toNat_ofNat, Nat.mod_eq_of_lt (by omega)]
  · obtain rfl : count = 0 := hp.resolve_left hin
    refine ⟨m, 0, ?_, hm, ⟨?_, ?_⟩, fun _ _ => rfl⟩
    · rw [sysRead_eq 0 ho hfd]
      simp [readLoop]
    · simp
    · simp

private theorem readLoop_count {size offset offset' readptr temp i i' : BitVec 64} {n : Nat}
    (h : readLoop size n m offset readptr temp i = some (m', offset', i')) :
    ∃ k ≤ n, i' = i + ofNat 64 k ∧ (0 < n → size ≠ offset → 0 < k) := by
  induction n generalizing m offset readptr temp i with
  | zero =>
    simp only [readLoop, some.injEq, Prod.mk.injEq] at h
    exact ⟨0, le_rfl, by simp [h.2.2], by simp⟩
  | succ n ih =>
    rw [readLoop] at h
    split at h
    · next hend =>
      obtain ⟨c, -, h⟩ := bind_eq_some_iff.1 h
      obtain ⟨m1, -, h⟩ := map_eq_some_iff.1 h
      simp only [Prod.mk.injEq] at h
      exact ⟨0, by omega, by simp [h.2.2], fun _ hne => absurd hend hne⟩
    · obtain ⟨c, -, h⟩ := bind_eq_some_iff.1 h
      obtain ⟨m1, -, h⟩ := bind_eq_some_iff.1 h
      obtain ⟨k, hk, hi, -⟩ := ih h
      refine ⟨k + 1, by omega, ?_, by simp⟩
      rw [hi, Nat.add_comm k, BitVec.ofNat_add, BitVec.add_assoc]
      rfl

/-- At a position behind the end the loop does not see the end, and a call for one byte or more never returns 0. -/
private theorem sysRead_past {files' : Files} {r : BitVec 64} (ho : OpenFile S header l m)
    (hfd : files.openFiles fd = some ⟨header, p⟩) (hp : ¬ (p.toNat ≤ l.length ∨ count = 0))
    (h : sysRead m files fd buf count = some (m', files', r)) : ¬ Delivers l p buf count r m' := by
  rw [not_or] at hp
  intro hdel
  have hcount : 0 < count.toNat := by
    rw [Nat.pos_iff_ne_zero]
    exact fun h0 => hp.2 (BitVec.eq_of_toNat_eq h0)
  have hne : ofNat 64 l.length ≠ p := by
    intro hc
    have := congrArg BitVec.toNat hc
    rw [BitVec.toNat_ofNat, Nat.mod_eq_of_lt (by omega)] at *
    omega
  rw [sysRead_eq count ho hfd] at h
  obtain ⟨⟨m1, offset, i⟩, hloop, heq⟩ := map_eq_some_iff.1 h
  simp only [Prod.mk.injEq] at heq
  obtain ⟨k, hk, hi, hpos⟩ := readLoop_count hloop
  have hr : r.toNat = k := by
    rw [← heq.2.2, hi, zero_add, BitVec.toNat_ofNat, Nat.mod_eq_of_lt (lt_of_le_of_lt hk count.isLt)]
  have hk0 := hpos hcount hne
  have hdel0 := hdel.1
  omega

/-- Calls are exact if and only if they stay within the file. -/
private theorem readsExact_iff {calls : List FileCall} (ho : OpenFile S header l m)
    (hfd : files.openFiles fd = some ⟨header, p⟩)
    (hbuf : ∀ buf count, .read buf count ∈ calls → Buffer (fun _ : M => True) S buf count.toNat) :
    ReadsExact l fd calls m files ↔ Within l.length calls p := by
  induction calls generalizing m files p with
  | nil => rfl
  | cons call calls ih =>
    have hrest : ∀ buf count, .read buf count ∈ calls → Buffer (fun _ : M => True) S buf count.toNat :=
      fun buf count hc => hbuf buf count (mem_cons_of_mem _ hc)
    cases call with
    | lseek offset whence =>
      refine ih ho ?_ hrest
      rw [sysLseek, hfd]
      exact Files.set_same _ _ _
    | read buf count =>
      by_cases hp : p.toNat ≤ l.length ∨ count = 0
      · obtain ⟨m', r, hread, -, hdel, hS⟩ := sysRead_within ho hfd (hbuf buf count mem_cons_self) trivial hp
        set p' := p + ofNat 64 (min count.toNat (l.length - p.toNat)) with hp'
        have hslot : (files.set fd (some ⟨header, p'⟩)).openFiles fd = some ⟨header, p'⟩ := Files.set_same _ _ _
        have hgo := ih (ho.congr hS) hslot hrest
        rw [Within, and_iff_right hp, ← hp', ← hgo]
        constructor
        · rintro ⟨pft, m1, files1, r1, -, hread1, -, hexact⟩
          rw [hread, some_inj, Prod.mk.injEq, Prod.mk.injEq] at hread1
          obtain ⟨rfl, rfl, rfl⟩ := hread1
          exact hexact
        · intro hexact
          exact ⟨⟨header, p⟩, m', _, r, hfd, hread, hdel, hexact⟩
      · refine iff_of_false ?_ fun hwithin => hp hwithin.1
        rintro ⟨pft, m1, files1, r1, hpft, hread, hdel, -⟩
        obtain rfl : ⟨header, p⟩ = pft := some.inj (hfd.symm.trans hpft)
        exact sysRead_past ho hfd hp hread hdel

def Member.Regular (x : Member) : Prop := x.typeflag = 0x30 ∧ x.Unlinked

/-- The bytes that a call may write to are not in the archive. -/
def Tape.Clear (t : Tape) : FileCall → Prop
  | .lseek _ _ => True
  | .read buf count => ∀ i < count.toNat, ¬ t.Has (buf + ofNat 64 i)

theorem Tape.memberAt (hm : Holds m t.start (tape t.members))
    (hx : t.members[i]? = some x) : MembersAt m (t.headerOf i) (x :: t.members.drop (i + 1)) ∧
      offsetOf t.members i + 512 + x.contents.length < (tape t.members).length := by
  obtain ⟨hi, rfl⟩ := List.getElem?_eq_some_iff.1 hx
  have ha := (Tape.membersAt hm).drop (Nat.le_of_lt hi)
  have hlen : (tape t.members).length = offsetOf t.members i + (tape (t.members.drop i)).length := length_tape_drop
  have hend := le_length_tape (t.members.drop (i + 1))
  rw [drop_eq_getElem_cons hi] at ha hlen
  rw [length_tape_cons, Member.bytes, length_append, length_append, Member.header_length] at hlen
  exact ⟨ha, by omega⟩

/-- A regular member is a file. -/
theorem Tape.openFile (hm : Holds m t.start (tape t.members))
    (hx : t.members[i]? = some x) (hreg : x.Regular) : OpenFile t.Has (t.headerOf i) x.contents m := by
  obtain ⟨ha, hlen⟩ := memberAt hm hx
  obtain ⟨c, hc⟩ := ha.contents
  rw [holds_append, holds_cons] at hc
  have hhas : ∀ j ≤ 512 + x.contents.length, t.Has (t.headerOf i + ofNat 64 j) := by
    intro j hj
    rw [headerOf, BitVec.add_assoc, ← BitVec.ofNat_add]
    exact has_add (by omega)
  have hsmall := ha.small x mem_cons_self
  refine ⟨?_, ?_, ⟨hc.1, ⟨c, hc.2.1⟩, fun j hj => ?_, by omega⟩, fun j hj => hhas j (by omega)⟩
  · rw [← x.size_eq]
    exact ha.header.slice 124 11
  · refine holds_cons.2 ⟨?_, holds_cons.2 ⟨?_, holds_nil⟩⟩
    · exact hreg.1 ▸ ha.load_header (i := 156) (by decide)
    · have hflag := ha.load_header (i := 157) (by decide)
      rw [show x.header.getD 157 0 = 0 from hreg.2] at hflag
      rw [BitVec.add_assoc]
      exact hflag
  · have := hhas (512 + j) (by omega)
    rwa [BitVec.ofNat_add, ← BitVec.add_assoc] at this

/-- For a regular file of the archive, each `sys_read` in a sequence of calls returns exactly the bytes that are left
at its position, and none behind the end, if and only if no byte is asked for behind the end. -/
theorem reads_within_file_iff (t : Tape) (m : FlatMem) (hm : Holds m t.start (tape t.members)) (i : Nat) (x : Member)
    (hx : t.members[i]? = some x) (hreg : x.Regular) (files : Files) (fd : Nat) (p : BitVec 64)
    (hfd : files.openFiles fd = some ⟨t.headerOf i, p⟩) (calls : List FileCall) (hclear : ∀ c ∈ calls, t.Clear c) :
    ReadsExact x.contents fd calls m files ↔ Within x.contents.length calls p := by
  refine readsExact_iff (Tape.openFile hm hx hreg) hfd fun buf count hc => ?_
  exact FlatMem.buffer (by have := count.isLt; omega) (hclear _ hc)

def Image.toTape (im : Image) : Tape where
  members := im.entries.map Entry.toMember
  start := im.start
  placed := im.placed
  fits := by
    rw [tape_toMember]
    exact im.fits

theorem Image.toTape_holds (im : Image) : Holds im.memory im.toTape.start (tape im.toTape.members) := by
  show Holds im.memory im.start (tape (im.entries.map Entry.toMember))
  rw [tape_toMember]
  exact im.memory_holds

private theorem Tape.not_has {a : BitVec 64} (ha : a.toNat < kernmem) : ¬ t.Has a := by
  intro hhas
  have h1 := t.placed
  have h2 := hhas.1
  omega

theorem Tape.clear_low (hc : count.toNat ≤ 0x1000) : t.Clear (.read 0x1000 count) := by
  intro i hi
  apply not_has
  rw [BitVec.toNat_add, BitVec.toNat_ofNat]
  show (0x1000 + i % 2 ^ 64) % 2 ^ 64 < kernmem
  unfold kernmem
  omega

def openSmall : Files := Files.set ⟨fun _ => none, 1024⟩ 3 (some ⟨smallImage.toTape.headerOf 0, 0⟩)

private theorem openSmall_slot : openSmall.openFiles 3 = some ⟨smallImage.toTape.headerOf 0, 0⟩ := Files.set_same _ _ _

private theorem smallFile_regular : smallFile.toMember.Regular := ⟨toMember_typeflag, toMember_unlinked rfl⟩

theorem reads_within_file_small : ReadsExact smallFile.contents 3
      [.lseek 1 seekSet, .read 0x1000 5, .lseek (-1) seekCur, .read 0x1000 1, .read 0x1000 4] smallImage.memory
        openSmall := by
  refine (reads_within_file_iff smallImage.toTape smallImage.memory smallImage.toTape_holds 0 smallFile.toMember rfl
    smallFile_regular openSmall 3 0 openSmall_slot _ ?_).2 ?_
  · simp only [forall_mem_cons, not_mem_nil, false_imp_iff, implies_true, and_true]
    exact ⟨trivial, Tape.clear_low (by decide), trivial, Tape.clear_low (by decide), Tape.clear_low (by decide)⟩
  · show Within 2 _ _
    refine ⟨.inl (by decide), .inl (by decide), .inl (by decide), trivial⟩

/-- At position 3 of a file of two bytes, one byte is delivered. -/
theorem read_past_end :
    ¬ ReadsExact smallFile.contents 3 [.lseek 3 seekSet, .read 0x1000 1] smallImage.memory openSmall := by
  have hopen : OpenFile smallImage.toTape.Has (smallImage.toTape.headerOf 0) smallFile.contents smallImage.memory :=
    Tape.openFile (x := smallFile.toMember) smallImage.toTape_holds rfl smallFile_regular
  rintro ⟨pft, m, files, r, hpft, hread, hdel, -⟩
  obtain rfl : ⟨smallImage.toTape.headerOf 0, 3⟩ = pft := some.inj hpft
  exact sysRead_past hopen hpft (by decide) hread hdel

end Adix.Tarfs
