import Adix.Tarfs.Seek

/-!
# Looking up names

`sys_open` and `sys_opendir` compare the string at each header with the path, before they look whether the archive has
ended. A name of 100 bytes runs on into the next field, and the first part of a long name is in the field `prefix`.
-/

namespace Adix.Tarfs

open VirtMem List Option

/-- A field of a header, up to the first zero. -/
def field (header : List (BitVec 8)) (i n : Nat) : List (BitVec 8) := ((header.drop i).take n).takeWhile (· ≠ 0)

/-- The name of a member: the field `name`, behind the field `prefix` and a slash if there is one. -/
def Member.name (x : Member) : List (BitVec 8) :=
  if field x.header 345 155 = [] then field x.header 0 100 else field x.header 345 155 ++ 0x2f :: field x.header 0 100

def Member.Directory (x : Member) : Prop := x.typeflag = 0x35

def firstNamed (xs : List Member) (path : List (BitVec 8)) : Option Nat := xs.findIdx? fun x => x.name = path

variable {M : Type} [VirtMem M] {m : M} {h : BitVec 64} {x : Member} {xs : List Member} {path : List (BitVec 8)}
  {files : Files} {t : Tape} {i j : Nat} {e : Entry} {entries : List Entry}

/-- `sys_open` returns a new descriptor for the first member with the name, and -1 if there is none. -/
structure OpenDecides (t : Tape) (m : M) (files : Files) (path : List (BitVec 8)) (kmallocOk : Bool) : Prop where
  named : ∀ i, firstNamed t.members path = some i → ∃ fd, files.openFiles fd = none ∧ ∀ fuel, t.members.length < fuel →
    sysOpen fuel m t.start files path kmallocOk = some (files.set fd (some ⟨t.headerOf i, 0⟩), some fd)
  unnamed : firstNamed t.members path = none → ∀ fuel, t.members.length < fuel →
    sysOpen fuel m t.start files path kmallocOk = some (files, none)

/-- The first member with the name is number `i`, and a directory. -/
def FirstDirectory (xs : List Member) (path : List (BitVec 8)) (i : Nat) : Prop :=
  firstNamed xs path = some i ∧ ∃ x, xs[i]? = some x ∧ x.Directory

/-- `sys_opendir` returns a new descriptor for the first member with the name if that is a directory, and -1 in every
other case. -/
structure OpendirDecides (t : Tape) (m : M) (files : Files) (path : List (BitVec 8)) (kmallocOk : Bool) : Prop where
  directory : ∀ i, FirstDirectory t.members path i → ∃ fd, files.openFiles fd = none ∧ ∀ fuel, t.members.length < fuel →
    sysOpendir fuel m t.start files path kmallocOk = some (files.set fd (some ⟨t.headerOf i, 0⟩), (fd : Int))
  other : (¬ ∃ i, FirstDirectory t.members path i) → ∀ fuel, t.members.length < fuel →
    sysOpendir fuel m t.start files path kmallocOk = some (files, -1)

def foundDirectory (xs : List Member) (path : List (BitVec 8)) : Except Int Nat :=
  match found xs path with
  | none => .error (-1)
  | some i => if (xs[i]?).any fun x => x.typeflag = 0x35 ∧ x.Unlinked then .ok i else .error 0

private theorem foundDirectory_cons_neg (hne : x.cname ≠ path) :
    foundDirectory (x :: xs) path = (foundDirectory xs path).map (· + 1) := by
  unfold foundDirectory
  rw [found_cons_neg hne]
  cases found xs path with
  | none => rfl
  | some i =>
    rw [map_some]
    dsimp only
    rw [getElem?_cons_succ]
    split <;> rfl

theorem foundDirectory_eq_ok : foundDirectory xs path = .ok i ↔
    found xs path = some i ∧ ∃ x, xs[i]? = some x ∧ x.Directory ∧ x.Unlinked := by
  unfold foundDirectory
  cases found xs path with
  | none => simp
  | some j =>
    dsimp only
    split
    · next hdir =>
      rw [Option.any_eq_true] at hdir
      simp only [decide_eq_true_eq] at hdir
      constructor
      · rintro hij
        obtain rfl : j = i := Except.ok.inj hij
        exact ⟨rfl, hdir⟩
      · rintro ⟨hij, -⟩
        rw [some.inj hij]
    · next hdir =>
      rw [Option.any_eq_true] at hdir
      simp only [decide_eq_true_eq] at hdir
      refine iff_of_false (by simp) ?_
      rintro ⟨hij, hx⟩
      obtain rfl : j = i := some.inj hij
      exact hdir hx

private theorem foundDirectory_eq_error : foundDirectory xs path = .error (-1) ↔ found xs path = none := by
  unfold foundDirectory
  cases found xs path with
  | none => simp
  | some j =>
    dsimp only
    split <;> simp

/-- The search of `sys_opendir` over the members. -/
private theorem findDirectory_eq {fuel : Nat} (ha : MembersAt m h xs) (hp : 0 ∉ path) (hfuel : xs.length < fuel) :
    findDirectory m path fuel h = some ((foundDirectory xs path).map fun i => h + BitVec.ofNat 64 (offsetOf xs i)) := by
  induction xs generalizing h fuel with
  | nil =>
    obtain ⟨fuel, rfl⟩ : ∃ k, fuel = k + 1 := ⟨fuel - 1, by simp at hfuel; omega⟩
    obtain ⟨r, hr, hiff⟩ := strcmp_eq (s := []) (holds_cons.2 ⟨ha.nil_load, holds_nil⟩) not_mem_nil hp
    rw [findDirectory, hr, bind_some, foundDirectory, found_nil]
    by_cases hnil : path = []
    · -- the block of zeros has no type
      have hnext : h + typeflagField + 1 = h + BitVec.ofNat 64 157 := by
        rw [BitVec.add_assoc]
        rfl
      obtain ⟨d, hd, hdiff⟩ := strcmp_byte (ha.nil_zero (i := 156) (by decide))
        (hnext ▸ ha.nil_zero (i := 157) (by decide)) (show (0x35 : BitVec 8) ≠ 0 by decide)
      rw [if_pos (hiff.2 hnil.symm), if_pos hnil, show h + typeflagField = h + BitVec.ofNat 64 156 from rfl, hd,
        map_some, if_neg (hdiff.not.2 (by decide))]
      rfl
    · rw [if_neg (hiff.not.2 (Ne.symm hnil)), if_neg hnil, ha.nil_load, bind_some, if_pos rfl]
      rfl
  | cons x xs ih =>
    rw [length_cons] at hfuel
    obtain _ | fuel := fuel
    · omega
    obtain ⟨r, hr, hiff⟩ := ha.strcmp_name hp
    rw [findDirectory, hr, bind_some]
    by_cases hname : x.cname = path
    · obtain ⟨d, hd, hdiff⟩ := ha.strcmp_typeflag (show (0x35 : BitVec 8) ≠ 0 by decide)
      rw [if_pos (hiff.2 hname), hd, map_some, foundDirectory, ← hname, found_cons_pos]
      simp only [hdiff, getElem?_cons_zero, any_some, decide_eq_true_eq]
      split
      · simp [Except.map]
      · rfl
    · obtain ⟨c, hc, hc0⟩ := ha.load_name
      rw [if_neg (hiff.not.2 hname), hc, bind_some, if_neg hc0, ha.getsize_eq, bind_some,
        ih ha.tail (by omega), foundDirectory_cons_neg hname, nextHeader_eq (ha.small x mem_cons_self)]
      cases foundDirectory xs path with
      | error r => rfl
      | ok i =>
        simp only [Except.map]
        rw [offsetOf_succ, BitVec.ofNat_add, BitVec.add_assoc]

section Calls

variable {kmallocOk : Bool} {fuel fd : Nat} (hm : Holds m t.start (tape t.members)) (hp : 0 ∉ path)
  (hadd : ∀ pft, addToProcessFileTable files pft = (files.set fd (some pft), some fd))

include hm hp hadd

/-- `sys_open` gives a descriptor for the member where its search stops. -/
theorem sysOpen_eq (hfuel : t.members.length < fuel) : sysOpen fuel m t.start files path kmallocOk =
    match found t.members path with
    | none => some (files, none)
    | some i => if kmallocOk then some (files.set fd (some ⟨t.headerOf i, 0⟩), some fd) else none := by
  rw [sysOpen, findHeader_eq (Tape.membersAt hm) hp hfuel, bind_some]
  cases found t.members path with
  | none => rfl
  | some i =>
    rw [map_some]
    dsimp only
    rw [hadd]
    rfl

/-- `sys_opendir` gives a descriptor for a directory where its search stops. -/
theorem sysOpendir_eq (hfuel : t.members.length < fuel) : sysOpendir fuel m t.start files path kmallocOk =
    match foundDirectory t.members path with
    | .error r => some (files, r)
    | .ok i => if kmallocOk then some (files.set fd (some ⟨t.headerOf i, 0⟩), (fd : Int)) else none := by
  rw [sysOpendir, findDirectory_eq (Tape.membersAt hm) hp hfuel, bind_some]
  cases foundDirectory t.members path with
  | error r => rfl
  | ok i =>
    simp only [Except.map, hadd]
    rfl

end Calls

theorem found_le (hf : found xs path = some i) : i ≤ xs.length := by
  unfold found at hf
  split at hf
  · exact (some.inj hf).ge
  · exact Nat.le_of_lt (findIdx?_eq_some_iff_getElem.1 hf).1

private theorem firstNamed_lt (hf : firstNamed xs path = some i) : i < xs.length :=
  (findIdx?_eq_some_iff_getElem.1 hf).1

private theorem set_headerOf {fd fd' : Nat} (hi : i ≤ t.members.length) (hj : j ≤ t.members.length)
    (h : files.set fd (some ⟨t.headerOf i, 0⟩) = files.set fd' (some ⟨t.headerOf j, 0⟩)) (hfd : fd = fd') : i = j := by
  subst hfd
  have hslot := congrFun (congrArg Files.openFiles h) fd
  rw [Files.set_same, Files.set_same, some_inj, ProcessFilesTable.mk.injEq] at hslot
  exact Tape.headerOf_inj hi hj hslot.1

/-- `sys_open` decides if and only if its search stops at the first member with the name. -/
private theorem openDecides_iff {kmallocOk : Bool} (hm : Holds m t.start (tape t.members)) (hp : 0 ∉ path)
    (hfree : files.HasFree) : OpenDecides t m files path kmallocOk ↔
      found t.members path = firstNamed t.members path ∧ (firstNamed t.members path ≠ none → kmallocOk = true) := by
  obtain ⟨fd, hnone, hadd⟩ := addToProcessFileTable_eq hfree
  constructor
  · intro hd
    cases hf : firstNamed t.members path with
    | none =>
      have hopen := hd.unnamed hf _ (Nat.lt_succ_self _)
      rw [sysOpen_eq hm hp hadd (Nat.lt_succ_self _)] at hopen
      cases hs : found t.members path with
      | none => simp
      | some j =>
        cases kmallocOk <;> simp [hs] at hopen
    | some i =>
      obtain ⟨fd', -, hopen⟩ := hd.named i hf
      have hopen := hopen _ (Nat.lt_succ_self _)
      rw [sysOpen_eq hm hp hadd (Nat.lt_succ_self _)] at hopen
      cases hs : found t.members path with
      | none => simp [hs] at hopen
      | some j =>
        cases kmallocOk with
        | false => simp [hs] at hopen
        | true =>
          simp only [hs, if_true, some_inj, Prod.mk.injEq] at hopen
          obtain rfl := set_headerOf (found_le hs) (firstNamed_lt hf).le hopen.1 hopen.2
          simp
  · rintro ⟨hsame, hk⟩
    refine ⟨fun i hi => ⟨fd, hnone, fun fuel hfuel => ?_⟩, fun hi fuel hfuel => ?_⟩
    · rw [sysOpen_eq hm hp hadd hfuel, hsame, hi]
      dsimp only
      rw [if_pos (hk (by simp [hi]))]
    · rw [sysOpen_eq hm hp hadd hfuel, hsame, hi]

/-- `sys_opendir` decides whether the first member with the name is a directory if and only if its search stops at it,
or ends without a member and there is no such directory. -/
theorem opendirDecides_iff {kmallocOk : Bool} (hm : Holds m t.start (tape t.members)) (hp : 0 ∉ path)
    (hfree : files.HasFree) : OpendirDecides t m files path kmallocOk ↔
      (foundDirectory t.members path = .error (-1) ∧ ¬ ∃ i, FirstDirectory t.members path i) ∨
      ∃ i, foundDirectory t.members path = .ok i ∧ FirstDirectory t.members path i ∧ kmallocOk = true := by
  obtain ⟨fd, hnone, hadd⟩ := addToProcessFileTable_eq hfree
  constructor
  · intro hd
    by_cases hdir : ∃ i, FirstDirectory t.members path i
    · right
      obtain ⟨i, hi⟩ := hdir
      obtain ⟨fd', hnone', hopen⟩ := hd.directory i hi
      have hopen := hopen _ (Nat.lt_succ_self _)
      rw [sysOpendir_eq hm hp hadd (Nat.lt_succ_self _)] at hopen
      cases hs : foundDirectory t.members path with
      | error r =>
        -- the table has a new descriptor
        simp only [hs, some_inj, Prod.mk.injEq] at hopen
        rw [hopen.1, Files.set_same] at hnone'
        cases hnone'
      | ok j =>
        cases kmallocOk with
        | false => simp [hs] at hopen
        | true =>
          simp only [hs, if_true, some_inj, Prod.mk.injEq, Nat.cast_inj] at hopen
          obtain rfl := set_headerOf (found_le (foundDirectory_eq_ok.1 hs).1) (firstNamed_lt hi.1).le hopen.1 hopen.2
          exact ⟨j, rfl, hi, rfl⟩
    · left
      have hopen := hd.other hdir _ (Nat.lt_succ_self _)
      rw [sysOpendir_eq hm hp hadd (Nat.lt_succ_self _)] at hopen
      refine ⟨?_, hdir⟩
      cases hs : foundDirectory t.members path with
      | error r =>
        simp only [hs, some_inj, Prod.mk.injEq, true_and] at hopen
        rw [hopen]
      | ok j =>
        simp only [hs, ite_none_right_eq_some, some_inj, Prod.mk.injEq] at hopen
        omega
  · rintro (⟨hs, hdir⟩ | ⟨i, hs, hi, hk⟩)
    · refine ⟨fun j hj => absurd ⟨j, hj⟩ hdir, fun _ fuel hfuel => ?_⟩
      rw [sysOpendir_eq hm hp hadd hfuel, hs]
    · refine ⟨fun j hj => ⟨fd, hnone, fun fuel hfuel => ?_⟩, fun hdir => absurd ⟨i, hi⟩ hdir⟩
      obtain rfl : i = j := some.inj (hi.1.symm.trans hj.1)
      rw [sysOpendir_eq hm hp hadd hfuel, hs]
      exact if_pos hk

/-- The name is shorter than the field, and there is no prefix. -/
def Member.Short (x : Member) : Prop := 0 ∈ x.header.take 100 ∧ x.header.getD 345 0 = 0

theorem Member.Short.cname_eq (hx : x.Short) : x.cname = x.name := by
  have hprefix : field x.header 345 155 = [] := by
    have hlen := x.header_length
    have h0 := hx.2
    rw [getD_eq_getElem?_getD, List.getElem?_eq_getElem (by omega), getD_some] at h0
    rw [field, drop_eq_getElem_cons (by omega), h0, take_succ_cons, takeWhile_cons_of_neg (by simp)]
  have htake : x.header.takeWhile (· ≠ 0) = (x.header.take 100).takeWhile (· ≠ 0) := by
    conv_lhs => rw [← take_append_drop 100 x.header]
    rw [takeWhile_append, if_neg]
    intro hlen
    have hall := takeWhile_eq_self_iff.1 ((takeWhile_sublist _).eq_of_length hlen) 0 hx.1
    simp at hall
  rw [cname, name, if_pos hprefix]
  exact htake

/-- For short names the search is right. -/
theorem found_eq_firstNamed (hshort : ∀ x ∈ xs, x.Short) (hpath : path ≠ []) : found xs path = firstNamed xs path := by
  rw [found, if_neg hpath, firstNamed]
  induction xs with
  | nil => rfl
  | cons x xs ih =>
    rw [findIdx?_cons, findIdx?_cons, (hshort x mem_cons_self).cname_eq, ih fun y hy => hshort y (mem_cons_of_mem _ hy)]

theorem toMember_short (hrest : e.rest.getD 88 0 = 0) : e.toMember.Short := by
  have hlen := e.name_length
  refine ⟨?_, toMember_prefix.trans hrest⟩
  show 0 ∈ e.header.take 100
  rw [Entry.header, take_left' (by rw [length_append, length_replicate]; omega)]
  exact mem_append_right _ (mem_replicate.2 ⟨by omega, rfl⟩)

theorem toMember_name (hrest : e.rest.getD 88 0 = 0) : e.toMember.name = e.name :=
  (toMember_short hrest).cname_eq.symm.trans toMember_cname

theorem names_toMember (hrest : ∀ e ∈ entries, e.rest.getD 88 0 = 0) :
    (entries.map Entry.toMember).map Member.name = entries.map Entry.name := by
  rw [List.map_map]
  exact map_congr_left fun e he => toMember_name (hrest e he)

theorem lookup_toMember (hrest : ∀ e ∈ entries, e.rest.getD 88 0 = 0) (path : List (BitVec 8)) (hpath : path ≠ []) :
    found (entries.map Entry.toMember) path = entries.findIdx? (fun e => e.name = path) ∧
    firstNamed (entries.map Entry.toMember) path = entries.findIdx? (fun e => e.name = path) := by
  have hshort : ∀ x ∈ entries.map Entry.toMember, x.Short := by
    intro x hx
    obtain ⟨e, he, rfl⟩ := List.mem_map.1 hx
    exact toMember_short (hrest e he)
  have hfound : found (entries.map Entry.toMember) path = entries.findIdx? (fun e => e.name = path) := by
    rw [found, if_neg hpath, findIdx?_map]
    simp only [Function.comp_def, toMember_cname]
  exact ⟨hfound, (found_eq_firstNamed hshort hpath).symm.trans hfound⟩

/-- `sys_open` decides whether there is a member with the name if and only if its search stops at the first one that
has it, or at none if none has; for `sys_opendir`, if it stops at a directory that is the first such member, or at
none. -/
theorem lookup_decides_iff (t : Tape) (m : M) (hm : Holds m t.start (tape t.members)) (files : Files)
    (hfree : files.HasFree) (path : List (BitVec 8)) (hp : 0 ∉ path) (kmallocOk : Bool) :
    (OpenDecides t m files path kmallocOk ↔
      found t.members path = firstNamed t.members path ∧ (firstNamed t.members path ≠ none → kmallocOk = true)) ∧
    (OpendirDecides t m files path kmallocOk ↔ (found t.members path = none ∧ ¬ ∃ i, FirstDirectory t.members path i) ∨
      ∃ i x, found t.members path = some i ∧ firstNamed t.members path = some i ∧ t.members[i]? = some x ∧
        x.Directory ∧ x.Unlinked ∧ kmallocOk = true) := by
  refine ⟨openDecides_iff hm hp hfree, (opendirDecides_iff hm hp hfree).trans ?_⟩
  rw [foundDirectory_eq_error]
  refine or_congr Iff.rfl ⟨?_, ?_⟩
  · rintro ⟨i, hok, hi, hk⟩
    obtain ⟨hs, x, hx, hdir, hlink⟩ := foundDirectory_eq_ok.1 hok
    exact ⟨i, x, hs, hi.1, hx, hdir, hlink, hk⟩
  · rintro ⟨i, x, hs, hi, hx, hdir, hlink, hk⟩
    exact ⟨i, foundDirectory_eq_ok.2 ⟨hs, x, hx, hdir, hlink⟩, ⟨hi, x, hx, hdir⟩, hk⟩

theorem length_nil_lt : ([] : List (BitVec 8)).length < 2 ^ 31 := by decide

def twoEntries : Image where
  entries := [plainEntry [0x64, 0x2f] .directory [] (by decide) (by decide) (by decide) length_nil_lt,
    plainEntry [0x64, 0x2f, 0x66] .regular [0x68, 0x69] (by decide) (by decide) (by decide) smallFile.contents_length]
  start := 0xffffffff80300000
  placed := smallImage.placed
  fits := by
    rw [length_archive_cons, length_encode, length_archive_cons, length_encode, archive, flatMap_nil, nil_append,
      length_replicate]
    decide

private theorem twoEntries_short : ∀ e ∈ twoEntries.entries, e.rest.getD 88 0 = 0 := by
  intro e he
  rcases mem_cons.1 he with rfl | he
  · rfl
  · obtain rfl := mem_singleton.1 he
    rfl

theorem lookup_decides_directory :
    OpenDecides twoEntries.toTape twoEntries.memory ⟨fun _ => none, 1024⟩ [0x64, 0x2f] true ∧
    OpendirDecides twoEntries.toTape twoEntries.memory ⟨fun _ => none, 1024⟩ [0x64, 0x2f] true := by
  obtain ⟨hfound, hfirst⟩ := lookup_toMember twoEntries_short [0x64, 0x2f] (by simp)
  have hzero : twoEntries.entries.findIdx? (fun e => e.name = [0x64, 0x2f]) = some 0 := by decide
  obtain ⟨hopen, hopendir⟩ := lookup_decides_iff twoEntries.toTape twoEntries.memory twoEntries.toTape_holds
    ⟨fun _ => none, 1024⟩ ⟨0, by decide, rfl⟩ [0x64, 0x2f] (by decide) true
  refine ⟨hopen.2 ⟨hfound.trans hfirst.symm, fun _ => rfl⟩, hopendir.2 (.inr ⟨0, _, ?_, ?_, rfl, ?_, ?_, rfl⟩)⟩
  · exact hfound.trans hzero
  · exact hfirst.trans hzero
  · exact toMember_typeflag
  · exact toMember_unlinked rfl

/-- The empty name is opened, and `sys_opendir` of a file returns 0. -/
theorem lookup_fails : ¬ OpenDecides twoEntries.toTape twoEntries.memory ⟨fun _ => none, 1024⟩ [] true ∧
    ¬ OpendirDecides twoEntries.toTape twoEntries.memory ⟨fun _ => none, 1024⟩ [0x64, 0x2f, 0x66] true := by
  have hfree : Files.HasFree ⟨fun _ => none, 1024⟩ := ⟨0, by decide, rfl⟩
  constructor
  · rw [openDecides_iff twoEntries.toTape_holds (by decide) hfree]
    rintro ⟨hsame, -⟩
    have hlt := firstNamed_lt hsame.symm
    exact Nat.lt_irrefl _ hlt
  · rw [opendirDecides_iff twoEntries.toTape_holds (by decide) hfree]
    obtain ⟨hfound, hfirst⟩ := lookup_toMember twoEntries_short [0x64, 0x2f, 0x66] (by simp)
    have hone : twoEntries.entries.findIdx? (fun e => e.name = [0x64, 0x2f, 0x66]) = some 1 := by decide
    rintro (⟨hnone, -⟩ | ⟨i, hok, -, -⟩)
    · rw [foundDirectory_eq_error] at hnone
      exact absurd (hnone.symm.trans (hfound.trans hone)) nofun
    · obtain ⟨hi, x, hx, hdir, -⟩ := foundDirectory_eq_ok.1 hok
      obtain rfl : 1 = i := some.inj ((hfound.trans hone).symm.trans hi)
      cases hx
      exact absurd (toMember_typeflag.symm.trans hdir) (by decide)

end Adix.Tarfs
