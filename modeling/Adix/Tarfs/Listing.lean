import Adix.Tarfs.Lookup

/-!
# Listing directories

Each call of `sys_readdir` walks from the header of the directory over the entries behind it, and returns the child
whose number is the offset. An entry whose name does not begin with the name of the directory ends the listing.
-/

namespace Adix.Tarfs

open VirtMem List Option BitVec
open BitVec (ofNat)

variable {M : Type} [VirtMem M] {m m' : M} {h a file : BitVec 64} {x y d : Member} {xs inside rest : List Member}
  {s dir name : List (BitVec 8)} {fuel : Nat}

def afterComponent : List (BitVec 8) → List (BitVec 8)
  | [] => []
  | _ :: s => match s with
    | [] => []
    | c :: s' => if c = 0x2f then s' else afterComponent (c :: s')

private theorem afterComponent_suffix (s : List (BitVec 8)) : afterComponent s <:+ s := by
  induction s with
  | nil => exact suffix_refl _
  | cons c s ih =>
    cases s with
    | nil => exact nil_suffix
    | cons e s =>
      rw [afterComponent]
      split
      · exact (suffix_cons e s).trans (suffix_cons c _)
      · exact ih.trans (suffix_cons c _)

/-- The entries that are listed: the name of the directory, one byte, and then no slash but at the end. -/
def Listed (dir name : List (BitVec 8)) : Prop := dir <+: name ∧ afterComponent (name.drop dir.length) = []

instance : Decidable (Listed dir name) := inferInstanceAs (Decidable (_ ∧ _))

private theorem skipCommon_spec (hs : Holds m file (s ++ [0])) (hd : Holds m h (dir ++ [0])) (hs0 : 0 ∉ s)
    (hd0 : 0 ∉ dir) (hne : s ≠ dir) (hfuel : dir.length < fuel) :
    ∃ n c, skipCommon m fuel file h = some (file + ofNat 64 n, h + ofNat 64 n) ∧
      load m (h + ofNat 64 n) = some c ∧ if dir <+: s then n = dir.length ∧ c = 0 else c ≠ 0 := by
  induction dir generalizing s file h fuel with
  | nil =>
    obtain _ | fuel := fuel
    · omega
    obtain ⟨c, s, rfl⟩ := exists_cons_of_ne_nil hne
    rw [List.cons_append, holds_cons] at hs
    rw [nil_append, holds_cons] at hd
    have hc : c ≠ 0 := fun h0 => hs0 (h0 ▸ mem_cons_self)
    refine ⟨0, 0, ?_, by simpa using hd.1, by simp⟩
    rw [skipCommon, hs.1, bind_some, hd.1, bind_some, if_neg hc]
    simp
  | cons e dir ih =>
    obtain _ | fuel := fuel
    · omega
    rw [length_cons] at hfuel
    rw [List.cons_append, holds_cons] at hd
    have he : e ≠ 0 := fun h0 => hd0 (h0 ▸ mem_cons_self)
    -- the names differ here: the end of the first, or another byte
    have hstop : ∀ c, load m file = some c → c ≠ e → ¬ e :: dir <+: s → ∃ n c,
        skipCommon m (fuel + 1) file h = some (file + ofNat 64 n, h + ofNat 64 n) ∧
        load m (h + ofNat 64 n) = some c ∧ if e :: dir <+: s then n = (e :: dir).length ∧ c = 0 else c ≠ 0 := by
      intro c hc hce hnot
      refine ⟨0, e, ?_, by simpa using hd.1, by rwa [if_neg hnot]⟩
      rw [skipCommon, hc, bind_some, hd.1, bind_some, if_neg hce]
      simp
    cases s with
    | nil =>
      rw [nil_append, holds_cons] at hs
      exact hstop 0 hs.1 he.symm (by simp)
    | cons c s =>
      rw [List.cons_append, holds_cons] at hs
      by_cases hce : c = e
      · subst hce
        obtain ⟨n, b, hskip, hb, hif⟩ := ih hs.2 hd.2 (fun h0 => hs0 (mem_cons_of_mem _ h0))
          (fun h0 => hd0 (mem_cons_of_mem _ h0)) (fun heq => hne (by rw [heq])) (show dir.length < fuel by omega)
        refine ⟨n + 1, b, ?_, by rw [← add_one_ofNat, hb], by simpa using hif⟩
        rw [skipCommon, hs.1, bind_some, hd.1, bind_some, if_pos rfl, hskip, add_one_ofNat, add_one_ofNat]
      · refine hstop c hs.1 hce fun hp => hce ?_
        exact (cons_prefix_cons.1 hp).1.symm

private theorem skipComponent_spec (hs : Holds m file (s ++ [0])) (hs0 : 0 ∉ s) (hfuel : s.length < fuel) :
    ∃ f', skipComponent m fuel file = some f' ∧ Holds m f' (afterComponent s ++ [0]) := by
  induction s generalizing file fuel with
  | nil =>
    obtain _ | fuel := fuel
    · omega
    refine ⟨file, ?_, hs⟩
    rw [nil_append, holds_cons] at hs
    rw [skipComponent, hs.1, bind_some, if_pos rfl]
  | cons c s ih =>
    obtain _ | fuel := fuel
    · omega
    rw [length_cons] at hfuel
    rw [List.cons_append, holds_cons] at hs
    have hc : c ≠ 0 := fun h0 => hs0 (h0 ▸ mem_cons_self)
    have hs0' : 0 ∉ s := fun h0 => hs0 (mem_cons_of_mem _ h0)
    obtain ⟨f', hf', hholds⟩ := ih hs.2 hs0' (show s.length < fuel by omega)
    rw [skipComponent, hs.1, bind_some, if_neg hc]
    cases s with
    | nil =>
      have hend := hs.2
      rw [nil_append, holds_cons] at hend
      rw [hend.1]
      exact ⟨f', hf', hholds⟩
    | cons e s =>
      have hnext := hs.2
      rw [List.cons_append, holds_cons] at hnext
      rw [hnext.1, bind_some, afterComponent]
      by_cases he : e = 0x2f
      · rw [if_pos he, if_pos he]
        exact ⟨_, rfl, hnext.2⟩
      · rw [if_neg he, if_neg he]
        exact ⟨f', hf', hholds⟩

/-- `check_in_dir` skips the first byte behind the name of the directory, whatever it is. -/
private theorem checkInDir_eq (hs : Holds m file (s ++ [0])) (hd : Holds m h (dir ++ [0])) (hs0 : 0 ∉ s)
    (hd0 : 0 ∉ dir) (hne : s ≠ dir) (hfuel : dir.length + s.length < fuel) :
    checkInDir fuel m file h = some (if dir <+: s then if Listed dir s then 0 else 1 else -1) := by
  obtain ⟨n, b, hskip, hb, hif⟩ := skipCommon_spec hs hd hs0 hd0 hne (show dir.length < fuel by omega)
  rw [checkInDir, hskip, bind_some]
  dsimp only
  rw [hb, bind_some]
  by_cases hp : dir <+: s
  · rw [if_pos hp] at hif
    obtain ⟨rfl, rfl⟩ := hif
    obtain ⟨r, rfl⟩ := hp
    have hrest : Holds m (file + ofNat 64 dir.length) (r ++ [0]) := by
      rw [List.append_assoc, holds_append] at hs
      exact hs.2
    have hr0 : 0 ∉ r := fun h0 => hs0 (mem_append_right _ h0)
    rw [length_append] at hfuel
    obtain ⟨f', hf', hholds⟩ := skipComponent_spec hrest hr0 (show r.length < fuel by omega)
    have hlisted : Listed dir (dir ++ r) ↔ afterComponent r = [] := by
      rw [Listed]
      simp
    rw [if_neg (by simp), hf', bind_some, if_pos (prefix_append _ _)]
    cases hafter : afterComponent r with
    | nil =>
      rw [hafter, nil_append, holds_cons] at hholds
      rw [hholds.1, map_some, if_pos rfl, if_pos (hlisted.2 hafter)]
    | cons c s =>
      have hc : c ≠ 0 := by
        rintro rfl
        exact hr0 ((afterComponent_suffix r).subset (hafter ▸ mem_cons_self))
      rw [hafter, List.cons_append, holds_cons] at hholds
      rw [hholds.1, map_some, if_neg hc, if_neg (hlisted.not.2 (by simp [hafter]))]
  · rw [if_neg hp] at hif
    rw [if_pos hif, if_neg hp]

/-- The name at the header: of the first member, or the empty one behind the last. -/
def nameAt (xs : List Member) : List (BitVec 8) := (xs.head?.map Member.cname).getD []

private theorem Member.cname_length (x : Member) : x.cname.length < 512 := by
  obtain ⟨l, hl⟩ := x.cname_ends
  have hlen := congrArg List.length hl
  rw [x.header_length, length_append, length_cons] at hlen
  omega

private theorem MembersAt.nameAt_holds (ha : MembersAt m h xs) :
    Holds m h (nameAt xs ++ [0]) ∧ 0 ∉ nameAt xs ∧ (nameAt xs).length < 512 := by
  cases xs with
  | nil => exact ⟨holds_cons.2 ⟨ha.nil_load, holds_nil⟩, not_mem_nil, by simp [nameAt]⟩
  | cons x xs =>
    obtain ⟨l, hl⟩ := x.cname_ends
    have hb := ha.header
    rw [hl, append_cons, holds_append] at hb
    exact ⟨hb.1, x.zero_notMem_cname, x.cname_length⟩

section Loop

variable {offset j : BitVec 64} {k n : Nat} (hd : Holds m a (d.cname ++ [0])) (hfuel : 1024 ≤ fuel)

include hd hfuel

/-- One round of the loop. -/
private theorem readdirLoop_step (ha : MembersAt m h (y :: xs)) (hne : nameAt xs ≠ d.cname) (hj : j ≤ offset) :
    readdirLoop fuel m a offset (n + 1) h j = if d.cname <+: nameAt xs then if Listed d.cname (nameAt xs) then
          if j = offset then some (some (h + ofNat 64 y.bytes.length))
          else readdirLoop fuel m a offset n (h + ofNat 64 y.bytes.length) (j + 1)
        else readdirLoop fuel m a offset n (h + ofNat 64 y.bytes.length) j else some none := by
  have htail := ha.tail
  rw [nextHeader_eq (ha.small y mem_cons_self)] at htail
  obtain ⟨hname, hname0, hshort⟩ := htail.nameAt_holds
  obtain ⟨c, hc, hc0⟩ := ha.load_name
  have hdlen := d.cname_length
  have hcheck := checkInDir_eq hname hd hname0 d.zero_notMem_cname hne (show _ < fuel by omega)
  rw [readdirLoop, if_pos hj, hc, bind_some, if_neg hc0, ha.getsize_eq, bind_some,
    nextHeader_eq (ha.small y mem_cons_self), hcheck]
  by_cases hp : d.cname <+: nameAt xs
  · by_cases hl : Listed d.cname (nameAt xs)
    · simp [hp, hl]
    · simp [hp, hl]
  · simp [hp]

def Finds (m : M) (h : BitVec 64) (n : Nat) : Option Member → Option (BitVec 64) → Prop
  | none, r => r = none
  | some x, r => ∃ q, q + 512 ≤ n ∧ r = some (h + ofNat 64 q) ∧ Holds m (h + ofNat 64 q) x.header

omit hd hfuel in
private theorem Finds.behind {o : Option Member} {r : Option (BitVec 64)} (hr : Finds m (h + ofNat 64 k) n o r) :
    Finds m h (k + n) o r := by
  cases o with
  | none => exact hr
  | some x =>
    obtain ⟨q, hq, hloop, hholds⟩ := hr
    refine ⟨k + q, by omega, ?_, ?_⟩
    · rw [hloop, ofNat_add, BitVec.add_assoc]
    · rw [ofNat_add, ← BitVec.add_assoc]
      exact hholds

/-- The loop finds the entry with the number asked for, among those that are listed. -/
private theorem readdirLoop_spec (ha : MembersAt m h (y :: (inside ++ rest)))
    (hin : ∀ x ∈ inside, d.cname <+: x.cname ∧ x.cname ≠ d.cname) (hout : ¬ d.cname <+: nameAt rest)
    (hk : j.toNat + k = offset.toNat) (hn : inside.length < n) :
    ∃ r, readdirLoop fuel m a offset n h j = some r ∧ Finds m h (tape (y :: (inside ++ rest))).length
      (inside.filter fun x => Listed d.cname x.cname)[k]? r := by
  have hj : j ≤ offset := by
    rw [le_def]
    omega
  induction inside generalizing h y j k n with
  | nil =>
    obtain _ | n := n
    · omega
    have hne : nameAt rest ≠ d.cname := fun heq => hout (heq ▸ prefix_refl _)
    refine ⟨none, ?_, rfl⟩
    rw [readdirLoop_step hd hfuel ha hne hj, nil_append, if_neg hout]
  | cons z inside ih =>
    obtain _ | n := n
    · omega
    rw [length_cons] at hn
    obtain ⟨hp, hne⟩ := hin z mem_cons_self
    have htail := ha.tail
    rw [nextHeader_eq (ha.small y mem_cons_self)] at htail
    rw [readdirLoop_step hd hfuel ha hne hj, show nameAt (z :: inside ++ rest) = z.cname from rfl, if_pos hp,
      length_tape_cons]
    -- what is found behind `z` is found behind `y`
    have hbehind := fun {k' : Nat} {j' : BitVec 64} (hk' : j'.toNat + k' = offset.toNat) hj' =>
      (ih htail (fun x hx => hin x (mem_cons_of_mem _ hx)) hk' (show inside.length < n by omega) hj').imp
        fun _ hr => And.intro hr.1 hr.2.behind
    by_cases hl : Listed d.cname z.cname
    · rw [if_pos hl, filter_cons_of_pos (by simpa using hl)]
      cases k with
      | zero =>
        rw [if_pos (eq_of_toNat_eq hk)]
        have := le_length_tape (z :: inside ++ rest)
        exact ⟨_, rfl, y.bytes.length, by omega, rfl, htail.header⟩
      | succ k =>
        have hlt : j ≠ offset := by
          rintro rfl
          omega
        have hjnext : (j + 1).toNat = j.toNat + 1 := by
          rw [BitVec.toNat_add, show (1 : BitVec 64).toNat = 1 from rfl, Nat.mod_eq_of_lt (by omega)]
        rw [if_neg hlt]
        exact hbehind (by omega) (by rw [le_def]; omega)
    · rw [if_neg hl, filter_cons_of_neg (by simpa using hl)]
      exact hbehind hk hj

end Loop

section Copy

variable {S : BitVec 64 → Prop} {I : M → Prop} {src buf : BitVec 64} {l : List (BitVec 8)} {n i : Nat}

private theorem memcpy_spec (hbuf : Buffer I S buf l.length) (hI : I m) (hsrc : Holds m src l)
    (hS : ∀ j < l.length, S (src + ofNat 64 j)) (hn : i + n = l.length) :
    ∃ m', memcpy m (buf + ofNat 64 i) (src + ofNat 64 i) n = some m' ∧ I m' ∧ Holds m' (buf + ofNat 64 i) (l.drop i) ∧
      (∀ j < i, ∀ c, load m (buf + ofNat 64 j) = some c → load m' (buf + ofNat 64 j) = some c) ∧
      ∀ b, S b → load m' b = load m b := by
  induction n generalizing m i with
  | zero =>
    refine ⟨m, rfl, hI, ?_, fun _ _ _ hc => hc, fun _ _ => rfl⟩
    rw [drop_eq_nil_of_le (by omega)]
    exact holds_nil
  | succ n ih =>
    have hi : i < l.length := by omega
    have hload := hsrc i (l.get ⟨i, hi⟩) (List.getElem?_eq_getElem hi)
    obtain ⟨m1, hstore, hI1, hback, hother, hS1⟩ := hbuf.write m hI i hi (l.get ⟨i, hi⟩)
    have hsrc1 : Holds m1 src l := hsrc.congr fun j hj => hS1 _ (hS j hj)
    obtain ⟨m', hcopy, hI', hholds, hbelow, hS'⟩ := ih hI1 hsrc1 (show i + 1 + n = l.length by omega)
    refine ⟨m', ?_, hI', ?_, fun j hj c hc => ?_, fun b hb => (hS' b hb).trans (hS1 b hb)⟩
    · rw [memcpy, hload, bind_some, hstore, add_ofNat_succ, add_ofNat_succ]
      exact hcopy
    · rw [drop_eq_getElem_cons hi, holds_cons, add_ofNat_succ]
      exact ⟨hbelow i (by omega) _ hback, hholds⟩
    · exact hbelow j (by omega) c (hother j (by omega) c hc)

end Copy

/-- The directory `d` at the header `h`, with the entries in it behind, at addresses that are not written to. -/
structure DirectoryAt (S : BitVec 64 → Prop) (h : BitVec 64) (d : Member) (inside rest : List Member) (m : M) :
    Prop where
  members : MembersAt m h (d :: (inside ++ rest))
  kept : ∀ q < (tape (d :: (inside ++ rest))).length, S (h + ofNat 64 q)
  directory : d.Directory ∧ d.Unlinked
  under : ∀ x ∈ inside, d.cname <+: x.cname ∧ x.cname ≠ d.cname
  ends : ¬ d.cname <+: nameAt rest

def listed (d : Member) (inside : List Member) : List Member := inside.filter fun x => Listed d.cname x.cname

section Call

variable {S : BitVec 64 → Prop} {buf : BitVec 64} {files : Files} {fd k : Nat}

private theorem DirectoryAt.congr (hd : DirectoryAt S h d inside rest m) (hsame : ∀ b, S b → load m' b = load m b) :
    DirectoryAt S h d inside rest m' :=
  ⟨⟨hd.members.bytes.congr fun i hi => hsame _ (hd.kept i hi), hd.members.small⟩, hd.kept, hd.directory, hd.under,
    hd.ends⟩

/-- A call delivers the next entry that is listed, or returns `NULL`. -/
private theorem sysReaddir_spec (hd : DirectoryAt S h d inside rest m) (hbuf : Buffer (fun _ : M => True) S buf 512)
    (hfd : files.openFiles fd = some ⟨h, ofNat 64 k⟩) (hk : k < 2 ^ 64) (hfuel : 1024 ≤ fuel)
    (hn : inside.length < fuel) : (∀ x, (listed d inside)[k]? = some x → ∃ m', sysReaddir fuel m files fd buf =
        some (m', files.set fd (some ⟨h, ofNat 64 (k + 1)⟩), buf) ∧
      Holds m' buf x.header ∧ ∀ b, S b → load m' b = load m b) ∧
    ((listed d inside)[k]? = none → sysReaddir fuel m files fd buf = some (m, files, 0)) := by
  obtain ⟨r, hr, hiff⟩ := hd.members.strcmp_typeflag (show (0x35 : BitVec 8) ≠ 0 by decide)
  have hname : Holds m h (d.cname ++ [0]) := hd.members.nameAt_holds.1
  have hoff : (0 : BitVec 64).toNat + k = (ofNat 64 k).toNat := by
    rw [toNat_ofNat, Nat.mod_eq_of_lt hk]
    exact Nat.zero_add k
  obtain ⟨found, hloop, hfound⟩ := readdirLoop_spec hname hfuel hd.members hd.under hd.ends hoff hn
  have hcall : sysReaddir fuel m files fd buf = (readdirLoop fuel m h (ofNat 64 k) fuel h 0).bind fun found =>
      found.elim (some (m, files, 0)) fun header => (memcpy m buf header 512).map fun m =>
        (m, files.set fd (some ⟨h, ofNat 64 k + 1⟩), buf) := by
    rw [sysReaddir, hfd]
    dsimp only
    rw [hr]
    refine (if_pos (hiff.2 hd.directory)).trans (congrArg _ (funext fun found => ?_))
    cases found <;> rfl
  rw [hcall, hloop, bind_some]
  change Finds m h _ (listed d inside)[k]? found at hfound
  refine ⟨fun x hx => ?_, fun hx => ?_⟩ <;> rw [hx] at hfound
  swap
  · rw [show found = none from hfound]
    rfl
  obtain ⟨q, hq, rfl, hholds⟩ := hfound
  have hlen := x.header_length
  have hcopy := memcpy_spec (i := 0) (n := 512) (hlen ▸ hbuf) trivial hholds (fun j hj => ?_) (by omega)
  · obtain ⟨m', hcopy, -, hback, -, hS⟩ := hcopy
    rw [BitVec.add_zero, BitVec.add_zero] at hcopy
    refine ⟨m', ?_, by simpa using hback, hS⟩
    rw [elim_some, hcopy, map_some, ofNat_add_one]
  · rw [BitVec.add_assoc, ← ofNat_add]
    exact hd.kept _ (by omega)

/-- Calls of `sys_readdir` one after the other: what is behind the pointer that each returns, if it is not `NULL`. -/
def readdirs (fuel fd : Nat) : List (BitVec 64) → M → Files → Option (List (Option (List (BitVec 8))))
  | [], _, _ => some []
  | buf :: bufs, m, files => (sysReaddir fuel m files fd buf).bind fun (m, files, r) =>
    if r = 0 then (readdirs fuel fd bufs m files).map (none :: ·)
    else (loadBytes m r 512).bind fun l => (readdirs fuel fd bufs m files).map (some l :: ·)

/-- The calls list the entries one after the other. -/
private theorem readdirs_eq {bufs : List (BitVec 64)} (hd : DirectoryAt S h d inside rest m)
    (hbuf : ∀ b ∈ bufs, b ≠ 0 ∧ Buffer (fun _ : M => True) S b 512)
    (hfd : files.openFiles fd = some ⟨h, ofNat 64 (min k (listed d inside).length)⟩)
    (hlen : (listed d inside).length < 2 ^ 64) (hfuel : 1024 ≤ fuel) (hn : inside.length < fuel) :
    readdirs fuel fd bufs m files =
      some ((List.range' k bufs.length).map fun i => ((listed d inside)[i]?).map Member.header) := by
  induction bufs generalizing m files k with
  | nil => rfl
  | cons buf bufs ih =>
    obtain ⟨hne, hbuf1⟩ := hbuf buf mem_cons_self
    have hrest := fun b hb => hbuf b (mem_cons_of_mem _ hb)
    obtain ⟨hsome, hnone⟩ := sysReaddir_spec hd hbuf1 hfd (by omega) hfuel hn
    rw [length_cons, range'_succ, map_cons, readdirs]
    cases hget : (listed d inside)[k]? with
    | none =>
      have hlast : (listed d inside).length ≤ k := List.getElem?_eq_none_iff.1 hget
      rw [Nat.min_eq_right hlast] at hfd hnone
      have hstay : files.openFiles fd = some ⟨h, ofNat 64 (min (k + 1) (listed d inside).length)⟩ := by
        rw [hfd, Nat.min_eq_right (by omega)]
      rw [hnone (List.getElem?_eq_none le_rfl), bind_some]
      dsimp only
      rw [ih hd hrest hstay]
      rfl
    | some x =>
      obtain ⟨hk, -⟩ := List.getElem?_eq_some_iff.1 hget
      rw [Nat.min_eq_left hk.le] at hsome
      obtain ⟨m', hcall, hholds, hS⟩ := hsome x hget
      have hslot : (files.set fd (some ⟨h, ofNat 64 (k + 1)⟩)).openFiles fd =
          some ⟨h, ofNat 64 (min (k + 1) (listed d inside).length)⟩ := by
        rw [Files.set_same, Nat.min_eq_left hk]
      have hload := loadBytes_eq hholds
      rw [x.header_length] at hload
      rw [hcall, bind_some]
      dsimp only
      rw [if_neg hne, hload, ih (hd.congr hS) hrest hslot]
      rfl

end Call

def Component (c : List (BitVec 8)) : Prop := c ≠ [] ∧ 0x2f ∉ c

/-- The name is that of the directory and one component, with or without a slash at the end. -/
def DirectChild (dir name : List (BitVec 8)) : Prop := ∃ c, Component c ∧ (name = dir ++ c ∨ name = dir ++ c ++ [0x2f])

private theorem DirectChild.ne (hc : DirectChild dir name) : name ≠ dir := by
  obtain ⟨c, ⟨hc0, -⟩, rfl | rfl⟩ := hc
  · simp [hc0]
  · simp

private theorem afterComponent_cons {c : BitVec 8} : afterComponent (c :: s) = [] ↔ 0x2f ∉ s.dropLast := by
  induction s generalizing c with
  | nil => simp [afterComponent]
  | cons e s ih =>
    rw [afterComponent]
    by_cases he : e = 0x2f
    · rw [if_pos he, he]
      cases s <;> simp
    · rw [if_neg he, ih]
      cases s with
      | nil => simp
      | cons b s => exact ⟨not_mem_cons_of_ne_of_not_mem (Ne.symm he), fun hno hmem => hno (mem_cons_of_mem _ hmem)⟩

/-- Without two slashes in a row, the entries listed are the direct children. -/
private theorem listed_iff (hslash : dir.getLast? = some 0x2f) (hplain : ¬ [0x2f, 0x2f] <:+: name) (hne : name ≠ dir) :
    Listed dir name ↔ DirectChild dir name := by
  constructor
  · rintro ⟨⟨r, rfl⟩, hafter⟩
    rw [drop_left] at hafter
    cases r with
    | nil => simp at hne
    | cons c s =>
      have hc : c ≠ 0x2f := by
        rintro rfl
        obtain ⟨l, rfl⟩ := getLast?_eq_some_iff.1 hslash
        exact hplain ⟨l, s, by simp⟩
      rw [afterComponent_cons] at hafter
      rcases eq_nil_or_concat' s with rfl | ⟨s, b, rfl⟩
      · exact ⟨[c], ⟨by simp, by simpa using Ne.symm hc⟩, .inl rfl⟩
      rw [dropLast_concat] at hafter
      by_cases hb : b = 0x2f
      · exact ⟨c :: s, ⟨by simp, not_mem_cons_of_ne_of_not_mem (Ne.symm hc) hafter⟩, .inr (by simp [hb])⟩
      · refine ⟨c :: (s ++ [b]), ⟨by simp, not_mem_cons_of_ne_of_not_mem (Ne.symm hc) fun hmem => ?_⟩, .inl rfl⟩
        exact (mem_append.1 hmem).elim hafter fun hmem => hb (mem_singleton.1 hmem).symm
  · rintro ⟨c, ⟨hc0, hc⟩, hname⟩
    obtain ⟨b, c, rfl⟩ := exists_cons_of_ne_nil hc0
    have hc' : 0x2f ∉ c := fun hmem => hc (mem_cons_of_mem _ hmem)
    rcases hname with rfl | rfl
    · refine ⟨prefix_append _ _, ?_⟩
      rw [drop_left]
      exact afterComponent_cons.2 fun hmem => hc' (mem_of_mem_dropLast hmem)
    · rw [List.append_assoc]
      refine ⟨prefix_append _ _, ?_⟩
      rw [drop_left, List.cons_append, afterComponent_cons, dropLast_concat]
      exact hc'

instance : DecidablePred Component := fun _ => inferInstanceAs (Decidable (_ ∧ _))

instance : Decidable (DirectChild dir name) :=
  decidable_of_iff (dir <+: name ∧ (Component (name.drop dir.length) ∨
    Component (name.drop dir.length).dropLast ∧ (name.drop dir.length).getLast? = some 0x2f)) <| by
    constructor
    · rintro ⟨⟨r, rfl⟩, hr⟩
      rw [drop_left] at hr
      rcases hr with hr | ⟨hr, hlast⟩
      · exact ⟨r, hr, .inl rfl⟩
      · obtain ⟨l, rfl⟩ := getLast?_eq_some_iff.1 hlast
        rw [dropLast_concat] at hr
        exact ⟨l, hr, .inr (List.append_assoc _ _ _).symm⟩
    · rintro ⟨c, hc, rfl | rfl⟩
      · rw [drop_left]
        exact ⟨prefix_append _ _, .inl hc⟩
      · rw [List.append_assoc, drop_left]
        exact ⟨prefix_append _ _, .inr (by simpa using hc)⟩

/-- Names are distinct, those of directories end in a slash, and the entries whose names begin with that of a directory
are it and some right behind it. -/
structure PreOrder (xs : List Member) : Prop where
  short : ∀ x ∈ xs, x.Short
  distinct : (xs.map Member.name).Nodup
  slash : ∀ x ∈ xs, x.Directory → x.Unlinked ∧ x.name.getLast? = some 0x2f
  nested : ∀ (i : Nat) (d : Member), xs[i]? = some d → d.Directory →
    ∃ n, ∀ (j : Nat) (x : Member), xs[j]? = some x → (d.name <+: x.name ↔ i ≤ j ∧ j ≤ i + n)

def children (xs : List Member) (d : Member) : List Member := xs.filter fun x => DirectChild d.name x.name

private theorem PreOrder.index_eq {i j : Nat} (hpre : PreOrder xs) (hx : xs[i]? = some x) (hy : xs[j]? = some y)
    (heq : x.name = y.name) : i = j := by
  obtain ⟨hi, -⟩ := List.getElem?_eq_some_iff.1 hx
  have hmap : i < (xs.map Member.name).length := by simpa using hi
  refine (getElem?_inj hmap hpre.distinct).1 ?_
  rw [getElem?_map, getElem?_map, hx, hy, map_some, map_some, heq]

/-- What the calls list instead. -/
def listing (xs : List Member) (d : Member) : List Member := xs.filter fun x => x.name ≠ d.name ∧ Listed d.name x.name

private theorem map_name_children :
    (children xs d).map Member.name = (xs.map Member.name).filter fun n => DirectChild d.name n := by
  rw [List.filter_map]
  rfl

private theorem map_name_listing :
    (listing xs d).map Member.name = (xs.map Member.name).filter fun n => n ≠ d.name ∧ Listed d.name n := by
  rw [List.filter_map]
  rfl

private theorem PreOrder.split {i : Nat} (hpre : PreOrder xs) (hd : xs[i]? = some d) (hdir : d.Directory) :
    ∃ inside rest, xs.drop i = d :: (inside ++ rest) ∧ (∀ x ∈ inside, d.name <+: x.name ∧ x.name ≠ d.name) ∧
      ∀ x ∈ xs.take i ++ rest, ¬ d.name <+: x.name := by
  obtain ⟨hi, hget⟩ := List.getElem?_eq_some_iff.1 hd
  obtain ⟨n, hn⟩ := hpre.nested i d hd hdir
  refine ⟨(xs.drop (i + 1)).take n, (xs.drop (i + 1)).drop n, ?_, fun x hx => ?_, fun x hx hp => ?_⟩
  · rw [take_append_drop, drop_eq_getElem_cons hi, hget]
  · obtain ⟨j, hj⟩ := mem_iff_getElem?.1 hx
    have hjn : j < n := by
      have := (List.getElem?_eq_some_iff.1 hj).1
      rw [length_take] at this
      omega
    rw [getElem?_take_of_lt hjn, getElem?_drop] at hj
    refine ⟨(hn _ x hj).2 ⟨by omega, by omega⟩, fun heq => ?_⟩
    have := hpre.index_eq hj hd heq
    omega
  · rcases mem_append.1 hx with hx | hx
    · obtain ⟨j, hj⟩ := mem_iff_getElem?.1 hx
      have hji : j < i := by
        have := (List.getElem?_eq_some_iff.1 hj).1
        rw [length_take] at this
        omega
      rw [getElem?_take_of_lt hji] at hj
      have := (hn j x hj).1 hp
      omega
    · obtain ⟨j, hj⟩ := mem_iff_getElem?.1 hx
      rw [drop_drop, getElem?_drop] at hj
      have := (hn _ x hj).1 hp
      omega

section Archive

variable {t : Tape} {i : Nat}

private theorem PreOrder.directoryAt (hpre : PreOrder t.members) (hm : Holds m t.start (tape t.members))
    (hd : t.members[i]? = some d) (hdir : d.Directory) :
    ∃ inside rest, DirectoryAt t.Has (t.headerOf i) d inside rest m ∧ inside.length < (tape t.members).length ∧
      listed d inside = listing t.members d := by
  obtain ⟨hi, -⟩ := List.getElem?_eq_some_iff.1 hd
  obtain ⟨inside, rest, hdrop, hin, hout⟩ := hpre.split hd hdir
  have hmem : ∀ x ∈ d :: (inside ++ rest), x ∈ t.members := fun x hx => mem_of_mem_drop (hdrop ▸ hx)
  have hname : ∀ x ∈ d :: (inside ++ rest), x.cname = x.name := fun x hx => (hpre.short x (hmem x hx)).cname_eq
  have hdname := hname d mem_cons_self
  have ha := (Tape.membersAt hm).drop hi.le
  have hlen : (tape t.members).length = offsetOf t.members i + (tape (t.members.drop i)).length := length_tape_drop
  rw [hdrop] at ha hlen
  have hcount := length_members_le (d :: (inside ++ rest))
  rw [length_cons, length_append] at hcount
  have hinside : ∀ x ∈ inside, x.cname = x.name := fun x hx => hname x (by simp [hx])
  refine ⟨inside, rest, ⟨ha, fun q hq => ?_, ⟨hdir, (hpre.slash d (hmem d mem_cons_self) hdir).1⟩, fun x hx => ?_, ?_⟩,
    by omega, ?_⟩
  · rw [Tape.headerOf, BitVec.add_assoc, ← ofNat_add]
    exact Tape.has_add (by omega)
  · rw [hinside x hx, hdname]
    exact hin x hx
  · cases rest with
    | nil =>
      intro hp
      exact d.cname_ne (prefix_nil.1 hp)
    | cons x rest =>
      show ¬ d.cname <+: x.cname
      rw [hname x (by simp), hdname]
      exact hout x (by simp)
  · -- no entry outside is under the directory
    have hnone : ∀ l : List Member, (∀ x ∈ l, ¬ d.name <+: x.name) →
        l.filter (fun x => x.name ≠ d.name ∧ Listed d.name x.name) = [] := by
      intro l hl
      rw [filter_eq_nil_iff]
      intro x hx
      simp [Listed, hl x hx]
    conv_rhs => rw [listing, ← take_append_drop i t.members, hdrop]
    rw [filter_append, filter_cons_of_neg (by simp), filter_append,
      hnone _ fun x hx => hout x (mem_append_left _ hx), hnone _ fun x hx => hout x (mem_append_right _ hx),
      append_nil]
    apply filter_congr
    intro x hx
    rw [hinside x hx, hdname]
    simp [hin x hx]

private theorem PreOrder.found_eq (hpre : PreOrder t.members) (hd : t.members[i]? = some d) :
    found t.members d.name = some i := by
  obtain ⟨hi, hget⟩ := List.getElem?_eq_some_iff.1 hd
  have hne : d.name ≠ [] := by
    rw [← (hpre.short d (mem_of_getElem? hd)).cname_eq]
    exact d.cname_ne
  rw [found_eq_firstNamed hpre.short hne, firstNamed, findIdx?_eq_some_iff_getElem]
  refine ⟨hi, by simp [hget], fun j hj => ?_⟩
  simp only [decide_eq_true_eq]
  intro heq
  have := hpre.index_eq (List.getElem?_eq_getElem (show j < t.members.length by omega)) hd heq
  omega

private theorem PreOrder.readdirs_eq {m : FlatMem} {files : Files} (hpre : PreOrder t.members)
    (hm : Holds m t.start (tape t.members)) (hd : t.members[i]? = some d) (hdir : d.Directory) (hfree : files.HasFree) :
    ∃ (files' : Files) (fd : Nat), ∀ fuel, (tape t.members).length + 1024 ≤ fuel →
      sysOpendir fuel m t.start files d.name true = some (files', (fd : Int)) ∧
      ∀ bufs : List (BitVec 64), (∀ b ∈ bufs, b ≠ 0 ∧ t.Clear (.read b 512)) →
        readdirs fuel fd bufs m files' = some ((List.range bufs.length).map fun k =>
          ((listing t.members d)[k]?).map Member.header) := by
  obtain ⟨fd, -, hadd⟩ := addToProcessFileTable_eq hfree
  obtain ⟨inside, rest, hat, hcount, hlisted⟩ := hpre.directoryAt hm hd hdir
  have hshort := hpre.short d (mem_of_getElem? hd)
  have hname : 0 ∉ d.name := hshort.cname_eq ▸ d.zero_notMem_cname
  have hfound : foundDirectory t.members d.name = .ok i :=
    foundDirectory_eq_ok.2 ⟨hpre.found_eq hd, d, hd, hat.directory⟩
  refine ⟨files.set fd (some ⟨t.headerOf i, 0⟩), fd, fun fuel hfuel => ⟨?_, fun bufs hbufs => ?_⟩⟩
  · have hmembers := length_members_le t.members
    rw [sysOpendir_eq hm hname hadd (show t.members.length < fuel by omega), hfound]
    rfl
  · have hle : (listed d inside).length ≤ inside.length := length_filter_le _ _
    have hbytes := t.length_le
    have hslot : (files.set fd (some ⟨t.headerOf i, 0⟩)).openFiles fd =
        some ⟨t.headerOf i, ofNat 64 (min 0 (listed d inside).length)⟩ := by
      rw [Files.set_same]
      rfl
    rw [Tarfs.readdirs_eq hat (fun b hb => ⟨(hbufs b hb).1, FlatMem.buffer (by decide) (hbufs b hb).2⟩) hslot (by omega)
      (by omega) (by omega), hlisted, range_eq_range']

end Archive

/-- After `sys_opendir` of the directory, the calls of `sys_readdir` return its children in the order of the archive,
and `NULL` from then on. -/
def ListsChildren (t : Tape) (m : M) (files : Files) (d : Member) : Prop :=
  ∃ (files' : Files) (fd : Nat), ∀ fuel, (tape t.members).length + 1024 ≤ fuel →
    sysOpendir fuel m t.start files d.name true = some (files', (fd : Int)) ∧
    ∀ bufs : List (BitVec 64), (∀ b ∈ bufs, b ≠ 0 ∧ t.Clear (.read b 512)) →
      readdirs fuel fd bufs m files' =
        some ((List.range bufs.length).map fun k => ((children t.members d)[k]?).map Member.header)

/-- In an archive in pre-order where no name has two slashes in a row, the listing of each directory is exact. -/
theorem directory_listing (t : Tape) (m : FlatMem) (hm : Holds m t.start (tape t.members)) (hpre : PreOrder t.members)
    (hplain : ∀ x ∈ t.members, ¬ [0x2f, 0x2f] <:+: x.name) (i : Nat) (d : Member) (hd : t.members[i]? = some d)
    (hdir : d.Directory) (files : Files) (hfree : files.HasFree) : ListsChildren t m files d := by
  have hslash := (hpre.slash d (mem_of_getElem? hd) hdir).2
  have hsame : listing t.members d = children t.members d := by
    apply filter_congr
    intro x hx
    rw [decide_eq_decide]
    constructor
    · rintro ⟨hne, hl⟩
      exact (listed_iff hslash (hplain x hx) hne).1 hl
    · intro hc
      exact ⟨hc.ne, (listed_iff hslash (hplain x hx) hc.ne).2 hc⟩
  unfold ListsChildren
  rw [← hsame]
  exact hpre.readdirs_eq hm hd hdir hfree

private theorem preOrder_toMember {entries : List Entry} (hrest : ∀ e ∈ entries, e.rest.getD 88 0 = 0)
    (hlink : ∀ e ∈ entries, e.linkname.head? = some 0) (hdistinct : (entries.map Entry.name).Nodup)
    (hslash : ∀ e ∈ entries, e.kind = .directory → e.name.getLast? = some 0x2f)
    (hnested : ∀ i : Fin entries.length, (entries.get i).kind = .directory → ∃ n : Fin entries.length,
      ∀ j : Fin entries.length, (entries.get i).name <+: (entries.get j).name ↔ i.val ≤ j.val ∧ j.val ≤ i.val + n.val) :
    PreOrder (entries.map Entry.toMember) := by
  have hname : ∀ e ∈ entries, e.toMember.name = e.name := fun e he => toMember_name (hrest e he)
  have hkind : ∀ e : Entry, e.toMember.Directory → e.kind = .directory := by
    intro e he
    rw [Member.Directory, toMember_typeflag] at he
    cases hk : e.kind with
    | regular =>
      rw [hk] at he
      exact absurd he (by decide)
    | directory => rfl
  refine ⟨fun x hx => ?_, ?_, fun x hx hdir => ?_, fun i d hd hdir => ?_⟩
  · obtain ⟨e, he, rfl⟩ := List.mem_map.1 hx
    exact toMember_short (hrest e he)
  · rw [names_toMember hrest]
    exact hdistinct
  · obtain ⟨e, he, rfl⟩ := List.mem_map.1 hx
    rw [hname e he]
    exact ⟨toMember_unlinked (hlink e he), hslash e he (hkind e hdir)⟩
  · obtain ⟨hi, rfl⟩ := List.getElem?_eq_some_iff.1 hd
    rw [length_map] at hi
    rw [getElem_map] at hdir ⊢
    obtain ⟨n, hn⟩ := hnested ⟨i, hi⟩ (hkind _ hdir)
    refine ⟨n, fun j x hx => ?_⟩
    obtain ⟨hj, rfl⟩ := List.getElem?_eq_some_iff.1 hx
    rw [length_map] at hj
    rw [getElem_map, hname _ (getElem_mem hi), hname _ (getElem_mem hj)]
    exact hn ⟨j, hj⟩

def nestedEntries : Image where
  entries := [plainEntry [0x61, 0x2f] .directory [] (by decide) (by decide) (by decide) length_nil_lt,
    plainEntry [0x61, 0x2f, 0x62, 0x2f] .directory [] (by decide) (by decide) (by decide) length_nil_lt,
    plainEntry [0x61, 0x2f, 0x62, 0x2f, 0x63] .regular [] (by decide) (by decide) (by decide) length_nil_lt,
    plainEntry [0x61, 0x2f, 0x78] .regular [0x68, 0x69] (by decide) (by decide) (by decide) smallFile.contents_length]
  start := 0xffffffff80300000
  placed := smallImage.placed
  fits := by
    simp only [length_archive_cons, length_encode]
    rw [archive, flatMap_nil, nil_append, length_replicate]
    decide

private theorem nestedEntries_rest : ∀ e ∈ nestedEntries.entries, e.rest.getD 88 0 = 0 := by decide

private theorem nestedEntries_preOrder : PreOrder nestedEntries.toTape.members := by
  apply preOrder_toMember nestedEntries_rest <;> decide

theorem directory_listing_nested : ∃ d, d.name = [0x61, 0x2f] ∧
    ListsChildren nestedEntries.toTape nestedEntries.memory ⟨fun _ => none, 1024⟩ d ∧
    (children nestedEntries.toTape.members d).map Member.name = [[0x61, 0x2f, 0x62, 0x2f], [0x61, 0x2f, 0x78]] := by
  have hnames : nestedEntries.toTape.members.map Member.name = nestedEntries.entries.map Entry.name :=
    names_toMember nestedEntries_rest
  have hname : (nestedEntries.entries.get ⟨0, by decide⟩).toMember.name = [0x61, 0x2f] :=
    toMember_name (nestedEntries_rest _ (List.get_mem _ _))
  refine ⟨(nestedEntries.entries.get ⟨0, by decide⟩).toMember, hname, ?_, ?_⟩
  · apply directory_listing nestedEntries.toTape nestedEntries.memory nestedEntries.toTape_holds nestedEntries_preOrder
      _ 0 _ rfl toMember_typeflag _ ⟨0, by decide, rfl⟩
    intro x hx
    have hmem : x.name ∈ nestedEntries.entries.map Entry.name := hnames ▸ List.mem_map_of_mem hx
    have hall : ∀ n ∈ nestedEntries.entries.map Entry.name, ¬ [0x2f, 0x2f] <:+: n := by decide
    exact hall _ hmem
  · rw [map_name_children, hname, hnames]
    decide

def doubleSlash : Image where
  entries := [plainEntry [0x61, 0x2f] .directory [] (by decide) (by decide) (by decide) length_nil_lt,
    plainEntry [0x61, 0x2f, 0x2f, 0x62] .regular [] (by decide) (by decide) (by decide) length_nil_lt]
  start := 0xffffffff80300000
  placed := smallImage.placed
  fits := by
    simp only [length_archive_cons, length_encode]
    rw [archive, flatMap_nil, nil_append, length_replicate]
    decide

/-- The file `a//b` is listed for `a/`, as if `/b` were a component. -/
theorem lists_double_slash : PreOrder doubleSlash.toTape.members ∧ ∃ d, doubleSlash.toTape.members[0]? = some d ∧
    d.Directory ∧ ¬ ListsChildren doubleSlash.toTape doubleSlash.memory ⟨fun _ => none, 1024⟩ d := by
  have hrest : ∀ e ∈ doubleSlash.entries, e.rest.getD 88 0 = 0 := by decide
  have hnames : doubleSlash.toTape.members.map Member.name = doubleSlash.entries.map Entry.name := names_toMember hrest
  have hpre : PreOrder doubleSlash.toTape.members := by
    apply preOrder_toMember hrest <;> decide
  set d := (doubleSlash.entries.get ⟨0, by decide⟩).toMember
  have hget : doubleSlash.toTape.members[0]? = some d := rfl
  have hdir : d.Directory := toMember_typeflag
  have hname : d.name = [0x61, 0x2f] := toMember_name (hrest _ (List.get_mem _ _))
  refine ⟨hpre, d, hget, hdir, ?_⟩
  rintro ⟨files1, fd1, h1⟩
  obtain ⟨files2, fd2, h2⟩ := hpre.readdirs_eq doubleSlash.toTape_holds hget hdir
    (show Files.HasFree ⟨fun _ => none, 1024⟩ from ⟨0, by decide, rfl⟩)
  obtain ⟨hopen1, hlist1⟩ := h1 _ le_rfl
  obtain ⟨hopen2, hlist2⟩ := h2 _ le_rfl
  obtain ⟨rfl, hfd⟩ := Prod.mk.inj (some.inj (hopen1.symm.trans hopen2))
  obtain rfl : fd1 = fd2 := Int.ofNat.inj hfd
  have hbuf : ∀ b ∈ [(0x1000 : BitVec 64)], b ≠ 0 ∧ doubleSlash.toTape.Clear (.read b 512) := by
    intro b hb
    obtain rfl := mem_singleton.1 hb
    exact ⟨by decide, Tape.clear_low (by decide)⟩
  -- one call: there is no child, but an entry that is listed
  have hsame := some.inj ((hlist1 _ hbuf).symm.trans (hlist2 _ hbuf))
  have hchildren : children doubleSlash.toTape.members d = [] := by
    rw [← map_eq_nil_iff, map_name_children, hname, hnames]
    decide
  have hlisting : (listing doubleSlash.toTape.members d).map Member.name = [[0x61, 0x2f, 0x2f, 0x62]] := by
    rw [map_name_listing, hname, hnames]
    decide
  obtain ⟨x, hx, -⟩ := map_eq_singleton_iff.1 hlisting
  rw [hchildren, hx] at hsame
  cases hsame

end Adix.Tarfs
