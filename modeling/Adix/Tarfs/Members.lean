import Adix.Tarfs.Defs
import Mathlib.Data.BitVec
import Mathlib.Data.List.TakeWhile
import Mathlib.Tactic.IntervalCases
import Mathlib.Tactic.Ring
import Mathlib.Data.List.GetD

/-!
# Archives, member by member

A member of a tar archive is a header of 512 bytes, with the size of the contents as 11 octal digits, and the contents
filled up to a multiple of 512; the archive ends with a block of zeros. It lies between `kernmem` and the end of the
address space, so no sum of `nextHeader` overflows.
-/

namespace Adix.Tarfs

open VirtMem List Option BitVec
open BitVec (ofNat)

def kernmem : Nat := 0xffffffff80200000

/-- The last `k` octal digits of a number, as text. -/
def octal : Nat → Nat → List (BitVec 8)
  | 0, _ => []
  | k + 1, n => octal k (n / 8) ++ [ofNat 8 (0x30 + n % 8)]

/-- A member of an archive, of any type. `fill` is what fills up the last block of the contents. -/
structure Member where
  header : List (BitVec 8)
  contents : List (BitVec 8)
  fill : List (BitVec 8)
  header_length : header.length = 512
  named : header.head? ≠ some 0
  -- some field of text is shorter than its place, if only the magic `ustar`
  ends : 0 ∈ header
  size_eq : (header.drop 124).take 11 = octal 11 contents.length
  fill_length : fill.length = (512 - contents.length % 512) % 512

namespace Member

variable (x : Member) {digits : BitVec 64} {c : BitVec 8} {path : List (BitVec 8)}

def bytes : List (BitVec 8) := x.header ++ (x.contents ++ x.fill)

def cname : List (BitVec 8) := x.header.takeWhile (· ≠ 0)

def typeflag : BitVec 8 := x.header.getD 156 0

def Unlinked : Prop := x.header.getD 157 0 = 0

instance : Decidable x.Unlinked := inferInstanceAs (Decidable (_ = _))

end Member

def tape (members : List Member) : List (BitVec 8) := members.flatMap Member.bytes ++ List.replicate 512 0

def offsetOf (members : List Member) (i : Nat) : Nat := ((members.take i).flatMap Member.bytes).length

variable {M : Type} [VirtMem M] {m : M} {h : BitVec 64} {x : Member} {xs : List Member} {n k i j fuel q : Nat}
  {after before entries : List Entry}

@[simp] theorem length_octal : (octal k n).length = k := by
  induction k generalizing n with
  | zero => rfl
  | succ k ih => simp [octal, ih]

private theorem digit_eq (hn : n < 8) : (ofNat 8 (0x30 + n)).signExtend 32 - 48 = ofNat 32 n := by
  interval_cases n <;> rfl

private theorem sizeLoop_octal {count size : BitVec 32} (hn : n < 8 ^ k) (hd : Holds m digits (octal k n)) :
    sizeLoop m digits k count size = some (size + ofNat 32 n * count) := by
  induction k generalizing n count size with
  | zero =>
    obtain rfl : n = 0 := by simpa using hn
    simp [sizeLoop]
  | succ k ih =>
    rw [octal, holds_append, length_octal, holds_cons] at hd
    obtain ⟨hd, hlast, -⟩ := hd
    have hdiv : n / 8 < 8 ^ k := by
      omega
    have hsplit : ofNat 32 n = ofNat 32 (n / 8) * 8 + ofNat 32 (n % 8) := by
      conv_lhs => rw [← Nat.div_add_mod' n 8]
      rw [ofNat_add, ofNat_mul]
      rfl
    unfold sizeLoop
    rw [hlast, bind_some, ih hdiv hd, digit_eq (Nat.mod_lt n (by decide)), hsplit]
    congr 1
    ring

/-- `getsize` reads the octal digits. -/
theorem getsize_octal (hn : n < 8 ^ 11) (hd : Holds m digits (octal 11 n)) : getsize m digits = some (ofNat 32 n) := by
  refine (sizeLoop_octal hn hd).trans ?_
  simp

private theorem msb_ofNat (hn : n < 2 ^ 31) : (ofNat 32 n).msb = false := by
  rw [msb_eq_decide, toNat_ofNat, Nat.mod_eq_of_lt (by omega)]
  simpa using hn

theorem signExtend_ofNat (hn : n < 2 ^ 31) : (ofNat 32 n).signExtend 64 = ofNat 64 n := by
  rw [signExtend_eq_setWidth_of_msb_false (msb_ofNat hn)]
  apply eq_of_toNat_eq
  rw [toNat_setWidth, toNat_ofNat, toNat_ofNat]
  omega

private theorem Member.length_bytes :
    x.bytes.length = (x.contents.length / 512 + 1) * 512 + if x.contents.length % 512 ≠ 0 then 512 else 0 := by
  simp only [Member.bytes, length_append, x.header_length, x.fill_length]
  split <;> omega

/-- The step goes over the contents and what fills them up. -/
theorem nextHeader_eq (hn : x.contents.length < 2 ^ 31 - 512) :
    nextHeader h (ofNat 32 x.contents.length) = h + ofNat 64 x.bytes.length := by
  rw [Member.length_bytes]
  generalize x.contents.length = n at hn
  have hdiv : (ofNat 32 n).sdiv 512 = ofNat 32 (n / 512) := by
    rw [sdiv_eq, msb_ofNat (by omega)]
    apply eq_of_toNat_eq
    show ((ofNat 32 n) / 512).toNat = _
    rw [toNat_udiv, toNat_ofNat, toNat_ofNat, Nat.mod_eq_of_lt (by omega), Nat.mod_eq_of_lt (by omega)]
    rfl
  have hmod : (ofNat 32 n).srem 512 = ofNat 32 (n % 512) := by
    rw [srem_eq, msb_ofNat (by omega)]
    apply eq_of_toNat_eq
    show ((ofNat 32 n) % 512).toNat = _
    rw [toNat_umod, toNat_ofNat, toNat_ofNat, Nat.mod_eq_of_lt (show n < 2 ^ 32 by omega),
      Nat.mod_eq_of_lt (show n % 512 < 2 ^ 32 by omega)]
    rfl
  have hstep : ((ofNat 32 n).sdiv 512 + 1) * 512 = ofNat 32 ((n / 512 + 1) * 512) := by
    rw [hdiv, ofNat_mul, ofNat_add]
    rfl
  have hext : (ofNat 32 ((n / 512 + 1) * 512)).signExtend 64 = ofNat 64 ((n / 512 + 1) * 512) :=
    signExtend_ofNat (by omega)
  have hzero : (ofNat 32 n).srem 512 ≠ 0 ↔ n % 512 ≠ 0 := by
    rw [hmod, not_iff_not, ← toNat_inj, toNat_ofNat, Nat.mod_eq_of_lt (by omega)]
    rfl
  unfold nextHeader
  simp only [hstep, hext, hzero]
  split
  · rw [ofNat_add, BitVec.add_assoc, show (512 : BitVec 64) = ofNat 64 512 from rfl]
  · simp only [Nat.add_zero]

private theorem sub_signExtend {d : BitVec 8} : c.signExtend 32 - d.signExtend 32 = 0 ↔ c = d := by
  rw [sub_eq_zero]
  refine ⟨fun hc => eq_of_toInt_eq ?_, fun hc => by rw [hc]⟩
  have hint := congrArg BitVec.toInt hc
  rwa [toInt_signExtend_of_le (by decide), toInt_signExtend_of_le (by decide)] at hint

/-- `strcmp` returns 0 if and only if the strings are the same. -/
theorem strcmp_eq {s t : List (BitVec 8)} (hm : Holds m h (s ++ [0])) (hs : 0 ∉ s) (ht : 0 ∉ t) :
    ∃ r, strcmp m h t = some r ∧ (r = 0 ↔ s = t) := by
  induction t generalizing h s with
  | nil =>
    cases s with
    | nil =>
      rw [nil_append, holds_cons] at hm
      refine ⟨0, ?_, by simp⟩
      rw [strcmp, hm.1, map_some, if_pos rfl]
    | cons c s =>
      rw [List.cons_append, holds_cons] at hm
      have hc : c ≠ 0 := fun h0 => hs (h0 ▸ mem_cons_self)
      refine ⟨c.signExtend 32 - (0 : BitVec 8).signExtend 32, ?_, iff_of_false (sub_signExtend.not.2 hc) (by simp)⟩
      rw [strcmp, hm.1, map_some, if_neg hc]
      rfl
  | cons d t ih =>
    have hd : d ≠ 0 := fun h0 => ht (h0 ▸ mem_cons_self)
    cases s with
    | nil =>
      rw [nil_append, holds_cons] at hm
      refine ⟨(0 : BitVec 8).signExtend 32 - d.signExtend 32, ?_, iff_of_false (sub_signExtend.not.2 hd.symm) (by simp)⟩
      rw [strcmp, hm.1, bind_some, if_neg hd.symm]
    | cons c s =>
      rw [List.cons_append, holds_cons] at hm
      have hc : c ≠ 0 := fun h0 => hs (h0 ▸ mem_cons_self)
      by_cases hcd : c = d
      · subst hcd
        obtain ⟨r, hr, hiff⟩ := ih hm.2 (fun h0 => hs (mem_cons_of_mem _ h0)) fun h0 => ht (mem_cons_of_mem _ h0)
        refine ⟨r, ?_, hiff.trans (by simp)⟩
        rw [strcmp, hm.1, bind_some, if_pos rfl, if_neg hc, hr]
      · refine ⟨c.signExtend 32 - d.signExtend 32, ?_, iff_of_false (sub_signExtend.not.2 hcd) (by simp [hcd])⟩
        rw [strcmp, hm.1, bind_some, if_neg hcd]

theorem strcmp_byte {b z : BitVec 8} (hb : load m h = some b) (hz : load m (h + 1) = some z) (hc : c ≠ 0) :
    ∃ r, strcmp m h [c] = some r ∧ (r = 0 ↔ b = c ∧ z = 0) := by
  by_cases hbc : b = c
  · subst hbc
    by_cases hz0 : z = 0
    · refine ⟨0, ?_, iff_of_true rfl ⟨rfl, hz0⟩⟩
      rw [strcmp, hb, bind_some, if_pos rfl, if_neg hc, strcmp, hz, map_some, if_pos hz0]
    · refine ⟨z.signExtend 32 - (0 : BitVec 8).signExtend 32, ?_,
        iff_of_false (sub_signExtend.not.2 hz0) fun hboth => hz0 hboth.2⟩
      rw [strcmp, hb, bind_some, if_pos rfl, if_neg hc, strcmp, hz, map_some, if_neg hz0]
      rfl
  · refine ⟨b.signExtend 32 - c.signExtend 32, ?_, iff_of_false (sub_signExtend.not.2 hbc) fun hboth => hbc hboth.1⟩
    rw [strcmp, hb, bind_some, if_neg hbc]

theorem Member.zero_notMem_cname : 0 ∉ x.cname := by
  intro h0
  simpa using mem_takeWhile_imp h0

theorem Member.cname_ends : ∃ l, x.header = x.cname ++ 0 :: l := by
  have hne : x.header.dropWhile (· ≠ 0) ≠ [] := by
    intro hnil
    have hall := dropWhile_eq_nil_iff.1 hnil 0 x.ends
    simp at hall
  obtain ⟨c, l, hl⟩ := exists_cons_of_ne_nil hne
  have hc := head_dropWhile_not _ hne
  simp only [hl, head_cons, decide_eq_false_iff_not, Classical.not_not] at hc
  refine ⟨l, ?_⟩
  rw [← hc, ← hl]
  exact takeWhile_append_dropWhile.symm

theorem Member.cname_ne : x.cname ≠ [] := by
  intro hnil
  obtain ⟨l, hl⟩ := x.cname_ends
  apply x.named
  rw [hl, hnil]
  rfl

/-- The members are in memory from the header on, then the block of zeros; all of them can be stepped over. -/
structure MembersAt (m : M) (h : BitVec 64) (xs : List Member) : Prop where
  bytes : Holds m h (tape xs)
  small : ∀ x ∈ xs, x.contents.length < 2 ^ 31 - 512

namespace MembersAt

theorem header (ha : MembersAt m h (x :: xs)) : Holds m h x.header := by
  have hb := ha.bytes
  rw [tape, flatMap_cons, Member.bytes, List.append_assoc, List.append_assoc, holds_append] at hb
  exact hb.1

theorem tail (ha : MembersAt m h (x :: xs)) : MembersAt m (nextHeader h (ofNat 32 x.contents.length)) xs := by
  have hb := ha.bytes
  rw [tape, flatMap_cons, List.append_assoc, holds_append] at hb
  refine ⟨?_, fun y hy => ha.small y (mem_cons_of_mem _ hy)⟩
  rw [nextHeader_eq (ha.small x mem_cons_self)]
  exact hb.2

theorem contents (ha : MembersAt m h (x :: xs)) : ∃ c, Holds m (h + 512) (x.contents ++ [c]) := by
  obtain ⟨c, l, hl⟩ : ∃ c l, x.fill ++ tape xs = c :: l := by
    apply exists_cons_of_ne_nil
    apply append_ne_nil_of_right_ne_nil
    apply append_ne_nil_of_right_ne_nil
    exact cons_ne_nil _ _
  have hb := ha.bytes
  rw [tape, flatMap_cons, List.append_assoc, Member.bytes, List.append_assoc, List.append_assoc, holds_append,
    x.header_length] at hb
  replace hb : Holds m (h + 512) (x.contents ++ (x.fill ++ tape xs)) := hb.2
  rw [hl, holds_append, holds_cons] at hb
  exact ⟨c, holds_append.2 ⟨hb.1, holds_cons.2 ⟨hb.2.1, holds_nil⟩⟩⟩

theorem nil_load (ha : MembersAt m h []) : load m h = some 0 := (holds_cons.1 ha.bytes).1

theorem nil_zero (ha : MembersAt m h []) (hi : i < 512) : load m (h + ofNat 64 i) = some 0 := by
  apply ha.bytes
  rw [tape, flatMap_nil, nil_append, getElem?_replicate, if_pos hi]

theorem load_name (ha : MembersAt m h (x :: xs)) : ∃ c, load m h = some c ∧ c ≠ 0 := by
  obtain ⟨c, l, hl⟩ : ∃ c l, x.header = c :: l := by
    apply exists_cons_of_ne_nil
    intro hnil
    have := x.header_length
    simp [hnil] at this
  have hb := ha.header
  rw [hl, holds_cons] at hb
  refine ⟨c, hb.1, fun h0 => x.named ?_⟩
  rw [hl, h0]
  rfl

theorem load_header (ha : MembersAt m h (x :: xs)) (hi : i < 512) :
    load m (h + ofNat 64 i) = some (x.header.getD i 0) := by
  have hlen := x.header_length
  apply ha.header
  rw [getD_eq_getElem?_getD, List.getElem?_eq_getElem (by omega)]
  rfl

theorem getsize_eq (ha : MembersAt m h (x :: xs)) : getsize m (h + sizeField) = some (ofNat 32 x.contents.length) := by
  have hsmall := ha.small x mem_cons_self
  refine getsize_octal (by omega) ?_
  rw [← x.size_eq]
  exact ha.header.slice 124 11

/-- The string at a header is the name. -/
theorem strcmp_name (ha : MembersAt m h (x :: xs)) {t : List (BitVec 8)} (ht : 0 ∉ t) :
    ∃ r, strcmp m h t = some r ∧ (r = 0 ↔ x.cname = t) := by
  obtain ⟨l, hl⟩ := x.cname_ends
  have hb := ha.header
  rw [hl, append_cons, holds_append] at hb
  exact strcmp_eq hb.1 x.zero_notMem_cname ht

theorem strcmp_typeflag (ha : MembersAt m h (x :: xs)) (hc : c ≠ 0) :
    ∃ r, strcmp m (h + typeflagField) [c] = some r ∧ (r = 0 ↔ x.typeflag = c ∧ x.Unlinked) := by
  have hnext : h + typeflagField + 1 = h + ofNat 64 157 := by
    rw [BitVec.add_assoc]
    rfl
  refine strcmp_byte (ha.load_header (i := 156) (by decide)) ?_ hc
  rw [hnext]
  exact ha.load_header (i := 157) (by decide)

end MembersAt

@[simp] private theorem offsetOf_zero : offsetOf xs 0 = 0 := rfl

theorem offsetOf_succ : offsetOf (x :: xs) (i + 1) = x.bytes.length + offsetOf xs i := by
  rw [offsetOf, take_succ_cons, flatMap_cons, length_append]
  rfl

/-- The rest of a tape is one. -/
theorem MembersAt.drop (ha : MembersAt m h xs) (hi : i ≤ xs.length) :
    MembersAt m (h + ofNat 64 (offsetOf xs i)) (xs.drop i) := by
  induction i generalizing h xs with
  | zero => simpa using ha
  | succ i ih =>
    cases xs with
    | nil => simp at hi
    | cons x xs =>
      have hrest := ih ha.tail (by simpa using hi)
      rwa [nextHeader_eq (ha.small x mem_cons_self), BitVec.add_assoc, ← ofNat_add, ← offsetOf_succ] at hrest

/-- The loop visits the members one after the other, and counts them. -/
theorem parsetarLoop_eq {i : BitVec 32} (ha : MembersAt m h xs) (hfuel : xs.length < fuel) :
    parsetarLoop m fuel h i = some (i + ofNat 32 xs.length) := by
  induction xs generalizing h fuel i with
  | nil =>
    obtain _ | fuel := fuel
    · omega
    rw [parsetarLoop, ha.nil_load]
    simp
  | cons x xs ih =>
    rw [length_cons] at hfuel
    obtain _ | fuel := fuel
    · omega
    obtain ⟨c, hc, hc0⟩ := ha.load_name
    rw [parsetarLoop, hc, bind_some, if_neg hc0, ha.getsize_eq, bind_some, ih ha.tail (by omega),
      length_cons, Nat.add_comm xs.length, ofNat_add, BitVec.add_assoc]
    rfl

/-- The number of the member where the search for a name stops: the first one with this string at its header. The empty
name is found behind the last member. -/
def found (xs : List Member) (path : List (BitVec 8)) : Option Nat :=
  if path = [] then some xs.length else xs.findIdx? fun x => x.cname = path

theorem found_nil : found [] path = if path = [] then some 0 else none := by
  simp [found]

theorem found_cons_pos : found (x :: xs) x.cname = some 0 := by
  rw [found, if_neg x.cname_ne, findIdx?_cons]
  simp

theorem found_cons_neg (hne : x.cname ≠ path) : found (x :: xs) path = (found xs path).map (· + 1) := by
  unfold found
  split
  · rfl
  · rw [findIdx?_cons]
    simp [hne]

/-- The search of `sys_open` over the members. -/
theorem findHeader_eq (ha : MembersAt m h xs) (hp : 0 ∉ path) (hfuel : xs.length < fuel) :
    findHeader m path fuel h = some ((found xs path).map fun i => h + ofNat 64 (offsetOf xs i)) := by
  induction xs generalizing h fuel with
  | nil =>
    obtain _ | fuel := fuel
    · omega
    obtain ⟨r, hr, hiff⟩ := strcmp_eq (s := []) (holds_cons.2 ⟨ha.nil_load, holds_nil⟩) not_mem_nil hp
    rw [findHeader, hr, bind_some, found_nil]
    by_cases hnil : path = []
    · rw [if_pos (hiff.2 hnil.symm), if_pos hnil]
      simp
    · rw [if_neg (hiff.not.2 (Ne.symm hnil)), if_neg hnil, ha.nil_load]
      rfl
  | cons x xs ih =>
    rw [length_cons] at hfuel
    obtain _ | fuel := fuel
    · omega
    obtain ⟨r, hr, hiff⟩ := ha.strcmp_name hp
    rw [findHeader, hr, bind_some]
    by_cases hname : x.cname = path
    · rw [if_pos (hiff.2 hname), ← hname, found_cons_pos]
      simp
    · obtain ⟨c, hc, hc0⟩ := ha.load_name
      rw [if_neg (hiff.not.2 hname), hc, bind_some, if_neg hc0, ha.getsize_eq, bind_some,
        ih ha.tail (by omega), found_cons_neg hname, Option.map_map, nextHeader_eq (ha.small x mem_cons_self)]
      congr 2
      funext i
      rw [Function.comp_apply, offsetOf_succ, ofNat_add, BitVec.add_assoc]

structure Tape where
  members : List Member
  start : BitVec 64
  placed : kernmem ≤ start.toNat
  fits : start.toNat + (tape members).length ≤ 2 ^ 64

theorem length_tape_drop : (tape xs).length = offsetOf xs i + (tape (xs.drop i)).length := by
  conv_lhs => rw [tape, ← take_append_drop i xs, flatMap_append, List.append_assoc, length_append]
  rfl

theorem le_length_tape (xs : List Member) : 512 ≤ (tape xs).length := by
  rw [tape, length_append, length_replicate]
  omega

private theorem offsetOf_lt (hij : i < j) (hj : j ≤ xs.length) : offsetOf xs i < offsetOf xs j := by
  induction j generalizing i xs with
  | zero => omega
  | succ j ih =>
    cases xs with
    | nil => simp at hj
    | cons x xs =>
      cases i with
      | zero =>
        rw [offsetOf_succ, Member.length_bytes, offsetOf_zero]
        omega
      | succ i =>
        have hrest := ih (Nat.lt_of_succ_lt_succ hij) (by simpa using hj)
        rw [offsetOf_succ, offsetOf_succ]
        omega

theorem length_tape_cons : (tape (x :: xs)).length = x.bytes.length + (tape xs).length := by
  rw [tape, flatMap_cons, List.append_assoc, length_append]
  rfl

theorem length_members_le (xs : List Member) : xs.length ≤ (tape xs).length := by
  induction xs with
  | nil => simp
  | cons x xs ih =>
    rw [length_tape_cons, Member.length_bytes, length_cons]
    omega

namespace Tape

variable {t : Tape}

def Has (t : Tape) (a : BitVec 64) : Prop := t.start.toNat ≤ a.toNat ∧ a.toNat < t.start.toNat + (tape t.members).length

def headerOf (t : Tape) (i : Nat) : BitVec 64 := t.start + ofNat 64 (offsetOf t.members i)

theorem length_le (t : Tape) : (tape t.members).length ≤ 2 ^ 31 - 2 ^ 21 := by
  have h1 := t.placed
  have h2 := t.fits
  unfold kernmem at h1
  omega

/-- An archive in its place can be walked over. -/
theorem membersAt (hm : Holds m t.start (tape t.members)) : MembersAt m t.start t.members := by
  refine ⟨hm, fun x hx => ?_⟩
  obtain ⟨l1, l2, hl⟩ := append_of_mem hx
  have h1 := t.length_le
  simp only [hl, tape, flatMap_append, flatMap_cons, length_append, length_replicate, Member.bytes, x.header_length]
    at h1
  omega

theorem toNat_add (hq : q < (tape t.members).length) : (t.start + ofNat 64 q).toNat = t.start.toNat + q := by
  have h1 := t.fits
  rw [BitVec.toNat_add, toNat_ofNat, Nat.mod_eq_of_lt (show q < 2 ^ 64 by omega), Nat.mod_eq_of_lt (by omega)]

theorem has_add (hq : q < (tape t.members).length) : t.Has (t.start + ofNat 64 q) := by
  rw [Has, toNat_add hq]
  omega

/-- Members have different headers. -/
theorem headerOf_inj (hi : i ≤ t.members.length) (hj : j ≤ t.members.length) (hij : t.headerOf i = t.headerOf j) :
    i = j := by
  have hlt : ∀ k, offsetOf t.members k < (tape t.members).length := by
    intro k
    have hlen : (tape t.members).length = offsetOf t.members k + (tape (t.members.drop k)).length := length_tape_drop
    have hend := le_length_tape (t.members.drop k)
    omega
  have hoff := congrArg BitVec.toNat hij
  rw [headerOf, headerOf, toNat_add (hlt i), toNat_add (hlt j)] at hoff
  rcases Nat.lt_trichotomy i j with hc | hc | hc
  · have := offsetOf_lt hc hj
    omega
  · exact hc
  · have := offsetOf_lt hc hi
    omega

end Tape

/-! ### Entries in ustar form, with names shorter than 100 bytes -/

inductive Kind where
  | regular
  | directory
  deriving DecidableEq

def Kind.typeflag : Kind → BitVec 8
  | .regular => 0x30
  | .directory => 0x35

/-- An entry of an archive. `ids` is the fields `mode`, `uid` and `gid`, `times` is `mtime` and `checksum`, `rest` is
everything behind `linkname`. -/
structure Entry where
  name : List (BitVec 8)
  ids : List (BitVec 8)
  sizeEnd : BitVec 8
  times : List (BitVec 8)
  kind : Kind
  linkname : List (BitVec 8)
  rest : List (BitVec 8)
  contents : List (BitVec 8)
  name_ne : name ≠ []
  name_length : name.length ≤ 99
  name_text : 0 ∉ name
  ids_length : ids.length = 24
  times_length : times.length = 20
  linkname_length : linkname.length = 100
  linkname_empty : kind = .regular → linkname.head? = some 0
  rest_length : rest.length = 255
  contents_length : contents.length < 2 ^ 31

namespace Entry

variable (e : Entry)

def header : List (BitVec 8) :=
  (e.name ++ List.replicate (100 - e.name.length) 0) ++
    (e.ids ++ (octal 11 e.contents.length ++ (e.sizeEnd :: e.times ++ (e.kind.typeflag :: e.linkname ++ e.rest))))

def padding : Nat := (512 - e.contents.length % 512) % 512

def encode : List (BitVec 8) := e.header ++ (e.contents ++ List.replicate e.padding 0)

end Entry

def archive (entries : List Entry) : List (BitVec 8) := entries.flatMap Entry.encode ++ List.replicate 512 0

structure Image where
  entries : List Entry
  start : BitVec 64
  placed : kernmem ≤ start.toNat
  fits : start.toNat + (archive entries).length ≤ 2 ^ 64

def Image.Has (im : Image) (a : BitVec 64) : Prop :=
  im.start.toNat ≤ a.toNat ∧ a.toNat < im.start.toNat + (archive im.entries).length

variable {M : Type} [VirtMem M] {m : M} {h : BitVec 64} {e : Entry} {im : Image} {n k : Nat}

@[simp] private theorem length_header : e.header.length = 512 := by
  have h1 := e.ids_length
  have h2 := e.times_length
  have h3 := e.linkname_length
  have h4 := e.rest_length
  have h5 := e.name_length
  simp only [Entry.header, length_append, length_cons, length_replicate, length_octal]
  omega

theorem length_encode :
    e.encode.length = (e.contents.length / 512 + 1) * 512 + if e.contents.length % 512 ≠ 0 then 512 else 0 := by
  simp only [Entry.encode, Entry.padding, length_append, length_header, length_replicate]
  split <;> omega

/-- The fields of the header that the code reads. -/
structure HeaderAt (m : M) (h : BitVec 64) (e : Entry) : Prop where
  name : Holds m h (e.name ++ [0])
  size : Holds m (h + sizeField) (octal 11 e.contents.length)
  typeflag : Holds m (h + typeflagField) (e.kind.typeflag :: e.linkname)

/-- The fields are read from the header. -/
theorem headerAt (hm : Holds m h e.header) : HeaderAt m h e := by
  have hlen := e.name_length
  simp only [Entry.header, holds_append, length_append, length_replicate, length_octal, length_cons,
    e.ids_length, e.times_length, BitVec.add_assoc, ← BitVec.ofNat_add] at hm
  rw [show e.name.length + (100 - e.name.length) = 100 by omega] at hm
  obtain ⟨⟨hname, hzero⟩, -, hsize, -, htype, -⟩ := hm
  refine ⟨holds_append.2 ⟨hname, ?_⟩, hsize, htype⟩
  rw [show 100 - e.name.length = 99 - e.name.length + 1 by omega, List.replicate_succ, holds_cons] at hzero
  exact holds_cons.2 ⟨hzero.1, holds_nil⟩

/-- The entries are in memory from the header on, then the block of zeros; all of them can be stepped over. -/
structure ArchiveAt (m : M) (h : BitVec 64) (entries : List Entry) : Prop where
  bytes : Holds m h (archive entries)
  small : ∀ e ∈ entries, e.contents.length < 2 ^ 31 - 512

def Entry.toMember (e : Entry) : Member where
  header := e.header
  contents := e.contents
  fill := List.replicate e.padding 0
  header_length := length_header
  named := by
    obtain ⟨c, l, hname⟩ := exists_cons_of_ne_nil e.name_ne
    intro h0
    apply e.name_text
    rw [Entry.header, hname, List.cons_append, List.cons_append, head?_cons, Option.some_inj] at h0
    rw [hname, h0]
    exact mem_cons_self
  ends := by
    have hlen := e.name_length
    rw [Entry.header, show 100 - e.name.length = 99 - e.name.length + 1 by omega, List.replicate_succ]
    simp
  size_eq := by
    have hlen := e.name_length
    have hname : (e.name ++ List.replicate (100 - e.name.length) 0).length = 100 := by
      rw [length_append, length_replicate]
      omega
    rw [Entry.header, ← List.append_assoc _ e.ids, drop_left' (by rw [length_append, hname, e.ids_length]),
      take_left' length_octal]
  fill_length := length_replicate

theorem toMember_cname : e.toMember.cname = e.name := by
  have hlen := e.name_length
  have hall : ∀ c ∈ e.name, decide (c ≠ 0) = true := by
    intro c hc
    simpa using fun h0 : c = 0 => e.name_text (h0 ▸ hc)
  show e.header.takeWhile (· ≠ 0) = e.name
  rw [Entry.header, show 100 - e.name.length = 99 - e.name.length + 1 by omega,
    List.replicate_succ, List.append_assoc, takeWhile_append_of_pos hall]
  simp

@[simp] private theorem toMember_header : e.toMember.header = e.header := rfl

private theorem header_split : ∃ l, l.length = 156 ∧ e.header = l ++ e.kind.typeflag :: (e.linkname ++ e.rest) := by
  have hlen := e.name_length
  refine ⟨(e.name ++ List.replicate (100 - e.name.length) 0) ++
    (e.ids ++ (octal 11 e.contents.length ++ e.sizeEnd :: e.times)), ?_, by simp [Entry.header]⟩
  simp only [length_append, length_replicate, length_cons, length_octal, e.ids_length, e.times_length]
  omega

theorem toMember_typeflag : e.toMember.typeflag = e.kind.typeflag := by
  obtain ⟨l, hl, hheader⟩ := header_split (e := e)
  rw [Member.typeflag, toMember_header, hheader, getD_append_right _ _ _ _ hl.le, hl]
  rfl

theorem toMember_unlinked (hlink : e.linkname.head? = some 0) : e.toMember.Unlinked := by
  obtain ⟨l, hl, hheader⟩ := header_split (e := e)
  obtain ⟨rest, hrest⟩ := head?_eq_some_iff.1 hlink
  rw [Member.Unlinked, toMember_header, hheader, getD_append_right _ _ _ _ (by omega), hl, hrest]
  rfl

theorem toMember_prefix : e.toMember.header.getD 345 0 = e.rest.getD 88 0 := by
  obtain ⟨l, hl, hheader⟩ := header_split (e := e)
  have hlink := e.linkname_length
  rw [toMember_header, hheader, getD_append_right _ _ _ _ (by omega), hl, getD_cons_succ,
    getD_append_right _ _ _ _ (by omega), hlink]

/-- An archive is a tape of its members. -/
theorem tape_toMember (entries : List Entry) : tape (entries.map Entry.toMember) = archive entries := by
  rw [tape, flatMap_map]
  rfl

theorem offsetOf_toMember :
    offsetOf ((before ++ after).map Entry.toMember) before.length = (before.flatMap Entry.encode).length := by
  rw [offsetOf, ← map_take, take_left, flatMap_map]
  rfl

/-- The search stops at the first entry with the name. -/
theorem found_toMember (hfirst : ∀ e' ∈ before, e'.name ≠ e.name) :
    found ((before ++ e :: after).map Entry.toMember) e.name = some before.length := by
  induction before with
  | nil =>
    rw [nil_append, map_cons, ← toMember_cname, found_cons_pos]
    rfl
  | cons e' before ih =>
    have hne : e'.toMember.cname ≠ e.name := by
      rw [toMember_cname]
      exact hfirst e' mem_cons_self
    rw [List.cons_append, map_cons, found_cons_neg hne, ih fun d hd => hfirst d (mem_cons_of_mem _ hd)]
    rfl

theorem ArchiveAt.members (ha : ArchiveAt m h entries) : MembersAt m h (entries.map Entry.toMember) := by
  refine ⟨?_, fun x hx => ?_⟩
  · rw [tape_toMember]
    exact ha.bytes
  · obtain ⟨e, he, rfl⟩ := List.mem_map.1 hx
    exact ha.small e he

/-- The rest of an archive is one. -/
theorem ArchiveAt.drop (ha : ArchiveAt m h (before ++ after)) :
    ArchiveAt m (h + BitVec.ofNat 64 (before.flatMap Entry.encode).length) after := by
  have hb := ha.bytes
  rw [archive, flatMap_append, List.append_assoc, holds_append] at hb
  exact ⟨hb.2, fun e he => ha.small e (mem_append_right _ he)⟩

theorem length_archive (he : e ∈ entries) : e.contents.length + 1024 ≤ (archive entries).length := by
  obtain ⟨l1, l2, rfl⟩ := append_of_mem he
  simp only [archive, flatMap_append, flatMap_cons, length_append, length_replicate, Entry.encode, length_header]
  omega

theorem length_archive_cons : (archive (e :: entries)).length = e.encode.length + (archive entries).length := by
  rw [archive, flatMap_cons, List.append_assoc, length_append]
  rfl

theorem length_entries_le (entries : List Entry) : entries.length ≤ (archive entries).length := by
  induction entries with
  | nil => simp
  | cons e entries ih =>
    rw [length_archive_cons, length_encode, length_cons]
    omega

namespace Image

theorem length_le (im : Image) : (archive im.entries).length ≤ 2 ^ 31 - 2 ^ 21 := by
  have h1 := im.placed
  have h2 := im.fits
  unfold kernmem at h1
  omega

theorem archiveAt (hm : Holds m im.start (archive im.entries)) : ArchiveAt m im.start im.entries := by
  refine ⟨hm, fun e he => ?_⟩
  have h1 := length_archive he
  have h2 := im.length_le
  omega

end Image

def plainIds : List (BitVec 8) := octal 7 0o755 ++ 0 :: (octal 7 0 ++ 0 :: (octal 7 0 ++ [0]))

def plainRest : List (BitVec 8) := [0x75, 0x73, 0x74, 0x61, 0x72, 0, 0x30, 0x30] ++ List.replicate 247 0

/-- The checksum is the sum of all bytes of the header, with blanks in its place. -/
def checksum (name : List (BitVec 8)) (kind : Kind) (size : Nat) : Nat :=
  ((name ++ plainIds ++ octal 11 size ++ octal 11 0 ++ kind.typeflag :: plainRest).map BitVec.toNat).sum + 8 * 0x20

theorem length_linkname : (List.replicate 100 (0 : BitVec 8)).length = 100 := length_replicate

def plainEntry (name : List (BitVec 8)) (kind : Kind) (contents : List (BitVec 8)) (name_ne : name ≠ [])
    (name_length : name.length ≤ 99) (name_text : 0 ∉ name) (contents_length : contents.length < 2 ^ 31) : Entry where
  name := name
  ids := plainIds
  sizeEnd := 0
  times := octal 11 0 ++ 0 :: (octal 6 (checksum name kind contents.length) ++ [0, 0x20])
  kind := kind
  linkname := List.replicate 100 0
  rest := plainRest
  contents := contents
  name_ne := name_ne
  name_length := name_length
  name_text := name_text
  ids_length := rfl
  times_length := by
    rw [length_append, length_cons, length_append, length_octal, length_octal]
    rfl
  linkname_length := length_replicate
  linkname_empty _ := rfl
  rest_length := by
    rw [plainRest, length_append, length_replicate]
    rfl
  contents_length := contents_length

end Adix.Tarfs
