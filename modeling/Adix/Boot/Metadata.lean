import Adix.Boot.Defs

/-!
# The loader's records (`sys/memory/setup_kernel_memory.c`)

The loader passes a sequence of records, each with a type, the size of its payload in bytes, and the payload. The walk
to the memory map takes the size as a number of words, and the loop over the map visits an entry that is only in part
in the payload. The memory is a sequence of 32-bit words from `modulep` on.
-/

namespace Adix.Boot

open List Option

def smapRecord : BitVec 32 := 0x9001

def sizeofSmap : Nat := 20

/-- `while(modulep[0] != 0x9001) modulep += modulep[1]+2`; the sum is a 32-bit number. `none` when the loop is not left
after `fuel` tests of its condition. -/
def walk (mem : Nat → BitVec 32) : Nat → Nat → Option Nat
  | 0, _ => none
  | fuel + 1, p => if mem p = smapRecord then some p else walk mem fuel (p + (mem (p + 1) + 2).toNat)

def smapAt (mem : Nat → BitVec 32) (p : Nat) : Smap where
  base := mem (p + 1) ++ mem p
  length := mem (p + 3) ++ mem (p + 2)
  type := mem (p + 4)

/-- The entries that the loop over the map visits from the word `smap` on; `stop` is the end in bytes. -/
def mapLoop (mem : Nat → BitVec 32) (stop : Nat) : Nat → Nat → Option (List Smap)
  | 0, _ => none
  | fuel + 1, smap =>
    if 4 * smap < stop then (mapLoop mem stop fuel (smap + sizeofSmap / 4)).map (smapAt mem smap :: ·) else some []

def visited (mem : Nat → BitVec 32) (p : Nat) : Option (List Smap) :=
  let size := (mem (p + 1)).toNat
  mapLoop mem (4 * p + size + 2 * 4) (size + 1) (p + 2)

def payloadWords (size : BitVec 32) : Nat := (size.toNat + 3) / 4

structure Record where
  type : BitVec 32
  size : BitVec 32
  payload : List (BitVec 32)
  padded : payload.length = payloadWords size

namespace Record

def words (r : Record) : List (BitVec 32) := r.type :: r.size :: r.payload

def entries (r : Record) : List Smap :=
  (List.range (r.size.toNat / sizeofSmap)).map fun i => smapAt (fun j => r.payload.getD j 0) (sizeofSmap / 4 * i)

private theorem length_words (r : Record) : r.words.length = 2 + payloadWords r.size := by
  simp only [words, length_cons, r.padded]
  omega

end Record

open Record (words)

def image (rs : List Record) : List (BitVec 32) := rs.flatMap words

def Loaded (mem : Nat → BitVec 32) (l : List (BitVec 32)) : Prop := ∀ i (h : i < l.length), mem i = l[i]

/-- The walk stops at the header of the map, and the loop over the map visits its complete entries. -/
structure FindsMap (mem : Nat → BitVec 32) (before : List Record) (map : Record) : Prop where
  walk : ∃ fuel, walk mem fuel 0 = some (image before).length
  entries : visited mem (image before).length = some map.entries

variable {mem mem' : Nat → BitVec 32} {p q n : Nat} {sizes l l' : List (BitVec 32)} {s size : BitVec 32}
  {before : List Record} {map : Record}

def StopsAt (mem : Nat → BitVec 32) (p q : Nat) : Prop := ∃ fuel, walk mem fuel p = some q

private theorem stopsAt_of_eq (h : mem p = smapRecord) : StopsAt mem p q ↔ p = q := by
  constructor
  · rintro ⟨fuel, hw⟩
    cases fuel with
    | zero => cases hw
    | succ fuel =>
      rw [walk, if_pos h] at hw
      exact some.inj hw
  · rintro rfl
    exact ⟨1, by rw [walk, if_pos h]⟩

private theorem stopsAt_of_ne (h : mem p ≠ smapRecord) :
    StopsAt mem p q ↔ StopsAt mem (p + (mem (p + 1) + 2).toNat) q := by
  constructor
  · rintro ⟨fuel, hw⟩
    cases fuel with
    | zero => cases hw
    | succ fuel =>
      rw [walk, if_neg h] at hw
      exact ⟨fuel, hw⟩
  · rintro ⟨fuel, hw⟩
    exact ⟨fuel + 1, by rw [walk, if_neg h]; exact hw⟩

private theorem StopsAt.le (h : StopsAt mem p q) : p ≤ q := by
  obtain ⟨fuel, hw⟩ := h
  induction fuel generalizing p with
  | zero => cases hw
  | succ fuel ih =>
    unfold walk at hw
    split at hw
    · exact Nat.le_of_eq (some.inj hw)
    · have := ih hw
      omega

private theorem not_stopsAt_of_zero (h : mem p ≠ smapRecord) (hzero : (mem (p + 1) + 2).toNat = 0) :
    ¬StopsAt mem p q := by
  rintro ⟨fuel, hw⟩
  induction fuel with
  | zero => cases hw
  | succ fuel ih =>
    rw [walk, if_neg h, hzero] at hw
    exact ih hw

private theorem walk_add (mem : Nat → BitVec 32) (n fuel p : Nat) :
    walk mem fuel (n + p) = (walk (fun i => mem (n + i)) fuel p).map (n + ·) := by
  induction fuel generalizing p with
  | zero => rfl
  | succ fuel ih =>
    unfold walk
    split
    · rfl
    · rw [Nat.add_assoc, ih]
      rfl

private theorem stopsAt_add : StopsAt mem (n + p) (n + q) ↔ StopsAt (fun i => mem (n + i)) p q := by
  refine exists_congr fun fuel => ?_
  rw [walk_add, map_eq_some_iff]
  constructor
  · rintro ⟨x, hx, heq⟩
    rwa [← Nat.add_left_cancel heq]
  · exact fun h => ⟨q, h, rfl⟩

private theorem image_append (rs rs' : List Record) : image (rs ++ rs') = image rs ++ image rs' := flatMap_append

private theorem Loaded.left (h : Loaded mem (l ++ l')) : Loaded mem l := by
  intro i hi
  rw [h i (by rw [length_append]; omega), getElem_append_left hi]

private theorem Loaded.right (h : Loaded mem (l ++ l')) : Loaded (fun i => mem (l.length + i)) l' := by
  intro i hi
  have hi' : l.length + i < (l ++ l').length := by
    rw [length_append]
    omega
  exact (h (l.length + i) hi').trans (by simp)

private theorem Loaded.header {r : Record} {rs : List Record} (h : Loaded mem (image (r :: rs))) :
    mem 0 = r.type ∧ mem 1 = r.size :=
  ⟨h 0 (by simp [image, words]), h 1 (by simp [image, words])⟩

def recordWords (size : BitVec 32) : Nat := 2 + payloadWords size

private theorem length_image (rs : List Record) : (image rs).length = ((rs.map Record.size).map recordWords).sum := by
  induction rs with
  | nil => rfl
  | cons r rs ih =>
    rw [image, flatMap_cons, length_append, r.length_words]
    rw [image] at ih
    simp [ih, recordWords]

/-- Each jump of the walk hits the header of a record; the first one goes over `skipped`. -/
inductive Lands : List (BitVec 32) → Prop
  | nil : Lands []
  | jump {s : BitVec 32} {skipped rest : List (BitVec 32)}
      (h : (s + 2).toNat = recordWords s + (skipped.map recordWords).sum) (hrest : Lands rest) :
        Lands (s :: (skipped ++ rest))

private theorem Lands.stopsAt (h : Lands sizes) (hsizes : before.map Record.size = sizes)
    (htypes : ∀ r ∈ before, r.type ≠ smapRecord)
    (hmap : map.type = smapRecord) (hmem : Loaded mem (image (before ++ [map]))) :
    StopsAt mem 0 (image before).length := by
  induction h generalizing before mem with
  | nil =>
    obtain rfl := map_eq_nil_iff.1 hsizes
    exact (stopsAt_of_eq (hmem.header.1.trans hmap)).2 rfl
  | @jump s skipped rest hjump _ ih =>
    obtain ⟨r, before', rfl, rfl, hbefore⟩ := map_eq_cons_iff.1 hsizes
    obtain ⟨sk, rs, rfl, rfl, rfl⟩ := map_eq_append_iff.1 hbefore
    obtain ⟨htype, hsize⟩ := hmem.header
    have hne : mem 0 ≠ smapRecord := fun h0 => htypes r mem_cons_self (htype.symm.trans h0)
    have hlen : (image (r :: sk)).length = (r.size + 2).toNat := by
      rw [length_image, hjump]
      rfl
    rw [← List.cons_append, List.append_assoc, image_append] at hmem
    have hstop := ih rfl (fun r' hr' => htypes r' (by simp [hr'])) hmem.right
    rw [stopsAt_of_ne hne, hsize, Nat.zero_add, ← hlen, ← List.cons_append, image_append, length_append]
    exact stopsAt_add.2 hstop

/-- The walk finds the map, whatever the records of these sizes are and whatever is behind the map. -/
def AlwaysFound (sizes : List (BitVec 32)) (size : BitVec 32) : Prop :=
  ∀ before map mem, before.map Record.size = sizes → (∀ r ∈ before, r.type ≠ smapRecord) → map.type = smapRecord →
    map.size = size → Loaded mem (image (before ++ [map])) → StopsAt mem 0 (image before).length

/-- A word that, taken as a size, makes a jump of length zero. -/
def stuckWord : BitVec 32 := 0xfffffffe

def plainRecord (word size : BitVec 32) : Record where
  type := word
  size := size
  payload := List.replicate (payloadWords size) word
  padded := length_replicate

private theorem map_size_plainRecord (word : BitVec 32) (sizes : List (BitVec 32)) :
    (sizes.map (plainRecord word)).map Record.size = sizes := by
  rw [List.map_map]
  exact List.map_id sizes

def headerAt (sizes : List (BitVec 32)) (k : Nat) : Nat := ((sizes.take k).map recordWords).sum

private theorem headerAt_succ {k : Nat} : headerAt (s :: sizes) (k + 1) = recordWords s + headerAt sizes k := by
  simp [headerAt]

private theorem image_plainRecord {word : BitVec 32} {u : Nat} (h : u < (image (sizes.map (plainRecord word))).length) :
    (image (sizes.map (plainRecord word)))[u] = word ∨ ∃ k < sizes.length, u = headerAt sizes k + 1 := by
  induction sizes generalizing u with
  | nil => simp [image] at h
  | cons s sizes ih =>
    have himage : image ((s :: sizes).map (plainRecord word)) =
        (plainRecord word s).words ++ image (sizes.map (plainRecord word)) := by simp [image]
    have hlen : (plainRecord word s).words.length = recordWords s := Record.length_words _
    simp only [himage]
    by_cases hu : u < (plainRecord word s).words.length
    · rw [getElem_append_left hu]
      match u with
      | 0 => exact .inl rfl
      | 1 => exact .inr ⟨0, by simp, rfl⟩
      | u + 2 =>
        simp [words, plainRecord]
    · rw [getElem_append_right (by omega)]
      have hrest : u - (plainRecord word s).words.length < (image (sizes.map (plainRecord word))).length := by
        rw [himage, length_append] at h
        omega
      rcases ih hrest with hw | ⟨k, hk, hu'⟩
      · exact .inl hw
      · refine .inr ⟨k + 1, by simpa using hk, ?_⟩
        rw [headerAt_succ]
        omega

private theorem loaded_getD (l : List (BitVec 32)) : Loaded (fun i => l.getD i 0) l := by
  intro i hi
  simp [getD_eq_getElem?_getD, hi]

private theorem not_alwaysFound (h : ∀ k ≤ sizes.length, (s + 2).toNat ≠ recordWords s + headerAt sizes k) :
    ¬AlwaysFound (s :: sizes) size := by
  intro hall
  set before := (s :: sizes).map (plainRecord stuckWord) with hbefore
  have hne : stuckWord ≠ smapRecord := by decide
  have hmem := loaded_getD (image (before ++ [plainRecord smapRecord size]))
  set mem := fun i => (image (before ++ [plainRecord smapRecord size])).getD i 0
  have hstop : StopsAt mem 0 (image before).length := by
    refine hall before _ mem (map_size_plainRecord _ _) (fun r hr => ?_) rfl rfl hmem
    obtain ⟨_, -, rfl⟩ := List.mem_map.1 hr
    exact hne
  obtain ⟨htype, hsize⟩ := hmem.header
  rw [image_append] at hmem
  have hlen : (image before).length = recordWords s + headerAt sizes sizes.length := by
    rw [length_image, map_size_plainRecord]
    simp [headerAt]
  have h0 : mem 0 ≠ smapRecord := htype ▸ hne
  have hjump : 0 + (mem (0 + 1) + 2).toNat = (s + 2).toNat := by
    rw [Nat.zero_add]
    rfl
  have hstop' := (stopsAt_of_ne h0).1 hstop
  rw [hjump] at hstop'
  have hle := hstop'.le
  have hmiss := h sizes.length (Nat.le_refl _)
  generalize (s + 2).toNat = t at h hjump hstop' hle hmiss
  -- the walk does not stop at the target of the jump, which is before the map
  by_cases ht : mem t = smapRecord
  · exact absurd ((stopsAt_of_eq ht).1 hstop') (by omega)
  by_cases hlast : t + 1 = (image before).length
  · -- the type of the map is taken as a size
    have hword : mem (t + 1) = smapRecord := by
      rw [hlast]
      exact hmem.right.header.1
    have hfar := ((stopsAt_of_ne ht).1 hstop').le
    rw [hword] at hfar
    have hlong : (smapRecord + 2).toNat = 0x9003 := by decide
    omega
  · have hbefore' : t + 1 < (image before).length := by omega
    rcases image_plainRecord hbefore' with hword | ⟨k, hk, htk⟩
    · refine not_stopsAt_of_zero ht ?_ hstop'
      rw [hmem.left (t + 1) hbefore', hword]
      rfl
    · cases k with
      | zero =>
        refine not_stopsAt_of_zero h0 ?_ hstop
        have ht0 : t = 0 := Nat.succ.inj htk
        omega
      | succ k =>
        rw [length_cons] at hk
        exact h k (by omega) (Nat.succ.inj htk)

private theorem AlwaysFound.rest {skipped rest : List (BitVec 32)} (hall : AlwaysFound (s :: (skipped ++ rest)) size)
    (hjump : (s + 2).toNat = recordWords s + (skipped.map recordWords).sum) : AlwaysFound rest size := by
  intro before map mem hsizes htypes hmap hsize hmem
  set skip := (s :: skipped).map (plainRecord 0) with hskip
  have hlen : (image skip).length = (s + 2).toNat := by
    rw [length_image, map_size_plainRecord, hjump]
    rfl
  -- the records that are jumped over are put in front of the memory
  set mem' := fun i => if i < (image skip).length then (image skip).getD i 0 else mem
    (i - (image skip).length) with hmem'
  have hshift : (fun i => mem' ((image skip).length + i)) = mem := by
    funext i
    simp [hmem']
  have hloaded : Loaded mem' (image ((skip ++ before) ++ [map])) := by
    rw [List.append_assoc, image_append]
    intro i hi
    by_cases hskip : i < (image skip).length
    · simp [hmem', hskip, getElem_append_left hskip]
    · rw [length_append] at hi
      rw [getElem_append_right (by omega), ← hmem _ (by omega)]
      simp [hmem', hskip]
  have hstop : StopsAt mem' 0 (image (skip ++ before)).length := by
    refine hall (skip ++ before) map mem' ?_ (fun r hr => ?_) hmap hsize hloaded
    · rw [map_append, hsizes, map_size_plainRecord]
      rfl
    · rcases mem_append.1 hr with hr | hr
      · obtain ⟨_, -, rfl⟩ := List.mem_map.1 hr
        exact (by decide : (0 : BitVec 32) ≠ smapRecord)
      · exact htypes r hr
  have h0 : mem' 0 ≠ smapRecord := by
    exact (by decide : (0 : BitVec 32) ≠ smapRecord)
  have hfirst : 0 + (mem' (0 + 1) + 2).toNat = (image skip).length := by
    rw [Nat.zero_add, hlen]
    rfl
  rw [stopsAt_of_ne h0, hfirst, image_append, length_append] at hstop
  have hrest := (@stopsAt_add mem' 0 (image before).length (image skip).length).1 hstop
  rwa [hshift] at hrest

private theorem AlwaysFound.lands (h : AlwaysFound sizes size) : Lands sizes := by
  induction hn : sizes.length using Nat.strong_induction_on generalizing sizes with
  | _ n ih =>
    cases sizes with
    | nil => exact .nil
    | cons s sizes =>
      by_cases hk : ∃ k ≤ sizes.length, (s + 2).toNat = recordWords s + headerAt sizes k
      · obtain ⟨k, -, hjump⟩ := hk
        rw [← take_append_drop k sizes] at h ⊢
        exact .jump hjump (ih _ (by rw [← hn, length_drop, length_cons]; omega) (h.rest hjump) rfl)
      · exact absurd h (not_alwaysFound fun k hle heq => hk ⟨k, hle, heq⟩)

private theorem mapLoop_eq {stop fuel smap : Nat} (hin : ∀ i < n, 4 * (smap + 5 * i) < stop)
    (hend : stop ≤ 4 * (smap + 5 * n)) (hfuel : n < fuel) :
    mapLoop mem stop fuel smap = some ((List.range n).map fun i => smapAt mem (smap + 5 * i)) := by
  induction n generalizing fuel smap with
  | zero =>
    obtain _ | fuel := fuel
    · omega
    rw [mapLoop, if_neg (by omega)]
    rfl
  | succ n ih =>
    obtain _ | fuel := fuel
    · omega
    have hstep : sizeofSmap / 4 = 5 := rfl
    have hrest := @ih fuel (smap + 5) (fun i hi => by have := hin (i + 1) (by omega); omega) (by omega) (by omega)
    have hfirst : 4 * smap < stop := hin 0 (Nat.succ_pos n)
    have htail : (List.range n).map (fun i => smapAt mem (smap + 5 + 5 * i)) =
        (List.range n).map fun i => smapAt mem (smap + 5 * (i + 1)) :=
      map_congr_left fun i _ => by rw [show smap + 5 + 5 * i = smap + 5 * (i + 1) by omega]
    rw [mapLoop, if_pos hfirst, hstep, hrest, htail, range_succ_eq_map, map_cons, List.map_map]
    rfl

private theorem visited_eq (mem : Nat → BitVec 32) (p : Nat) : visited mem p =
    some ((List.range (((mem (p + 1)).toNat + 19) / 20)).map fun i => smapAt mem (p + 2 + 5 * i)) :=
  mapLoop_eq (fun i hi => by omega) (by omega) (by omega)

/-- The loop visits the complete entries of a map if and only if all its entries are complete. -/
theorem visited_eq_entries_iff (hmem : Loaded (fun i => mem (p + i)) map.words) :
    visited mem p = some map.entries ↔ sizeofSmap ∣ map.size.toNat := by
  have hsize : mem (p + 1) = map.size := hmem 1 (by simp [words])
  rw [visited_eq, hsize, some.injEq]
  unfold Record.entries sizeofSmap
  constructor
  · intro h
    have hlen := congrArg List.length h
    simp only [length_map, length_range] at hlen
    omega
  · intro hdvd
    have hcount : (map.size.toNat + 19) / 20 = map.size.toNat / 20 := by omega
    rw [hcount]
    refine map_congr_left fun i hi => ?_
    rw [mem_range] at hi
    have hpad : map.payload.length = (map.size.toNat + 3) / 4 := map.padded
    have hword : ∀ j < 5, mem (p + 2 + 5 * i + j) = map.payload.getD (5 * i + j) 0 := by
      intro j hj
      have hlen : 2 + (5 * i + j) < map.words.length := by
        rw [map.length_words, payloadWords]
        omega
      have hj : 5 * i + j < map.payload.length := by omega
      rw [show p + 2 + 5 * i + j = p + (2 + (5 * i + j)) by omega, getD_eq_getElem?_getD, List.getElem?_eq_getElem hj]
      exact (hmem _ hlen).trans (by simp [words, Nat.add_comm 2])
    have h0 := hword 0 (by decide)
    unfold smapAt
    rw [hword 1 (by decide), hword 2 (by decide), hword 3 (by decide), hword 4 (by decide)]
    simp only [Nat.add_zero] at h0
    rw [h0]

/-- The walk finds the map and the loop visits its complete entries, whatever is in the records, if and only if each
jump hits the header of a record and the map has whole entries. -/
theorem metadata_walk_iff (sizes : List (BitVec 32)) (size : BitVec 32) :
    (∀ before map mem, before.map Record.size = sizes → (∀ r ∈ before, r.type ≠ smapRecord) → map.type = smapRecord →
      map.size = size → Loaded mem (image (before ++ [map])) → FindsMap mem before map) ↔
    Lands sizes ∧ sizeofSmap ∣ size.toNat := by
  have hbehind : ∀ {before map mem}, Loaded mem (image (before ++ [map])) →
      Loaded (fun i => mem ((image before).length + i)) map.words := by
    intro before map mem hmem
    rw [image_append] at hmem
    simpa [image] using hmem.right
  constructor
  · intro h
    refine ⟨AlwaysFound.lands fun before map mem h1 h2 h3 h4 h5 => (h before map mem h1 h2 h3 h4 h5).walk, ?_⟩
    have hmem := loaded_getD (image (sizes.map (plainRecord 0) ++ [plainRecord smapRecord size]))
    have hfind := h _ _ _ (map_size_plainRecord 0 sizes) (fun r hr => ?_) rfl rfl hmem
    · exact (visited_eq_entries_iff (hbehind hmem)).1 hfind.entries
    · obtain ⟨_, -, rfl⟩ := List.mem_map.1 hr
      exact (by decide : (0 : BitVec 32) ≠ smapRecord)
  · rintro ⟨hlands, hdvd⟩ before map mem hsizes htypes hmap hsize hmem
    exact ⟨hlands.stopsAt hsizes htypes hmap hmem, (visited_eq_entries_iff (hbehind hmem)).2 (by rwa [hsize])⟩

/-- A record with eight bytes before a map with one entry: the walk jumps from the record to the last word of the
entry. -/
theorem eight_bytes_miss_map : ∃ before map mem, (∀ r ∈ before, r.type ≠ smapRecord) ∧ map.type = smapRecord ∧
    Loaded mem (image (before ++ [map])) ∧ ¬FindsMap mem before map := by
  have hmem := loaded_getD (image ([plainRecord 1 8] ++ [plainRecord smapRecord 20]))
  refine ⟨[plainRecord 1 8], plainRecord smapRecord 20, _, ?_, rfl, hmem, fun h => ?_⟩
  · decide
  · have hstop := (stopsAt_of_ne (by decide)).1 h.walk
    exact absurd hstop.le (by decide)

end Adix.Boot
