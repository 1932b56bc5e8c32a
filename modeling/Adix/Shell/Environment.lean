import Adix.Lib.Upsert
import Adix.Shell.Strings

/-!
# The environment (`get_env_location`, `update_global_env` of `bin/adsh/adix_shell.c`, `get_env` of `libc/env.c`)

The shell keeps two arrays, the names that have been set and a string `name=value` for each. It compares a name with
the names; a program that gets the second array looks for a string that begins with `name=`. Pointers are to blocks of
their own that nothing writes to later.
-/

namespace Adix.Shell

open List Option
open BitVec (ofNat)

def equals : UInt8 := '='.toUInt8

def NUM_ENV_VARS : Nat := 100

/-- `env` and `env_names`: each entry is `NULL` or a string. -/
structure Env where
  env : List (Option Bytes)
  envNames : List (Option Bytes)

def fresh : Env := ⟨List.replicate NUM_ENV_VARS none, List.replicate NUM_ENV_VARS none⟩

def store (a : List (Option Bytes)) (i : Nat) (p : Option Bytes) : Option (List (Option Bytes)) :=
  if i < a.length then some (a.set i p) else none

/-- The loop of `get_env_location` from the entry `i` on: where it stops, and whether the name is there. -/
def locate (key : Bytes) : List (Option Bytes) → Nat → Option (Nat × Bool)
  | [], _ => none
  | none :: _, i => some (i, false)
  | some name :: names, i => do
    if ← strEqual name 0 key 0 then return (i, true)
    locate key names (i + 1)

def getEnvLocation (e : Env) (key : Bytes) : Option (Env × Nat) := do
  let (i, found) ← locate key e.envNames 0
  if found then return (e, i)
  let env ← store e.env (i + 1) none
  return ({ e with env }, i)

/-- The string that `update_global_env` makes in a block from `malloc`. -/
def envStr (block key value : Bytes) : Option Bytes := do
  let keyLen ← strlen key 0
  let valueLen ← strlen value 0
  let s := memcpy block 0 key keyLen
  let s := memcpy s keyLen.toInt (ofText [equals]) 1
  return memcpy s (keyLen.toInt + 1) value (valueLen + 1)

def updateGlobalEnv (e : Env) (block : Bytes) (key value : Option Bytes) : Option (Env × Int) :=
  match key, value with
  | some key, some value => do
    let (e, i) ← getEnvLocation e key
    let str ← envStr block key value
    let envNames ← store e.envNames i (some key)
    let env ← store e.env i (some str)
    return (⟨env, envNames⟩, 0)
  | _, _ => some (e, -1)

def searchEnv (modKey : Bytes) : List (Option Bytes) → Option (Option Bytes)
  | [] => none
  | none :: _ => some none
  | some s :: env => do
    let len ← strlen modKey 0
    if strncmp modKey s len.toNat 0 then return some fun i => s (i + len.toNat)
    searchEnv modKey env

/-- `get_env` of libc, with the block from `malloc`. -/
def getEnv (block key : Bytes) (env : List (Option Bytes)) : Option (Option Bytes) := do
  let keyLen ← strlen key 0
  let modKey := memcpy block 0 key keyLen
  let modKey := Function.update modKey keyLen.toInt equals
  searchEnv (Function.update modKey (keyLen + 1).toInt 0) env

/-- A call of `update_global_env`: the name and the value, where they are, and the block of the new string. -/
structure Setting where
  key : List UInt8
  value : List UInt8
  keyPtr : Bytes
  valuePtr : Bytes
  block : Bytes
  holds_key : Holds keyPtr 0 (key ++ [0])
  holds_value : Holds valuePtr 0 (value ++ [0])
  key_nul : 0 ∉ key
  value_nul : 0 ∉ value
  key_equals : equals ∉ key
  /-- The lengths are `int`s. -/
  short : key.length + value.length + 2 < 2 ^ 31

def setAll (cs : List Setting) (e : Env) : Option Env :=
  cs.foldlM (fun e c => (updateGlobalEnv e c.block (some c.keyPtr) (some c.valuePtr)).map Prod.fst) e

/-- The names that have been set, in the order in which they have been set first. -/
def namesSet (cs : List Setting) : List (List UInt8) := (cs.map Setting.key).eraseDups

def lastValue (cs : List Setting) (k : List UInt8) : Option (List UInt8) :=
  (cs.reverse.find? fun c => c.key = k).map Setting.value

/-- The arrays hold a map from names to values. -/
structure IsMap (cs : List Setting) (e : Env) : Prop where
  /-- There is one string for each name, and then `NULL`. -/
  strings : ∃ strs rest, e.env = strs.map some ++ none :: rest ∧ e.env.length = NUM_ENV_VARS ∧
    List.Forall₂ (fun s k => ∃ v, lastValue cs k = some v ∧ Holds s 0 (k ++ equals :: v ++ [0])) strs (namesSet cs)
  /-- The value that has been set last is found. -/
  found : ∀ k v, lastValue cs k = some v → ∀ block key, Holds key 0 (k ++ [0]) →
    ∃ p, getEnv block key e.env = some (some p) ∧ Holds p 0 (v ++ [0])
  /-- Nothing is found for a name that has not been set. -/
  unset : ∀ k, lastValue cs k = none → equals ∉ k → 0 ∉ k → k.length + 2 < 2 ^ 31 → ∀ block key,
    Holds key 0 (k ++ [0]) → getEnv block key e.env = some none

namespace Setting

variable (c : Setting) {f : Setting → Bytes} {l : List Setting}

def str : Bytes :=
  memcpy (memcpy (memcpy c.block 0 c.keyPtr (ofNat 32 c.key.length)) c.key.length (ofText [equals]) 1)
    (c.key.length + 1) c.valuePtr (ofNat 32 (c.value.length + 1))

private theorem strlen_keyPtr : strlen c.keyPtr 0 = some (ofNat 32 c.key.length) :=
  strlen_eq c.holds_key c.key_nul (by have := c.short; unfold addrs; omega)

private theorem strlen_valuePtr : strlen c.valuePtr 0 = some (ofNat 32 c.value.length) :=
  strlen_eq c.holds_value c.value_nul (by have := c.short; unfold addrs; omega)

private theorem envStr_eq : envStr c.block c.keyPtr c.valuePtr = some c.str := by
  have hshort := c.short
  rw [envStr, c.strlen_keyPtr, c.strlen_valuePtr]
  simp only [bind_eq_bind, bind_some, @toInt_ofNat c.key.length (by omega), ofNat_add_one]
  rfl

private theorem holds_str : Holds c.str 0 (c.key ++ equals :: c.value ++ [0]) := by
  have hshort := c.short
  have hkey : (ofNat 32 c.key.length).toNat = c.key.length := by
    rw [BitVec.toNat_ofNat]
    omega
  have hvalue : (ofNat 32 (c.value.length + 1)).toNat = (c.value ++ [0]).length := by
    rw [BitVec.toNat_ofNat, length_append, length_singleton]
    omega
  have hequals : Holds (ofText [equals]) 0 [equals] := by decide
  -- Each piece is where it has been copied to, and what is copied later is behind it.
  rw [List.append_assoc, holds_append, Int.zero_add]
  refine ⟨?_, ?_, holds_memcpy _ c.holds_value hvalue⟩
  · refine Holds.memcpy (Holds.memcpy (holds_memcpy 0 ((holds_append ..).mp c.holds_key).1 hkey) ?_) ?_
    · omega
    · omega
  · have h : Holds c.str c.key.length [equals] := Holds.memcpy (holds_memcpy _ hequals rfl) (by simp)
    exact h.1

end Setting

open Setting (key str keyPtr value)

def cells (f : Setting → Bytes) (l : List Setting) : List (Option Bytes) :=
  l.map (fun c => some (f c)) ++ List.replicate (NUM_ENV_VARS - l.length) none

/-- What the arrays hold for a table of settings. -/
def table (l : List Setting) : Env := ⟨cells str l, cells keyPtr l⟩

private theorem length_cells (hl : l.length ≤ NUM_ENV_VARS) : (cells f l).length = NUM_ENV_VARS := by
  simp [cells]
  omega

private theorem cells_eq (hl : l.length < NUM_ENV_VARS) :
    cells f l = l.map (fun c => some (f c)) ++ none :: List.replicate (NUM_ENV_VARS - (l.length + 1)) none := by
  rw [cells, show NUM_ENV_VARS - l.length = NUM_ENV_VARS - (l.length + 1) + 1 by omega, List.replicate_succ]

private theorem strEqual_keyPtr (c d : Setting) : strEqual d.keyPtr 0 c.keyPtr 0 = some (decide (d.key = c.key)) := by
  have hc := c.short
  have hd := d.short
  exact strEqual_eq d.holds_key c.holds_key d.key_nul c.key_nul (by omega) (by omega)

/-- The search stops at the entry of the name, or behind the last one. -/
private theorem locate_eq (c : Setting) (l : List Setting) (rest : List (Option Bytes)) (i : Nat) :
    locate c.keyPtr (l.map (fun d => some d.keyPtr) ++ none :: rest) i =
      some (i + l.findIdx fun d => d.key = c.key, decide (c.key ∈ l.map key)) := by
  induction l generalizing i with
  | nil => rfl
  | cons d l ih =>
    rw [map_cons, List.cons_append, locate, strEqual_keyPtr, findIdx_cons]
    by_cases hd : d.key = c.key
    · simp [hd]
    · have hc : c.key ≠ d.key := fun h => hd h.symm
      simp only [bind_eq_bind, bind_some, decide_eq_false hd, ih, cond_false, map_cons, mem_cons, hc, false_or]
      simp
      omega

private theorem set_none_cells (hl : l.length + 1 < NUM_ENV_VARS) :
    (cells f l).set (l.length + 1) none = cells f l := by
  rw [cells_eq (by omega)]
  simp

private theorem set_cells (f : Setting → Bytes) (hl : l.length < NUM_ENV_VARS) (c : Setting) :
    (cells f l).set (l.findIdx fun d => d.key = c.key) (some (f c)) = cells f (upsert key c l) := by
  have hlen := congrArg List.length (map_key_upsert key c l)
  rw [length_map] at hlen
  rw [cells_eq hl, set_upsert key (fun c => some (f c)) c l none, cells, hlen]
  congr 1
  split
  · rw [length_map, ← List.replicate_succ]
    congr 1
    omega
  · rw [length_append, length_map, length_singleton]

private theorem store_cells (hl : l.length ≤ NUM_ENV_VARS) {i : Nat} (hi : i < NUM_ENV_VARS)
    (p : Option Bytes) : store (cells f l) i p = some ((cells f l).set i p) :=
  if_pos (by rwa [length_cells hl])

private theorem getEnvLocation_table (hl : l.length + 1 < NUM_ENV_VARS) (c : Setting) :
    getEnvLocation (table l) c.keyPtr = some (table l, l.findIdx fun d => d.key = c.key) := by
  have hloc := locate_eq c l (List.replicate (NUM_ENV_VARS - (l.length + 1)) none) 0
  rw [← cells_eq (f := keyPtr) (by omega), Nat.zero_add] at hloc
  rw [getEnvLocation, table, hloc]
  by_cases hc : c.key ∈ l.map key
  · simp only [bind_eq_bind, bind_some, decide_eq_true hc]
    rfl
  · have hidx : l.findIdx (fun d => d.key = c.key) = l.length :=
      findIdx_eq_length.mpr fun d hd => decide_eq_false fun h => hc (h ▸ List.mem_map_of_mem hd)
    have hstore := store_cells (f := str) (l := l) (by omega) hl none
    rw [set_none_cells hl] at hstore
    simp only [bind_eq_bind, bind_some, decide_eq_false hc, hidx, hstore]
    rfl

private theorem updateGlobalEnv_table (hl : l.length + 1 < NUM_ENV_VARS) (c : Setting) :
    updateGlobalEnv (table l) c.block (some c.keyPtr) (some c.valuePtr) = some (table (upsert key c l), 0) := by
  have hidx : l.findIdx (fun d => d.key = c.key) < NUM_ENV_VARS := Nat.lt_of_le_of_lt findIdx_le_length (by omega)
  have hstr := store_cells (f := str) (l := l) (by omega) hidx (some c.str)
  have hname := store_cells (f := keyPtr) (l := l) (by omega) hidx (some c.keyPtr)
  rw [set_cells _ (by omega)] at hstr hname
  rw [updateGlobalEnv, getEnvLocation_table hl, c.envStr_eq]
  simp only [bind_eq_bind, bind_some, table, hstr, hname]
  rfl

private theorem length_upserts (cs : List Setting) : (upserts key cs).length = (namesSet cs).length := by
  rw [namesSet, ← map_key_upserts, length_map]

private theorem setAll_table (cs : List Setting) (hcs : (namesSet cs).length + 1 < NUM_ENV_VARS) :
    setAll cs fresh = some (table (upserts key cs)) := by
  induction cs using List.reverseRecOn with
  | nil => rfl
  | append_singleton cs c ih =>
    have hle := length_upsert_le key c (upserts key cs)
    rw [← upserts_concat, length_upserts] at hle
    rw [length_upserts] at hle
    have hprev := ih (by omega)
    rw [setAll] at hprev
    rw [setAll, foldlM_append, hprev, upserts_concat]
    have hstep := updateGlobalEnv_table (l := upserts key cs) (by rw [length_upserts]; omega) c
    simp only [bind_eq_bind, bind_some, foldlM_cons, foldlM_nil, hstep, map_some]
    rfl

/-- Without `=` in the names, a string begins with `name=` if it is that of the name. -/
private theorem prefix_str_iff {k name value : List UInt8} (hk : equals ∉ k) (hname : equals ∉ name) :
    k ++ [equals] <+: name ++ equals :: value ↔ name = k := by
  induction k generalizing name with
  | nil =>
    cases name with
    | nil => simp
    | cons d name =>
      have hd : equals ≠ d := fun h => hname (by simp [h])
      simp [hd]
  | cons x k ih =>
    rw [mem_cons, not_or] at hk
    cases name with
    | nil =>
      have hx : x ≠ equals := fun h => hk.1 h.symm
      simp [hx]
    | cons d name =>
      rw [mem_cons, not_or] at hname
      rw [List.cons_append, List.cons_append, cons_prefix_cons, ih hk.2 hname.2, cons.injEq, eq_comm]

section Lookup

variable {k : List UInt8} {modKey : Bytes}

def Setting.valueAt (c : Setting) (len : Nat) : Bytes := fun i => c.str (i + len)

private theorem holds_valueAt (c : Setting) : Holds (c.valueAt (c.key.length + 1)) 0 (c.value ++ [0]) := by
  have h := c.holds_str
  rw [List.append_assoc, List.cons_append, append_cons, holds_append, length_append] at h
  exact (holds_shift c.str _ 0 _).mpr h.2

/-- `get_env` looks up the name in the table. -/
private theorem searchEnv_eq (hmod : Holds modKey 0 (k ++ [equals] ++ [0])) (h0 : 0 ∉ k) (hk : equals ∉ k)
    (hlen : k.length + 2 < 2 ^ 31) (l : List Setting) (rest : List (Option Bytes)) :
    searchEnv modKey (l.map (fun c => some c.str) ++ none :: rest) =
      some ((l.find? fun c => c.key = k).map fun c => c.valueAt (k.length + 1)) := by
  have hmod0 : 0 ∉ k ++ [equals] := by
    rw [mem_append, not_or]
    exact ⟨h0, by decide⟩
  have hmodLen : (k ++ [equals]).length = k.length + 1 := by simp
  have hstrlen : strlen modKey 0 = some (ofNat 32 (k.length + 1)) := by
    have h := strlen_eq hmod hmod0 (by unfold addrs; omega)
    rwa [hmodLen] at h
  have htoNat : (ofNat 32 (k.length + 1)).toNat = k.length + 1 := by
    rw [BitVec.toNat_ofNat]
    omega
  induction l with
  | nil => rfl
  | cons c l ih =>
    have hcmp : strncmp modKey c.str (k.length + 1) 0 = decide (c.key = k) := by
      have h := strncmp_eq ((holds_append ..).mp hmod).1 c.holds_str hmod0
      rw [hmodLen] at h
      rw [h]
      exact decide_eq_decide.mpr (prefix_str_iff hk c.key_equals)
    rw [map_cons, List.cons_append, searchEnv, hstrlen]
    simp only [bind_eq_bind, bind_some, htoNat, hcmp, ih]
    by_cases hc : c.key = k
    · simp [hc]
      rfl
    · simp [hc]

private theorem getEnv_table (hl : l.length < NUM_ENV_VARS) (block : Bytes) {key : Bytes}
    (hkey : Holds key 0 (k ++ [0])) (h0 : 0 ∉ k) (hk : equals ∉ k) (hlen : k.length + 2 < 2 ^ 31) :
    getEnv block key (table l).env = some ((l.find? fun c => c.key = k).map fun c => c.valueAt (k.length + 1)) := by
  have hstrlen := strlen_eq hkey h0 (by unfold addrs; omega)
  have hmod : Holds (Function.update (Function.update (memcpy block 0 key (ofNat 32 k.length)) k.length equals)
      (k.length + 1 : Nat) 0) 0 (k ++ [equals] ++ [0]) := by
    have hcount : (ofNat 32 k.length).toNat = k.length := by
      rw [BitVec.toNat_ofNat]
      omega
    have h := ((@holds_memcpy block key _ k 0 ((holds_append ..).mp hkey).1 hcount).concat equals).concat 0
    rwa [length_append, Int.zero_add, Int.zero_add] at h
  rw [getEnv, hstrlen]
  simp only [bind_eq_bind, bind_some, ofNat_add_one, @toInt_ofNat k.length (by omega), @toInt_ofNat (k.length + 1)
    (by omega)]
  rw [table, cells_eq hl]
  exact searchEnv_eq hmod h0 hk hlen l _

end Lookup

private theorem lastValue_eq (cs : List Setting) (k : List UInt8) :
    lastValue cs k = ((upserts key cs).find? fun c => c.key = k).map value := by
  rw [lastValue, find?_upserts]

/-- After any calls for at most 98 names the arrays are a map. -/
theorem env_is_map (cs : List Setting) (hcs : (namesSet cs).length ≤ 98) :
    ∃ e, setAll cs fresh = some e ∧ IsMap cs e := by
  have hlen : (upserts key cs).length < NUM_ENV_VARS := by
    rw [length_upserts]
    exact Nat.lt_of_le_of_lt hcs (by decide)
  refine ⟨_, setAll_table cs (Nat.lt_of_le_of_lt (Nat.succ_le_succ hcs) (by decide)), ?_, ?_, ?_⟩
  · have hcells := @cells_eq str _ hlen
    rw [← Function.comp_def, ← List.map_map] at hcells
    refine ⟨(upserts key cs).map str, _, hcells, length_cells (Nat.le_of_lt hlen), ?_⟩
    rw [namesSet, ← map_key_upserts, forall₂_map_left_iff, forall₂_map_right_iff, forall₂_same]
    intro c hc
    refine ⟨c.value, ?_, c.holds_str⟩
    rw [lastValue_eq, find?_of_mem_upserts key hc]
    rfl
  · intro k v hv block key hkey
    rw [lastValue_eq, map_eq_some_iff] at hv
    obtain ⟨c, hc, rfl⟩ := hv
    obtain rfl : c.key = k := by simpa using find?_some hc
    have hshort := c.short
    refine ⟨_, ?_, holds_valueAt c⟩
    rw [getEnv_table hlen block hkey c.key_nul c.key_equals (by omega), hc]
    rfl
  · intro k hk heq h0 hshort block key hkey
    rw [lastValue_eq, map_eq_none_iff] at hk
    rw [getEnv_table hlen block hkey h0 heq hshort, hk]
    rfl

def settingOf (key value : List UInt8) (hkey : Holds (ofText key) 0 (key ++ [0]) ∧ 0 ∉ key ∧ equals ∉ key)
    (hvalue : Holds (ofText value) 0 (value ++ [0]) ∧ 0 ∉ value) (short : key.length + value.length + 2 < 2 ^ 31) :
    Setting :=
  ⟨key, value, ofText key, ofText value, ofText [], hkey.1, hvalue.1, hkey.2.1, hvalue.2, hkey.2.2, short⟩

def settingOfA : Setting :=
  settingOf ['a'.toUInt8] ("b=c".toList.map Char.toUInt8) (by decide) (by decide) (by decide)

/-- Two names, one the beginning of the other, of which the shorter is set twice. -/
def settingsOfAAndAb : List Setting :=
  [settingOfA, settingOf ("ab".toList.map Char.toUInt8) ['d'.toUInt8] (by decide) (by decide) (by decide),
    settingOf ['a'.toUInt8] [] (by decide) (by decide) (by decide)]

theorem env_is_map_a : (namesSet settingsOfAAndAb).length = 2 ∧
    ∃ e, setAll settingsOfAAndAb fresh = some e ∧ IsMap settingsOfAAndAb e :=
  ⟨by decide, env_is_map settingsOfAAndAb (by decide)⟩

/-- The name `a=b` has not been set, and `c` is found for it. -/
theorem name_with_equals_found : lastValue [settingOfA] ("a=b".toList.map Char.toUInt8) = none ∧
    ∃ e p, setAll [settingOfA] fresh = some e ∧
      getEnv (ofText []) (ofText ("a=b".toList.map Char.toUInt8)) e.env = some (some p) ∧
        Holds p 0 ['c'.toUInt8, 0] := by
  refine ⟨by decide, ?_⟩
  have hrun : ((setAll [settingOfA] fresh).bind fun e => (getEnv (ofText []) (ofText ("a=b".toList.map Char.toUInt8))
      e.env).map fun p => p.map fun s => decide (Holds s 0 ['c'.toUInt8, 0])) = some (some true) := by
    decide +kernel
  obtain ⟨e, he, hget⟩ := bind_eq_some_iff.mp hrun
  obtain ⟨p, hp, hp'⟩ := map_eq_some_iff.mp hget
  obtain ⟨s, rfl, hs⟩ := map_eq_some_iff.mp hp'
  exact ⟨e, s, he, hp, of_decide_eq_true hs⟩

end Adix.Shell
