import Mathlib.Data.Nat.Basic
import Mathlib.Algebra.GroupWithZero.Nat
import Mathlib.Data.List.Basic

/-!
# Byte-addressed memory

A flat memory is a function from addresses to bytes: `readLE m a n` is the number stored little-endian in the `n` bytes
from `a`, and `writeLE m a n v` stores `v` there. `VirtMem` is a memory, flat or behind page tables, where two
addresses may be one place and an access may fault.
-/

namespace Adix

variable {a n x v : Nat} {buf : BitVec 64} {S : BitVec 64 → Prop}

abbrev Bytes := Nat → UInt8

/-- The half-open ranges `[a, a + m)` and `[b, b + n)` have no address in common. -/
def Apart (a m b n : Nat) : Prop := a + m ≤ b ∨ b + n ≤ a

theorem Apart.symm {m b : Nat} (h : Apart a m b n) : Apart b n a m := Or.symm h

theorem Apart.outside {m b : Nat} (h : Apart a m b n) (h1 : a ≤ x) (h2 : x < a + m) : x < b ∨ b + n ≤ x := by
  unfold Apart at h
  omega

theorem Apart.ne {m b : Nat} (h : Apart a m b n) (hm : 0 < m) (hn : 0 < n) : a ≠ b := by
  unfold Apart at h
  omega

instance (a m b n : Nat) : Decidable (Apart a m b n) := inferInstanceAs (Decidable (_ ∨ _))

namespace Bytes

def readLE (m : Bytes) (a : Nat) : Nat → Nat
  | 0 => 0
  | n + 1 => (m a).toNat + 256 * readLE m (a + 1) n

def writeLE (m : Bytes) (a n v : Nat) : Bytes := fun x =>
  if a ≤ x ∧ x < a + n then UInt8.ofNat (v / 256 ^ (x - a)) else m x

def writeByte (m : Bytes) (a : Nat) (b : UInt8) : Bytes := fun x => if x = a then b else m x

theorem writeLE_of_not_mem {m : Bytes} (h : x < a ∨ a + n ≤ x) : writeLE m a n v x = m x := by
  unfold writeLE
  rw [if_neg (by omega)]

theorem writeByte_of_ne {m : Bytes} {b : UInt8} (h : x ≠ a) : writeByte m a b x = m x := by
  unfold writeByte
  rw [if_neg h]

/-- A read depends on the bytes it covers only. -/
theorem readLE_congr {m m' : Bytes} (h : ∀ x, a ≤ x → x < a + n → m' x = m x) : readLE m' a n = readLE m a n := by
  induction n generalizing a with
  | zero => rfl
  | succ n ih =>
    unfold readLE
    rw [h a (by omega) (by omega), ih (fun x h1 h2 => h x (by omega) (by omega))]

theorem readLE_lt (m : Bytes) (a n : Nat) : readLE m a n < 256 ^ n := by
  induction n generalizing a with
  | zero => simp [readLE]
  | succ n ih =>
    unfold readLE
    have h1 := (m a).toNat_lt
    have h2 := ih (a + 1)
    omega

private theorem readLE_of_digits {m : Bytes}
    (h : ∀ i, i < n → (m (a + i)).toNat = v / 256 ^ i % 256) : readLE m a n = v % 256 ^ n := by
  induction n generalizing a v with
  | zero => simp [readLE, Nat.mod_one]
  | succ n ih =>
    have h0 : (m a).toNat = v % 256 := by simpa using h 0 (by omega)
    have hs : readLE m (a + 1) n = v / 256 % 256 ^ n := by
      apply ih
      intro i hi
      have := h (i + 1) (by omega)
      rw [Nat.pow_succ, Nat.mul_comm, ← Nat.div_div_eq_div_mul] at this
      rw [Nat.add_assoc, Nat.add_comm 1 i]
      exact this
    unfold readLE
    rw [h0, hs, Nat.pow_succ, Nat.mul_comm (256 ^ n) 256, Nat.mod_mul]

private theorem readLE_writeLE (m : Bytes) (a n v : Nat) : readLE (writeLE m a n v) a n = v % 256 ^ n := by
  apply readLE_of_digits
  intro i hi
  unfold writeLE
  rw [if_pos (by omega)]
  simp

/-- A read sees the last write to the same place. -/
theorem readLE_writeLE_same {m : Bytes} (hv : v < 256 ^ n) : readLE (writeLE m a n v) a n = v := by
  rw [readLE_writeLE, Nat.mod_eq_of_lt hv]

/-- A read sees no write to a disjoint place. -/
theorem readLE_writeLE_of_disjoint {m : Bytes} {b k : Nat} (h : Apart a n b k) :
    readLE (writeLE m b k v) a n = readLE m a n := by
  apply readLE_congr
  intro x h1 h2
  apply writeLE_of_not_mem
  unfold Apart at h
  omega

end Bytes

open List Option
open BitVec (ofNat)

/-- A memory that is read and written by address; `none` is a fault. -/
class VirtMem (M : Type) where
  load : M → BitVec 64 → Option (BitVec 8)
  store : M → BitVec 64 → BitVec 8 → Option M

namespace VirtMem

variable {M : Type} [VirtMem M] {m m' : M} {a : BitVec 64} {b : BitVec 8} {l l₁ l₂ : List (BitVec 8)}

theorem add_ofNat_succ (a : BitVec 64) (k : Nat) : a + ofNat 64 k + 1 = a + ofNat 64 (k + 1) := by
  rw [BitVec.ofNat_add, BitVec.add_assoc]
  rfl

theorem ofNat_add_one (k : Nat) : ofNat 64 k + 1 = ofNat 64 (k + 1) := by
  rw [BitVec.ofNat_add]
  rfl

theorem add_one_ofNat (a : BitVec 64) (k : Nat) : a + 1 + ofNat 64 k = a + ofNat 64 (k + 1) := by
  rw [BitVec.add_assoc, Nat.add_comm k, BitVec.ofNat_add]
  rfl

/-- The bytes `l` are read from `a` on. -/
def Holds (m : M) (a : BitVec 64) (l : List (BitVec 8)) : Prop :=
  ∀ i b, l[i]? = some b → load m (a + ofNat 64 i) = some b

@[simp] theorem holds_nil : Holds m a [] := by
  intro i b h
  simp at h

theorem holds_cons : Holds m a (b :: l) ↔ load m a = some b ∧ Holds m (a + 1) l := by
  constructor
  · intro h
    refine ⟨by simpa using h 0 b rfl, fun i c hc => ?_⟩
    rw [add_one_ofNat]
    exact h (i + 1) c hc
  · intro ⟨h0, h⟩ i c hc
    cases i with
    | zero =>
      cases hc
      simpa using h0
    | succ i =>
      rw [← add_one_ofNat]
      exact h i c hc

theorem holds_append : Holds m a (l₁ ++ l₂) ↔ Holds m a l₁ ∧ Holds m (a + ofNat 64 l₁.length) l₂ := by
  induction l₁ generalizing a with
  | nil => simp
  | cons b l₁ ih =>
    rw [List.cons_append, holds_cons, holds_cons, ih, and_assoc, length_cons, add_one_ofNat]

theorem Holds.congr (h : Holds m a l) (hsame : ∀ i < l.length, load m' (a + ofNat 64 i) = load m (a + ofNat 64 i)) :
    Holds m' a l := by
  intro i b hb
  obtain ⟨hi, -⟩ := List.getElem?_eq_some_iff.1 hb
  rw [hsame i hi]
  exact h i b hb

theorem Holds.slice (h : Holds m a l) (i n : Nat) : Holds m (a + ofNat 64 i) ((l.drop i).take n) := by
  intro j b hb
  obtain ⟨hj, -⟩ := List.getElem?_eq_some_iff.1 hb
  rw [length_take] at hj
  rw [getElem?_take_of_lt (by omega), getElem?_drop] at hb
  rw [BitVec.add_assoc, ← BitVec.ofNat_add]
  exact h (i + j) b hb

/-- A number of `n` bytes, the least first. -/
def loadLE (m : M) (a : BitVec 64) : Nat → Option Nat
  | 0 => some 0
  | n + 1 => (load m a).bind fun c => (loadLE m (a + 1) n).map fun r => c.toNat + 256 * r

def ofBytes : List (BitVec 8) → Nat
  | [] => 0
  | c :: l => c.toNat + 256 * ofBytes l

theorem Holds.loadLE_eq (h : Holds m a l) : loadLE m a l.length = some (ofBytes l) := by
  induction l generalizing a with
  | nil => rfl
  | cons b l ih =>
    obtain ⟨hb, hl⟩ := holds_cons.1 h
    rw [length_cons, loadLE, hb, bind_some, ih hl, map_some, ofBytes]

/-- The `n` bytes from `buf` on can be written one after the other while the memory is as `I` says: `I` is kept, a byte
written is read back, and the bytes before it and those at the addresses `S` are as before. -/
structure Buffer (I : M → Prop) (S : BitVec 64 → Prop) (buf : BitVec 64) (n : Nat) : Prop where
  write : ∀ m, I m → ∀ i < n, ∀ b, ∃ m', store m (buf + ofNat 64 i) b = some m' ∧ I m' ∧
    load m' (buf + ofNat 64 i) = some b ∧
    (∀ j < i, ∀ c, load m (buf + ofNat 64 j) = some c → load m' (buf + ofNat 64 j) = some c) ∧
    ∀ a, S a → load m' a = load m a

theorem Buffer.mono {I : M → Prop} {T : BitVec 64 → Prop} (h : Buffer I S buf n)
    (hST : ∀ a, T a → S a) : Buffer I T buf n := by
  refine ⟨fun m hm i hi b => ?_⟩
  obtain ⟨m', hstore, hI, hback, hbefore, hS⟩ := h.write m hm i hi b
  exact ⟨m', hstore, hI, hback, hbefore, fun a ha => hS a (hST a ha)⟩

end VirtMem

/-- A memory without page tables, where each address is a place of its own. -/
structure FlatMem where
  byte : BitVec 64 → BitVec 8

def FlatMem.set (m : FlatMem) (a : BitVec 64) (b : BitVec 8) : FlatMem := ⟨fun x => if x = a then b else m.byte x⟩

instance : VirtMem FlatMem where
  load m a := some (m.byte a)
  store m a b := some (m.set a b)

private theorem FlatMem.load_set {m : FlatMem} {a x : BitVec 64} {b : BitVec 8} :
    VirtMem.load (m.set a b) x = if x = a then some b else VirtMem.load m x :=
  apply_ite some (x = a) b (m.byte x)

theorem FlatMem.buffer (hn : n ≤ 2 ^ 64)
    (hS : ∀ i < n, ¬ S (buf + ofNat 64 i)) : VirtMem.Buffer (fun _ : FlatMem => True) S buf n := by
  refine ⟨fun m _ i hi b => ⟨_, rfl, trivial, ?_, fun j hj c hc => ?_, fun a ha => ?_⟩⟩
  · rw [FlatMem.load_set, if_pos rfl]
  · rw [FlatMem.load_set, if_neg, hc]
    intro hc
    have h := congrArg BitVec.toNat ((BitVec.add_right_inj _).1 hc)
    rw [BitVec.toNat_ofNat, BitVec.toNat_ofNat] at h
    omega
  · rw [FlatMem.load_set, if_neg]
    rintro rfl
    exact hS i hi ha

end Adix
