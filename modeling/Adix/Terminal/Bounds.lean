import Adix.Terminal.Lines

/-!
# The bounds of the terminal's buffer

`terminal_enqueue` and `terminal_read` compare `buffer_len` neither with `0` nor with the size of the buffer, and the
read does not look at `count`.
-/

namespace Adix.Terminal

open List BitVec

/-- A call of one of the two functions. A `terminal_read` stands where it has been woken up and takes the buffer. -/
inductive Call where
  | enqueue (c : UInt8)
  | read (count : BitVec 64)

namespace Buffer

def call (b : Buffer) : Call → Buffer
  | .enqueue c => b.enqueue c
  | .read _ => { b with bufferLen := 0 }

/-- The indices of `terminal_buffer` that a call uses. -/
def indices (b : Buffer) : Call → List (BitVec 64)
  | .enqueue c =>
    if c = backspace then [b.bufferLen, b.bufferLen - 1]
    else if c = flushChar then [b.bufferLen]
    else if b.bufferLen = 0 ∧ c = space then []
    else [b.bufferLen]
  | .read _ => (List.range b.contents.length).map (BitVec.ofNat 64)

/-- The call makes `buffer_len` pass one of the ends of its range. -/
def Wraps (b : Buffer) : Call → Prop
  | .enqueue c =>
    if c = backspace then b.bufferLen = 0
    else if c = flushChar then False
    else if b.bufferLen = 0 ∧ c = space then False
    else b.bufferLen + 1 = 0
  | .read _ => False

/-- A call stays inside of `terminal_buffer` and of the buffer of the caller. -/
structure InBounds (b : Buffer) (call : Call) : Prop where
  index : ∀ i ∈ b.indices call, i.toNat < bufferSize
  noWrap : ¬ b.Wraps call
  count : ∀ n, call = .read n → b.contents.length ≤ n.toNat

private theorem enqueue_cases (b : Buffer) (c : UInt8) :
        c = backspace ∧ b.indices (.enqueue c) = [b.bufferLen, b.bufferLen - 1] ∧
        (b.Wraps (.enqueue c) ↔ b.bufferLen = 0) ∧ (b.enqueue c).bufferLen = b.bufferLen - 1 ∨
      c = flushChar ∧ b.indices (.enqueue c) = [b.bufferLen] ∧ ¬b.Wraps (.enqueue c) ∧
        (b.enqueue c).bufferLen = b.bufferLen ∨
      (b.bufferLen = 0 ∧ c = space) ∧ b.indices (.enqueue c) = [] ∧
        ¬b.Wraps (.enqueue c) ∧ (b.enqueue c).bufferLen = b.bufferLen ∨
      (c ≠ backspace ∧ c ≠ flushChar ∧ ¬(b.bufferLen = 0 ∧ c = space)) ∧ b.indices (.enqueue c) = [b.bufferLen] ∧
        (b.Wraps (.enqueue c) ↔ b.bufferLen + 1 = 0) ∧ (b.enqueue c).bufferLen = b.bufferLen + 1 := by
  unfold indices Wraps enqueue
  dsimp only
  by_cases hback : c = backspace
  · simp [hback, set]
  rw [if_neg hback, if_neg hback, if_neg hback]
  by_cases hflush : c = flushChar
  · subst hflush
    simp [hback, set]
  rw [if_neg hflush, if_neg hflush, if_neg hflush]
  by_cases hlead : b.bufferLen = 0 ∧ c = space
  · rw [if_pos hlead, if_pos hlead, if_pos hlead]
    exact .inr (.inr (.inl ⟨hlead, rfl, id, rfl⟩))
  · rw [if_neg hlead, if_neg hlead, if_neg hlead]
    exact .inr (.inr (.inr ⟨⟨hback, hflush, hlead⟩, rfl, Iff.rfl, rfl⟩))

end Buffer

/-- What a call does to the text that waits in the buffer. -/
def addCall (text : List UInt8) : Call → List UInt8
  | .enqueue c => if c = flushChar then text else push text c
  | .read _ => []

/-- There is a place for what the call does: something to be taken back, a free byte, or space for all of the text. -/
def Fits (text : List UInt8) : Call → Prop
  | .enqueue c => (c = backspace → text ≠ []) ∧ (text = [] ∧ c = space ∨ text.length < bufferSize)
  | .read count => text.length ≤ count.toNat

structure Counts (b : Buffer) (text : List UInt8) : Prop where
  len : b.bufferLen.toNat = text.length
  le : text.length ≤ bufferSize

namespace Counts

variable {b : Buffer} {text : List UInt8}

private theorem empty_iff (h : Counts b text) : b.bufferLen = 0 ↔ text = [] := by
  rw [← length_eq_zero_iff, ← h.len]
  exact ⟨fun hz => by rw [hz]; rfl, fun hz => eq_of_toNat_eq hz⟩

private theorem length_contents (h : Counts b text) : b.contents.length = text.length := by
  have hle := h.le
  unfold bufferSize at hle
  simp only [Buffer.contents, Buffer.bytes, length_map, length_range, toNat_setWidth, h.len]
  omega

private theorem toNat_pred (h : Counts b text) (hne : text ≠ []) : (b.bufferLen - 1).toNat = text.length - 1 := by
  have hpos := length_pos_iff.2 hne
  rw [toNat_sub_of_le, h.len]
  · rfl
  · rw [le_def, h.len]
    exact hpos

private theorem toNat_succ (h : Counts b text) : (b.bufferLen + 1).toNat = text.length + 1 := by
  have hle := h.le
  unfold bufferSize at hle
  rw [BitVec.toNat_add, h.len]
  show (text.length + 1) % 2 ^ 64 = text.length + 1
  omega

private theorem inBounds_enqueue (h : Counts b text) (c : UInt8) :
    b.InBounds (.enqueue c) ↔ Fits text (.enqueue c) := by
  have hcount : ∀ n, Call.enqueue c = .read n → b.contents.length ≤ n.toNat := nofun
  have hlen := h.len
  rcases b.enqueue_cases c with ⟨rfl, hi, hw, -⟩ | ⟨rfl, hi, hw, -⟩ | ⟨hlead, hi, hw, -⟩ |
    ⟨⟨hback, -, hlead⟩, hi, hw, -⟩
  · rw [h.empty_iff] at hw
    constructor
    · intro hb
      exact ⟨fun _ hnil => hb.noWrap (hw.2 hnil), .inr (hlen ▸ hb.index _ (by simp [hi]))⟩
    · rintro ⟨hne, hfree⟩
      have hne := hne rfl
      have hfree : text.length < bufferSize := hfree.resolve_left fun hl => hne hl.1
      have hpred := h.toNat_pred hne
      refine ⟨?_, fun hc => hne (hw.1 hc), hcount⟩
      simp only [hi, mem_cons, not_mem_nil, or_false, forall_eq_or_imp, forall_eq]
      omega
  · constructor
    · intro hb
      exact ⟨fun hc => absurd hc (by decide), .inr (hlen ▸ hb.index _ (by simp [hi]))⟩
    · rintro ⟨-, hfree⟩
      have hfree : text.length < bufferSize := hfree.resolve_left fun hl => absurd hl.2 (by decide)
      refine ⟨?_, hw, hcount⟩
      simp only [hi, mem_singleton, forall_eq]
      omega
  · rw [h.empty_iff] at hlead
    refine iff_of_true ⟨?_, hw, hcount⟩ ⟨?_, .inl hlead⟩
    · simp [hi]
    · rw [hlead.2]
      exact fun hc => absurd hc (by decide)
  · rw [h.empty_iff] at hlead
    constructor
    · intro hb
      exact ⟨fun hc => absurd hc hback, .inr (hlen ▸ hb.index _ (by simp [hi]))⟩
    · rintro ⟨-, hfree⟩
      have hfree : text.length < bufferSize := hfree.resolve_left hlead
      refine ⟨?_, fun hc => ?_, hcount⟩
      · simp only [hi, mem_singleton, forall_eq]
        omega
      · have hsucc := h.toNat_succ
        rw [hw.1 hc] at hsucc
        exact Nat.succ_ne_zero _ hsucc.symm

private theorem inBounds_read (h : Counts b text) (count : BitVec 64) :
    b.InBounds (.read count) ↔ Fits text (.read count) := by
  have hlen := h.length_contents
  have hle := h.le
  unfold Fits bufferSize at *
  constructor
  · intro hb
    exact hlen ▸ hb.count count rfl
  · intro hfit
    refine ⟨?_, id, fun n hn => ?_⟩
    · simp only [Buffer.indices, List.mem_map, mem_range, forall_exists_index, and_imp, forall_apply_eq_imp_iff₂, hlen,
        toNat_ofNat, bufferSize]
      omega
    · cases hn
      rwa [hlen]

/-- A call stays in its bounds exactly if there is a place for what it does. -/
private theorem inBounds_iff (h : Counts b text) : ∀ call, b.InBounds call ↔ Fits text call
  | .enqueue c => h.inBounds_enqueue c
  | .read n => h.inBounds_read n

private theorem call (h : Counts b text) {call : Call} (hfit : Fits text call) :
    Counts (b.call call) (addCall text call) := by
  cases call with
  | enqueue c =>
    unfold Buffer.call addCall push
    dsimp only at hfit ⊢
    rcases b.enqueue_cases c with ⟨rfl, -, -, hb⟩ | ⟨rfl, -, -, hb⟩ | ⟨hlead, -, -, hb⟩ |
      ⟨⟨hback, hflush, hlead⟩, -, -, hb⟩
    · have hle := h.le
      rw [if_neg (by decide), if_pos rfl]
      constructor
      · rw [hb, h.toNat_pred (hfit.1 rfl), length_dropLast]
      · rw [length_dropLast]
        omega
    · exact ⟨hb ▸ h.len, h.le⟩
    · rw [h.empty_iff] at hlead
      obtain ⟨rfl, rfl⟩ := hlead
      exact ⟨hb ▸ h.len, h.le⟩
    · rw [h.empty_iff] at hlead
      rw [if_neg hflush, if_neg hback, if_neg hlead]
      constructor
      · rw [hb, h.toNat_succ, length_append, length_singleton]
      · rw [length_append]
        exact hfit.2.resolve_left hlead
  | read n => exact ⟨rfl, Nat.zero_le _⟩

end Counts

/-- Keys and reads stay inside of the buffers if and only if there is always a place for what they do: a backspace comes
when there is text, a key when the text does not fill the buffer, and a read has space for the text. -/
theorem terminal_bounds_iff (mem : BitVec 64 → UInt8) (calls : List Call) :
    Permitted (fun b call => some (b.call call)) Buffer.InBounds ⟨mem, 0⟩ calls ↔
      Permitted (fun text call => some (addCall text call)) Fits [] calls := by
  have h0 : Counts ⟨mem, 0⟩ [] := ⟨rfl, Nat.zero_le _⟩
  exact permitted_iff_of_related (fun b text call h => h.inBounds_iff call)
    (fun b text call h hcall => h.call ((h.inBounds_iff call).1 hcall)) h0

/-- The first key is a backspace: `buffer_len` becomes `2 ^ 64 - 1`, which is then the index of a write. -/
theorem backspace_not_inBounds : ¬ Permitted (fun b call => some (b.call call)) Buffer.InBounds ⟨fun _ => 0, 0⟩
    [.enqueue backspace] := by
  intro h
  exact absurd (h.1.index (BitVec.allOnes 64) (by decide)) (by decide)

end Adix.Terminal
