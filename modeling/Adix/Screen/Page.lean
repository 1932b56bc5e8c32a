import Adix.Lib.Memory
import Mathlib.Data.List.Range
import Adix.Print.Console

/-!
# The screen (`sys/print/screen.c`) shows the end of a page

The video memory has 25 rows of 80 cells of two bytes, the character and its colours. `putch` writes to the first 24
rows; the last one is the status line. `written` lists the addresses of the bytes written, the latest first. The cursor
of the hardware is left out. `Page` handles characters as `putch` does and never scrolls.
-/

namespace Adix.Screen

structure Video where
  mem : Bytes
  written : List Nat

namespace Video

def storeByte (v : Video) (a : Nat) (b : UInt8) : Video := ⟨v.mem.writeByte a b, a :: v.written⟩

def storeShort (v : Video) (i w : Nat) : Video := ⟨v.mem.writeLE (2 * i) 2 w, (2 * i + 1) :: 2 * i :: v.written⟩

def memcpy (v : Video) (dest src : Nat) : Nat → Video
  | 0 => v
  | count + 1 => (v.storeByte dest (v.mem src)).memcpy (dest + 1) (src + 1) count

def memsetw (v : Video) (dest val : Nat) : Nat → Video
  | 0 => v
  | count + 1 => (v.storeShort dest val).memsetw (dest + 1) val count

end Video

def cursorAttribute : Nat := 0x0F

def blank : Nat := 0x20 ||| (cursorAttribute <<< 8)

/-- The screen: the video memory, `global_cursor_x` and `global_cursor_y`. -/
structure Display where
  video : Video
  cursorX : BitVec 32
  cursorY : BitVec 32

namespace Display

def scrollScreen (s : Display) : Display :=
  if 24#32 ≤ s.cursorY then
    let temp := s.cursorY - 24 + 1
    let video := s.video.memcpy 0 (2 * (temp * 80).toNat) ((25 - temp) * 80 * 2).toNat
    { s with video := video.memsetw ((24 - temp) * 80).toNat blank 80, cursorY := 24 - 1 }
  else s

def clearScreen (s : Display) : Display where
  video := (List.range 25).foldl (fun v i => v.memsetw (i * 80) blank 80) s.video
  cursorX := 0
  cursorY := 0

/-- The branches of `putch` for the kinds of characters: backspace, tab, carriage return, newline, printable
characters, and all others. -/
def place (s : Display) (c : UInt8) : Display :=
  if c = 0x08 then
    if s.cursorX ≠ 0 then { s with cursorX := s.cursorX - 1 } else s
  else if c = 0x09 then { s with cursorX := (s.cursorX + 8) &&& ~~~(8 - 1) }
  else if c = 0x0D then { s with cursorX := 0 }
  else if c = 0x0A then { s with cursorX := 0, cursorY := s.cursorY + 1 }
  else if 0x20 ≤ c then
    { s with
      video := s.video.storeShort (s.cursorY * 80 + s.cursorX).toNat (c.toNat ||| (cursorAttribute <<< 8))
      cursorX := s.cursorX + 1 }
  else s

def wrap (s : Display) : Display :=
  if 80#32 ≤ s.cursorX then { s with cursorX := 0, cursorY := s.cursorY + 1 } else s

def putch (s : Display) (c : UInt8) : Display := (s.place c).wrap.scrollScreen

def cell (s : Display) (row col : Nat) : Nat := s.video.mem.readLE (2 * (row * 80 + col)) 2

end Display

/-- What happens to the video memory: a character is printed, or a handler writes to the status line. -/
inductive Action where
  | putch (c : UInt8)
  | status (i : Fin 160) (b : UInt8)

def Display.act (s : Display) : Action → Display
  | .putch c => s.putch c
  | .status i b => { s with video := { s.video with mem := s.video.mem.writeByte (24 * 160 + i) b } }

/-- The screen after `clear_screen`, with nothing written since. -/
def Display.cleared (s : Display) : Display := { s.clearScreen with video := ⟨s.clearScreen.video.mem, []⟩ }

open List BitVec Print
open BitVec (ofNat)

namespace Video

variable {v : Video} {dest src val n a i : Nat}

/-- Copying to lower addresses reads no byte that it has written. -/
theorem memcpy_mem (h : dest ≤ src) : (v.memcpy dest src n).mem a =
    if dest ≤ a ∧ a < dest + n then v.mem (a - dest + src) else v.mem a := by
  induction n generalizing v dest src with
  | zero => rw [if_neg (by omega)]; rfl
  | succ n ih =>
    rw [memcpy, ih (Nat.succ_le_succ h)]
    unfold storeByte
    dsimp only
    by_cases ha : dest + 1 ≤ a ∧ a < dest + 1 + n
    · rw [if_pos ha, if_pos (by omega), Bytes.writeByte_of_ne (by omega)]
      congr 1
      omega
    · rw [if_neg ha]
      unfold Bytes.writeByte
      split
      · subst a
        rw [if_pos (by omega), Nat.sub_self, Nat.zero_add]
      · rw [if_neg (by omega)]

private theorem memcpy_written (h : a ∈ (v.memcpy dest src n).written) : a ∈ v.written ∨ a < dest + n := by
  induction n generalizing v dest src with
  | zero => exact Or.inl h
  | succ n ih =>
    rcases ih h with h | h
    · rcases mem_cons.1 h with rfl | h
      · exact Or.inr (by omega)
      · exact Or.inl h
    · exact Or.inr (by omega)

private theorem memsetw_mem (h : a < 2 * dest ∨ 2 * (dest + n) ≤ a) : (v.memsetw dest val n).mem a = v.mem a := by
  induction n generalizing v dest with
  | zero => rfl
  | succ n ih =>
    rw [memsetw, ih (by omega)]
    exact Bytes.writeLE_of_not_mem (by omega)

private theorem memsetw_short (h : dest ≤ i ∧ i < dest + n) (hval : val < 256 ^ 2) :
    (v.memsetw dest val n).mem.readLE (2 * i) 2 = val := by
  induction n generalizing v dest with
  | zero => omega
  | succ n ih =>
    rw [memsetw]
    by_cases hi : i = dest
    · subst hi
      have hrest : ((v.storeShort i val).memsetw (i + 1) val n).mem.readLE (2 * i) 2 =
          (v.storeShort i val).mem.readLE (2 * i) 2 :=
        Bytes.readLE_congr fun x _ _ => memsetw_mem (by omega)
      rw [hrest]
      exact Bytes.readLE_writeLE_same hval
    · exact ih (by omega)

private theorem memsetw_written (h : a ∈ (v.memsetw dest val n).written) : a ∈ v.written ∨ a < 2 * (dest + n) := by
  induction n generalizing v dest with
  | zero => exact Or.inl h
  | succ n ih =>
    rcases ih h with h | h
    · simp only [storeShort, mem_cons] at h
      rcases h with rfl | rfl | h
      · exact Or.inr (by omega)
      · exact Or.inr (by omega)
      · exact Or.inl h
    · exact Or.inr (by omega)

end Video

private theorem blank_lt : blank < 256 ^ 2 := by decide

private theorem scrollScreen_eq {s : Display} (h : s.cursorY.toNat = 24) : s.scrollScreen =
    { s with video := (s.video.memcpy 0 160 3840).memsetw 1840 blank 80, cursorY := 23 } := by
  have hy : s.cursorY = 24#32 := eq_of_toNat_eq h
  have hsrc : 2 * ((24#32 - 24 + 1) * 80).toNat = 160 := by decide
  have hcount : ((25 - (24#32 - 24 + 1)) * 80 * 2).toNat = 3840 := by decide
  have hdest : ((24 - (24#32 - 24 + 1)) * 80).toNat = 1840 := by decide
  unfold Display.scrollScreen
  rw [hy, if_pos (by decide)]
  dsimp only
  rw [hsrc, hcount, hdest]
  rfl

private theorem cell_scrollScreen {s : Display} (h : s.cursorY.toNat = 24) {row col : Nat} (hr : row < 24)
    (hc : col < 80) : s.scrollScreen.cell row col = if row < 23 then s.cell (row + 1) col else blank := by
  rw [scrollScreen_eq h]
  unfold Display.cell
  split
  · -- the two bytes have been copied, and are not among the cleared ones
    have hcopy : ∀ b, b = 2 * (row * 80 + col) ∨ b = 2 * (row * 80 + col) + 1 →
        ((s.video.memcpy 0 160 3840).memsetw 1840 blank 80).mem b = s.video.mem (b + 160) := by
      intro b hb
      rw [Video.memsetw_mem (by omega), Video.memcpy_mem (Nat.zero_le _), if_pos (by omega), Nat.sub_zero]
    have haddr : 2 * ((row + 1) * 80 + col) = 2 * (row * 80 + col) + 160 := by omega
    simp only [Bytes.readLE]
    rw [hcopy _ (Or.inl rfl), hcopy _ (Or.inr rfl), haddr, Nat.add_right_comm]
  · exact Video.memsetw_short (by omega) blank_lt

private theorem written_scrollScreen {s : Display} (h : s.cursorY.toNat = 24) {a : Nat}
    (ha : a ∈ s.scrollScreen.video.written) : a ∈ s.video.written ∨ a < 24 * 160 := by
  rw [scrollScreen_eq h] at ha
  rcases Video.memsetw_written ha with ha | ha
  · rcases Video.memcpy_written ha with ha | ha
    · exact Or.inl ha
    · exact Or.inr (by omega)
  · exact Or.inr (by omega)

/-- A terminal of 80 columns whose rows never scroll away. -/
structure Page where
  cell : Nat → Nat → Nat
  x : Nat
  y : Nat

namespace Page

def empty : Page := ⟨fun _ _ => blank, 0, 0⟩

def place (p : Page) (c : UInt8) : Page :=
  if c = 0x08 then { p with x := p.x - 1 }
  else if c = 0x09 then { p with x := (p.x / 8 + 1) * 8 }
  else if c = 0x0D then { p with x := 0 }
  else if c = 0x0A then { p with x := 0, y := p.y + 1 }
  else if 0x20 ≤ c then
    { p with
      cell := fun row col => if row = p.y ∧ col = p.x then c.toNat ||| (cursorAttribute <<< 8) else p.cell row col
      x := p.x + 1 }
  else p

def wrap (p : Page) : Page := if 80 ≤ p.x then { p with x := 0, y := p.y + 1 } else p

def act (p : Page) : Action → Page
  | .putch c => (p.place c).wrap
  | .status _ _ => p

/-- The last 24 rows up to the row of the cursor, with blank rows below if there are fewer. -/
def window (p : Page) (row col : Nat) : Nat := if p.y - 23 + row ≤ p.y then p.cell (p.y - 23 + row) col else blank

end Page

variable {p : Page} {s : Display} {top : Nat} {c : UInt8}

/-- The rows of the screen are those of the page from `top` on. The page is blank below its cursor, and in its row too
when it has just left the screen. -/
structure Shows (top : Nat) (p : Page) (s : Display) : Prop where
  x : s.cursorX.toNat = p.x
  y : top + s.cursorY.toNat = p.y
  cells : ∀ row col, row < 24 → col < 80 → s.cell row col = p.cell (top + row) col
  below : ∀ row col, p.y < row → p.cell row col = blank
  fresh : s.cursorY.toNat = 24 → ∀ col, p.cell p.y col = blank
  written : ∀ a ∈ s.video.written, a < 24 * 160

def Placed (s : Display) : Prop :=
  s.cursorX.toNat ≤ 80 ∧ s.cursorY.toNat < 24 ∨ s.cursorX.toNat < 80 ∧ s.cursorY.toNat ≤ 24

private theorem toNat_tab {x : BitVec 32} (h : x.toNat < 80) :
    ((x + 8) &&& ~~~(8 - 1)).toNat = (x.toNat / 8 + 1) * 8 := by
  have hall : ∀ n : Fin 80, ((BitVec.ofNat 32 n + 8) &&& ~~~(8 - 1)).toNat = (n / 8 + 1) * 8 := by decide
  have := hall ⟨x.toNat, h⟩
  rwa [BitVec.ofNat_toNat, setWidth_eq] at this

private theorem toNat_index {x y : BitVec 32} (hx : x.toNat < 80) (hy : y.toNat < 24) :
    (y * 80 + x).toNat = y.toNat * 80 + x.toNat := by
  rw [BitVec.toNat_add, toNat_mul]
  show (y.toNat * 80 % 2 ^ 32 + x.toNat) % 2 ^ 32 = _
  omega

private theorem toNat_succ {x : BitVec 32} (h : x.toNat ≤ 80) : (x + 1).toNat = x.toNat + 1 := by
  rw [BitVec.toNat_add]
  show (x.toNat + 1) % 2 ^ 32 = _
  omega

private theorem Shows.print (h : Shows top p s) (hx : s.cursorX.toNat < 80) (hy : s.cursorY.toNat < 24) {w : Nat}
    (hw : w < 256 ^ 2) :
    Shows top { p with cell := fun row col => if row = p.y ∧ col = p.x then w else p.cell row col, x := p.x + 1 }
      { s with video := s.video.storeShort (s.cursorY * 80 + s.cursorX).toNat w, cursorX := s.cursorX + 1 } where
  x := by
    rw [← h.x]
    exact toNat_succ (Nat.le_of_lt hx)
  y := h.y
  cells row col hr hc := by
    have hpx := h.x
    have hpy := h.y
    show ((s.video.mem.writeLE _ 2 w).readLE _ 2) = if top + row = p.y ∧ col = p.x then w else p.cell (top + row) col
    rw [toNat_index hx hy]
    split
    · rename_i hat
      obtain rfl : row = s.cursorY.toNat := by omega
      obtain rfl : col = s.cursorX.toNat := by omega
      exact Bytes.readLE_writeLE_same hw
    · rw [Bytes.readLE_writeLE_of_disjoint]
      · exact h.cells row col hr hc
      · unfold Apart
        omega
  below row col hr := by
    have hr : p.y < row := hr
    show (if row = p.y ∧ col = p.x then w else p.cell row col) = blank
    rw [if_neg (by omega)]
    exact h.below row col hr
  fresh hy' := by
    have hy' : s.cursorY.toNat = 24 := hy'
    omega
  written a ha := by
    simp only [Video.storeShort, toNat_index hx hy, mem_cons] at ha
    rcases ha with rfl | rfl | ha
    · omega
    · omega
    · exact h.written a ha

private theorem Shows.move (h : Shows top p s) {x : BitVec 32} {n : Nat} (hx : x.toNat = n) :
    Shows top { p with x := n } { s with cursorX := x } where
  x := hx
  y := h.y
  cells := h.cells
  below := h.below
  fresh := h.fresh
  written := h.written

private theorem Shows.newline (h : Shows top p s) (hy : s.cursorY.toNat < 24) :
    Shows top { p with x := 0, y := p.y + 1 } { s with cursorX := 0, cursorY := s.cursorY + 1 } where
  x := rfl
  y := by
    have hsucc := toNat_succ (x := s.cursorY) (by omega)
    have hpy := h.y
    show top + (s.cursorY + 1).toNat = p.y + 1
    omega
  cells := h.cells
  below row col hr := h.below row col (by
    have hr : p.y + 1 < row := hr
    omega)
  fresh _ col := h.below _ col (Nat.lt_succ_self _)
  written := h.written

private theorem printed_lt (c : UInt8) : (c.toNat ||| (cursorAttribute <<< 8)) < 256 ^ 2 := by
  have hc := c.toNat_lt
  have hattr : cursorAttribute <<< 8 < 2 ^ 16 := by decide
  exact Nat.or_lt_two_pow (by omega : c.toNat < 2 ^ 16) hattr

private theorem Shows.place (h : Shows top p s) (hx : s.cursorX.toNat < 80) (hy : s.cursorY.toNat < 24) :
    Shows top (p.place c) (s.place c) ∧ Placed (s.place c) := by
  have hpx := h.x
  unfold Page.place Display.place
  split
  · -- backspace
    split
    · rename_i hne
      have hpos : 0 < s.cursorX.toNat := Nat.pos_of_ne_zero fun hc => hne (eq_of_toNat_eq hc)
      have hpred : (s.cursorX - 1).toNat = p.x - 1 := by
        rw [toNat_sub]
        show (2 ^ 32 - 1 + s.cursorX.toNat) % 2 ^ 32 = _
        omega
      exact ⟨h.move hpred, Or.inl ⟨by show (s.cursorX - 1).toNat ≤ 80; omega, hy⟩⟩
    · rename_i hzero
      have hpx0 : p.x = 0 := by
        rw [← hpx, not_not.1 hzero]
        rfl
      refine ⟨?_, Or.inl ⟨Nat.le_of_lt hx, hy⟩⟩
      have hmove := h.move (x := s.cursorX) (n := p.x - 1) (by omega)
      exact hmove
  split
  · -- tab
    have htab := toNat_tab hx
    rw [hpx] at htab
    exact ⟨h.move htab, Or.inl ⟨by show ((s.cursorX + 8) &&& ~~~(8 - 1)).toNat ≤ 80; omega, hy⟩⟩
  split
  · exact ⟨h.move rfl, Or.inl ⟨Nat.zero_le _, hy⟩⟩
  split
  · refine ⟨h.newline hy, Or.inr ⟨by show (0#32).toNat < 80; decide, ?_⟩⟩
    show (s.cursorY + 1).toNat ≤ 24
    rw [toNat_succ (by omega)]
    omega
  split
  · refine ⟨h.print hx hy (printed_lt c), Or.inl ⟨?_, hy⟩⟩
    show (s.cursorX + 1).toNat ≤ 80
    rw [toNat_succ (by omega)]
    omega
  · exact ⟨h, Or.inl ⟨Nat.le_of_lt hx, hy⟩⟩

private theorem Shows.wrap (h : Shows top p s) (hp : Placed s) :
    Shows top p.wrap s.wrap ∧ s.wrap.cursorX.toNat < 80 ∧ s.wrap.cursorY.toNat ≤ 24 := by
  have hpx := h.x
  have hle : 80#32 ≤ s.cursorX ↔ 80 ≤ p.x := by
    rw [le_def, hpx]
    rfl
  unfold Page.wrap Display.wrap
  unfold Placed at hp
  by_cases hedge : 80 ≤ p.x
  · rw [if_pos (hle.2 hedge), if_pos hedge]
    have hy : s.cursorY.toNat < 24 := by omega
    refine ⟨h.newline hy, by show (0#32).toNat < 80; decide, ?_⟩
    show (s.cursorY + 1).toNat ≤ 24
    rw [toNat_succ (by omega)]
    omega
  · rw [if_neg fun hc => hedge (hle.1 hc), if_neg hedge]
    exact ⟨h, by omega, by omega⟩

private theorem Shows.scroll (h : Shows top p s) (hy : s.cursorY.toNat = 24) : Shows (top + 1) p s.scrollScreen where
  x := by
    rw [scrollScreen_eq hy]
    exact h.x
  y := by
    have hpy := h.y
    rw [scrollScreen_eq hy]
    show top + 1 + 23 = p.y
    omega
  cells row col hr hc := by
    have hpy := h.y
    rw [cell_scrollScreen hy hr hc]
    split
    · rw [h.cells (row + 1) col (by omega) hc]
      congr 1
      omega
    · obtain rfl : row = 23 := by omega
      rw [← h.fresh hy col]
      congr 1
      omega
  below := h.below
  fresh hc := by
    rw [scrollScreen_eq hy] at hc
    have hc : (23#32).toNat = 24 := hc
    exact absurd hc (by decide)
  written a ha := (written_scrollScreen hy ha).elim (h.written a) id

/-- The cursor is on the screen, which shows the last rows of the page. -/
def OnScreen (p : Page) (s : Display) : Prop :=
  s.cursorX.toNat < 80 ∧ s.cursorY.toNat < 24 ∧ ∃ top, (top = 0 ∨ s.cursorY.toNat = 23) ∧ Shows top p s

private theorem Page.y_le (p : Page) (c : UInt8) : p.y ≤ (p.place c).wrap.y := by
  have hplace : p.y ≤ (p.place c).y := by
    unfold Page.place
    split
    · exact Nat.le_refl _
    split
    · exact Nat.le_refl _
    split
    · exact Nat.le_refl _
    split
    · exact Nat.le_succ _
    split
    · exact Nat.le_refl _
    · exact Nat.le_refl _
  unfold Page.wrap
  split
  · exact Nat.le_succ_of_le hplace
  · exact hplace

private theorem OnScreen.act (h : OnScreen p s) (a : Action) : OnScreen (p.act a) (s.act a) := by
  obtain ⟨hx, hy, top, htop, hs⟩ := h
  cases a with
  | putch c =>
    obtain ⟨hplace, hplaced⟩ := hs.place (c := c) hx hy
    obtain ⟨hwrap, hx', hy'⟩ := hplace.wrap hplaced
    have hdown := p.y_le c
    have hpy := hs.y
    have hpy' := hwrap.y
    show OnScreen (p.place c).wrap (s.place c).wrap.scrollScreen
    by_cases hlast : (s.place c).wrap.cursorY.toNat = 24
    · have hscroll := hwrap.scroll hlast
      rw [scrollScreen_eq hlast] at hscroll ⊢
      exact ⟨hx', by show (23#32).toNat < 24; decide, top + 1, Or.inr rfl, hscroll⟩
    · have hstay : (s.place c).wrap.scrollScreen = (s.place c).wrap := by
        unfold Display.scrollScreen
        rw [if_neg]
        rw [le_def]
        show ¬ 24 ≤ _
        omega
      rw [hstay]
      -- the rows have not moved, so the cursor has not left the last row if it was there
      exact ⟨hx', by omega, top, by omega, hwrap⟩
  | status i b =>
    refine ⟨hx, hy, top, htop, hs.x, hs.y, fun row col hr hc => ?_, hs.below, hs.fresh, hs.written⟩
    show _ = p.cell (top + row) col
    rw [← hs.cells row col hr hc]
    refine Bytes.readLE_congr fun a _ ha => Bytes.writeByte_of_ne ?_
    omega

private theorem cell_clearScreen {row col : Nat} (hr : row < 25) (hc : col < 80) :
    s.clearScreen.cell row col = blank := by
  have hloop : ∀ n (v : Video), row < n →
      ((List.range n).foldl (fun v i => v.memsetw (i * 80) blank 80) v).mem.readLE (2 * (row * 80 + col)) 2 =
        blank := by
    intro n
    induction n with
    | zero => intro v h; omega
    | succ n ih =>
      intro v h
      rw [range_succ, foldl_append, foldl_cons, foldl_nil]
      by_cases hn : row = n
      · exact Video.memsetw_short (by omega) blank_lt
      · refine Eq.trans ?_ (ih v (by omega))
        exact Bytes.readLE_congr fun a _ ha => Video.memsetw_mem (by omega)
  exact hloop 25 s.video hr

private theorem onScreen_cleared (s : Display) : OnScreen Page.empty s.cleared := by
  refine ⟨?_, ?_, 0, Or.inl rfl, rfl, rfl, fun row col hr hc => ?_, fun _ _ _ => rfl, fun _ _ => rfl, ?_⟩
  · show (0#32).toNat < 80
    decide
  · show (0#32).toNat < 24
    decide
  · have hcell := cell_clearScreen (s := s) (show row < 25 by omega) hc
    exact hcell
  · intro a ha
    cases ha

private theorem OnScreen.window (h : OnScreen p s) {row col : Nat} (hr : row < 24) (hc : col < 80) :
    s.cell row col = p.window row col := by
  obtain ⟨hx, hy, top, htop, hs⟩ := h
  have hpy := hs.y
  obtain rfl : top = p.y - 23 := by omega
  rw [hs.cells row col hr hc]
  unfold Page.window
  split
  · rfl
  · exact hs.below _ col (by omega)

/-- Whatever is printed, and whatever other handlers write to the status line, the cursor and the writes of `putch`
stay in the first 24 rows, and these show the last rows of the page on which the same has been printed. -/
theorem screen_shows_page (s : Display) (as : List Action) :
    (as.foldl Display.act s.cleared).cursorX < 80 ∧ (as.foldl Display.act s.cleared).cursorY < 24 ∧
    (∀ a ∈ (as.foldl Display.act s.cleared).video.written, a < 24 * 160) ∧ ∀ row col, row < 24 → col < 80 →
      (as.foldl Display.act s.cleared).cell row col = (as.foldl Page.act Page.empty).window row col := by
  have hinv : ∀ (as : List Action) {p s}, OnScreen p s → OnScreen (as.foldl Page.act p) (as.foldl Display.act s) := by
    intro as
    induction as with
    | nil => intro p s h; exact h
    | cons a as ih => intro p s h; exact ih (h.act a)
  have h := hinv as (onScreen_cleared s)
  refine ⟨lt_def.2 h.1, lt_def.2 h.2.1, ?_, fun row col hr hc => h.window hr hc⟩
  obtain ⟨-, -, top, -, hs⟩ := h
  exact hs.written

/-- A call of `terminal_write` with bytes that have no NUL and no `%`; `ap` are the words that `printf` takes for its
arguments. -/
structure Write where
  mem : BitVec 64 → UInt8
  buf : BitVec 64
  count : BitVec 64
  ap : VaList
  nul : ∀ i < count.toNat, mem (buf + ofNat 64 i) ≠ 0
  percent : '%'.toUInt8 ∉ bytesAt mem buf count.toNat

def Display.terminalWrite (s : Display) (w : Write) : Display :=
  let m := endAt w.mem (w.buf + w.count)
  (formatLoop Display.putch m (m.str w.buf).bytes false (w.ap, s, 0)).2.1

/-- What happens to the screen: a process writes, or a handler changes the status line. -/
inductive Event where
  | write (w : Write)
  | status (i : Fin 160) (b : UInt8)

def Display.handle (s : Display) : Event → Display
  | .write w => s.terminalWrite w
  | .status i b => s.act (.status i b)

def Event.text : Event → List UInt8
  | .write w => bytesAt w.mem w.buf w.count.toNat
  | .status _ _ => []

def Page.print (p : Page) (text : List UInt8) : Page := text.foldl (fun p c => p.act (.putch c)) p

private theorem OnScreen.print (h : OnScreen p s) (text : List UInt8) :
    OnScreen (p.print text) (text.foldl Display.putch s) := by
  induction text generalizing p s with
  | nil => exact h
  | cons c text ih => exact ih (h.act (.putch c))

private theorem OnScreen.handle (h : OnScreen p s) (e : Event) : OnScreen (p.print e.text) (s.handle e) := by
  cases e with
  | write w =>
    show OnScreen _ (s.terminalWrite w)
    unfold Display.terminalWrite
    dsimp only
    rw [formatLoop_zero, bytes_endAt w.nul, render_of_not_mem w.percent]
    exact h.print _
  | status i b => exact h.act (.status i b)

private theorem OnScreen.handles (h : OnScreen p s) (es : List Event) :
    OnScreen (p.print (es.flatMap Event.text)) (es.foldl Display.handle s) := by
  induction es generalizing p s with
  | nil => exact h
  | cons e es ih =>
    rw [flatMap_cons, Page.print, foldl_append]
    exact ih (h.handle e)

/-- The screen shows the page on which all bytes have been printed that the processes have written. -/
theorem console_shows_page (s : Display) (es : List Event) (row : Fin 24) (col : Fin 80) :
    (es.foldl Display.handle s.cleared).cell row col = (Page.empty.print (es.flatMap Event.text)).window row col :=
  ((onScreen_cleared s).handles es).window row.isLt col.isLt

/-- Thirteen lines of 82 characters: each takes two rows, and the first three rows scroll away. -/
def thirteenLines : Write where
  mem a := if a.toNat % 83 = 82 then 0x0A else 'A'.toUInt8 + UInt8.ofNat (a.toNat / 83)
  buf := 0
  count := 1079
  ap _ := 0
  nul := by decide +kernel
  percent := by decide +kernel

theorem console_shows_page_scrolled :
    let s := [Event.write thirteenLines, .status 0 'A'.toUInt8].foldl Display.handle
      (Display.cleared ⟨⟨fun _ => 0, []⟩, 0, 0⟩)
    s.cell 0 1 = 0x0F42 ∧ s.cell 1 79 = 0x0F43 := by
  have hpage := console_shows_page ⟨⟨fun _ => 0, []⟩, 0, 0⟩ [.write thirteenLines, .status 0 'A'.toUInt8]
  refine ⟨(hpage 0 1).trans ?_, (hpage 1 79).trans ?_⟩
  · decide +kernel
  · decide +kernel

end Adix.Screen
