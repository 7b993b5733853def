import Mathlib
import Shaunos.Common.LoggedMem
import Shaunos.Common.Run

/-!
# The cursor of the console

Reference: `Kernel/console.c` (`scroll_up`, `fill_to_line_end`, `new_line`, `set_cursor`, `cls`, `gotoxy`,
`__put_char`, `put_char`, `process_sequence`, `process_multichar`, `write_string`).

A screen has `rows * cols` cells of two bytes at `video_membase`. Bytes go to the cell of the cursor, or move the
cursor, by themselves or in escape sequences. Four of the moves may leave the screen: `ESC [ B` stops only in the row
`rows`, `ESC [ C` only behind the column `cols`, `ESC [ D` and `ESC K` go below column 0, which is a large unsigned
number. And `cls` counts bytes where it writes cells, so it clears as much again behind the screen.

* `mem_storeLoop` — where a loop of stores writes;
* `ConObj.Inv` — the cursor is on the screen, and all stores were;
* `Inv.processSequence`, `Inv.not_good_processSequence` — which sequences keep that;
* `Inv.writeByte`, `Inv.not_good_writeByte` — which bytes do;
* `cursorRight_iff` — when a stream of bytes does.

The numbers `x` and `y` of `process_multichar` are static, so they are part of the state.
-/

namespace Shaunos.Console

/-! ## The code -/

/-- `struct con_obj`, with the static variables of `process_multichar`. -/
structure ConObj where
  attr : BitVec 8
  videoMembase : BitVec 32
  rows : BitVec 32
  cols : BitVec 32
  row : BitVec 32
  col : BitVec 32
  videoState : BitVec 8
  lineWrap : BitVec 8
  x : BitVec 32
  y : BitVec 32
  /-- The position of the cursor that the video controller got last. -/
  cursor : BitVec 8 × BitVec 8
  video : LoggedMem 32

/-- `DEFAULT_ATTRIBUTE`. -/
def defaultAttribute : BitVec 8 := 7

def colorMap : List (BitVec 8) := [0, 4, 2, 6, 1, 5, 3, 7]

/-- A character of the source. -/
def chr (c : Char) : BitVec 8 := BitVec.ofNat 8 c.toNat

/-- A loop that stores the same bytes `n` times, one after the other, from `p` on. -/
def storeLoop (unit : List (BitVec 8)) : ℕ → BitVec 32 → LoggedMem 32 → LoggedMem 32
  | 0, _, m => m
  | n + 1, p, m => storeLoop unit n (p + BitVec.ofNat 32 unit.length) (m.put p unit)

/-- `memcpy` to a lower address. -/
def memcpyDown (dest src : BitVec 32) (n : ℕ) (m : LoggedMem 32) : LoggedMem 32 :=
  m.put dest ((List.range n).map fun i => m.mem (src + BitVec.ofNat 32 i))

namespace ConObj

/-- The number of bytes of the screen. -/
def size (c : ConObj) : BitVec 32 := c.rows * c.cols * 2

/-- The address of the cell of the cursor. -/
def cell (c : ConObj) : BitVec 32 := c.videoMembase + c.row * (c.cols * 2) + c.col * 2

def scrollUp (c : ConObj) : ConObj :=
  let n := (c.rows - 1) * c.cols * 2 / 4
  let fill : BitVec 32 := 0x00200020 ||| (c.attr.setWidth 32 <<< 24) ||| (c.attr.setWidth 32 <<< 8)
  let video := memcpyDown c.videoMembase (c.videoMembase + c.cols * 2) ((c.rows - 1) * c.cols * 2).toNat c.video
  { c with video := storeLoop (wordBytes fill) (c.cols * 2 / 4).toNat (c.videoMembase + n * 4) video }

def fillToLineEnd (c : ConObj) : ConObj :=
  { c with video := storeLoop [chr ' ', c.attr] (c.cols - c.col).toInt.toNat c.cell c.video }

def newLine (c : ConObj) : ConObj :=
  let c := { c with row := c.row + 1 }
  if c.row = c.rows then
    let c := c.scrollUp
    { c with row := c.rows - 1 }
  else c

def setCursor (c : ConObj) : ConObj :=
  let pos := c.row * (c.cols * 2) + c.col * 2
  { c with cursor := ((pos >>> 9).setWidth 8, (pos >>> 1).setWidth 8) }

def cls (c : ConObj) : ConObj :=
  { c with
    video := storeLoop [chr ' ', defaultAttribute] c.size.toNat c.videoMembase c.video
    row := 0
    col := 0 }

def gotoxy (c : ConObj) (row col : BitVec 32) : ConObj :=
  if c.rows ≤ row ∨ c.cols ≤ col then c
  else setCursor { c with col, row }

/-- `__put_char`. -/
def putCell (c : ConObj) (ch : BitVec 32) : ConObj :=
  let c := { c with video := (c.video.put c.cell [ch.setWidth 8]).put (c.cell + 1) [c.attr] }
  if c.col < c.cols - 1 then { c with col := c.col + 1 }
  else newLine { c with col := 0 }

/-- The loop of a tab stop. -/
def putSpaces : ℕ → ConObj → ConObj
  | 0, c => c
  | n + 1, c => putSpaces n (c.putCell 32)

def putChar (c : ConObj) (ch : BitVec 32) : ConObj :=
  if ch = 0 then c
  else if ch = 10 then newLine { c.fillToLineEnd with col := 0 }
  else if ch = 13 then { c with col := 0 }
  else if ch = 9 then putSpaces (8 - c.col % 8).toNat c
  else if ch = 8 then
    if c.col ≠ 0 then
      let c := putCell { c with col := c.col - 1 } 32
      { c with col := c.col - 1 }
    else c
  else if ch = 12 then c.cls
  else if ch = 27 then { c with videoState := 1 }
  else c.putCell ch

/-- The loop for `A`. -/
def cursorUp : ℕ → BitVec 32 → BitVec 32
  | 0, row => row
  | x + 1, row => if 1 ≤ row then cursorUp x (row - 1) else row

/-- The loop for `B`. -/
def cursorDown (rows : BitVec 32) : ℕ → BitVec 32 → BitVec 32
  | 0, row => row
  | x + 1, row => if row < rows then cursorDown rows x (row + 1) else row

/-- The loop for `L`. -/
def newLines : ℕ → ConObj → ConObj
  | 0, c => c
  | x + 1, c => newLines x c.newLine

/-- The case `m` of `process_sequence`: the new attribute. -/
def setAttr (attr : BitVec 8) (x : BitVec 32) : BitVec 8 :=
  if 30 ≤ x.toInt ∧ x.toInt ≤ 37 then colorMap.getD (x.toNat - 30) 0 + (attr &&& 0xF8)
  else if 40 ≤ x.toInt ∧ x.toInt ≤ 47 then (colorMap.getD (x.toNat - 40) 0 <<< 4) + (attr &&& 0x8F)
  else if x = 1 then attr ||| 8
  else if x = 2 then attr &&& ~~~8
  else if x = 5 then attr ||| 128
  else if x = 6 then attr &&& ~~~128
  else if x = 7 then ((attr &&& 0xF0) >>> 4) + ((attr &&& 0x0F) <<< 4)
  else if x = 8 then ((attr &&& 0xF0) >>> 4) + (attr &&& 0xF0)
  else defaultAttribute

/-- `process_sequence`. The cases of which the code is empty are not listed. -/
def processSequence (c : ConObj) (x y : BitVec 32) (ch : BitVec 8) : ConObj :=
  if ch = chr 'H' then
    let row := if x.toInt < 1 then 1 else x
    let col := if y.toInt < 1 then 1 else y
    c.gotoxy (if c.rows < row then c.rows else row) (if c.cols < col then c.cols else col)
  else if ch = chr 'J' then
    if x = 1 then c else c.cls
  else if ch = chr 'K' then c.fillToLineEnd
  else if ch = chr 'm' then { c with attr := setAttr c.attr x }
  else if ch = chr 'A' then { c with row := cursorUp x.toInt.toNat c.row }
  else if ch = chr 'B' then { c with row := cursorDown c.rows x.toInt.toNat c.row }
  else if ch = chr 'C' then
    let col := c.col + x * 2
    { c with col := if c.cols < col then c.cols - 1 else col }
  else if ch = chr 'D' then { c with col := c.col - x * 2 }
  else if ch = chr 'L' then newLines x.toInt.toNat c
  else if ch = chr 'h' then { c with lineWrap := if x = 7 then 1 else c.lineWrap }
  else if ch = chr 'l' then { c with lineWrap := if x = 7 then 0 else c.lineWrap }
  else c

/-- Whether a byte is a digit. -/
abbrev IsDigit (ch : BitVec 8) : Prop := chr '0' ≤ ch ∧ ch ≤ chr '9'

/-- The value of a digit. -/
def digit (ch : BitVec 8) : BitVec 32 := (ch - chr '0').setWidth 32

/-- `process_multichar` for the state 1, where an escape came before. -/
def escape (c : ConObj) (ch : BitVec 8) : BitVec 8 × ConObj :=
  if ch = chr '[' then (2, c)
  else if ch = chr 'P' then
    let row := c.row + 1
    (0, { c with row := if c.rows ≤ row then c.rows - 1 else row })
  else if ch = chr 'K' then (0, { c with col := if 0 < c.col then c.col - 2 else c.col })
  else if ch = chr 'H' then (0, { c with row := if 0 < c.row then c.row - 1 else c.row })
  else if ch = chr 'D' then (0, c.scrollUp)
  else if ch = chr 'G' then (0, { c with row := 0, col := 0 })
  else if ch = chr '(' then (5, c)
  else if ch = chr 'c' then (0, { c with row := 0, col := 0, attr := defaultAttribute })
  else (0, c)

/-- `process_multichar`, which returns the next state. -/
def processMultichar (c : ConObj) (state ch : BitVec 8) : BitVec 8 × ConObj :=
  if state = 1 then c.escape ch
  else if state = 2 then
    if ch = chr '?' then (3, c)
    else if IsDigit ch then (3, { c with x := digit ch })
    else if ch = chr 's' ∨ ch = chr 'u' ∨ ch = chr 'r' ∨ ch = chr 'm' then (0, c.processSequence 0 0 ch)
    else (0, c.processSequence 1 1 ch)
  else if state = 3 then
    if IsDigit ch then (3, { c with x := c.x * 10 + digit ch })
    else if ch = chr ';' then (4, { c with y := 0 })
    else (0, c.processSequence c.x 1 ch)
  else if state = 4 then
    if IsDigit ch then (4, { c with y := c.y * 10 + digit ch })
    else (0, c.processSequence c.x c.y ch)
  else (0, c)

/-- A turn of the loop of `write_string`. -/
def writeByte (c : ConObj) (ch : BitVec 8) : ConObj :=
  if 0 < c.videoState then
    let (state, c) := c.processMultichar c.videoState ch
    { c with videoState := state }
  else c.putChar (ch.signExtend 32)

def writeString (c : ConObj) (s : List (BitVec 8)) : ConObj :=
  (s.foldl writeByte c).setCursor

end ConObj

/-! ## What is to hold -/

namespace ConObj

/-- A screen of at least one row and two columns, with an even number of columns. Its bytes have addresses. -/
structure Screen (c : ConObj) : Prop where
  rows_pos : 0 < c.rows.toNat
  cols_ge : 2 ≤ c.cols.toNat
  cols_even : c.cols.toNat % 2 = 0
  fits : c.rows.toNat * c.cols.toNat * 2 < 2 ^ 32

/-- All stores were on the screen. -/
def Inside (c : ConObj) : Prop := c.video.Within c.videoMembase (c.rows.toNat * c.cols.toNat * 2)

/-- The cursor is on the screen, and all stores were. -/
structure Good (c : ConObj) : Prop where
  row_lt : c.row < c.rows
  col_lt : c.col < c.cols
  inside : c.Inside

structure Inv (c : ConObj) : Prop where
  screen : c.Screen
  good : c.Good

/-- The condition on the last character of a sequence, with the number `x` in front of it. -/
def SeqFits (c : ConObj) (x : BitVec 32) (ch : BitVec 8) : Prop :=
  if ch = chr 'J' then x = 1
  else if ch = chr 'B' then (c.row.toNat : ℤ) + x.toInt < c.rows.toNat
  else if ch = chr 'C' then c.col + x * 2 ≠ c.cols
  else if ch = chr 'D' then c.col - x * 2 < c.cols
  else True

instance decidableSeqFits (c : ConObj) (x : BitVec 32) (ch : BitVec 8) : Decidable (c.SeqFits x ch) := by
  unfold SeqFits
  infer_instance

/-- The condition on a byte. -/
def Fits (c : ConObj) (ch : BitVec 8) : Prop :=
  if c.videoState = 0 then ch ≠ 12
  else if c.videoState = 1 then ch = chr 'K' → c.col ≠ 1
  else if c.videoState = 2 then c.SeqFits 1 ch
  else if c.videoState = 3 ∨ c.videoState = 4 then c.SeqFits c.x ch
  else True

instance decidableFits (c : ConObj) (ch : BitVec 8) : Decidable (c.Fits ch) := by
  unfold Fits
  infer_instance

end ConObj

/-- What `write_string` does: with each byte, and behind the last one. -/
inductive Act where
  | byte (ch : BitVec 8)
  | setCursor

/-- What a call of `write_string` does. -/
def acts (s : List (BitVec 8)) : List Act := s.map .byte ++ [.setCursor]

def ConObj.step (c : ConObj) : Act → Option ConObj
  | .byte ch => some (c.writeByte ch)
  | .setCursor => some c.setCursor

def ConObj.ActFits (c : ConObj) : Act → Prop
  | .byte ch => c.Fits ch
  | .setCursor => True

instance ConObj.decidableActFits (c : ConObj) : ∀ act, Decidable (c.ActFits act)
  | .byte ch => c.decidableFits ch
  | .setCursor => isTrue trivial

/-! ## Stores -/

theorem storeLoop_within {unit : List (BitVec 8)} {n o size : ℕ} {base : BitVec 32} {m : LoggedMem 32}
    (h : m.Within base size) (hsize : size ≤ 2 ^ 32) (ho : o + n * unit.length ≤ size) :
    (storeLoop unit n (base + BitVec.ofNat 32 o) m).Within base size := by
  induction n generalizing o m with
  | zero => exact h
  | succ n ih =>
      rw [Nat.succ_mul] at ho
      rw [storeLoop, add_assoc, ← BitVec.ofNat_add]
      exact ih (h.put hsize (by omega)) (by omega)

theorem storeLoop_grows {unit : List (BitVec 8)} (n : ℕ) (p : BitVec 32) (m : LoggedMem 32) :
    m.writes ⊆ (storeLoop unit n p m).writes := by
  induction n generalizing p m with
  | zero => exact List.Subset.refl _
  | succ n ih =>
      intro x hx
      exact ih _ _ (List.mem_cons_of_mem _ hx)

/-- Every turn of the loop stores. -/
theorem mem_storeLoop {unit : List (BitVec 8)} {n k : ℕ} {p : BitVec 32} {m : LoggedMem 32} (hk : k < n) :
    (p + BitVec.ofNat 32 (k * unit.length), unit.length) ∈ (storeLoop unit n p m).writes := by
  induction n generalizing k p m with
  | zero => exact absurd hk (Nat.not_lt_zero k)
  | succ n ih =>
      rw [storeLoop]
      cases k with
      | zero =>
          rw [Nat.zero_mul, BitVec.add_zero]
          exact storeLoop_grows n _ _ List.mem_cons_self
      | succ k =>
          have hmem := ih (p := p + BitVec.ofNat 32 unit.length) (m := m.put p unit) (Nat.lt_of_succ_lt_succ hk)
          rwa [add_assoc, ← BitVec.ofNat_add, Nat.add_comm, ← Nat.succ_mul] at hmem

namespace ConObj

variable {c : ConObj}

theorem cell_eq (c : ConObj) :
    c.cell = c.videoMembase + BitVec.ofNat 32 (c.row.toNat * (c.cols.toNat * 2) + c.col.toNat * 2) := by
  rw [cell, add_assoc]
  congr 1
  simp [BitVec.ofNat_add, BitVec.ofNat_mul]

theorem Screen.size_eq (h : c.Screen) : c.size.toNat = c.rows.toNat * c.cols.toNat * 2 := by
  have hfits := h.fits
  rw [size, BitVec.toNat_mul, BitVec.toNat_mul, Nat.mod_mul_mod]
  exact Nat.mod_eq_of_lt hfits

/-- The cells of a row, from a column on. -/
theorem row_le {row rows col cols n : ℕ} (hrow : row < rows) (hn : col + n ≤ cols) :
    row * (cols * 2) + col * 2 + n * 2 ≤ rows * cols * 2 := by
  have hmul : (row + 1) * cols ≤ rows * cols := Nat.mul_le_mul_right cols hrow
  rw [Nat.succ_mul] at hmul
  rw [← Nat.mul_assoc]
  omega

/-- `scroll_up` stores on the screen, wherever the cursor is. -/
theorem Screen.scrollUp_inside (h : c.Screen) (hin : c.Inside) : c.scrollUp.Inside := by
  have hfits := h.fits
  have hpos := h.rows_pos
  have heven := h.cols_even
  obtain ⟨r, hr⟩ : ∃ r, c.rows.toNat = r + 1 := ⟨c.rows.toNat - 1, by omega⟩
  obtain ⟨k, hk⟩ : ∃ k, c.cols.toNat = 2 * k := ⟨c.cols.toNat / 2, by omega⟩
  have hsize : c.rows.toNat * c.cols.toNat * 2 = (r * k) * 4 + k * 4 := by
    rw [hr, hk]
    ring
  have hone : (1 : BitVec 32).toNat = 1 := rfl
  have htwo : (2 : BitVec 32).toNat = 2 := rfl
  have hfour : (4 : BitVec 32).toNat = 4 := rfl
  have hsub : (c.rows - 1).toNat = r := by
    rw [BitVec.toNat_sub_of_le (by rw [BitVec.le_def]; omega), hr, hone, Nat.add_sub_cancel]
  have hlen : ((c.rows - 1) * c.cols * 2).toNat = r * k * 4 := by
    have hprod : r * (2 * k) * 2 = r * k * 4 := by ring
    rw [BitVec.toNat_mul, BitVec.toNat_mul, hsub, hk, htwo, Nat.mod_mul_mod, hprod]
    exact Nat.mod_eq_of_lt (by omega)
  have hword : (c.rows - 1) * c.cols * 2 / 4 * 4 = BitVec.ofNat 32 (r * k * 4) := by
    refine BitVec.eq_of_toNat_eq ?_
    rw [BitVec.toNat_mul, BitVec.toNat_udiv, hlen, BitVec.toNat_ofNat, hfour]
    omega
  have hrk : k ≤ r * k + k := Nat.le_add_left k _
  have hturns : (c.cols * 2 / 4).toNat = k := by
    rw [BitVec.toNat_udiv, BitVec.toNat_mul, hk, htwo, hfour, Nat.mod_eq_of_lt (by omega)]
    omega
  have hdata : 0 + ((List.range (r * k * 4)).map fun i =>
      c.video.mem (c.videoMembase + c.cols * 2 + BitVec.ofNat 32 i)).length ≤ c.rows.toNat * c.cols.toNat * 2 := by
    rw [List.length_map, List.length_range, hsize]
    omega
  have hcopy := hin.put (by omega) hdata
  rw [BitVec.add_zero] at hcopy
  rw [Inside, scrollUp]
  dsimp only
  rw [hword, hturns, hlen, memcpyDown]
  exact storeLoop_within hcopy (by omega) (by rw [length_wordBytes, hsize])

/-- What is left on the screen when only stores were made. -/
theorem Inv.withVideo (h : c.Inv) {m : LoggedMem 32} (hm : ({ c with video := m }).Inside) :
    ({ c with video := m }).Inv where
  screen := ⟨h.screen.rows_pos, h.screen.cols_ge, h.screen.cols_even, h.screen.fits⟩
  good := ⟨h.good.row_lt, h.good.col_lt, hm⟩

/-- What is neither cursor nor screen may change. -/
theorem Inv.withRest (h : c.Inv) (attr videoState lineWrap : BitVec 8) (x y : BitVec 32)
    (cursor : BitVec 8 × BitVec 8) : ({ c with attr, videoState, lineWrap, x, y, cursor }).Inv where
  screen := ⟨h.screen.rows_pos, h.screen.cols_ge, h.screen.cols_even, h.screen.fits⟩
  good := ⟨h.good.row_lt, h.good.col_lt, h.good.inside⟩

/-- The cursor may go to any place on the screen. -/
theorem Inv.moveTo (h : c.Inv) {row col : BitVec 32} (hrow : row < c.rows) (hcol : col < c.cols) :
    ({ c with row, col }).Inv where
  screen := ⟨h.screen.rows_pos, h.screen.cols_ge, h.screen.cols_even, h.screen.fits⟩
  good := ⟨hrow, hcol, h.good.inside⟩

theorem Inv.rows_pos (h : c.Inv) : 0 < c.rows := h.screen.rows_pos

theorem Inv.cols_pos (h : c.Inv) : 0 < c.cols := Nat.lt_of_lt_of_le Nat.two_pos h.screen.cols_ge

/-- A number from 1 on, less 1. -/
theorem toNat_sub_one {a : BitVec 32} (h : 0 < a) : (a - 1).toNat = a.toNat - 1 := by
  have hpos : 1 ≤ a.toNat := h
  exact BitVec.toNat_sub_of_le hpos

theorem sub_one_lt {a b : BitVec 32} (h : 0 < a) (hle : a ≤ b) : a - 1 < b := by
  have hpos : 0 < a.toNat := h
  rw [BitVec.lt_def, toNat_sub_one h]
  rw [BitVec.le_def] at hle
  omega

theorem toNat_add_one {a b : BitVec 32} (h : a < b) : (a + 1).toNat = a.toNat + 1 := by
  have hlt := b.isLt
  have hone : (1 : BitVec 32).toNat = 1 := rfl
  rw [BitVec.lt_def] at h
  rw [BitVec.toNat_add, hone]
  exact Nat.mod_eq_of_lt (by omega)

/-! ## Characters -/

theorem Inv.newLine (h : c.Inv) : c.newLine.Inv := by
  have hrow := toNat_add_one h.good.row_lt
  have hlt := h.good.row_lt
  rw [ConObj.newLine]
  dsimp only
  split_ifs with heq
  · have hscreen : ({ c with row := c.row + 1 }).Screen :=
      ⟨h.screen.rows_pos, h.screen.cols_ge, h.screen.cols_even, h.screen.fits⟩
    have hin := hscreen.scrollUp_inside h.good.inside
    exact {
      screen := ⟨h.screen.rows_pos, h.screen.cols_ge, h.screen.cols_even, h.screen.fits⟩
      good := ⟨sub_one_lt h.rows_pos (BitVec.le_refl _), h.good.col_lt, hin⟩ }
  · refine h.moveTo ?_ h.good.col_lt
    rw [BitVec.lt_def] at hlt ⊢
    rw [hrow]
    refine lt_of_le_of_ne hlt fun hrows => heq (BitVec.eq_of_toNat_eq ?_)
    rw [hrow]
    exact hrows

theorem Inv.fillToLineEnd (h : c.Inv) : c.fillToLineEnd.Inv := by
  refine h.withVideo ?_
  have hcol : c.col.toNat < c.cols.toNat := h.good.col_lt
  have hfits := h.screen.fits
  have hcols : c.cols.toNat ≤ c.rows.toNat * c.cols.toNat := Nat.le_mul_of_pos_left _ h.screen.rows_pos
  have hturns : (c.cols - c.col).toInt.toNat = c.cols.toNat - c.col.toNat := by
    have hsub : (c.cols - c.col).toNat = c.cols.toNat - c.col.toNat := BitVec.toNat_sub_of_le hcol.le
    rw [BitVec.toInt_eq_toNat_of_lt (by rw [hsub]; omega), hsub, Int.toNat_natCast]
  rw [Inside]
  dsimp only
  rw [hturns, cell_eq]
  exact storeLoop_within h.good.inside hfits.le (row_le h.good.row_lt (by omega))

theorem Inv.putCell (h : c.Inv) (ch : BitVec 32) : (c.putCell ch).Inv := by
  have hcol : c.col.toNat < c.cols.toNat := h.good.col_lt
  have hput : ({ c with video := (c.video.put c.cell [ch.setWidth 8]).put (c.cell + 1) [c.attr] }).Inv := by
    refine h.withVideo ?_
    have hone : c.col.toNat + 1 ≤ c.cols.toNat := by omega
    have hle := row_le h.good.row_lt hone
    have hcell := cell_eq c
    generalize c.row.toNat * (c.cols.toNat * 2) + c.col.toNat * 2 = o at hle hcell
    have hcell₁ : o + [ch.setWidth 8].length ≤ c.rows.toNat * c.cols.toNat * 2 := by
      rw [List.length_singleton]
      omega
    have hcell₂ : o + 1 + [c.attr].length ≤ c.rows.toNat * c.cols.toNat * 2 := by
      rw [List.length_singleton]
      omega
    have hfirst := h.good.inside.put h.screen.fits.le hcell₁
    have hsecond := hfirst.put h.screen.fits.le hcell₂
    rw [BitVec.ofNat_add, ← add_assoc, ← hcell] at hsecond
    exact hsecond
  rw [ConObj.putCell]
  dsimp only
  split_ifs with hlast
  · refine hput.moveTo h.good.row_lt ?_
    rw [BitVec.lt_def, toNat_add_one hlast]
    rw [BitVec.lt_def, toNat_sub_one h.cols_pos] at hlast
    change c.col.toNat + 1 < c.cols.toNat
    omega
  · exact (hput.moveTo h.good.row_lt h.cols_pos).newLine

theorem putCell_col (ch : BitVec 32) (h : c.col < c.cols - 1) : (c.putCell ch).col = c.col + 1 := by
  rw [putCell]
  dsimp only
  rw [if_pos h]

theorem Inv.putSpaces (h : c.Inv) (n : ℕ) : (ConObj.putSpaces n c).Inv := by
  induction n generalizing c with
  | zero => exact h
  | succ n ih => exact ih (h.putCell 32)

/-- `cls` stores behind the screen. -/
theorem Screen.not_cls_inside (h : c.Screen) : ¬ c.cls.Inside := by
  intro hin
  have hfits := h.fits
  have hpos : 0 < c.rows.toNat * c.cols.toNat := Nat.mul_pos h.rows_pos (by have := h.cols_ge; omega)
  have hturn : c.rows.toNat * c.cols.toNat < c.size.toNat := by
    rw [h.size_eq]
    omega
  have hmem := @mem_storeLoop [chr ' ', defaultAttribute] _ _ c.videoMembase c.video hturn
  have hlt := hin _ hmem 0 Nat.two_pos
  dsimp only [List.length_cons, List.length_nil] at hlt
  rw [BitVec.add_zero] at hlt
  change (c.videoMembase + BitVec.ofNat 32 (c.rows.toNat * c.cols.toNat * 2) - c.videoMembase).toNat <
    c.rows.toNat * c.cols.toNat * 2 at hlt
  rw [offset_add hfits] at hlt
  omega

/-- A backspace in a column from 1 on goes one column back. -/
theorem Inv.backspace (h : c.Inv) (hcol : c.col ≠ 0) {d : ConObj}
    (hd : ConObj.putCell { c with col := c.col - 1 } 32 = d) : ({ d with col := d.col - 1 }).Inv := by
  have hpos : 0 < c.col := Nat.pos_of_ne_zero fun hzero => hcol (BitVec.eq_of_toNat_eq hzero)
  have hlt := h.good.col_lt
  have hback : ({ c with col := c.col - 1 }).Inv := by
    refine h.moveTo h.good.row_lt ?_
    exact sub_one_lt hpos (BitVec.le_of_lt hlt)
  have hput := hback.putCell 32
  have hsame : (ConObj.putCell { c with col := c.col - 1 } 32).col = c.col := by
    refine (putCell_col 32 ?_).trans (sub_add_cancel c.col 1)
    change c.col - 1 < c.cols - 1
    rw [BitVec.lt_def] at hlt hpos ⊢
    rw [toNat_sub_one hpos, toNat_sub_one h.cols_pos]
    change 0 < c.col.toNat at hpos
    omega
  rw [hd] at hput hsame
  refine hput.moveTo hput.good.row_lt ?_
  refine sub_one_lt ?_ (BitVec.le_of_lt hput.good.col_lt)
  rw [hsame]
  exact hpos

/-- A character that is not a form feed leaves the cursor on the screen. -/
theorem Inv.putChar (h : c.Inv) {ch : BitVec 32} (hch : ch ≠ 12) : (c.putChar ch).Inv := by
  rw [ConObj.putChar]
  split_ifs with h0 hnl hcr htab hbs hcol hff
  · exact h
  · exact (h.fillToLineEnd.moveTo h.good.row_lt h.cols_pos).newLine
  · exact h.moveTo h.good.row_lt h.cols_pos
  · exact h.putSpaces _
  · exact h.backspace hcol rfl
  · exact h
  · exact h.withRest _ _ _ _ _ _
  · exact h.putCell ch

/-! ## Escape sequences -/

theorem Inv.newLines (h : c.Inv) (n : ℕ) : (ConObj.newLines n c).Inv := by
  induction n generalizing c with
  | zero => exact h
  | succ n ih => exact ih h.newLine

theorem toNat_cursorUp (n : ℕ) (row : BitVec 32) : (cursorUp n row).toNat = row.toNat - n := by
  induction n generalizing row with
  | zero => rfl
  | succ n ih =>
      have hone : (1 : BitVec 32).toNat = 1 := rfl
      rw [cursorUp]
      split_ifs with hrow
      · have hpos : 0 < row := hrow
        rw [ih, toNat_sub_one hpos]
        omega
      · rw [BitVec.le_def, hone] at hrow
        omega

/-- The loop for `B` goes down to the row `rows`, which is not on the screen. -/
theorem toNat_cursorDown {rows row : BitVec 32} (n : ℕ) (hrow : row ≤ rows) :
    (cursorDown rows n row).toNat = min (row.toNat + n) rows.toNat := by
  induction n generalizing row with
  | zero => exact (min_eq_left hrow).symm
  | succ n ih =>
      rw [cursorDown]
      split_ifs with hlt
      · have hnext := toNat_add_one hlt
        rw [BitVec.lt_def] at hlt
        rw [ih (by rw [BitVec.le_def, hnext]; omega), hnext]
        omega
      · rw [BitVec.lt_def] at hlt
        rw [BitVec.le_def] at hrow
        omega

theorem Inv.gotoxy (h : c.Inv) (row col : BitVec 32) : (c.gotoxy row col).Inv := by
  rw [ConObj.gotoxy]
  split_ifs with hout
  · exact h
  · push Not at hout
    exact (h.moveTo (BitVec.not_le.mp hout.1) (BitVec.not_le.mp hout.2)).withRest _ _ _ _ _ _

/-- A sequence that meets the condition leaves the cursor and all stores on the screen. -/
theorem Inv.processSequence (h : c.Inv) {x : BitVec 32} {ch : BitVec 8} (y : BitVec 32) (hfits : c.SeqFits x ch) :
    (c.processSequence x y ch).Inv := by
  have hrow := h.good.row_lt
  have hcol := h.good.col_lt
  rw [SeqFits] at hfits
  rw [ConObj.processSequence]
  by_cases hH : ch = chr 'H'
  · rw [if_pos hH]
    exact h.gotoxy _ _
  rw [if_neg hH]
  by_cases hJ : ch = chr 'J'
  · rw [if_pos hJ] at hfits ⊢
    rw [if_pos hfits]
    exact h
  rw [if_neg hJ] at hfits ⊢
  by_cases hK : ch = chr 'K'
  · rw [if_pos hK]
    exact h.fillToLineEnd
  rw [if_neg hK]
  by_cases hm : ch = chr 'm'
  · rw [if_pos hm]
    exact h.withRest _ _ _ _ _ _
  rw [if_neg hm]
  by_cases hA : ch = chr 'A'
  · rw [if_pos hA]
    refine h.moveTo ?_ hcol
    rw [BitVec.lt_def] at hrow ⊢
    rw [toNat_cursorUp]
    omega
  rw [if_neg hA]
  by_cases hB : ch = chr 'B'
  · rw [if_pos hB] at hfits ⊢
    refine h.moveTo ?_ hcol
    rw [BitVec.lt_def, toNat_cursorDown _ (BitVec.le_of_lt hrow)]
    rw [BitVec.lt_def] at hrow
    omega
  rw [if_neg hB] at hfits ⊢
  by_cases hC : ch = chr 'C'
  · rw [if_pos hC] at hfits ⊢
    refine h.moveTo hrow ?_
    split_ifs with hlt
    · exact sub_one_lt h.cols_pos (BitVec.le_refl _)
    · exact BitVec.lt_of_le_ne (BitVec.not_lt.mp hlt) hfits
  rw [if_neg hC] at hfits ⊢
  by_cases hD : ch = chr 'D'
  · rw [if_pos hD] at hfits ⊢
    exact h.moveTo hrow hfits
  rw [if_neg hD]
  by_cases hL : ch = chr 'L'
  · rw [if_pos hL]
    exact h.newLines _
  rw [if_neg hL]
  by_cases hh : ch = chr 'h'
  · rw [if_pos hh]
    exact h.withRest _ _ _ _ _ _
  rw [if_neg hh]
  by_cases hl : ch = chr 'l'
  · rw [if_pos hl]
    exact h.withRest _ _ _ _ _ _
  rw [if_neg hl]
  exact h

/-- A sequence that does not meet the condition puts the cursor or a store off the screen. -/
theorem Inv.not_good_processSequence (h : c.Inv) {x : BitVec 32} {ch : BitVec 8} (y : BitVec 32)
    (hfits : ¬ c.SeqFits x ch) : ¬ (c.processSequence x y ch).Good := by
  intro hgood
  rw [SeqFits] at hfits
  split_ifs at hfits with hJ hB hC hD
  · subst hJ
    have hcls : c.processSequence x y (chr 'J') = c.cls := if_neg hfits
    rw [hcls] at hgood
    exact h.screen.not_cls_inside hgood.inside
  · subst hB
    have hlt := hgood.row_lt
    change cursorDown c.rows x.toInt.toNat c.row < c.rows at hlt
    rw [BitVec.lt_def, toNat_cursorDown _ (BitVec.le_of_lt h.good.row_lt)] at hlt
    omega
  · subst hC
    have hlt := hgood.col_lt
    change (if c.cols < c.col + x * 2 then c.cols - 1 else c.col + x * 2) < c.cols at hlt
    rw [not_not.mp hfits, if_neg (BitVec.lt_irrefl _)] at hlt
    exact BitVec.lt_irrefl _ hlt
  · subst hD
    exact hfits hgood.col_lt
  · exact hfits trivial

theorem Inv.escape (h : c.Inv) {ch : BitVec 8} (hfits : ch = chr 'K' → c.col ≠ 1) : (c.escape ch).2.Inv := by
  have hrow := h.good.row_lt
  have hcol := h.good.col_lt
  rw [ConObj.escape]
  by_cases hopen : ch = chr '['
  · rw [if_pos hopen]
    exact h
  rw [if_neg hopen]
  by_cases hP : ch = chr 'P'
  · rw [if_pos hP]
    refine h.moveTo ?_ hcol
    split_ifs with hle
    · exact sub_one_lt h.rows_pos (BitVec.le_refl _)
    · exact BitVec.not_le.mp hle
  rw [if_neg hP]
  by_cases hK : ch = chr 'K'
  · rw [if_pos hK]
    refine h.moveTo hrow ?_
    split_ifs with hpos
    · have htwo : (2 : BitVec 32).toNat = 2 := rfl
      have hne : c.col.toNat ≠ 1 := fun hone => hfits hK (BitVec.eq_of_toNat_eq hone)
      change 0 < c.col.toNat at hpos
      rw [BitVec.lt_def] at hcol ⊢
      rw [BitVec.toNat_sub_of_le (by rw [BitVec.le_def]; omega), htwo]
      omega
    · exact hcol
  rw [if_neg hK]
  by_cases hH : ch = chr 'H'
  · rw [if_pos hH]
    refine h.moveTo ?_ hcol
    split_ifs with hpos
    · exact sub_one_lt hpos (BitVec.le_of_lt hrow)
    · exact hrow
  rw [if_neg hH]
  by_cases hD : ch = chr 'D'
  · rw [if_pos hD]
    exact h.withVideo (h.screen.scrollUp_inside h.good.inside)
  rw [if_neg hD]
  by_cases hG : ch = chr 'G'
  · rw [if_pos hG]
    exact h.moveTo h.rows_pos h.cols_pos
  rw [if_neg hG]
  by_cases hset : ch = chr '('
  · rw [if_pos hset]
    exact h
  rw [if_neg hset]
  by_cases hc : ch = chr 'c'
  · rw [if_pos hc]
    exact (h.moveTo h.rows_pos h.cols_pos).withRest _ _ _ _ _ _
  rw [if_neg hc]
  exact h

/-- `ESC K` in column 1 goes two columns back. -/
theorem not_good_escape (hone : c.col = 1) : ¬ (c.escape (chr 'K')).2.Good := by
  intro hgood
  have hlt := hgood.col_lt
  change (if 0 < c.col then c.col - 2 else c.col) < c.cols at hlt
  have hmax : (1 - 2 : BitVec 32).toNat = 2 ^ 32 - 1 := rfl
  have hcols := c.cols.isLt
  rw [hone, if_pos (by decide), BitVec.lt_def, hmax] at hlt
  omega

/-- The next byte of a sequence. -/
theorem Inv.processMultichar (h : c.Inv) {ch : BitVec 8} (hstate : c.videoState ≠ 0) (hfits : c.Fits ch) :
    (c.processMultichar c.videoState ch).2.Inv := by
  rw [Fits, if_neg hstate] at hfits
  rw [ConObj.processMultichar]
  by_cases h1 : c.videoState = 1
  · rw [if_pos h1] at hfits ⊢
    exact h.escape hfits
  rw [if_neg h1] at hfits ⊢
  by_cases h2 : c.videoState = 2
  · rw [if_pos h2] at hfits ⊢
    split_ifs with hq hdigit hzero
    · exact h
    · exact h.withRest _ _ _ _ _ _
    · have hfits0 : c.SeqFits 0 ch := by
        rcases hzero with rfl | rfl | rfl | rfl <;> exact trivial
      exact h.processSequence 0 hfits0
    · exact h.processSequence 1 hfits
  rw [if_neg h2] at hfits ⊢
  by_cases h3 : c.videoState = 3
  · rw [if_pos (Or.inl h3)] at hfits
    rw [if_pos h3]
    split_ifs
    · exact h.withRest _ _ _ _ _ _
    · exact h.withRest _ _ _ _ _ _
    · exact h.processSequence 1 hfits
  rw [if_neg h3]
  by_cases h4 : c.videoState = 4
  · rw [if_pos (Or.inr h4)] at hfits
    rw [if_pos h4]
    split_ifs
    · exact h.withRest _ _ _ _ _ _
    · exact h.processSequence c.y hfits
  rw [if_neg h4]
  exact h

/-- Only four characters may put the cursor or a store off the screen. -/
theorem of_not_seqFits {x : BitVec 32} {ch : BitVec 8} (h : ¬ c.SeqFits x ch) :
    ch = chr 'J' ∨ ch = chr 'B' ∨ ch = chr 'C' ∨ ch = chr 'D' := by
  rw [SeqFits] at h
  split_ifs at h with hJ hB hC hD
  · exact Or.inl hJ
  · exact Or.inr (Or.inl hB)
  · exact Or.inr (Or.inr (Or.inl hC))
  · exact Or.inr (Or.inr (Or.inr hD))
  · exact absurd trivial h

theorem Inv.not_good_processMultichar (h : c.Inv) {ch : BitVec 8} (hstate : c.videoState ≠ 0)
    (hfits : ¬ c.Fits ch) : ¬ (c.processMultichar c.videoState ch).2.Good := by
  rw [Fits, if_neg hstate] at hfits
  rw [ConObj.processMultichar]
  by_cases h1 : c.videoState = 1
  · rw [if_pos h1] at hfits ⊢
    push Not at hfits
    rw [hfits.1]
    exact not_good_escape hfits.2
  rw [if_neg h1] at hfits ⊢
  by_cases h2 : c.videoState = 2
  · rw [if_pos h2] at hfits ⊢
    have hbad := h.not_good_processSequence 1 hfits
    rcases of_not_seqFits hfits with rfl | rfl | rfl | rfl <;> exact hbad
  rw [if_neg h2] at hfits ⊢
  by_cases h3 : c.videoState = 3
  · rw [if_pos (Or.inl h3)] at hfits
    rw [if_pos h3]
    have hbad := h.not_good_processSequence 1 hfits
    rcases of_not_seqFits hfits with rfl | rfl | rfl | rfl <;> exact hbad
  rw [if_neg h3]
  by_cases h4 : c.videoState = 4
  · rw [if_pos (Or.inr h4)] at hfits
    rw [if_pos h4]
    have hbad := h.not_good_processSequence c.y hfits
    rcases of_not_seqFits hfits with rfl | rfl | rfl | rfl <;> exact hbad
  rw [if_neg (not_or.mpr ⟨h3, h4⟩)] at hfits
  exact absurd trivial hfits

theorem eq_of_signExtend {ch : BitVec 8} : ch.signExtend 32 = 12 ↔ ch = 12 := by
  revert ch
  decide +kernel

theorem videoState_pos (h : c.videoState ≠ 0) : 0 < c.videoState :=
  Nat.pos_of_ne_zero fun hzero => h (BitVec.eq_of_toNat_eq hzero)

/-- A byte that meets the condition leaves the cursor and all stores on the screen. -/
theorem Inv.writeByte (h : c.Inv) {ch : BitVec 8} (hfits : c.Fits ch) : (c.writeByte ch).Inv := by
  rw [ConObj.writeByte]
  by_cases hstate : c.videoState = 0
  · rw [Fits, if_pos hstate] at hfits
    rw [if_neg (by rw [hstate]; decide)]
    exact h.putChar fun heq => hfits (eq_of_signExtend.mp heq)
  · rw [if_pos (videoState_pos hstate)]
    exact (h.processMultichar hstate hfits).withRest _ _ _ _ _ _

theorem Inv.not_good_writeByte (h : c.Inv) {ch : BitVec 8} (hfits : ¬ c.Fits ch) : ¬ (c.writeByte ch).Good := by
  rw [ConObj.writeByte]
  by_cases hstate : c.videoState = 0
  · rw [Fits, if_pos hstate, not_not] at hfits
    rw [if_neg (by rw [hstate]; decide), hfits]
    exact fun hgood => h.screen.not_cls_inside hgood.inside
  · rw [if_pos (videoState_pos hstate)]
    exact fun hgood => h.not_good_processMultichar hstate hfits ⟨hgood.row_lt, hgood.col_lt, hgood.inside⟩

end ConObj

/-! ## Streams of bytes -/

/-- What calls of `write_string` do, one after the other. -/
theorem runCalls_acts (c : ConObj) (calls : List (List (BitVec 8))) :
    runCalls ConObj.step c (calls.flatMap acts) = some (calls.foldl ConObj.writeString c) := by
  have hcall (s : List (BitVec 8)) (c : ConObj) (rest : List Act) :
      runCalls ConObj.step c (acts s ++ rest) = runCalls ConObj.step (c.writeString s) rest := by
    induction s generalizing c with
    | nil => rfl
    | cons b s ih => exact ih (c.writeByte b)
  induction calls generalizing c with
  | nil => rfl
  | cons s calls ih => exact (hcall s c _).trans (ih _)

/-- Over a stream of bytes, cut into calls in any way, the cursor and all stores stay on the screen if and only if every
byte meets its condition. -/
theorem cursorRight_iff {c : ConObj} (h : c.Inv) (calls : List (List (BitVec 8))) :
    KeepsAll ConObj.step ConObj.Good c (calls.flatMap acts) ↔
      AllCalls ConObj.step ConObj.ActFits c (calls.flatMap acts) := by
  have hall : AllCalls ConObj.step (fun _ _ => True) c (calls.flatMap acts) := .of_forall (fun _ _ => trivial) _ _
  refine keepsAll_iff_of_inv ConObj.Inv (fun _ hinv => hinv.good) ?_ ?_ h _ hall
  · intro s act hinv _ hfits
    cases act with
    | byte ch => exact ⟨_, rfl, hinv.writeByte hfits⟩
    | setCursor => exact ⟨_, rfl, hinv.withRest _ _ _ _ _ _⟩
  · intro s act t hinv _ hfits hstep
    cases act with
    | byte ch =>
        obtain rfl := Option.some.inj hstep
        exact hinv.not_good_writeByte hfits
    | setCursor => exact absurd trivial hfits

/-- The console as `console_init` leaves it. -/
def consoleInit (videoMembase rows cols : BitVec 32) (mem : BitVec 32 → BitVec 8) : ConObj where
  attr := defaultAttribute
  videoMembase := videoMembase
  rows := rows
  cols := cols
  row := 0
  col := 0
  videoState := 0
  lineWrap := 0
  x := 0
  y := 0
  cursor := (0, 0)
  video := { mem, writes := [] }

/-- `console_init` takes the number of rows, less 1, from a byte, and the number of columns from 16 bits. -/
theorem consoleInit_inv (videoMembase : BitVec 32) (rows : BitVec 8) (cols : BitVec 16) (mem : BitVec 32 → BitVec 8)
    (hcols : 2 ≤ cols.toNat) (heven : cols.toNat % 2 = 0) :
    (consoleInit videoMembase (rows.setWidth 32 + 1) (cols.setWidth 32) mem).Inv := by
  have hrows := rows.isLt
  have hlt := cols.isLt
  have hr : (rows.setWidth 32 + 1).toNat = rows.toNat + 1 := by
    have hone : (1 : BitVec 32).toNat = 1 := rfl
    rw [BitVec.toNat_add, BitVec.toNat_setWidth, hone]
    omega
  have hc : (cols.setWidth 32).toNat = cols.toNat := by
    rw [BitVec.toNat_setWidth, Nat.mod_eq_of_lt (by omega)]
  have hsize : (rows.toNat + 1) * cols.toNat ≤ 256 * 65536 := Nat.mul_le_mul (by omega) (by omega)
  refine ⟨⟨?_, ?_, ?_, ?_⟩, ⟨?_, ?_, ?_⟩⟩
  · change 0 < (rows.setWidth 32 + 1).toNat
    omega
  · change 2 ≤ (cols.setWidth 32).toNat
    omega
  · change (cols.setWidth 32).toNat % 2 = 0
    omega
  · change (rows.setWidth 32 + 1).toNat * (cols.setWidth 32).toNat * 2 < 2 ^ 32
    rw [hr, hc]
    omega
  · change 0 < (rows.setWidth 32 + 1).toNat
    omega
  · change 0 < (cols.setWidth 32).toNat
    omega
  · intro w hw
    exact absurd hw List.not_mem_nil

/-- On a screen of 25 rows and 80 columns: two characters and a move to the third row, over three calls. -/
theorem cursorRight_iff_move :
    KeepsAll ConObj.step ConObj.Good (consoleInit 0xc00b8000 25 80 fun _ => 0)
      ([[97, 98, 27], [chr '[', chr '2'], [chr 'B']].flatMap acts) := by
  refine (cursorRight_iff (consoleInit_inv 0xc00b8000 24 80 (fun _ => 0) (by decide) (by decide)) _).mpr ?_
  decide +kernel

/-- `ESC [ 2 5 B` in the first row of 25 goes to row 25. -/
theorem cursorDown_off_screen :
    ¬ ∀ c : ConObj, c.Inv → ∀ calls : List (List (BitVec 8)),
      KeepsAll ConObj.step ConObj.Good c (calls.flatMap acts) := by
  intro hall
  have hkeeps := hall _ (consoleInit_inv 0xc00b8000 24 80 (fun _ => 0) (by decide) (by decide))
    [[27, chr '[', chr '2', chr '5', chr 'B']]
  have ⟨t, ht, hgood⟩ := hkeeps.last
  rw [runCalls_acts] at ht
  obtain rfl := Option.some.inj ht
  exact absurd hgood.row_lt (by decide +kernel)

end Shaunos.Console
