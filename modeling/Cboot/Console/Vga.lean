import Mathlib.Data.List.Induction
import Mathlib.Data.Nat.Basic
import Mathlib.Logic.Function.Basic

/-!
# The screen

The functions of `vga.c`. The text buffer has 25 rows of 80 characters, and characters are
drawn in the last row; `newline` moves every row up by one, in place.

* The buffer keeps a record of what is stored to it (`VgaBuffer.stores`), and the console
  one of what the last row was in front of every newline (`Console.bottoms`). The program
  has neither; what it does is not decided by them.
* `newline_cells`: moving the rows in place is moving them all at once.
* `run_screenSafe`: whatever is called, the column stays at most 80 and every cell stored
  to is one of the 2000, and a newline is exact from every state so reached.
* `run_draws_rowHistory`: after `m` newlines, the rows are the last rows there have been in
  front of them, and above those the initial rows that are left.
-/

namespace Cboot

/-! ## The buffer -/

/-- A cell of the screen. -/
structure VGAChar where
  character : UInt8
  colour : UInt8
  deriving DecidableEq

/-- `VGA_ROWS` -/
def vgaRows : ℕ := 25

/-- `VGA_COLS` -/
def vgaCols : ℕ := 80

/-- The cells of the buffer, with a record of what has been stored, the last at the end. -/
structure VgaBuffer where
  cells : ℕ → VGAChar
  stores : List (ℕ × VGAChar)

namespace VgaBuffer

/-- Storing a character. -/
def store (b : VgaBuffer) (i : ℕ) (c : VGAChar) : VgaBuffer where
  cells := Function.update b.cells i c
  stores := b.stores ++ [(i, c)]

/-- `j` rounds of the inner loop of `newline`. -/
def shiftRow (b : VgaBuffer) (i : ℕ) : (j : ℕ) → VgaBuffer
  | 0 => b
  | j + 1 =>
    let b := shiftRow b i j
    b.store (vgaCols * (i - 1) + j) (b.cells (vgaCols * i + j))

/-- `n` rounds of the outer loop of `newline`: it starts with the second row. -/
def shiftRows (b : VgaBuffer) : (n : ℕ) → VgaBuffer
  | 0 => b
  | n + 1 => (shiftRows b n).shiftRow (1 + n) vgaCols

/-- `j` rounds of the loop that clears a row. -/
def clearRow (b : VgaBuffer) (i : ℕ) (blank : VGAChar) : (j : ℕ) → VgaBuffer
  | 0 => b
  | j + 1 => (clearRow b i blank j).store (vgaCols * i + j) blank

/-- `n` rounds of the outer loop of `clear_screen`. -/
def clearRows (b : VgaBuffer) (blank : VGAChar) : (n : ℕ) → VgaBuffer
  | 0 => b
  | n + 1 => (clearRows b blank n).clearRow n blank vgaCols

end VgaBuffer

/-! ## The console -/

/-- The colours of `vga.h`. -/
inductive BiosColours
  | black | blue | green | cyan | red | magenta | brown | lightGray | darkGray | lightBlue
  | lightGreen | lightCyan | lightRed | lightMagenta | yellow | white
  deriving DecidableEq

/-- The values of the enumeration: after `LIGHT_BLUE` they go on from `0x10`. -/
def BiosColours.value : BiosColours → UInt32
  | black => 0x0
  | blue => 0x1
  | green => 0x2
  | cyan => 0x3
  | red => 0x4
  | magenta => 0x5
  | brown => 0x6
  | lightGray => 0x7
  | darkGray => 0x8
  | lightBlue => 0x9
  | lightGreen => 0x10
  | lightCyan => 0x11
  | lightRed => 0x12
  | lightMagenta => 0x13
  | yellow => 0x14
  | white => 0x15

/-- The variables of `vga.c`, with a record of the last row in front of every newline, the
    latest one first. -/
structure Console where
  vgaBuffer : VgaBuffer
  columnCounter : ℕ
  foreground : UInt32
  background : UInt32
  bottoms : List (ℕ → VGAChar)

namespace Console

variable (s : Console)

/-- The character in a row and a column. -/
def row (i j : ℕ) : VGAChar := s.vgaBuffer.cells (vgaCols * i + j)

/-- The attribute byte of the current colours. -/
def colour : UInt8 := (s.foreground ||| s.background).toUInt8

/-- A space in the current colours. -/
def blank : VGAChar where
  character := 0x20
  colour := s.colour

/-- The rows move up by one, and the last one is cleared. -/
def newline : Console :=
  let b := s.vgaBuffer.shiftRows (vgaRows - 1)
  { s with
    vgaBuffer := b.clearRow 24 s.blank vgaCols
    columnCounter := 0
    bottoms := s.row 24 :: s.bottoms }

/-- Every cell of the screen is cleared; the column remains. -/
def clearScreen : Console := { s with vgaBuffer := s.vgaBuffer.clearRows s.blank vgaRows }

/-- The mask keeps none of the bits of the first ten colours. -/
def setForeground (colour : BiosColours) : Console :=
  { s with foreground := colour.value &&& 0xF0 }

/-- The mask keeps none of the bits that are shifted. -/
def setBackground (colour : BiosColours) : Console :=
  { s with background := (colour.value <<< 4) &&& 0x0F }

/-- A character that comes when the row is full is lost: there is a newline instead. -/
def drawChar (c : UInt8) : Console :=
  if s.columnCounter ≥ vgaCols then s.newline
  else if c = 0x0A then s.newline
  else if c = 0x0D then { s with columnCounter := 0 }
  else { s with
    vgaBuffer := s.vgaBuffer.store (vgaCols * 24 + s.columnCounter) ⟨c, s.colour⟩
    columnCounter := s.columnCounter + 1 }

end Console

/-- The calls that the other parts of the program make. -/
inductive ConsoleCall
  | drawChar (c : UInt8)
  | clearScreen
  | setForeground (colour : BiosColours)
  | setBackground (colour : BiosColours)

/-- The console after a call. -/
def ConsoleCall.step : ConsoleCall → Console → Console
  | drawChar c, s => s.drawChar c
  | clearScreen, s => s.clearScreen
  | setForeground colour, s => s.setForeground colour
  | setBackground colour, s => s.setBackground colour

/-- The initial state, with any content of the screen. -/
def Console.init (cells : ℕ → VGAChar) : Console where
  vgaBuffer := ⟨cells, []⟩
  columnCounter := 0
  foreground := BiosColours.lightGray.value
  background := BiosColours.black.value <<< 4
  bottoms := []

/-- The state after calls. -/
def Console.run (cells : ℕ → VGAChar) (calls : List ConsoleCall) : Console :=
  calls.foldl (fun s call => call.step s) (.init cells)

/-! ## Moving rows -/

namespace VgaBuffer

variable {b : VgaBuffer} {i j n x : ℕ}

@[simp] theorem store_cells (b : VgaBuffer) (i : ℕ) (c : VGAChar) :
    (b.store i c).cells = Function.update b.cells i c := rfl

/-- The rows are copied towards the front, so that no cell is read after it is stored to. -/
theorem shiftRow_cells (hi : 1 ≤ i) (hj : j ≤ vgaCols) :
    (b.shiftRow i j).cells x =
      if vgaCols * (i - 1) ≤ x ∧ x < vgaCols * (i - 1) + j then b.cells (x + vgaCols)
      else b.cells x := by
  obtain ⟨i, rfl⟩ := Nat.exists_eq_add_of_le' hi
  rw [vgaCols] at hj ⊢
  rw [Nat.add_sub_cancel]
  induction j generalizing x with
  | zero => rw [shiftRow, if_neg (by omega)]
  | succ j ih =>
    rw [shiftRow, store_cells, Nat.add_sub_cancel, vgaCols]
    by_cases hx : x = 80 * i + j
    · -- The cell below has not been stored to.
      rw [hx, Function.update_self, ih (Nat.le_of_succ_le hj), if_neg (by omega),
        if_pos (by omega)]
      congr 1
      omega
    · rw [Function.update_of_ne hx, ih (Nat.le_of_succ_le hj)]
      exact if_congr (by omega) rfl rfl

theorem shiftRows_cells (b : VgaBuffer) (n x : ℕ) :
    (b.shiftRows n).cells x = if x < vgaCols * n then b.cells (x + vgaCols) else b.cells x := by
  induction n generalizing x with
  | zero => rfl
  | succ n ih =>
    rw [shiftRows, shiftRow_cells (Nat.le_add_right 1 n) le_rfl, ih, ih, vgaCols,
      Nat.add_sub_cancel_left]
    by_cases hx : 80 * n ≤ x ∧ x < 80 * n + 80
    · rw [if_pos hx, if_neg (by omega), if_pos (by omega)]
    · rw [if_neg hx]
      exact if_congr (by omega) rfl rfl

theorem clearRow_cells (b : VgaBuffer) (i : ℕ) (blank : VGAChar) (j x : ℕ) :
    (b.clearRow i blank j).cells x =
      if vgaCols * i ≤ x ∧ x < vgaCols * i + j then blank else b.cells x := by
  induction j with
  | zero => rw [clearRow, if_neg (by omega)]
  | succ j ih =>
    rw [clearRow, store_cells]
    by_cases hx : x = vgaCols * i + j
    · rw [hx, Function.update_self, if_pos (by omega)]
    · rw [Function.update_of_ne hx, ih]
      exact if_congr (by omega) rfl rfl

theorem clearRows_cells (b : VgaBuffer) (blank : VGAChar) (n x : ℕ) :
    (b.clearRows blank n).cells x = if x < vgaCols * n then blank else b.cells x := by
  induction n with
  | zero => rfl
  | succ n ih =>
    rw [clearRows, clearRow_cells, ih, vgaCols]
    by_cases hx : 80 * n ≤ x ∧ x < 80 * n + 80
    · rw [if_pos hx, if_pos (by omega)]
    · rw [if_neg hx]
      exact if_congr (by omega) rfl rfl

end VgaBuffer

namespace Console

variable (s : Console)

/-- A newline moves all the cells up by a row at once, and clears the last row. -/
theorem newline_cells (x : ℕ) : s.newline.vgaBuffer.cells x =
    if x < 1920 then s.vgaBuffer.cells (x + 80)
    else if x < 2000 then s.blank else s.vgaBuffer.cells x := by
  rw [newline]
  change ((s.vgaBuffer.shiftRows (vgaRows - 1)).clearRow 24 s.blank vgaCols).cells x = _
  rw [VgaBuffer.clearRow_cells, VgaBuffer.shiftRows_cells, vgaRows, vgaCols]
  grind

/-- Drawing a character keeps the colours. -/
theorem drawChar_colours (c : UInt8) :
    (s.drawChar c).foreground = s.foreground ∧ (s.drawChar c).background = s.background := by
  rw [drawChar]
  split
  · exact ⟨rfl, rfl⟩
  · split
    · exact ⟨rfl, rfl⟩
    · split <;> exact ⟨rfl, rfl⟩

/-- What `newline` is for: every row holds the one below it, the last one is blank, and the
    column is the first. -/
def NewlineExact : Prop :=
  (∀ i < 24, ∀ j < vgaCols, s.newline.row i j = s.row (i + 1) j) ∧
    (∀ j < vgaCols, s.newline.row 24 j = s.blank) ∧ s.newline.columnCounter = 0

theorem newline_row {i j : ℕ} (hi : i < 24) (hj : j < vgaCols) :
    s.newline.row i j = s.row (i + 1) j := by
  rw [vgaCols] at hj
  rw [row, row, newline_cells, vgaCols, if_pos (by omega)]
  congr 1
  omega

theorem newlineExact : s.NewlineExact := by
  refine ⟨fun i hi j hj => s.newline_row hi hj, fun j hj => ?_, rfl⟩
  rw [vgaCols] at hj
  rw [row, newline_cells, vgaCols, if_neg (by omega), if_pos (by omega)]

end Console

/-! ## Staying on the screen -/

/-- Every cell stored to is one of the screen. -/
def VgaBuffer.Within (b : VgaBuffer) : Prop := ∀ p ∈ b.stores, p.1 < vgaCols * vgaRows

namespace VgaBuffer.Within

variable {b : VgaBuffer} {i j n : ℕ}

theorem store (h : b.Within) (c : VGAChar) (hi : i < vgaCols * vgaRows) : (b.store i c).Within := by
  intro p hp
  rcases List.mem_append.1 hp with hp | hp
  · exact h p hp
  · rwa [List.mem_singleton.1 hp]

theorem shiftRow (h : b.Within) (hi : i ≤ vgaRows) (hj : j ≤ vgaCols) :
    (b.shiftRow i j).Within := by
  rw [vgaRows, vgaCols] at *
  induction j with
  | zero => exact h
  | succ j ih => exact (ih (Nat.le_of_succ_le hj)).store _ (by rw [vgaRows, vgaCols]; omega)

theorem shiftRows (h : b.Within) (hn : n < vgaRows) : (b.shiftRows n).Within := by
  induction n with
  | zero => exact h
  | succ n ih =>
    refine (ih (Nat.lt_of_succ_lt hn)).shiftRow ?_ le_rfl
    rw [vgaRows] at *
    omega

theorem clearRow (h : b.Within) (hi : i < vgaRows) (blank : VGAChar) (hj : j ≤ vgaCols) :
    (b.clearRow i blank j).Within := by
  rw [vgaRows, vgaCols] at *
  induction j with
  | zero => exact h
  | succ j ih => exact (ih (Nat.le_of_succ_le hj)).store _ (by rw [vgaRows, vgaCols]; omega)

theorem clearRows (h : b.Within) (blank : VGAChar) (hn : n ≤ vgaRows) :
    (b.clearRows blank n).Within := by
  induction n with
  | zero => exact h
  | succ n ih => exact (ih (Nat.le_of_succ_le hn)).clearRow hn blank le_rfl

end VgaBuffer.Within

namespace Console

/-- The column is at most the width of the screen, and nothing was stored beside it. -/
structure ScreenSafe (s : Console) : Prop where
  columnCounter_le : s.columnCounter ≤ vgaCols
  within : s.vgaBuffer.Within

namespace ScreenSafe

variable {s : Console}

theorem newline (h : s.ScreenSafe) : s.newline.ScreenSafe where
  columnCounter_le := Nat.zero_le _
  within := (h.within.shiftRows (by decide)).clearRow (by decide) _ le_rfl

theorem drawChar (h : s.ScreenSafe) (c : UInt8) : (s.drawChar c).ScreenSafe := by
  rw [Console.drawChar]
  split
  · exact h.newline
  · rename_i hcol
    split
    · exact h.newline
    · split
      · exact ⟨Nat.zero_le _, h.within⟩
      · refine ⟨Nat.lt_of_not_le hcol, h.within.store _ ?_⟩
        rw [vgaCols] at *
        rw [vgaRows]
        omega

/-- No call breaks it. -/
theorem step (h : s.ScreenSafe) (call : ConsoleCall) : (call.step s).ScreenSafe := by
  cases call with
  | drawChar c => exact h.drawChar c
  | clearScreen => exact ⟨h.columnCounter_le, h.within.clearRows _ le_rfl⟩
  | setForeground colour => exact ⟨h.columnCounter_le, h.within⟩
  | setBackground colour => exact ⟨h.columnCounter_le, h.within⟩

end ScreenSafe

section run

variable (cells : ℕ → VGAChar)

theorem run_append (calls : List ConsoleCall) (call : ConsoleCall) :
    run cells (calls ++ [call]) = call.step (run cells calls) := by
  rw [run, List.foldl_append]
  rfl

theorem run_screenSafe (calls : List ConsoleCall) : (run cells calls).ScreenSafe := by
  induction calls using List.reverseRecOn with
  | nil => exact ⟨Nat.zero_le _, fun p hp => absurd hp List.not_mem_nil⟩
  | append_singleton calls call ih =>
    rw [run_append]
    exact ih.step call

end run

/-! ## The rows -/

/-- The rows of a screen that only characters have been drawn on: the `j`-th row above the
    last one is the last row in front of the `j`-th newline back (counted from zero), and
    what is left of the initial rows is above them. -/
structure RowHistory (cells : ℕ → VGAChar) (s : Console) : Prop where
  bottom : ∀ (j : ℕ) (h : j < s.bottoms.length), j < 24 → ∀ k < vgaCols,
    s.row (23 - j) k = s.bottoms[j] k
  initial : ∀ r, r + s.bottoms.length < 24 → ∀ k < vgaCols,
    s.row r k = cells (vgaCols * (r + s.bottoms.length) + k)

namespace RowHistory

variable {cells : ℕ → VGAChar} {s s' : Console}

theorem init (cells : ℕ → VGAChar) : RowHistory cells (.init cells) :=
  ⟨fun _ h => absurd h (Nat.not_lt_zero _), fun _ _ _ _ => rfl⟩

/-- The new row is the one that was the last. -/
theorem newline (h : RowHistory cells s) : RowHistory cells s.newline where
  bottom j hj hlt k hk := by
    rw [newline_row s (by omega) hk]
    cases j with
    | zero => rfl
    | succ j =>
      have hsub : 23 - (j + 1) + 1 = 23 - j := by omega
      rw [hsub]
      exact h.bottom j (Nat.lt_of_succ_lt_succ hj) (by omega) k hk
  initial r hr k hk := by
    change r + (s.bottoms.length + 1) < 24 at hr
    change s.newline.row r k = cells (vgaCols * (r + (s.bottoms.length + 1)) + k)
    rw [newline_row s (by omega) hk, h.initial (r + 1) (by omega) k hk, Nat.add_right_comm,
      Nat.add_assoc r]

/-- What is in the last row does not matter. -/
theorem congr (h : RowHistory cells s) (hbottoms : s'.bottoms = s.bottoms)
    (hrow : ∀ i < 24, ∀ j < vgaCols, s'.row i j = s.row i j) : RowHistory cells s' where
  bottom j hj hlt k hk := by
    rw [hrow _ (by omega) k hk, List.getElem_of_eq hbottoms]
    exact h.bottom j (hbottoms ▸ hj) hlt k hk
  initial r hr k hk := by
    rw [hbottoms] at hr ⊢
    rw [hrow r (by omega) k hk]
    exact h.initial r hr k hk

theorem drawChar (h : RowHistory cells s) (c : UInt8) : RowHistory cells (s.drawChar c) := by
  rw [Console.drawChar]
  split
  · exact h.newline
  · split
    · exact h.newline
    · split
      · exact h.congr rfl fun _ _ _ _ => rfl
      · refine h.congr rfl fun i hi j hj => Function.update_of_ne ?_ _ _
        rw [vgaCols] at *
        omega

end RowHistory

section run

variable (cells : ℕ → VGAChar)

theorem run_draws_rowHistory (text : List UInt8) :
    RowHistory cells (run cells (text.map .drawChar)) := by
  induction text using List.reverseRecOn with
  | nil => exact .init cells
  | append_singleton text c ih =>
    rw [List.map_append, List.map_singleton, run_append]
    exact ih.drawChar c

/-- The screen is safe and scrolls exactly: nothing is stored beside it, a newline moves every
    row by one, and so the rows are the last rows of before, in their order. -/
theorem screen_scrolls : (∀ calls, (run cells calls).ScreenSafe ∧ (run cells calls).NewlineExact) ∧
    ∀ text : List UInt8, RowHistory cells (run cells (text.map .drawChar)) :=
  ⟨fun calls => ⟨run_screenSafe cells calls, newlineExact _⟩, run_draws_rowHistory cells⟩

end run

end Console

end Cboot
