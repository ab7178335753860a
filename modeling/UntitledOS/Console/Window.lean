import UntitledOS.Console.Screen
import UntitledOS.Lib.Layout
import UntitledOS.Lib.Move

/-! What stands on the screen.

The screen is 25 rows of memory that `putchar` writes in place and `scroll` moves up; the
text is a list of rows that only grows (`Lib/Layout.lean`). `shows_layout`: from a blank
screen, whatever is printed, the cells are those of the last 25 rows of the text, and the
cursor is where the text ends. -/
namespace UntitledOS.Console
open Lib

/-- The low byte of a cell. -/
def character (v : u16) : u8 := v.setWidth 8

@[simp] theorem character_cell (c : u8) : character (cell c) = c := by
  revert c
  decide +kernel

/-- The cells of the last 25 rows. -/
def ShowsCells (vgaBuffer : Int → u16) (rows : List (List u8)) : Prop :=
  ∀ y x : Nat, y < 25 → x < 80 →
    character (vgaBuffer (y * VGA_WIDTH + x)) = cellAt 0x20 (lastRows 25 rows) y x

namespace VirtualConsole
variable {s : VirtualConsole}

/-! ### Filling and copying -/

theorem store_at (i : Int) (v : u16) (s : VirtualConsole) : (s.store i v).vgaBuffer i = v :=
  Function.update_self ..

theorem store_other {i j : Int} (h : i ≠ j) (v : u16) (s : VirtualConsole) :
    (s.store j v).vgaBuffer i = s.vgaBuffer i :=
  Function.update_of_ne h ..

theorem foldl_fill {α : Type*} (index : α → Int) (v : u16) (ps : List α) (s : VirtualConsole) :
    (ps.foldl (fun s p => s.store (index p) v) s).vgaBuffer = fill index v s.vgaBuffer ps := by
  induction ps generalizing s with
  | nil => rfl
  | cons p ps ih => exact ih (s.store (index p) v)

theorem foldl_move {α : Type*} (dst src : α → Int) (ps : List α) (s : VirtualConsole) :
    (ps.foldl (fun s p => s.store (dst p) (s.vgaBuffer (src p))) s).vgaBuffer = move dst src s.vgaBuffer ps := by
  induction ps generalizing s with
  | nil => rfl
  | cons p ps ih => exact ih (s.store (dst p) (s.vgaBuffer (src p)))

theorem grid : Grid (fun y x : Nat => (y : Int) * VGA_WIDTH + x) (24 + 1) 80 := by
  intro y x y' x' _ hx _ hx' heq
  simp only [VGA_WIDTH] at heq
  omega

/-- Scrolling moves the rows up, and the last one is blank. -/
theorem scroll_cells (s : VirtualConsole) {y x : Nat} (hy : y < 25) (hx : x < 80) :
    s.scroll.vgaBuffer (y * VGA_WIDTH + x) =
      if y < 24 then s.vgaBuffer (((y + 1 : Nat) : Int) * VGA_WIDTH + x) else blank := by
  have hbelow (p : Nat × Nat) :
      (p.1 : Int) * VGA_WIDTH + p.2 + VGA_WIDTH = ((p.1 + 1 : Nat) : Int) * VGA_WIDTH + p.2 := by
    simp only [VGA_WIDTH]
    omega
  simp only [scroll, foldl_fill, foldl_move, hbelow]
  exact scroll_grid grid blank s.vgaBuffer hy hx

/-! ### One character -/

/-- The screen is the end of a text, and the cursor behind it. -/
structure Shows (s : VirtualConsole) (rows : List (List u8)) : Prop where
  cells : ShowsCells s.vgaBuffer rows
  row : s.row = (caret (lastRows 25 rows)).1
  column : s.column = (caret (lastRows 25 rows)).2

theorem shows_concat {rows : List (List u8)} {row : List u8} :
    s.Shows (rows ++ [row]) ↔
      ShowsCells s.vgaBuffer (rows ++ [row]) ∧ s.row = min 24 rows.length ∧ s.column = row.length := by
  have hcaret : caret (lastRows 25 (rows ++ [row])) = (min 24 rows.length, row.length) :=
    caret_lastRows (by omega) rows row
  constructor
  · intro h
    have hrow := h.row
    have hcolumn := h.column
    rw [hcaret] at hrow hcolumn
    exact ⟨h.cells, by simpa using hrow, hcolumn⟩
  · intro h
    obtain ⟨hcells, hrow, hcolumn⟩ := h
    exact ⟨hcells, by simpa [hcaret] using hrow, by rw [hcaret, hcolumn]⟩

theorem Shows.rowed {rows : List (List u8)} {row : List u8} (h : s.Shows (rows ++ [row])) (hrow : row.length < 80) :
    s.Rowed := by
  obtain ⟨-, hr, hc⟩ := shows_concat.mp h
  exact ⟨by omega, by omega, by omega⟩

/-- A character stands behind the ones before it. -/
theorem Shows.store {rows : List (List u8)} {row : List u8} (h : s.Shows (rows ++ [row])) (hrow : row.length < 80)
    (c : u8) : ShowsCells (s.store s.cursor (cell c)).vgaBuffer (rows ++ [row ++ [c]]) := by
  obtain ⟨hcells, hr, hc⟩ := shows_concat.mp h
  intro y x hy hx
  have hat : (y * VGA_WIDTH + x : Int) = s.cursor ↔ y = min (25 - 1) rows.length ∧ x = row.length := by
    simp only [cursor, VGA_WIDTH]
    omega
  rw [cellAt_lastRows_char (by omega)]
  by_cases hi : (y * VGA_WIDTH + x : Int) = s.cursor
  · rw [hi, store_at, character_cell, if_pos (hat.mp hi)]
  · rw [store_other hi, if_neg fun h => hi (hat.mpr h)]
    exact hcells y x hy hx

/-- A new row is below the others, or the first one of the screen is gone. -/
theorem shows_newLine {rows : List (List u8)} (hcells : ShowsCells s.vgaBuffer rows) (hne : 0 < rows.length)
    (hrow : s.row = min 24 (rows.length - 1 : Nat)) : s.newLine.Shows (rows ++ [[]]) := by
  by_cases hend : rows.length < 25
  · rw [newLine_stay (by omega)]
    refine shows_concat.mpr ⟨fun y x hy hx => ?_, by simp; omega, rfl⟩
    rw [cellAt_lastRows_newRow, if_pos hend]
    exact hcells y x hy hx
  · rw [newLine_scroll (by omega)]
    refine shows_concat.mpr ⟨fun y x hy hx => ?_, ?_, ?_⟩
    · rw [scroll_cells _ hy hx, cellAt_lastRows_newRow, if_neg hend]
      by_cases hy' : y < 24
      · rw [if_pos hy']
        exact hcells (y + 1) x (by omega) hx
      · have hbelow : (lastRows 25 rows).length ≤ y + 1 := by
          rw [length_lastRows]
          omega
        rw [if_neg hy', cellAt_of_length_le hbelow, blank, character_cell]
    · rw [scroll_row]
      simp
      omega
    · exact scroll_column _

theorem Shows.updateCursor {rows : List (List u8)} (h : s.Shows rows) : s.updateCursor.Shows rows :=
  ⟨h.cells, h.row, h.column⟩

variable {rows : List (List u8)} {row : List u8}

theorem Shows.newline (h : s.Shows (rows ++ [row])) (hrow : row.length < 80) :
    (s.putchar 0x0a).Shows (rows ++ [row] ++ [[]]) := by
  obtain ⟨hcells, hr, -⟩ := shows_concat.mp h
  rw [putchar_eq (h.rowed hrow), if_pos (Or.inl rfl), ink, if_pos rfl]
  exact (shows_newLine hcells (by simp) (by simpa using hr)).updateCursor

/-- The character that fills a row starts the next one. -/
theorem Shows.full (h : s.Shows (rows ++ [row])) (hrow : row.length + 1 = 80) {c : u8} (hc : c ≠ 0x0a) :
    (s.putchar c).Shows (rows ++ [row ++ [c]] ++ [[]]) := by
  have hshort : row.length < 80 := by omega
  obtain ⟨-, hr, hcolumn⟩ := shows_concat.mp h
  rw [putchar_eq (h.rowed hshort), if_pos (Or.inr (by omega)), ink, if_neg hc]
  exact (shows_newLine (h.store hshort c) (by simp) (by simpa [VirtualConsole.store] using hr)).updateCursor

theorem Shows.char (h : s.Shows (rows ++ [row])) (hrow : row.length + 1 < 80) {c : u8} (hc : c ≠ 0x0a) :
    (s.putchar c).Shows (rows ++ [row ++ [c]]) := by
  have hshort : row.length < 80 := by omega
  obtain ⟨-, hr, hcolumn⟩ := shows_concat.mp h
  have hstay : ¬(c = 0x0a ∨ s.column = 79) := not_or.mpr ⟨hc, by omega⟩
  rw [putchar_eq (h.rowed hshort), if_neg hstay, ink, if_neg hc]
  exact Shows.updateCursor (shows_concat.mpr ⟨h.store hshort c, hr, by simp [hcolumn]⟩)

/-! ### A text -/

theorem Shows.print (h : s.Shows (rows ++ [row])) (hrow : row.length < 80) (cs : List u8) :
    (s.print cs).Shows (rows ++ wrap 80 0x0a row cs) := by
  induction cs generalizing s rows row with
  | nil => exact h
  | cons c cs ih =>
    rw [wrap]
    split_ifs with hc hfull
    · have hnext := ih (h.newline hrow) (by simp)
      rw [List.append_assoc] at hnext
      rw [hc]
      exact hnext
    · have hnext := ih (h.full hfull hc) (by simp)
      rw [List.append_assoc] at hnext
      exact hnext
    · have hroom : row.length + 1 < 80 := by omega
      exact ih (h.char hroom hc) (by simpa using hroom)

/-- The low bytes of the screen are spaces. -/
def Blank (s : VirtualConsole) : Prop := ∀ i, Visible i → character (s.vgaBuffer i) = 0x20

theorem new_cells (video : Int → u16) {i : Int} (h : Visible i) : (new video).vgaBuffer i = blank := by
  rw [new, foldl_fill, fill_apply, if_pos]
  refine List.mem_map.mpr ⟨((i % 80).toNat, (i / 80).toNat), List.mem_product.mpr ⟨?_, ?_⟩, ?_⟩
  · simp only [List.mem_range]
    omega
  · have := h.2
    simp only [List.mem_range]
    omega
  · have := h.1
    simp only [VGA_WIDTH]
    omega

theorem new_blank (video : Int → u16) : (new video).Blank := by
  intro i hi
  rw [new_cells video hi, blank, character_cell]

/-- **From a blank screen, the console shows the last 25 rows of what was printed.** -/
theorem shows_layout (hblank : s.Blank) (hrow : s.row = 0) (hcolumn : s.column = 0) (cs : List u8) :
    (s.print cs).Shows (layout 80 0x0a cs) := by
  have hempty : s.Shows ([] ++ [[]]) := by
    refine shows_concat.mpr ⟨fun y x hy hx => ?_, by simpa using hrow, hcolumn⟩
    rw [cellAt_lastRows, cellAt_concat_nil]
    refine hblank _ ⟨?_, ?_⟩
    · simp only [VGA_WIDTH]
      omega
    · simp only [VGA_WIDTH]
      omega
  exact hempty.print (by simp) cs

/-- What the constructor leaves is a blank screen. -/
theorem shows_layout_new : ((new fun _ => 0).print (ascii ['o', 'k'])).Shows [ascii ['o', 'k']] := by
  obtain ⟨m, st, hnew, -⟩ := new_eq fun _ => 0
  exact shows_layout (new_blank _) (by rw [hnew]) (by rw [hnew]) (ascii ['o', 'k'])

end VirtualConsole

end UntitledOS.Console
