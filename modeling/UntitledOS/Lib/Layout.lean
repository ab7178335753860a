import Mathlib

/-! Text in rows of one width, and its last rows.

`layout` reads a text once: a character stands behind the ones before it, a row ends with
the character that fills it, and at a newline. The last row is the one that is still open,
so a text always has one. A cell that no character stands in is blank (`cellAt`), and so a
new row changes no cell (`cellAt_concat_nil`); what it changes is which rows are the last
ones (`cellAt_lastRows_newRow`). -/
namespace UntitledOS.Lib

variable {α : Type*}

/-- The rows of a text behind an open row. -/
def wrap [DecidableEq α] (width : Nat) (newline : α) (row : List α) : List α → List (List α)
  | [] => [row]
  | c :: cs =>
    if c = newline then row :: wrap width newline [] cs
    else if row.length + 1 = width then (row ++ [c]) :: wrap width newline [] cs
    else wrap width newline (row ++ [c]) cs

def layout [DecidableEq α] (width : Nat) (newline : α) (cs : List α) : List (List α) := wrap width newline [] cs

def cellAt (blank : α) (rows : List (List α)) (y x : Nat) : α := ((rows[y]?.getD [])[x]?).getD blank

/-- The last `height` rows, or all of them. -/
def lastRows (height : Nat) (rows : List (List α)) : List (List α) := rows.drop (rows.length - height)

/-- Behind the last character, by row and column. -/
def caret (rows : List (List α)) : Nat × Nat := (rows.length - 1, (rows.getLastD []).length)

variable {blank : α} {height : Nat}

/-! ### Cells -/

theorem cellAt_lastRows (rows : List (List α)) (y x : Nat) :
    cellAt blank (lastRows height rows) y x = cellAt blank rows (rows.length - height + y) x := by
  simp [cellAt, lastRows]

theorem cellAt_of_length_le {rows : List (List α)} {y : Nat} (h : rows.length ≤ y) (x : Nat) :
    cellAt blank rows y x = blank := by
  simp [cellAt, h]

/-- An empty row changes no cell. -/
theorem cellAt_concat_nil (rows : List (List α)) (y x : Nat) :
    cellAt blank (rows ++ [[]]) y x = cellAt blank rows y x := by
  by_cases hy : y < rows.length
  · simp [cellAt, List.getElem?_append_left hy]
  · have hlength := Nat.not_lt.mp hy
    by_cases hlast : y = rows.length
    · simp [cellAt, hlast]
    · have hbehind : (rows ++ [([] : List α)]).length ≤ y := by
        simp
        omega
      rw [cellAt_of_length_le hbehind, cellAt_of_length_le hlength]

/-- A character changes the cell behind its row, and no other one. -/
theorem cellAt_concat_char (rows : List (List α)) (row : List α) (c : α) (y x : Nat) :
    cellAt blank (rows ++ [row ++ [c]]) y x =
      if y = rows.length ∧ x = row.length then c else cellAt blank (rows ++ [row]) y x := by
  by_cases hy : y < rows.length
  · simp [cellAt, List.getElem?_append_left hy, Nat.ne_of_lt hy]
  · have hlength := Nat.not_lt.mp hy
    by_cases hlast : y = rows.length
    · by_cases hx : x = row.length
      · simp [cellAt, hlast, hx]
      · by_cases hleft : x < row.length
        · simp [cellAt, hlast, hx, List.getElem?_append_left hleft]
        · have hright : row.length + 1 ≤ x := by omega
          simp [cellAt, hlast, hx, List.getElem?_eq_none, hright, Nat.not_lt.mp hleft]
    · have hbehind (last : List α) : (rows ++ [last]).length ≤ y := by
        simp
        omega
      rw [if_neg (fun h => hlast h.1), cellAt_of_length_le (hbehind _), cellAt_of_length_le (hbehind _)]

/-! ### The last rows -/

@[simp] theorem length_lastRows (rows : List (List α)) : (lastRows height rows).length = min height rows.length := by
  simp only [lastRows, List.length_drop]
  omega

/-- The open row is one of the last ones. -/
theorem caret_lastRows (h : 0 < height) (rows : List (List α)) (row : List α) :
    caret (lastRows height (rows ++ [row])) = (min (height - 1) rows.length, row.length) := by
  have hdrop : lastRows height (rows ++ [row]) = rows.drop (rows.length + 1 - height) ++ [row] := by
    rw [lastRows, List.length_append, List.length_singleton, List.drop_append_of_le_length (by omega)]
  rw [hdrop, caret]
  simp
  omega

theorem cellAt_lastRows_char (h : 0 < height) (rows : List (List α)) (row : List α) (c : α) (y x : Nat) :
    cellAt blank (lastRows height (rows ++ [row ++ [c]])) y x =
      if y = min (height - 1) rows.length ∧ x = row.length then c
      else cellAt blank (lastRows height (rows ++ [row])) y x := by
  simp only [cellAt_lastRows, cellAt_concat_char, List.length_append, List.length_singleton]
  refine if_congr (and_congr_left' ?_) rfl rfl
  omega

/-- A new row takes the first one of `height` rows out of sight. -/
theorem cellAt_lastRows_newRow (rows : List (List α)) (y x : Nat) :
    cellAt blank (lastRows height (rows ++ [[]])) y x =
      cellAt blank (lastRows height rows) (if rows.length < height then y else y + 1) x := by
  simp only [cellAt_lastRows, cellAt_concat_nil, List.length_append, List.length_singleton]
  by_cases h : rows.length < height
  · rw [if_pos h]
    congr 1
    omega
  · rw [if_neg h]
    congr 1
    omega

end UntitledOS.Lib
