import UntitledOS.Console.VirtualConsole
import UntitledOS.Lib.Run

/-! What drawing does, and when the cursor stays on the screen.

Whatever is printed, the cursor ends in one of the 25 rows and left of the 80th column, and
the line being edited is not touched. To the left there is no check: an erased character is
a step back within the row, and the first one of a row that wrapped takes the column below
zero. `cursor_on_screen`: behind a history of keys that erased within the row, a next step
keeps to the screen exactly if it does so too. -/
namespace UntitledOS.Console
open Lib

/-- A cell of the screen. -/
def Visible (index : Int) : Prop := 0 ≤ index ∧ index < 2000

/-- The line and the history, without the screen. -/
structure Editor where
  inputStr : List u8
  previousCommands : List (List u8)
  commandIndex : Int
  lookups : List (Int × Nat)

namespace VirtualConsole
variable {s : VirtualConsole}

/-- The cursor as an index of the buffer. -/
def cursor (s : VirtualConsole) : Int := s.row * VGA_WIDTH + s.column

/-- What drawing leaves alone. -/
def editor (s : VirtualConsole) : Editor := ⟨s.inputStr, s.previousCommands, s.commandIndex, s.lookups⟩

/-! ### Storing -/

theorem foldl_store {α : Type*} (index : α → Int) (v : VirtualConsole → α → u16) (ps : List α)
    (s : VirtualConsole) :
    ∃ m, ps.foldl (fun s p => s.store (index p) (v s p)) s =
      {s with vgaBuffer := m, stores := (ps.map index).reverse ++ s.stores} := by
  induction ps generalizing s with
  | nil => exact ⟨s.vgaBuffer, rfl⟩
  | cons p ps ih =>
    obtain ⟨m, hm⟩ := ih (s.store (index p) (v s p))
    exact ⟨m, by rw [List.foldl_cons, hm]; simp [store]⟩

theorem mem_stored {α : Type*} {index : α → Int} {ps : List α} {i : Int} (h : i ∈ (ps.map index).reverse) :
    ∃ p ∈ ps, index p = i :=
  List.mem_map.mp (List.mem_reverse.mp h)

theorem mem_cells {m n : Nat} {p : Nat × Nat} (h : p ∈ List.range m ×ˢ List.range n) : p.1 < m ∧ p.2 < n :=
  ⟨List.mem_range.mp (List.mem_product.mp h).1, List.mem_range.mp (List.mem_product.mp h).2⟩

theorem new_eq (video : Int → u16) :
    ∃ m st, new video = ⟨m, 0, 0, [], [], 0, st, [], [], 0⟩ ∧ ∀ i ∈ st, Visible i := by
  obtain ⟨m, hm⟩ := foldl_store (fun p : Nat × Nat => (p.1 : Int) + p.2 * VGA_WIDTH) (fun _ _ => blank)
    (List.range 80 ×ˢ List.range 25) ⟨video, 0, 0, [], [], 0, [], [], [], 0⟩
  refine ⟨_, _, hm, fun i hi => ?_⟩
  rw [List.append_nil] at hi
  obtain ⟨p, hp, rfl⟩ := mem_stored hi
  obtain ⟨hx, hy⟩ := mem_cells hp
  simp only [Visible, VGA_WIDTH]
  omega

theorem scroll_eq (s : VirtualConsole) :
    ∃ m st, scroll s = {s with vgaBuffer := m, stores := st ++ s.stores, scrolls := s.scrolls + 1} ∧
      ∀ i ∈ st, Visible i := by
  obtain ⟨m, hm⟩ := foldl_store (fun p : Nat × Nat => (p.1 : Int) * VGA_WIDTH + p.2)
    (fun s p => s.vgaBuffer (p.1 * VGA_WIDTH + p.2 + VGA_WIDTH)) (List.range 24 ×ˢ List.range 80) s
  obtain ⟨m', hm'⟩ := foldl_store (fun x : Nat => (VGA_HEIGHT - 1) * VGA_WIDTH + (x : Int)) (fun _ _ => blank)
    (List.range 80) {s with
      vgaBuffer := m
      stores := ((List.range 24 ×ˢ List.range 80).map
        fun p : Nat × Nat => (p.1 : Int) * VGA_WIDTH + p.2).reverse ++ s.stores}
  refine ⟨m', _ ++ _, by rw [scroll, hm, hm', List.append_assoc], fun i hi => ?_⟩
  rcases List.mem_append.mp hi with hi | hi
  · obtain ⟨x, hx, rfl⟩ := mem_stored hi
    have hx := List.mem_range.mp hx
    simp only [Visible, VGA_WIDTH, VGA_HEIGHT]
    omega
  · obtain ⟨p, hp, rfl⟩ := mem_stored hi
    obtain ⟨hy, hx⟩ := mem_cells hp
    simp only [Visible, VGA_WIDTH]
    omega

theorem scroll_row (s : VirtualConsole) : (scroll s).row = s.row := by
  obtain ⟨m, st, hscroll, -⟩ := scroll_eq s
  rw [hscroll]

theorem scroll_column (s : VirtualConsole) : (scroll s).column = s.column := by
  obtain ⟨m, st, hscroll, -⟩ := scroll_eq s
  rw [hscroll]

/-! ### One character -/

/-- The cursor in a row of the screen, and not right of it. -/
structure Rowed (s : VirtualConsole) : Prop where
  nonneg : 0 ≤ s.row
  row : s.row < 25
  column : s.column < 80

/-- The row below, wherever the column is then. -/
theorem scrollAtEnd_eq (h : 0 ≤ s.row) (hrow : s.row ≤ 25) :
    ∃ m r st n, scrollAtEnd s = {s with vgaBuffer := m, row := r, stores := st ++ s.stores, scrolls := n} ∧
      (0 ≤ r ∧ r < 25) ∧ (∀ i ∈ st, Visible i) ∧ s.scrolls ≤ n ∧
      (n = s.scrolls → m = s.vgaBuffer ∧ r = s.row) := by
  by_cases hend : s.row = 25
  · obtain ⟨m, st, hst, hvisible⟩ := scroll_eq {s with row := s.row - 1}
    refine ⟨m, s.row - 1, st, s.scrolls + 1, ?_, by omega, hvisible, by omega, by omega⟩
    exact (if_pos hend).trans hst
  · exact ⟨s.vgaBuffer, s.row, [], s.scrolls, if_neg hend, by omega, by simp, le_refl _, fun _ => ⟨rfl, rfl⟩⟩

def newLine (s : VirtualConsole) : VirtualConsole := scrollAtEnd {s with column := 0, row := s.row + 1}

theorem newLine_stay (h : s.row ≠ 24) : s.newLine = {s with column := 0, row := s.row + 1} := by
  have hstay : ¬s.row + 1 = VGA_HEIGHT := by
    rw [VGA_HEIGHT]
    omega
  rw [newLine, scrollAtEnd, if_neg hstay]

theorem newLine_scroll (h : s.row = 24) : s.newLine = scroll {s with column := 0} := by
  have hlast : s.row + 1 = VGA_HEIGHT := by rw [h, VGA_HEIGHT]; rfl
  rw [newLine, scrollAtEnd, if_pos hlast, add_sub_cancel_right]

theorem Rowed.newLine (hs : s.Rowed) :
    ∃ m r st n, s.newLine =
        {s with vgaBuffer := m, row := r, column := 0, stores := st ++ s.stores, scrolls := n} ∧
      (0 ≤ r ∧ r < 25) ∧ (∀ i ∈ st, Visible i) ∧ s.scrolls ≤ n ∧
      (n = s.scrolls → m = s.vgaBuffer ∧ r = s.row + 1) := by
  have hnonneg := hs.nonneg
  have hrow := hs.row
  exact scrollAtEnd_eq (s := {s with column := 0, row := s.row + 1}) (by simp; omega) (by simp; omega)

/-- What `putchar` does with the character itself. -/
def ink (c : u8) (s : VirtualConsole) : VirtualConsole :=
  if c = 0x0a then s else s.store s.cursor (cell c)

theorem putchar_eq (hs : s.Rowed) (c : u8) :
    s.putchar c = updateCursor (if c = 0x0a ∨ s.column = 79 then (s.ink c).newLine
      else {s.ink c with column := s.column + 1}) := by
  have hrow : ¬s.row = VGA_HEIGHT := Int.ne_of_lt hs.row
  by_cases hc : c = 0x0a
  · simp only [putchar, ink, newLine, if_pos hc, if_pos (Or.inl hc)]
  · by_cases h : s.column = 79
    · simp only [putchar, ink, newLine, hc, h, VGA_WIDTH, Int.reduceAdd, if_false, if_true, or_true, store, cursor]
    · have hwrap : ¬s.column + 1 = VGA_WIDTH := by
        rw [VGA_WIDTH]
        omega
      simp only [putchar, ink, scrollAtEnd, hc, h, hwrap, hrow, if_false, or_self, store, cursor]

theorem Rowed.cursor_visible (hs : s.Rowed) (h : 0 ≤ s.column) : Visible s.cursor := by
  have := hs.nonneg
  have := hs.row
  have := hs.column
  simp only [Visible, cursor, VGA_WIDTH]
  omega

/-- Everything that `putchar` can do. -/
theorem putchar_cases (hs : s.Rowed) (c : u8) :
    ∃ m r k st n, s.putchar c =
        {s with
          vgaBuffer := m
          row := r
          column := k
          stores := st ++ s.stores
          cursors := (k, r) :: s.cursors
          scrolls := n} ∧
      (0 ≤ r ∧ r < 25) ∧ (k = s.column + 1 ∨ k = 0) ∧ k < 80 ∧ (0 ≤ s.column → ∀ i ∈ st, Visible i) ∧
      s.scrolls ≤ n ∧ (n = s.scrolls → c ≠ 0x0a →
        m = Function.update s.vgaBuffer s.cursor (cell c) ∧ r * VGA_WIDTH + k = s.cursor + 1) := by
  have hcolumn := hs.column
  by_cases h : c = 0x0a ∨ s.column = 79
  · rw [putchar_eq hs, if_pos h]
    have hink : (s.ink c).Rowed := by
      rw [ink]
      split
      · exact hs
      · exact ⟨hs.nonneg, hs.row, hs.column⟩
    obtain ⟨m, r, st, n, heq, hr, hst, hn, hstay⟩ := hink.newLine
    rw [heq]
    by_cases hc : c = 0x0a
    · rw [ink, if_pos hc] at hn ⊢
      exact ⟨m, r, 0, st, n, rfl, hr, .inr rfl, by decide, fun _ => hst, hn, fun _ h => absurd hc h⟩
    · rw [ink, if_neg hc] at hn hstay ⊢
      refine ⟨m, r, 0, st ++ [s.cursor], n, by simp [store, updateCursor], hr, .inr rfl, by decide, ?_, hn, ?_⟩
      · intro hnonneg i hi
        rcases List.mem_append.mp hi with hi | hi
        · exact hst i hi
        · rw [List.mem_singleton.mp hi]
          exact hs.cursor_visible hnonneg
      · intro hsame _
        obtain ⟨rfl, rfl⟩ := hstay hsame
        have h79 := h.resolve_left hc
        refine ⟨rfl, ?_⟩
        simp only [store, cursor, VGA_WIDTH]
        omega
  · obtain ⟨hc, h79⟩ := not_or.mp h
    rw [putchar_eq hs, if_neg h, ink, if_neg hc]
    refine ⟨_, s.row, s.column + 1, [s.cursor], s.scrolls, rfl, ⟨hs.nonneg, hs.row⟩, .inl rfl, by omega, ?_,
      le_refl _, fun _ _ => ⟨rfl, ?_⟩⟩
    · intro hnonneg i hi
      rw [List.mem_singleton.mp hi]
      exact hs.cursor_visible hnonneg
    · rw [cursor, Int.add_assoc]

/-! ### Printing -/

/-- What holds between a state and one that more was drawn on. -/
structure Drawn (s t : VirtualConsole) : Prop where
  rowed : t.Rowed
  editor : t.editor = s.editor
  cursors : s.cursors ⊆ t.cursors
  scrolls : s.scrolls ≤ t.scrolls

theorem Rowed.drawn (hs : s.Rowed) : Drawn s s := ⟨hs, rfl, List.Subset.refl _, le_refl _⟩

theorem Drawn.trans {t u : VirtualConsole} (h : Drawn s t) (h' : Drawn t u) : Drawn s u :=
  ⟨h'.rowed, h'.editor.trans h.editor, List.Subset.trans h.cursors h'.cursors, le_trans h.scrolls h'.scrolls⟩

theorem Rowed.putchar (hs : s.Rowed) (c : u8) : Drawn s (s.putchar c) := by
  obtain ⟨m, r, k, st, n, heq, hr, -, hk, -, hn, -⟩ := putchar_cases hs c
  rw [heq]
  exact ⟨⟨hr.1, hr.2, hk⟩, rfl, List.subset_cons_self _ _, hn⟩

theorem Rowed.print (hs : s.Rowed) (cs : List u8) : Drawn s (s.print cs) := by
  induction cs generalizing s with
  | nil => exact hs.drawn
  | cons c cs ih =>
    have hput := hs.putchar c
    exact hput.trans (ih hput.rowed)

theorem Drawn.print {t : VirtualConsole} (h : Drawn s t) (cs : List u8) : Drawn s (t.print cs) :=
  h.trans (h.rowed.print cs)

/-! ### Erasing -/

theorem erase_eq (hs : s.Rowed) :
    s.erase = {s with
      vgaBuffer := Function.update s.vgaBuffer (s.cursor - 1) blank
      column := s.column - 1
      stores := (s.cursor - 1) :: s.stores
      cursors := (s.column, s.row) :: s.cursors} := by
  have hcolumn := hs.column
  have hback : Rowed {s with column := s.column - 1} := ⟨hs.nonneg, hs.row, by simp; omega⟩
  have hstay : ¬((0x20 : u8) = 0x0a ∨ s.column - 1 = 79) := by
    exact not_or.mpr ⟨by decide, by omega⟩
  have hcursor : cursor {s with column := s.column - 1} = s.cursor - 1 := by
    simp only [cursor, VGA_WIDTH]
    omega
  rw [erase, putchar_eq hback, if_neg hstay, ink, if_neg (by decide), store, hcursor]
  simp only [updateCursor, Int.sub_add_cancel]
  rfl

/-- The cells of the row left of the cursor are blank, as many as are erased. -/
theorem eraseMany_eq (hs : s.Rowed) (n : Nat) :
    ∃ m st cu, eraseMany n s =
        {s with
          vgaBuffer := m
          column := s.column - n
          stores := st ++ s.stores
          cursors := cu ++ s.cursors} ∧
      (∀ i ∈ st, s.cursor - n ≤ i ∧ i < s.cursor) ∧
      (∀ p ∈ cu, p.2 = s.row ∧ s.column - n < p.1 ∧ p.1 ≤ s.column) ∧
      ∀ i, m i = if s.cursor - n ≤ i ∧ i < s.cursor then blank else s.vgaBuffer i := by
  induction n generalizing s with
  | zero =>
    refine ⟨s.vgaBuffer, [], [], by simp [eraseMany], by simp, by simp, fun i => ?_⟩
    rw [if_neg (by omega)]
  | succ n ih =>
    have hcolumn := hs.column
    have hback : s.erase.Rowed := by
      rw [erase_eq hs]
      exact ⟨hs.nonneg, hs.row, by simp; omega⟩
    have hcursor : s.erase.cursor = s.cursor - 1 := by
      rw [erase_eq hs]
      simp only [cursor]
      omega
    obtain ⟨m, st, cu, heq, hst, hcu, hm⟩ := ih hback
    rw [hcursor] at hst hm
    rw [erase_eq hs] at heq hcu hm
    refine ⟨m, st ++ [s.cursor - 1], cu ++ [(s.column, s.row)], ?_, ?_, ?_, fun i => ?_⟩
    · rw [eraseMany, erase_eq hs, heq]
      simp [Int.sub_sub, Int.add_comm]
    · intro i hi
      rcases List.mem_append.mp hi with hi | hi
      · have := hst i hi
        omega
      · rw [List.mem_singleton.mp hi]
        omega
    · intro p hp
      rcases List.mem_append.mp hp with hp | hp
      · have hp' := hcu p hp
        simp only at hp'
        omega
      · rw [List.mem_singleton.mp hp]
        exact ⟨rfl, by simp, le_refl _⟩
    · have hcells : m i = if s.cursor - 1 - n ≤ i ∧ i < s.cursor - 1 then blank
          else Function.update s.vgaBuffer (s.cursor - 1) blank i := hm i
      rw [hcells]
      by_cases hi : i = s.cursor - 1
      · rw [if_neg (by omega), if_pos (by omega), hi, Function.update_self]
      · rw [Function.update_of_ne hi]
        exact if_congr (by omega) rfl rfl

/-! ### On the screen -/

structure InBounds (row column : Int) (stores : List Int) (cursors : List (Int × Int)) : Prop where
  row : 0 ≤ row ∧ row < 25
  column : 0 ≤ column ∧ column < 80
  stores : ∀ i ∈ stores, Visible i
  cursors : ∀ p ∈ cursors, (0 ≤ p.1 ∧ p.1 < 80) ∧ 0 ≤ p.2 ∧ p.2 < 25

/-- The cursor is on the screen, was there whenever the hardware was told, and whatever was
written was written there. -/
def OnScreen (s : VirtualConsole) : Prop := InBounds s.row s.column s.stores s.cursors

theorem InBounds.more {row column row' column' : Int} {stores : List Int} {cursors : List (Int × Int)}
    (st : List Int) (cu : List (Int × Int)) (h : InBounds row column stores cursors)
    (hrow : 0 ≤ row' ∧ row' < 25) (hcolumn : 0 ≤ column' ∧ column' < 80)
    (hst : ∀ i ∈ st, Visible i) (hcu : ∀ p ∈ cu, (0 ≤ p.1 ∧ p.1 < 80) ∧ 0 ≤ p.2 ∧ p.2 < 25) :
    InBounds row' column' (st ++ stores) (cu ++ cursors) :=
  ⟨hrow, hcolumn, fun i hi => (List.mem_append.mp hi).elim (hst i) (h.stores i),
    fun p hp => (List.mem_append.mp hp).elim (hcu p) (h.cursors p)⟩

theorem OnScreen.rowed (h : s.OnScreen) : s.Rowed := ⟨h.row.1, h.row.2, h.column.2⟩

theorem OnScreen.updateCursor (h : s.OnScreen) : s.updateCursor.OnScreen :=
  InBounds.more [] [(s.column, s.row)] h h.row h.column (by simp) (by simpa using ⟨h.column, h.row⟩)

theorem OnScreen.putchar (h : s.OnScreen) (c : u8) : (s.putchar c).OnScreen := by
  obtain ⟨m, r, k, st, n, heq, hr, hk, hk', hst, -⟩ := putchar_cases h.rowed c
  have hnonneg := h.column.1
  have hcolumn : 0 ≤ k ∧ k < 80 := ⟨by omega, hk'⟩
  rw [heq]
  exact InBounds.more st [(k, r)] h hr hcolumn (hst hnonneg) (by simpa using ⟨hcolumn, hr⟩)

theorem OnScreen.print (h : s.OnScreen) (cs : List u8) : (s.print cs).OnScreen := by
  induction cs generalizing s with
  | nil => exact h
  | cons c cs ih => exact ih (h.putchar c)

/-- A new command is a prompt at the start of the row below. -/
theorem Rowed.newCommand (hs : s.Rowed) :
    ∃ u : VirtualConsole, s.newCommand = VirtualConsole.updateCursor (u.print (ascii ['>', ' '])) ∧ u.Rowed ∧
      u.column = 0 ∧ u.editor = {s.editor with inputStr := []} ∧ (s.OnScreen → u.OnScreen) := by
  have hnonneg := hs.nonneg
  have hrow := hs.row
  obtain ⟨m, r, st, n, heq, hr, hst, -⟩ := scrollAtEnd_eq (s := {s with inputStr := [], row := s.row + 1})
    (by simp; omega) (by simp; omega)
  refine ⟨_, by rw [VirtualConsole.newCommand, heq], ⟨hr.1, hr.2, by simp⟩, rfl, rfl, fun h => ?_⟩
  exact InBounds.more st [] h hr ⟨le_refl 0, by simp⟩ hst (by simp)

theorem OnScreen.newCommand (h : s.OnScreen) : s.newCommand.OnScreen := by
  obtain ⟨u, heq, -, -, -, hu⟩ := h.rowed.newCommand
  rw [heq]
  exact OnScreen.updateCursor ((hu h).print _)

/-- Characters are erased on the screen as far as the row goes. -/
theorem OnScreen.eraseMany (h : s.OnScreen) {n : Nat} (hn : n ≤ s.column) : (s.eraseMany n).OnScreen := by
  obtain ⟨m, st, cu, heq, hst, hcu, -⟩ := eraseMany_eq h.rowed n
  have hrow := h.row
  have hcolumn := h.column
  rw [heq]
  refine InBounds.more st cu h hrow (by simp; omega) (fun i hi => ?_) (fun p hp => ?_)
  · have := hst i hi
    simp only [cursor, VGA_WIDTH] at this
    simp only [Visible]
    omega
  · have := hcu p hp
    omega

theorem Rowed.clearCommand (hs : s.Rowed) :
    (s.column - s.inputStr.length, s.row) ∈ s.clearCommand.cursors ∧ s.clearCommand.Rowed := by
  obtain ⟨m, st, cu, heq, -⟩ := eraseMany_eq hs s.inputStr.length
  have hcolumn := hs.column
  rw [VirtualConsole.clearCommand, heq]
  exact ⟨List.mem_cons_self .., hs.nonneg, hs.row, by simp [VirtualConsole.updateCursor]; omega⟩

theorem OnScreen.clearCommand (h : s.OnScreen) (hn : s.inputStr.length ≤ s.column) : s.clearCommand.OnScreen :=
  OnScreen.updateCursor (h.eraseMany hn)

/-- A line longer than its row reaches to the left is not cleared on the screen. -/
theorem OnScreen.of_cleared {t : VirtualConsole} (h : s.OnScreen) (ht : t.OnScreen)
    (hdrawn : s.clearCommand.cursors ⊆ t.cursors) : s.inputStr.length ≤ s.column := by
  have hcleared := (ht.cursors _ (hdrawn h.rowed.clearCommand.1)).1.1
  exact Int.sub_nonneg.mp hcleared

theorem takeCommand_onScreen (h : s.OnScreen) (a : Surroundings) (index : Int) :
    (s.takeCommand a index).OnScreen ↔ s.inputStr.length ≤ s.column := by
  constructor
  · intro ht
    have hrowed : (s.replaceCommand a index).Rowed :=
      ⟨h.rowed.clearCommand.2.nonneg, h.rowed.clearCommand.2.row, h.rowed.clearCommand.2.column⟩
    exact h.of_cleared ht (hrowed.print _).cursors
  · intro hn
    have hcleared : (s.replaceCommand a index).OnScreen := h.clearCommand hn
    exact hcleared.print _

theorem OnScreen.answer (h : s.OnScreen) (a : Surroundings) (wholeCommand : List u8) (split : List (List u8)) :
    (s.answer a wholeCommand split).OnScreen := by
  rw [VirtualConsole.answer]
  split
  · exact (h.putchar _).print _
  · exact ((h.putchar _).print _).print _

theorem OnScreen.runCommand {t : VirtualConsole} (h : s.OnScreen) {a : Surroundings} {wholeCommand : List u8}
    (ht : s.runCommand a wholeCommand = some t) : t.OnScreen := by
  rw [VirtualConsole.runCommand] at ht
  split at ht
  · split at ht
    · obtain rfl := Option.some.inj ht
      have hpushed : OnScreen {s with
          previousCommands := s.previousCommands ++ [wholeCommand]
          commandIndex := s.previousCommands.length + 1} := h
      exact hpushed.answer a _ _
    · cases ht
  · obtain rfl := Option.some.inj ht
    exact h

/-- The characters that a key erases. -/
def erased (s : VirtualConsole) : Key → Nat
  | .backspace => if s.inputStr.length > 0 then 1 else 0
  | .up => if s.commandIndex > 0 then s.inputStr.length else 0
  | .down => if s.below then s.inputStr.length else 0
  | .escape => s.inputStr.length
  | .enter => 0
  | .ignored => 0
  | .char _ => 0

/-- A key keeps to the screen exactly if it erases within the row. -/
theorem press_onScreen {t : VirtualConsole} (h : s.OnScreen) {a : Surroundings} {key : Key}
    (ht : s.press a key = some t) : t.OnScreen ↔ s.erased key ≤ s.column := by
  have hnonneg := h.column.1
  have hkept : ∀ {u : VirtualConsole}, u.OnScreen → (u.OnScreen ↔ ((0 : Nat) : Int) ≤ s.column) :=
    fun hu => iff_of_true hu hnonneg
  cases key with
  | backspace =>
    have hline : OnScreen {s with inputStr := s.inputStr.dropLast} := h
    obtain rfl := Option.some.inj ht
    rw [erased]
    split
    · constructor
      · intro ht
        have hback := ht.column.1
        rw [erase_eq hline.rowed] at hback
        exact Int.sub_nonneg.mp hback
      · intro hn
        exact OnScreen.updateCursor (hline.eraseMany hn)
    · exact hkept h
  | enter =>
    obtain ⟨u, hu, rfl⟩ := Option.map_eq_some_iff.mp ht
    exact hkept (h.runCommand hu).newCommand
  | up =>
    obtain rfl := Option.some.inj ht
    rw [erased]
    split
    · exact takeCommand_onScreen h a _
    · exact hkept h
  | down =>
    obtain rfl := Option.some.inj ht
    rw [erased]
    split
    · exact takeCommand_onScreen h a _
    · exact hkept h
  | escape =>
    obtain rfl := Option.some.inj ht
    constructor
    · exact fun ht => h.of_cleared ht (List.Subset.refl _)
    · exact fun hn => h.clearCommand hn
  | ignored =>
    obtain rfl := Option.some.inj ht
    exact hkept h
  | char c =>
    have hline : OnScreen {s with inputStr := s.inputStr ++ [c]} := h
    obtain rfl := Option.some.inj ht
    exact hkept (hline.putchar c)

end VirtualConsole

/-! ### Runs -/

/-- Nothing to answer, and nothing out of range. -/
def silent : Surroundings := ⟨[], fun _ => []⟩

namespace System
variable {s t : System}

theorem step_key {raw : u8} {a : Surroundings} (ht : s.step (.irq raw a) = some t) :
    t.keyboard = s.keyboard.handleIRQ raw ∧ match s.key (.irq raw a) with
      | some key => s.console.press a key = some t.console
      | none => t.console = s.console := by
  obtain ⟨console, hconsole, rfl⟩ := Option.map_eq_some_iff.mp ht
  refine ⟨rfl, ?_⟩
  rw [VirtualConsole.keyStateChanged] at hconsole
  rw [key]
  split at hconsole <;> rename_i hpressed
  · rw [if_pos (of_decide_eq_true hpressed)]
    exact hconsole
  · rw [if_neg fun h => hpressed (decide_eq_true h)]
    exact (Option.some.inj hconsole).symm

/-- The characters that an event erases. -/
def erased (s : System) (e : Event) : Nat := ((s.key e).map s.console.erased).getD 0

/-- An event that erases within the row of the cursor. -/
def Erases (s : System) (e : Event) : Prop := s.erased e ≤ s.console.column

instance (s : System) (e : Event) : Decidable (s.Erases e) := inferInstanceAs (Decidable (_ ≤ _))

theorem step_onScreen (h : s.console.OnScreen) {e : Event} (ht : s.step e = some t) :
    t.console.OnScreen ↔ s.Erases e := by
  have hkept : t.console.OnScreen → (t.console.OnScreen ↔ ((0 : Nat) : Int) ≤ s.console.column) :=
    fun ht => iff_of_true ht h.column.1
  cases e with
  | irq raw a =>
    obtain ⟨-, hkey⟩ := step_key ht
    rw [Erases, erased]
    cases hk : s.key (.irq raw a) with
    | none =>
      rw [hk] at hkey
      exact hkept (hkey ▸ h)
    | some key =>
      rw [hk] at hkey
      exact VirtualConsole.press_onScreen h hkey
  | putchar c =>
    obtain rfl := Option.some.inj ht
    exact hkept (h.putchar c)
  | newCommand =>
    obtain rfl := Option.some.inj ht
    exact hkept h.newCommand

/-- **The cursor stays on the screen exactly as long as keys erase within its row.** -/
theorem cursor_on_screen (k : KeyboardDevice) (video : Int → u16) {es : List Event}
    (hrun : Run step Erases (boot k video) es s) :
    s.console.OnScreen ∧ ∀ e t, s.step e = some t → (t.console.OnScreen ↔ s.Erases e) := by
  have hboot : (boot k video).console.OnScreen := by
    obtain ⟨m, st, heq, hst⟩ := VirtualConsole.new_eq video
    rw [boot, heq]
    exact ⟨by simp, by simp, hst, by simp⟩
  have h := hrun.invariant (·.console.OnScreen) (fun _ _ _ h hrule ht => (step_onScreen h ht).mpr hrule) hboot
  exact ⟨h, fun e t => step_onScreen h⟩

/-- A character typed and erased, and another one to erase then. -/
theorem cursor_on_screen_typed :
    ∃ s, follow step Erases (boot ⟨false, false⟩ fun _ => 0)
        [.newCommand, .irq 0x1E silent, .irq 0x9E silent, .irq 0x0E silent, .irq 0x1E silent] = some s ∧
      s.console.OnScreen ∧ ∀ t, s.step (.irq 0x0E silent) = some t → t.console.OnScreen := by
  have hfollow : (follow step Erases (boot ⟨false, false⟩ fun _ => 0)
      [.newCommand, .irq 0x1E silent, .irq 0x9E silent, .irq 0x0E silent, .irq 0x1E silent]).map
        (fun s => decide (s.Erases (.irq 0x0E silent))) = some true := by
    decide +kernel
  obtain ⟨s, hs, herases⟩ := Option.map_eq_some_iff.mp hfollow
  obtain ⟨h, hstep⟩ := cursor_on_screen _ _ (run_iff_follow.mpr hs)
  exact ⟨s, hs, h, fun t ht => (hstep _ t ht).mpr (of_decide_eq_true herases)⟩

/-- A line fills the first row, and its last character is erased. -/
theorem wrapped_line_erased :
    ∃ s, Run step (fun _ _ => True) (boot ⟨false, false⟩ fun _ => 0)
        (.newCommand :: List.replicate 78 (.irq 0x1E silent) ++ [.irq 0x0E silent]) s ∧
      s.console.row = 2 ∧ s.console.column = -1 ∧ ¬s.console.OnScreen := by
  have hfollow : (follow step (fun _ _ => True) (boot ⟨false, false⟩ fun _ => 0)
      (.newCommand :: List.replicate 78 (.irq 0x1E silent) ++ [.irq 0x0E silent])).map
        (fun s => (s.console.row, s.console.column)) = some (2, -1) := by
    decide +kernel
  obtain ⟨s, hs, hcursor⟩ := Option.map_eq_some_iff.mp hfollow
  obtain ⟨hrow, hcolumn⟩ := Prod.mk.inj hcursor
  refine ⟨s, run_iff_follow.mpr hs, hrow, hcolumn, fun h => ?_⟩
  have := h.column.1
  rw [hcolumn] at this
  omega

end System

end UntitledOS.Console
