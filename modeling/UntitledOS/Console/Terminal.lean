import UntitledOS.Console.Window
import UntitledOS.Lib.Move

/-! The first text console, `tty.cpp`, beside `VirtualConsole`.

`terminalBuffer` is video memory by index, and `ports` is what was sent to which port, last
one last. The two consoles do the same to a newline and to a character that does not fill
its row. One that does puts `VirtualConsole` in the row below, while the terminal goes back
to the start of the row it is in (`agree_step`). -/
namespace UntitledOS.Console
open Lib

def VGA_COLOR_BLACK : u8 := 0x00
def VGA_COLOR_WHITE : u8 := 0x0F

/-- `(bg < 4) | fg`, a comparison. -/
def vgaEntryColor (fg bg : u8) : u8 := (if bg < 4 then 1 else 0) ||| fg

def vgaEntry (uc color : u8) : u16 := uc.setWidth 16 ||| color.setWidth 16 <<< 8

structure Terminal where
  terminalRow : Nat
  terminalColumn : Nat
  terminalColor : u8
  terminalBuffer : Nat → u16
  ports : List (u16 × u8)

namespace Terminal

def VGA_WIDTH : Nat := 80
def VGA_HEIGHT : Nat := 25

def update_cursor (x y : Nat) (t : Terminal) : Terminal :=
  let pos : u16 := BitVec.ofNat 16 (y * VGA_WIDTH + x)
  let sent : List (u16 × u8) := [
    (0x3D4, 0x0F), (0x3D5, (pos &&& 0xFF).setWidth 8),
    (0x3D4, 0x0E), (0x3D5, ((pos >>> 8) &&& 0xFF).setWidth 8)]
  {t with ports := t.ports ++ sent}

def terminalInitialize (t : Terminal) : Terminal :=
  let color := vgaEntryColor VGA_COLOR_WHITE VGA_COLOR_BLACK
  {t with
    terminalRow := 0
    terminalColumn := 0
    terminalColor := color
    terminalBuffer := (List.range VGA_HEIGHT ×ˢ List.range VGA_WIDTH).foldl
      (fun (b : Nat → u16) p => Function.update b (p.1 * VGA_WIDTH + p.2) (vgaEntry 0x20 color)) t.terminalBuffer}

def terminalPutEntryAt (c color : u8) (x y : Nat) (t : Terminal) : Terminal :=
  {t with terminalBuffer := Function.update t.terminalBuffer (y * VGA_WIDTH + x) (vgaEntry c color)}

def terminalScroll (t : Terminal) : Terminal :=
  let b := (List.range (VGA_HEIGHT - 1) ×ˢ List.range VGA_WIDTH).foldl (fun (b : Nat → u16) p =>
    Function.update b (p.1 * VGA_WIDTH + p.2) (b (p.1 * VGA_WIDTH + p.2 + VGA_WIDTH))) t.terminalBuffer
  {t with terminalBuffer := (List.range VGA_WIDTH).foldl (fun (b : Nat → u16) x =>
    Function.update b ((VGA_HEIGHT - 1) * VGA_WIDTH + x) (vgaEntry 0x20 t.terminalColor)) b}

/-- `if(terminalRow == VGA_HEIGHT) { terminalRow--; terminalScroll(); }`. -/
def scrollAtEnd (t : Terminal) : Terminal :=
  if t.terminalRow = VGA_HEIGHT then terminalScroll {t with terminalRow := t.terminalRow - 1} else t

/-- The row stays when the column goes back to the start. -/
def terminalPutChar (c : u8) (t : Terminal) : Terminal :=
  let t := scrollAtEnd <|
    if c = 0x0a then {t with terminalColumn := 0, terminalRow := t.terminalRow + 1}
    else
      let t := t.terminalPutEntryAt c t.terminalColor t.terminalColumn t.terminalRow
      if t.terminalColumn + 1 = VGA_WIDTH then {t with terminalColumn := 0}
      else {t with terminalColumn := t.terminalColumn + 1}
  t.update_cursor t.terminalColumn t.terminalRow

def terminalWrite (data : List u8) (t : Terminal) : Terminal := data.foldl (fun t c => t.terminalPutChar c) t

/-! ### Cells -/

variable {t : Terminal}

theorem grid : Grid (fun y x : Nat => y * VGA_WIDTH + x) (24 + 1) VGA_WIDTH := by
  intro y x y' x' _ hx _ hx' heq
  simp only [VGA_WIDTH] at hx hx' heq
  omega

theorem terminalScroll_cells (t : Terminal) {y x : Nat} (hy : y < 25) (hx : x < 80) :
    t.terminalScroll.terminalBuffer (y * VGA_WIDTH + x) =
      if y < 24 then t.terminalBuffer ((y + 1) * VGA_WIDTH + x) else vgaEntry 0x20 t.terminalColor := by
  have hbelow (p : Nat × Nat) : p.1 * VGA_WIDTH + p.2 + VGA_WIDTH = (p.1 + 1) * VGA_WIDTH + p.2 := by
    simp only [VGA_WIDTH]
    omega
  simp only [terminalScroll, hbelow]
  exact scroll_grid grid (vgaEntry 0x20 t.terminalColor) t.terminalBuffer hy hx

theorem vgaEntry_blank : vgaEntry 0x20 (vgaEntryColor VGA_COLOR_WHITE VGA_COLOR_BLACK) = blank := by decide

theorem terminalInitialize_cells (t : Terminal) {y x : Nat} (hy : y < 25) (hx : x < 80) :
    t.terminalInitialize.terminalBuffer (y * VGA_WIDTH + x) = blank := by
  have hmem : y * VGA_WIDTH + x ∈
      (List.range VGA_HEIGHT ×ˢ List.range VGA_WIDTH).map fun p : Nat × Nat => p.1 * VGA_WIDTH + p.2 :=
    List.mem_map_of_mem (a := (y, x)) (List.mem_product.mpr ⟨List.mem_range.mpr hy, List.mem_range.mpr hx⟩)
  simp only [terminalInitialize, vgaEntry_blank]
  exact (fill_apply blank t.terminalBuffer _ _).trans (if_pos hmem)

/-! ### One character -/

def newLine (t : Terminal) : Terminal := scrollAtEnd {t with terminalColumn := 0, terminalRow := t.terminalRow + 1}

theorem newLine_stay (h : t.terminalRow ≠ 24) :
    t.newLine = {t with terminalColumn := 0, terminalRow := t.terminalRow + 1} := by
  have hstay : ¬t.terminalRow + 1 = VGA_HEIGHT := by
    rw [VGA_HEIGHT]
    omega
  rw [newLine, scrollAtEnd, if_neg hstay]

theorem newLine_scroll (h : t.terminalRow = 24) : t.newLine = terminalScroll {t with terminalColumn := 0} := by
  have hlast : t.terminalRow + 1 = VGA_HEIGHT := by rw [h, VGA_HEIGHT]
  rw [newLine, scrollAtEnd, if_pos hlast, Nat.add_sub_cancel]

/-- The character itself. -/
def ink (c : u8) (t : Terminal) : Terminal :=
  t.terminalPutEntryAt c t.terminalColor t.terminalColumn t.terminalRow

def tellCursor (t : Terminal) : Terminal := t.update_cursor t.terminalColumn t.terminalRow

theorem terminalPutChar_eq (h : t.terminalRow < 25) (c : u8) :
    t.terminalPutChar c = tellCursor (if c = 0x0a then t.newLine
      else {t.ink c with terminalColumn := if t.terminalColumn = 79 then 0 else t.terminalColumn + 1}) := by
  have hstay (k : Nat) : scrollAtEnd {t.ink c with terminalColumn := k} = {t.ink c with terminalColumn := k} :=
    if_neg (Nat.ne_of_lt h)
  have hput : t.terminalPutChar c = tellCursor (scrollAtEnd (
      if c = 0x0a then {t with terminalColumn := 0, terminalRow := t.terminalRow + 1}
      else if t.terminalColumn + 1 = VGA_WIDTH then {t.ink c with terminalColumn := 0}
      else {t.ink c with terminalColumn := t.terminalColumn + 1})) := rfl
  rw [hput]
  by_cases hc : c = 0x0a
  · rw [if_pos hc, if_pos hc]
    rfl
  · rw [if_neg hc, if_neg hc]
    by_cases hcolumn : t.terminalColumn = 79
    · rw [if_pos hcolumn, if_pos (by rw [hcolumn, VGA_WIDTH]), hstay]
    · have hroom : ¬t.terminalColumn + 1 = VGA_WIDTH := by
        rw [VGA_WIDTH]
        omega
      rw [if_neg hcolumn, if_neg hroom, hstay]

end Terminal

/-! ### Both consoles -/

/-- The same cells, and the cursor at the same one. -/
structure Agree (t : Terminal) (s : VirtualConsole) : Prop where
  cells : ∀ y x : Nat, y < 25 → x < 80 →
    t.terminalBuffer (y * Terminal.VGA_WIDTH + x) = s.vgaBuffer (y * VGA_WIDTH + x)
  row : (t.terminalRow : Int) = s.row
  column : (t.terminalColumn : Int) = s.column

section Step
variable {t : Terminal} {s : VirtualConsole} {c : u8}

theorem vgaEntry_eq (hc : c < 0x80) : vgaEntry c 0x0F = cell c := by
  revert c
  decide +kernel

theorem agree_cursor : Agree t.tellCursor s.updateCursor ↔ Agree t s :=
  ⟨fun h => ⟨h.cells, h.row, h.column⟩, fun h => ⟨h.cells, h.row, h.column⟩⟩

theorem Agree.newLine (h : Agree t s) (hcolor : t.terminalColor = 0x0F) : Agree t.newLine s.newLine := by
  have hr := h.row
  by_cases hend : t.terminalRow = 24
  · rw [Terminal.newLine_scroll hend, VirtualConsole.newLine_scroll (by omega)]
    refine ⟨fun y x hy hx => ?_, ?_, ?_⟩
    · rw [Terminal.terminalScroll_cells _ hy hx, VirtualConsole.scroll_cells _ hy hx]
      by_cases hlast : y < 24
      · rw [if_pos hlast, if_pos hlast]
        exact h.cells (y + 1) x (by omega) hx
      · rw [if_neg hlast, if_neg hlast, hcolor]
        exact vgaEntry_eq (by decide)
    · rw [VirtualConsole.scroll_row]
      exact hr
    · rw [VirtualConsole.scroll_column]
      rfl
  · rw [Terminal.newLine_stay hend, VirtualConsole.newLine_stay (by omega)]
    exact ⟨h.cells, by simp [hr], rfl⟩

/-- The character in its cell, before the cursor moves. -/
theorem Agree.ink (h : Agree t s) (hs : s.Rowed) (hcolor : t.terminalColor = 0x0F) (hc : c < 0x80) :
    Agree (t.ink c) (s.store s.cursor (cell c)) := by
  obtain ⟨hcells, hrow, hcolumn⟩ := h
  have hcolumn' := hs.column
  refine ⟨fun y x hy hx => ?_, hrow, hcolumn⟩
  have hvga : (y * VGA_WIDTH + x : Int) = s.cursor ↔ y = t.terminalRow ∧ x = t.terminalColumn := by
    simp only [VirtualConsole.cursor, VGA_WIDTH]
    omega
  have htty : y * Terminal.VGA_WIDTH + x = t.terminalRow * Terminal.VGA_WIDTH + t.terminalColumn ↔
      y = t.terminalRow ∧ x = t.terminalColumn := by
    simp only [Terminal.VGA_WIDTH]
    omega
  have hentry : (t.ink c).terminalBuffer = Function.update t.terminalBuffer
      (t.terminalRow * Terminal.VGA_WIDTH + t.terminalColumn) (cell c) := by
    rw [← vgaEntry_eq hc, ← hcolor]
    rfl
  rw [hentry]
  by_cases hcell : y = t.terminalRow ∧ x = t.terminalColumn
  · rw [hvga.mpr hcell, htty.mpr hcell, VirtualConsole.store_at, Function.update_self]
  · rw [VirtualConsole.store_other fun heq => hcell (hvga.mp heq), Function.update_of_ne fun heq => hcell (htty.mp heq)]
    exact hcells y x hy hx

end Step

/-- What is moved up one place, what comes in being `a`, and stays as it was. -/
theorem eq_of_shifted {α : Type*} {f : Nat → α} {n : Nat} {a : α}
    (h : ∀ y < n + 1, f y = if y < n then f (y + 1) else a) : ∀ y < n + 1, f y = a := by
  have hback : ∀ k y, y + k = n → f y = a := by
    intro k
    induction k with
    | zero =>
      intro y hy
      rw [h y (by omega), if_neg (by omega)]
    | succ k ih =>
      intro y hy
      rw [h y (by omega), if_pos (by omega)]
      exact ih (y + 1) (by omega)
  exact fun y hy => hback (n - y) y (by omega)

/-- A character that both consoles do the same to: one that does not fill its row, or a
space that fills the last row of a blank screen. -/
def Alike (s : VirtualConsole) (c : u8) : Prop :=
  c = 0x0a ∨ s.column < 79 ∨
    s.row = 24 ∧ c = 0x20 ∧
      ∀ y x : Nat, y < 25 → x < 80 → ¬(y = 24 ∧ x = 79) → s.vgaBuffer (y * VGA_WIDTH + x) = blank

section Step
variable {t : Terminal} {s : VirtualConsole} {c : u8}

/-- A new row on one console only is noticed, unless a blank screen scrolls. -/
theorem agree_newLine_iff (h : Agree t s) :
    Agree {t with terminalColumn := 0} s.newLine ↔
      s.row = 24 ∧ ∀ y x : Nat, y < 25 → x < 80 → s.vgaBuffer (y * VGA_WIDTH + x) = blank := by
  have hrow := h.row
  by_cases hend : s.row = 24
  · rw [VirtualConsole.newLine_scroll hend]
    constructor
    · refine fun hagree => ⟨hend, fun y x hy hx => ?_⟩
      refine eq_of_shifted (f := fun y : Nat => s.vgaBuffer (y * VGA_WIDTH + x)) (n := 24) (fun y hy => ?_) y hy
      have hcell := hagree.cells y x hy hx
      rw [VirtualConsole.scroll_cells _ hy hx] at hcell
      exact (h.cells y x hy hx).symm.trans hcell
    · intro h'
      have hblank := h'.2
      refine ⟨fun y x hy hx => ?_, ?_, ?_⟩
      · have hcell := (h.cells y x hy hx).trans (hblank y x hy hx)
        rw [VirtualConsole.scroll_cells _ hy hx, hcell]
        split
        · exact (hblank (y + 1) x (by omega) hx).symm
        · rfl
      · rw [VirtualConsole.scroll_row]
        exact hrow
      · rw [VirtualConsole.scroll_column]
        rfl
  · rw [VirtualConsole.newLine_stay hend]
    refine iff_of_false (fun hagree => ?_) fun hblank => hend hblank.1
    have hsame := hagree.row
    simp only at hsame
    omega

/-- The last cell of the last row takes the character. -/
theorem stored_blank_iff (hrow : s.row = 24) (hcolumn : s.column = 79) :
    (∀ y x : Nat, y < 25 → x < 80 → (s.store s.cursor (cell c)).vgaBuffer (y * VGA_WIDTH + x) = blank) ↔
      c = 0x20 ∧ ∀ y x : Nat, y < 25 → x < 80 → ¬(y = 24 ∧ x = 79) → s.vgaBuffer (y * VGA_WIDTH + x) = blank := by
  have hcursor (y x : Nat) (hx : x < 80) : (y * VGA_WIDTH + x : Int) = s.cursor ↔ y = 24 ∧ x = 79 := by
    simp only [VirtualConsole.cursor, VGA_WIDTH]
    omega
  constructor
  · intro hblank
    have hlast := hblank 24 79 (by decide) (by decide)
    rw [(hcursor 24 79 (by decide)).mpr ⟨rfl, rfl⟩, VirtualConsole.store_at] at hlast
    refine ⟨?_, fun y x hy hx hother => ?_⟩
    · rw [← character_cell c, hlast, blank, character_cell]
    · rw [← hblank y x hy hx, VirtualConsole.store_other fun heq => hother ((hcursor y x hx).mp heq)]
  · intro h y x hy hx
    obtain ⟨hspace, hothers⟩ := h
    by_cases hlast : y = 24 ∧ x = 79
    · rw [(hcursor y x hx).mpr hlast, VirtualConsole.store_at, hspace, blank]
    · rw [VirtualConsole.store_other fun heq => hlast ((hcursor y x hx).mp heq)]
      exact hothers y x hy hx hlast

theorem agree_step (h : Agree t s) (hs : s.Rowed) (hcolor : t.terminalColor = 0x0F) (hc : c < 0x80) :
    Agree (t.terminalPutChar c) (s.putchar c) ↔ Alike s c := by
  have hr := h.row
  have hcolumn := h.column
  have hbelow := hs.row
  rw [Terminal.terminalPutChar_eq (by omega), VirtualConsole.putchar_eq hs, agree_cursor]
  by_cases hnewline : c = 0x0a
  · rw [if_pos hnewline, if_pos (Or.inl hnewline), VirtualConsole.ink, if_pos hnewline]
    exact iff_of_true (h.newLine hcolor) (Or.inl hnewline)
  · have hink := h.ink hs hcolor hc
    rw [if_neg hnewline, VirtualConsole.ink, if_neg hnewline]
    by_cases hfull : s.column = 79
    · rw [if_pos (Or.inr hfull), if_pos (by omega), agree_newLine_iff hink, Alike]
      have hrow : (s.store s.cursor (cell c)).row = s.row := rfl
      rw [hrow, or_iff_right hnewline, or_iff_right (by omega)]
      exact and_congr_right fun hrow => stored_blank_iff hrow hfull
    · have hroom : s.column < 79 := by
        have := hs.column
        omega
      rw [if_neg (not_or.mpr ⟨hnewline, hfull⟩), if_neg (by omega)]
      exact iff_of_true ⟨hink.cells, hink.row, by simp [hcolumn]⟩ (Or.inr (Or.inl hroom))

end Step

/-! ### Runs -/

/-- A character printed on both. -/
def both (z : Terminal × VirtualConsole) (c : u8) : Terminal × VirtualConsole := (z.1.terminalPutChar c, z.2.putchar c)

theorem foldl_both (cs : List u8) (z : Terminal × VirtualConsole) :
    cs.foldl both z = (z.1.terminalWrite cs, z.2.print cs) := by
  induction cs generalizing z with
  | nil => rfl
  | cons c cs ih => exact ih (both z c)

theorem terminalPutChar_color (t : Terminal) (c : u8) : (t.terminalPutChar c).terminalColor = t.terminalColor := by
  have hscroll (t : Terminal) : t.scrollAtEnd.terminalColor = t.terminalColor := by
    rw [Terminal.scrollAtEnd]
    split <;> rfl
  rw [Terminal.terminalPutChar]
  simp only [Terminal.update_cursor, hscroll]
  split_ifs <;> rfl

theorem terminalWrite_color (cs : List u8) (t : Terminal) : (t.terminalWrite cs).terminalColor = t.terminalColor := by
  induction cs generalizing t with
  | nil => rfl
  | cons c cs ih => exact (ih (t.terminalPutChar c)).trans (terminalPutChar_color t c)

/-- What two consoles in step keep. -/
structure InStep (z : Terminal × VirtualConsole) : Prop where
  agree : Agree z.1 z.2
  rowed : z.2.Rowed
  color : z.1.terminalColor = 0x0F

theorem inStep_both {z : Terminal × VirtualConsole} (h : InStep z) {c : u8} (hc : c < 0x80) :
    InStep (both z c) ↔ Alike z.2 c := by
  rw [← agree_step h.agree h.rowed h.color hc]
  exact ⟨fun h => h.agree, fun hagree =>
    ⟨hagree, (h.rowed.putchar c).rowed, (terminalPutChar_color z.1 c).trans h.color⟩⟩

/-- **From a blank screen, the consoles agree all the way exactly as long as every character
is alike for both.** -/
theorem consoles_agree_iff (t : Terminal) {s : VirtualConsole}
    (hblank : ∀ y x : Nat, y < 25 → x < 80 → s.vgaBuffer (y * VGA_WIDTH + x) = blank) (hrow : s.row = 0)
    (hcolumn : s.column = 0) {cs : List u8} (hcs : ∀ c ∈ cs, c < 0x80) :
    (∀ p, p <+: cs → Agree (t.terminalInitialize.terminalWrite p) (s.print p)) ↔
      ∃ z, Run (fun z c => some (both z c)) (fun z c => Alike z.2 c) (t.terminalInitialize, s) cs z := by
  have hagree : Agree t.terminalInitialize s :=
    ⟨fun y x hy hx => (t.terminalInitialize_cells hy hx).trans (hblank y x hy hx).symm, hrow.symm, hcolumn.symm⟩
  have hrowed : s.Rowed := ⟨hrow.ge, by omega, by omega⟩
  have hcolor : t.terminalInitialize.terminalColor = 0x0F := by
    simp only [Terminal.terminalInitialize]
    decide
  have hstep (z : Terminal × VirtualConsole) (c : u8) (hc : c ∈ cs) (h : InStep z) :
      InStep (both z c) ↔ Alike z.2 c := inStep_both h (hcs c hc)
  rw [run_iff_prefixes hstep ⟨hagree, hrowed, hcolor⟩]
  refine forall₂_congr fun p _ => ?_
  rw [foldl_both]
  exact ⟨fun hp => ⟨hp, (hrowed.print p).rowed, (terminalWrite_color p _).trans hcolor⟩, fun hp => hp.agree⟩

/-- A line of two characters. -/
theorem consoles_agree_line :
    Agree ((Terminal.mk 0 0 0 (fun _ => 0) []).terminalInitialize.terminalWrite [0x6f, 0x6b, 0x0a])
      ((VirtualConsole.new fun _ => 0).print [0x6f, 0x6b, 0x0a]) := by
  have hblank : ∀ y x : Nat, y < 25 → x < 80 →
      (VirtualConsole.new fun _ => 0).vgaBuffer (y * VGA_WIDTH + x) = blank := by
    intro y x hy hx
    refine VirtualConsole.new_cells _ ⟨?_, ?_⟩
    · simp only [VGA_WIDTH]
      omega
    · simp only [VGA_WIDTH]
      omega
  have hrow : (VirtualConsole.new fun _ => 0).row = 0 := by decide +kernel
  have hcolumn : (VirtualConsole.new fun _ => 0).column = 0 := by decide +kernel
  have hsecond : ((VirtualConsole.new fun _ => 0).putchar 0x6f).column < 79 := by decide +kernel
  generalize (VirtualConsole.new fun _ => 0) = s at *
  have hfirst : s.column < 79 := by omega
  refine (consoles_agree_iff _ hblank hrow hcolumn (by decide)).mpr ?_ _ List.prefix_rfl
  exact ⟨_, .cons (.inr (.inl hfirst)) rfl (.cons (.inr (.inl hsecond)) rfl (.cons (.inl rfl) rfl (.nil _)))⟩

/-- Eighty letters, and the next one is in different rows. -/
theorem consoles_differ :
    ((VirtualConsole.new fun _ => 0).print (List.replicate 80 0x41)).row = 1 ∧
      ((Terminal.mk 0 0 0 (fun _ => 0) []).terminalInitialize.terminalWrite (List.replicate 80 0x41)).terminalRow = 0 ∧
      ¬Agree ((Terminal.mk 0 0 0 (fun _ => 0) []).terminalInitialize.terminalWrite (List.replicate 80 0x41))
        ((VirtualConsole.new fun _ => 0).print (List.replicate 80 0x41)) := by
  have hrow : ((VirtualConsole.new fun _ => 0).print (List.replicate 80 0x41)).row = 1 := by decide +kernel
  have htty : ((Terminal.mk 0 0 0 (fun _ => 0) []).terminalInitialize.terminalWrite
      (List.replicate 80 0x41)).terminalRow = 0 := by decide +kernel
  refine ⟨hrow, htty, fun h => ?_⟩
  have hsame := h.row
  rw [hrow, htty] at hsame
  exact absurd hsame (by decide)

end UntitledOS.Console
