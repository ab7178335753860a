import UntitledOS.Console.History
import UntitledOS.Lib.Text

/-! What is on the command line is what will be run.

Read as one line of cells, rows after another, the screen spells the prompt and the string
being edited, up to the cursor, and is blank from there to wherever it was typed to before
(`Shown`). The string and the screen are changed by separate code in every key, and agree as
long as nothing scrolls, but for the keys that bring back a command: all of it becomes the
string, and it is printed up to its first null. Keys that have no character type one.
`line_on_screen`: behind a prompt, keys other than enter show what will be run as long as the
commands brought back are without nulls (and new lines, which no key types); and one with a
null is not shown. -/
namespace UntitledOS.Console
open Lib

namespace VirtualConsole
variable {s t : VirtualConsole} {start mark : Int}

/-- The text in front of the cursor. -/
def Typed (start mark : Int) (cs : List u8) (s : VirtualConsole) : Prop :=
  Text blank start mark (cs.map cell) s.vgaBuffer s.cursor

/-- The prompt and the string. -/
def line (s : VirtualConsole) : List u8 := ascii ['>', ' '] ++ s.inputStr

/-- The prompt and the string are on the screen from `start` to the cursor, and nothing from
there to `mark`. -/
def Shown (start mark : Int) (s : VirtualConsole) : Prop := s.Typed start mark s.line

theorem line_eq (h : t.editor = s.editor) : t.line = s.line :=
  congrArg (fun e : Editor => ascii ['>', ' '] ++ e.inputStr) h

theorem Typed.putchar {cs : List u8} (h : s.Typed start mark cs) (hs : s.Rowed) {c : u8} (hc : c ≠ 0x0a)
    (hstay : (s.putchar c).scrolls = s.scrolls) : (s.putchar c).Typed start mark (cs ++ [c]) := by
  obtain ⟨m, r, k, st, n, heq, -, -, -, -, -, hink⟩ := putchar_cases hs c
  rw [heq] at hstay ⊢
  obtain ⟨rfl, hcursor⟩ := hink hstay hc
  have hwrite := Text.write h (cell c)
  rw [← hcursor] at hwrite
  rw [Typed, List.map_append]
  exact hwrite

theorem Typed.print {cs ds : List u8} (h : s.Typed start mark cs) (hs : s.Rowed) (hds : ∀ d ∈ ds, d ≠ 0x0a)
    (hstay : (s.print ds).scrolls = s.scrolls) : (s.print ds).Typed start mark (cs ++ ds) := by
  induction ds generalizing cs s with
  | nil =>
    rw [List.append_nil]
    exact h
  | cons d ds ih =>
    obtain ⟨hd, hds⟩ := List.forall_mem_cons.mp hds
    have hput := hs.putchar d
    have hrest : ((s.putchar d).print ds).scrolls = s.scrolls := hstay
    have hle : (s.putchar d).scrolls ≤ ((s.putchar d).print ds).scrolls := (hput.rowed.print ds).scrolls
    have hle' : s.scrolls ≤ (s.putchar d).scrolls := hput.scrolls
    have hsame : (s.putchar d).scrolls = s.scrolls := by omega
    rw [← List.singleton_append, ← List.append_assoc]
    exact ih (h.putchar hs hd hsame) hput.rowed hds (hrest.trans hsame.symm)

theorem Typed.eraseMany {cs ds : List u8} (h : s.Typed start mark (cs ++ ds)) (hs : s.Rowed) :
    (s.eraseMany ds.length).Typed start mark cs ∧ (s.eraseMany ds.length).scrolls = s.scrolls := by
  obtain ⟨m, st, cu, heq, -, -, hm⟩ := eraseMany_eq hs ds.length
  rw [heq]
  rw [Typed, List.map_append] at h
  rw [← List.length_map (f := cell)] at hm
  have herase := Text.erase h hm
  have hcursor : cursor {s with
      vgaBuffer := m
      column := s.column - ds.length
      stores := st ++ s.stores
      cursors := cu ++ s.cursors} = s.cursor - (ds.map cell).length := by
    rw [List.length_map]
    simp only [cursor]
    omega
  rw [Typed, hcursor]
  exact ⟨herase, rfl⟩

/-! ### One key -/

/-- The command that a key brings back. -/
def broughtBack (a : Surroundings) (s : VirtualConsole) : Key → List u8
  | .up => if s.commandIndex > 0 then s.command a (s.commandIndex - 1) else []
  | .down => if s.below then s.command a (s.commandIndex + 1) else []
  | .backspace => []
  | .enter => []
  | .escape => []
  | .ignored => []
  | .char _ => []

theorem Shown.clearCommand (h : s.Shown start mark) (hs : s.Rowed) :
    s.clearCommand.Typed start mark (ascii ['>', ' ']) ∧ s.clearCommand.scrolls = s.scrolls :=
  Typed.eraseMany (show s.Typed start mark (ascii ['>', ' '] ++ s.inputStr) from h) hs

theorem takeWhile_eq_self {cs : List u8} : cs.takeWhile (· ≠ 0) = cs ↔ 0 ∉ cs := by
  rw [List.takeWhile_eq_self_iff]
  constructor
  · exact fun h hmem => absurd (h 0 hmem) (by decide)
  · exact fun h c hc => decide_eq_true fun hzero => h (hzero ▸ hc)

/-- A command brought back is shown exactly if it has no null. -/
theorem Shown.takeCommand (h : s.Shown start mark) (hs : s.Rowed) (a : Surroundings) {index : Int}
    (hline : 0x0a ∉ s.command a index) (hstay : (s.takeCommand a index).scrolls = s.scrolls) :
    (s.takeCommand a index).Shown start mark ↔ 0 ∉ s.command a index := by
  obtain ⟨hcleared, hscrolls⟩ := h.clearCommand hs
  obtain ⟨-, hrowed⟩ := hs.clearCommand
  have hinput : (s.replaceCommand a index).inputStr = s.command a index := by
    have hcommands : s.clearCommand.previousCommands = s.previousCommands :=
      congrArg Editor.previousCommands hs.clearCommand_editor
    simp only [replaceCommand, command, hcommands]
  have hreplaced : (s.replaceCommand a index).Rowed := ⟨hrowed.nonneg, hrowed.row, hrowed.column⟩
  have htyped : (s.replaceCommand a index).Typed start mark (ascii ['>', ' ']) := hcleared
  have hprint : s.takeCommand a index =
      (s.replaceCommand a index).print ((s.command a index).takeWhile (· ≠ 0)) := by
    rw [← hinput]
    rfl
  have hsame : (s.takeCommand a index).line = ascii ['>', ' '] ++ s.command a index := by
    rw [← hinput]
    exact line_eq (hreplaced.print _).editor
  have hshown : ((s.replaceCommand a index).print ((s.command a index).takeWhile (· ≠ 0))).Typed start mark
      (ascii ['>', ' '] ++ (s.command a index).takeWhile (· ≠ 0)) := htyped.print hreplaced
    (fun d hd hnl => hline (hnl ▸ (List.takeWhile_sublist _).subset hd)) (by rw [← hprint, hstay]; exact hscrolls.symm)
  rw [← hprint] at hshown
  rw [Shown, hsame, ← takeWhile_eq_self]
  constructor
  · intro h
    have hlength := h.pos_eq.symm.trans hshown.pos_eq
    simp only [List.length_map, List.length_append, Int.natCast_add] at hlength
    exact (List.takeWhile_prefix _).eq_of_length (by omega)
  · intro hall
    rw [hall] at hshown
    exact hshown

/-- A key keeps the screen showing what will be run, unless it brings back a null. -/
theorem Shown.press (h : s.Shown start mark) (hs : s.Rowed) {a : Surroundings} {key : Key} (hkey : key ≠ .enter)
    (hchar : key ≠ .char 0x0a) (ht : s.press a key = some t) (hstay : t.scrolls = s.scrolls)
    (hline : 0x0a ∉ s.broughtBack a key) : t.Shown start mark ↔ 0 ∉ s.broughtBack a key := by
  cases key with
  | backspace =>
    obtain rfl := Option.some.inj ht
    refine iff_of_true ?_ List.not_mem_nil
    split
    · have hne := List.ne_nil_of_length_pos ‹_›
      have hrowed : Rowed {s with inputStr := s.inputStr.dropLast} := ⟨hs.nonneg, hs.row, hs.column⟩
      have htyped : Typed start mark (ascii ['>', ' '] ++ s.inputStr.dropLast ++ [s.inputStr.getLast hne])
          {s with inputStr := s.inputStr.dropLast} := by
        rw [List.append_assoc, List.dropLast_concat_getLast]
        exact h
      have hshown : Shown start mark (eraseMany 1 {s with inputStr := s.inputStr.dropLast}) := by
        rw [Shown, line_eq (hrowed.eraseMany 1).2]
        exact (htyped.eraseMany hrowed).1
      exact hshown
    · exact h
  | enter => exact absurd rfl hkey
  | up =>
    obtain rfl := Option.some.inj ht
    rw [broughtBack] at hline ⊢
    by_cases hup : s.commandIndex > 0
    · rw [if_pos hup] at hline hstay ⊢
      rw [if_pos hup]
      exact h.takeCommand hs a hline hstay
    · rw [if_neg hup, if_neg hup]
      exact iff_of_true h List.not_mem_nil
  | down =>
    obtain rfl := Option.some.inj ht
    rw [broughtBack] at hline ⊢
    by_cases hdown : s.below
    · rw [if_pos hdown] at hline hstay ⊢
      rw [if_pos hdown]
      exact h.takeCommand hs a hline hstay
    · rw [if_neg hdown, if_neg hdown]
      exact iff_of_true h List.not_mem_nil
  | escape =>
    obtain rfl := Option.some.inj ht
    have hcleared := (h.clearCommand hs).1
    refine iff_of_true ?_ List.not_mem_nil
    exact hcleared
  | ignored =>
    obtain rfl := Option.some.inj ht
    exact iff_of_true h List.not_mem_nil
  | char c =>
    have hrowed : Rowed {s with inputStr := s.inputStr ++ [c]} := ⟨hs.nonneg, hs.row, hs.column⟩
    have htyped : Typed start mark s.line {s with inputStr := s.inputStr ++ [c]} := h
    obtain rfl := Option.some.inj ht
    have hnl : c ≠ 0x0a := fun hc => hchar (hc ▸ rfl)
    have hput := htyped.putchar hrowed hnl hstay
    rw [line, List.append_assoc] at hput
    rw [Shown, line_eq (hrowed.putchar c).editor]
    exact iff_of_true hput List.not_mem_nil

theorem press_scrolls (hs : s.Rowed) {a : Surroundings} {key : Key} (hkey : key ≠ .enter)
    (ht : s.press a key = some t) : s.scrolls ≤ t.scrolls := by
  have herase : ∀ {u : VirtualConsole} (n : Nat), u.Rowed → (u.eraseMany n).scrolls = u.scrolls := by
    intro u n hu
    obtain ⟨m, st, cu, heq, -⟩ := eraseMany_eq hu n
    rw [heq]
  have htake : ∀ index, s.scrolls ≤ (s.takeCommand a index).scrolls := by
    intro index
    obtain ⟨-, hrowed⟩ := hs.clearCommand
    have hreplaced : (s.replaceCommand a index).Rowed := ⟨hrowed.nonneg, hrowed.row, hrowed.column⟩
    have hprint : (s.replaceCommand a index).scrolls ≤ (s.takeCommand a index).scrolls :=
      (hreplaced.print _).scrolls
    exact le_trans (le_of_eq (herase _ hs).symm) hprint
  cases key with
  | backspace =>
    have hrowed : Rowed {s with inputStr := s.inputStr.dropLast} := ⟨hs.nonneg, hs.row, hs.column⟩
    obtain rfl := Option.some.inj ht
    split
    · exact le_of_eq (herase 1 hrowed).symm
    · exact le_refl _
  | enter => exact absurd rfl hkey
  | up =>
    obtain rfl := Option.some.inj ht
    split
    · exact htake _
    · exact le_refl _
  | down =>
    obtain rfl := Option.some.inj ht
    split
    · exact htake _
    · exact le_refl _
  | escape =>
    obtain rfl := Option.some.inj ht
    exact le_of_eq (herase _ hs).symm
  | ignored =>
    obtain rfl := Option.some.inj ht
    exact le_refl _
  | char c =>
    have hrowed : Rowed {s with inputStr := s.inputStr ++ [c]} := ⟨hs.nonneg, hs.row, hs.column⟩
    obtain rfl := Option.some.inj ht
    exact (hrowed.putchar c).scrolls

/-! ### The prompt -/

theorem putchar_within (hs : s.Rowed) {c : u8} (hc : c ≠ 0x0a) (h : s.column ≠ 79) :
    (s.putchar c).row = s.row ∧ (s.putchar c).column = s.column + 1 ∧ (s.putchar c).scrolls = s.scrolls := by
  rw [putchar_eq hs, if_neg (not_or.mpr ⟨hc, h⟩), ink, if_neg hc]
  exact ⟨rfl, rfl, rfl⟩

/-- Behind a new command the prompt is shown, at the start of a row. -/
theorem newCommand_shown (hs : s.Rowed) (hmark : mark ≤ s.newCommand.cursor) :
    s.newCommand.Shown (s.newCommand.row * VGA_WIDTH) mark := by
  obtain ⟨u, heq, hrowed, hcolumn, heditor, -⟩ := hs.newCommand
  have hfirst := putchar_within hrowed (c := 0x3e) (by decide) (by rw [hcolumn]; decide)
  have hput := hrowed.putchar 0x3e
  have hsecond := putchar_within hput.rowed (c := 0x20) (by decide) (by rw [hfirst.2.1, hcolumn]; decide)
  have hrow : s.newCommand.row = u.row := by
    rw [heq]
    exact hsecond.1.trans hfirst.1
  have hinput : s.newCommand.inputStr = [] := congrArg Editor.inputStr hs.newCommand_editor.2
  have hline : s.newCommand.line = [] ++ ascii ['>', ' '] := by
    rw [line, hinput, List.append_nil, List.nil_append]
  have hstart : u.Typed (u.row * VGA_WIDTH) (u.row * VGA_WIDTH) [] := by
    refine ⟨?_, by simp, fun i hi hlt => ?_⟩
    · simp [cursor, hcolumn]
    · simp only [cursor, hcolumn] at hi
      omega
  have htyped : (u.print (ascii ['>', ' '])).Typed (u.row * VGA_WIDTH) (u.row * VGA_WIDTH) ([] ++ ascii ['>', ' ']) :=
    hstart.print hrowed (by decide) (hsecond.2.2.trans hfirst.2.2)
  rw [Shown, hrow, hline, heq]
  rw [heq] at hmark
  exact Text.remark htyped hmark

end VirtualConsole

/-- In the tables, only enter is a new line. -/
theorem enter_of_newline (shifted : Bool) {k : Nat} (h : (if shifted then shift_map else map).getD k 0 = 0x0a) :
    k = 0x1C := by
  have hkeys : ∀ shifted : Bool, ∀ k < 90, (if shifted then shift_map else map).getD k 0 = 0x0a → k = 0x1C := by
    decide +kernel
  by_cases hk : k < 90
  · exact hkeys shifted k hk h
  · have hlen : (if shifted then shift_map else map).length = 90 := by cases shifted <;> rfl
    rw [List.getD_eq_default _ _ (by omega)] at h
    exact absurd h (by decide)

/-- No key types a new line. -/
theorem keyOf_char (k : KeyboardDevice) (ch : u8) : keyOf k ch ≠ .char 0x0a := by
  intro h
  by_cases henter : ch = 0x1C
  · rw [henter] at h
    cases h
  · have hchar : (if k.shifted || k.capsLock then shift_map else map).getD ch.toNat 0 ≠ 0x0a :=
      fun hnewline => henter (BitVec.eq_of_toNat_eq (enter_of_newline (k.shifted || k.capsLock) hnewline))
    unfold keyOf at h
    generalize (if k.shifted || k.capsLock then shift_map else map).getD ch.toNat 0 = c at h hchar
    rw [if_neg henter] at h
    split_ifs at h
    cases h
    exact hchar rfl

/-! ### Runs -/

namespace System
variable {r s t : System} {start mark : Int}

/-- An event that ends in a prompt. -/
def Prompts (s : System) (e : Event) : Prop := e = .newCommand ∨ s.key e = some .enter

/-- The keyboard without enter. -/
def Edits (s : System) : Event → Prop
  | .irq raw a => s.key (.irq raw a) ≠ some .enter
  | .putchar _ => False
  | .newCommand => False

/-- The command that an event brings back. -/
def broughtBack (s : System) : Event → List u8
  | .irq raw a => ((s.key (.irq raw a)).map (s.console.broughtBack a)).getD []
  | .putchar _ => []
  | .newCommand => []

/-- An edit that can be shown. -/
def Shows (s : System) (e : Event) : Prop := s.Edits e ∧ 0 ∉ s.broughtBack e ∧ 0x0a ∉ s.broughtBack e

instance (s : System) : ∀ e, Decidable (s.Edits e)
  | .irq raw a => inferInstanceAs (Decidable (s.key (.irq raw a) ≠ some .enter))
  | .putchar _ => isFalse id
  | .newCommand => isFalse id

instance (s : System) (e : Event) : Decidable (s.Shows e) := inferInstanceAs (Decidable (_ ∧ _))

theorem edit_scrolls (hs : s.console.Rowed) {e : Event} (hedit : s.Edits e) (ht : s.step e = some t) :
    s.console.scrolls ≤ t.console.scrolls := by
  cases e with
  | irq raw a =>
    obtain ⟨-, hkey⟩ := step_key ht
    cases hk : s.key (.irq raw a) with
    | none =>
      rw [hk] at hkey
      rw [hkey]
    | some key =>
      rw [hk] at hkey
      exact VirtualConsole.press_scrolls hs (fun h => hedit (hk.trans (h ▸ rfl))) hkey
  | putchar c => exact hedit.elim
  | newCommand => exact hedit.elim

theorem edit_shown (hs : s.console.Rowed) (h : s.console.Shown start mark) {e : Event} (hedit : s.Edits e)
    (ht : s.step e = some t) (hstay : t.console.scrolls = s.console.scrolls) (hline : 0x0a ∉ s.broughtBack e) :
    t.console.Shown start mark ↔ 0 ∉ s.broughtBack e := by
  cases e with
  | irq raw a =>
    obtain ⟨-, hkey⟩ := step_key ht
    rw [broughtBack] at hline ⊢
    cases hk : s.key (.irq raw a) with
    | none =>
      rw [hk] at hkey
      rw [hkey]
      exact iff_of_true h List.not_mem_nil
    | some key =>
      rw [hk] at hkey hline
      have hchar : key ≠ .char 0x0a := by
        rintro rfl
        rw [System.key] at hk
        split at hk
        · exact keyOf_char _ _ (Option.some.inj hk)
        · cases hk
      exact h.press hs (fun h => hedit (hk.trans (h ▸ rfl))) hchar hkey hstay hline
  | putchar c => exact hedit.elim
  | newCommand => exact hedit.elim

theorem prompt_shown (hs : r.console.Rowed) {e : Event} (hprompt : r.Prompts e) (ht : r.step e = some t)
    (hmark : mark ≤ t.console.cursor) : t.console.Shown (t.console.row * VGA_WIDTH) mark := by
  rcases hprompt with rfl | hkey
  · obtain rfl := Option.some.inj ht
    exact VirtualConsole.newCommand_shown hs hmark
  · cases e with
    | irq raw a =>
      obtain ⟨-, hpress⟩ := step_key ht
      rw [hkey] at hpress
      obtain ⟨u, hu, hconsole⟩ := Option.map_eq_some_iff.mp hpress
      rw [← hconsole] at hmark ⊢
      exact VirtualConsole.newCommand_shown (hs.runCommand hu).1 hmark
    | putchar c => cases hkey
    | newCommand => cases hkey

/-- What holds behind a prompt, until the screen is scrolled. -/
structure Editing (start mark : Int) (n : Nat) (s : System) : Prop where
  rowed : s.console.Rowed
  scrolls : n ≤ s.console.scrolls
  shown : s.console.scrolls = n → s.console.Shown start mark

theorem Editing.step {n : Nat} (h : Editing start mark n s) {e : Event} (hrule : s.Shows e)
    (ht : s.step e = some t) : Editing start mark n t := by
  obtain ⟨hedit, hnull, hline⟩ := hrule
  have hscrolls := edit_scrolls h.rowed hedit ht
  have hn := h.scrolls
  refine ⟨(step_editor h.rowed ht).1, le_trans hn hscrolls, fun hstay => ?_⟩
  have hsame : t.console.scrolls = s.console.scrolls := by omega
  exact (edit_shown h.rowed (h.shown (by omega)) hedit ht hsame hline).mpr hnull

theorem rowed_of_run (k : KeyboardDevice) (video : Int → u16) {es : List Event}
    (hrun : Run step (fun _ _ => True) (boot k video) es s) : s.console.Rowed := by
  have hboot : (boot k video).console.Rowed := by
    obtain ⟨m, st, heq, -⟩ := VirtualConsole.new_eq video
    rw [boot, heq]
    exact ⟨by simp, by simp, by simp⟩
  exact hrun.invariant (·.console.Rowed) (fun _ _ _ h _ ht => (step_editor h ht).1) hboot

/-- **What is on the command line is what will be run**, from any prompt until the screen is
scrolled, exactly as long as no command brought back has a null. -/
theorem line_on_screen (k : KeyboardDevice) (video : Int → u16) {es₀ es₁ es₂ : List Event} {s₀ s₁ : System}
    {prompt : Event} (hreach : Run step (fun _ _ => True) (boot k video) es₀ r) (hprompt : r.Prompts prompt)
    (h₀ : r.step prompt = some s₀) (h₁ : Run step Shows s₀ es₁ s₁) (h₂ : Run step Shows s₁ es₂ s)
    (hstay : s.console.scrolls = s₀.console.scrolls) :
    s.console.Shown (s₀.console.row * VGA_WIDTH) s₁.console.cursor ∧
    ∀ e t, s.Edits e → s.step e = some t → t.console.scrolls = s.console.scrolls → 0x0a ∉ s.broughtBack e →
      (t.console.Shown (s₀.console.row * VGA_WIDTH) s₁.console.cursor ↔ 0 ∉ s.broughtBack e) := by
  have hr := rowed_of_run k video hreach
  have hs₀ : Editing (s₀.console.row * VGA_WIDTH) s₀.console.cursor s₀.console.scrolls s₀ :=
    ⟨(step_editor hr h₀).1, le_refl _, fun _ => prompt_shown hr hprompt h₀ (le_refl _)⟩
  have hs₁ := h₁.invariant _ (fun _ _ _ h => h.step) hs₀
  have hmarked : Editing (s₀.console.row * VGA_WIDTH) s₁.console.cursor s₀.console.scrolls s₁ :=
    ⟨hs₁.rowed, hs₁.scrolls, fun h => (hs₁.shown h).remark (le_refl _)⟩
  have hs := h₂.invariant _ (fun _ _ _ h => h.step) hmarked
  have hshown := hs.shown hstay
  exact ⟨hshown, fun e t hedit ht hsame hline => edit_shown hs.rowed hshown hedit ht hsame hline⟩

/-- A command entered, a longer line typed, and the command brought back in its place. -/
theorem line_on_screen_edited :
    ∃ s : System, s.console.inputStr = ascii ['a'] ∧ s.console.Shown 240 244 := by
  have hfollow : ((follow step (fun _ _ => True) (boot ⟨false, false⟩ fun _ => 0)
      [.newCommand, .irq 0x1E silent]).bind fun r => (r.step (.irq 0x1C silent)).bind fun s₀ =>
        (follow step Shows s₀ [.irq 0x30 silent, .irq 0x31 silent]).bind fun s₁ =>
          (follow step Shows s₁ [.irq 0x0E silent, .irq 0x48 silent]).map fun s =>
            (decide (r.key (.irq 0x1C silent) = some .enter ∧ s.console.scrolls = s₀.console.scrolls),
              s₀.console.row * VGA_WIDTH, s₁.console.cursor, s.console.inputStr)) =
      some (true, 240, 244, ascii ['a']) := by
    decide +kernel
  obtain ⟨r, hr, hfollow⟩ := Option.bind_eq_some_iff.mp hfollow
  obtain ⟨s₀, h₀, hfollow⟩ := Option.bind_eq_some_iff.mp hfollow
  obtain ⟨s₁, h₁, hfollow⟩ := Option.bind_eq_some_iff.mp hfollow
  obtain ⟨s, h₂, hall⟩ := Option.map_eq_some_iff.mp hfollow
  simp only [Prod.mk.injEq, decide_eq_true_eq] at hall
  obtain ⟨⟨henter, hstay⟩, hstart, hmark, hinput⟩ := hall
  have hshown := (line_on_screen _ _ (run_iff_follow.mpr hr) (.inr henter) h₀ (run_iff_follow.mpr h₁)
    (run_iff_follow.mpr h₂) hstay).1
  rw [hstart, hmark] at hshown
  exact ⟨s, hinput, hshown⟩

/-- A key without a character is entered and brought back: the line holds a null, and nothing
is behind the prompt. -/
theorem null_brought_back :
    ∃ r s₀ s, Run step (fun _ _ => True) (boot ⟨false, false⟩ fun _ => 0) [.irq 0x3B silent] r ∧
      r.Prompts (.irq 0x1C silent) ∧ r.step (.irq 0x1C silent) = some s₀ ∧
      Run step Edits s₀ [.irq 0x48 silent] s ∧ s.console.scrolls = s₀.console.scrolls ∧
      s.console.inputStr = [0] ∧ ¬s.console.Shown (s₀.console.row * VGA_WIDTH) s₀.console.cursor := by
  have hfollow : ((follow step (fun _ _ => True) (boot ⟨false, false⟩ fun _ => 0) [.irq 0x3B silent]).bind fun r =>
      (r.step (.irq 0x1C silent)).bind fun s₀ => (follow step Edits s₀ [.irq 0x48 silent]).map fun s =>
        (decide (r.key (.irq 0x1C silent) = some .enter ∧ s.console.scrolls = s₀.console.scrolls),
          s.console.inputStr, s.console.cursor - s₀.console.row * VGA_WIDTH)) = some (true, [0], 2) := by
    decide +kernel
  obtain ⟨r, hr, hfollow⟩ := Option.bind_eq_some_iff.mp hfollow
  obtain ⟨s₀, h₀, hfollow⟩ := Option.bind_eq_some_iff.mp hfollow
  obtain ⟨s, hs, hall⟩ := Option.map_eq_some_iff.mp hfollow
  simp only [Prod.mk.injEq, decide_eq_true_eq] at hall
  obtain ⟨⟨henter, hstay⟩, hinput, hcursor⟩ := hall
  refine ⟨r, s₀, s, run_iff_follow.mpr hr, .inr henter, h₀, run_iff_follow.mpr hs, hstay, hinput, fun h => ?_⟩
  -- The null is part of the line, and was not printed.
  have hpos := h.pos_eq
  rw [VirtualConsole.line, hinput] at hpos
  simp only [ascii, List.map_append, List.map_cons, List.map_nil, List.length_append, List.length_cons,
    List.length_nil] at hpos
  omega

end System

end UntitledOS.Console
