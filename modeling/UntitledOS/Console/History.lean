import UntitledOS.Console.Screen

/-! The line editor, and the commands it brings back.

Without the screen the console is a line, the commands entered so far and an index among
them (`Editor.press`); the console refines it, whatever is drawn (`step_editor`). Every key
keeps the index between 0 and the number of commands, and looks up commands that are there,
but one: the number of commands less one is compared without a sign, so in front of an empty
history `down` goes on to a command 1. `history_in_range`: behind a history in which `down`
was only pressed with a command entered, the next key stays in range exactly if it is not
that one. -/
namespace UntitledOS.Console
open Lib

namespace Editor

/-- `previousCommands[index]`. -/
def command (a : Surroundings) (index : Int) (e : Editor) : List u8 :=
  if 0 ≤ index then (e.previousCommands[index.toNat]?).getD a.stray else a.stray

def takeCommand (a : Surroundings) (index : Int) (e : Editor) : Editor :=
  {e with
    inputStr := e.command a index
    commandIndex := index
    lookups := (index, e.previousCommands.length) :: e.lookups}

def below (e : Editor) : Prop := BitVec.ofInt 32 e.commandIndex < BitVec.ofNat 32 e.previousCommands.length - 1

instance (e : Editor) : Decidable e.below := inferInstanceAs (Decidable (_ < _))

def runCommand (e : Editor) : Option Editor :=
  if e.inputStr.length > 0 then
    if e.previousCommands.length < 256 then
      some {e with
        previousCommands := e.previousCommands ++ [e.inputStr]
        commandIndex := e.previousCommands.length + 1}
    else none
  else some e

def press (a : Surroundings) (e : Editor) : Key → Option Editor
  | .backspace => some {e with inputStr := e.inputStr.dropLast}
  | .enter => e.runCommand.map fun e => {e with inputStr := []}
  | .up => some (if e.commandIndex > 0 then e.takeCommand a (e.commandIndex - 1) else e)
  | .down => some (if e.below then e.takeCommand a (e.commandIndex + 1) else e)
  | .escape => some {e with inputStr := [], commandIndex := e.previousCommands.length}
  | .ignored => some e
  | .char c => some {e with inputStr := e.inputStr ++ [c]}

end Editor

/-! ### The console refines the editor -/

namespace VirtualConsole
variable {s t : VirtualConsole}

theorem Rowed.eraseMany (hs : s.Rowed) (n : Nat) :
    (s.eraseMany n).Rowed ∧ (s.eraseMany n).editor = s.editor := by
  obtain ⟨m, st, cu, heq, -⟩ := eraseMany_eq hs n
  have hcolumn := hs.column
  rw [heq]
  exact ⟨⟨hs.nonneg, hs.row, by simp; omega⟩, rfl⟩

theorem Rowed.clearCommand_editor (hs : s.Rowed) : s.clearCommand.editor = {s.editor with inputStr := []} := by
  have heditor := (hs.eraseMany s.inputStr.length).2
  exact congrArg (fun e : Editor => {e with inputStr := []}) heditor

theorem Rowed.takeCommand (hs : s.Rowed) (a : Surroundings) (index : Int) :
    (s.takeCommand a index).Rowed ∧ (s.takeCommand a index).editor = s.editor.takeCommand a index := by
  obtain ⟨-, hcleared⟩ := hs.clearCommand
  have hrowed : (s.replaceCommand a index).Rowed := ⟨hcleared.nonneg, hcleared.row, hcleared.column⟩
  have hprint := hrowed.print ((s.replaceCommand a index).inputStr.takeWhile (· ≠ 0))
  refine ⟨hprint.rowed, hprint.editor.trans ?_⟩
  have heditor := hs.clearCommand_editor
  have hcommands : s.clearCommand.previousCommands = s.previousCommands := congrArg Editor.previousCommands heditor
  have hlookups : s.clearCommand.lookups = s.lookups := congrArg Editor.lookups heditor
  simp only [editor, replaceCommand, command, Editor.takeCommand, Editor.command, hcommands, hlookups]

theorem Rowed.answer (hs : s.Rowed) (a : Surroundings) (wholeCommand : List u8) (split : List (List u8)) :
    Drawn s (s.answer a wholeCommand split) := by
  rw [VirtualConsole.answer]
  split
  · exact (hs.putchar 0x0a).print _
  · exact ((hs.putchar 0x0a).print _).print _

theorem Rowed.runCommand (hs : s.Rowed) {a : Surroundings} (ht : s.runCommand a s.inputStr = some t) :
    t.Rowed ∧ s.editor.runCommand = some t.editor := by
  rw [VirtualConsole.runCommand] at ht
  rw [Editor.runCommand]
  split at ht
  · split at ht
    · have hpushed : Rowed {s with
          previousCommands := s.previousCommands ++ [s.inputStr]
          commandIndex := s.previousCommands.length + 1} := ⟨hs.nonneg, hs.row, hs.column⟩
      obtain rfl := Option.some.inj ht
      have hdrawn := hpushed.answer a s.inputStr (Y.String.tokens 0x20 s.inputStr)
      refine ⟨hdrawn.rowed, ?_⟩
      rw [hdrawn.editor, if_pos ‹_›, if_pos ‹_›]
      rfl
    · cases ht
  · obtain rfl := Option.some.inj ht
    exact ⟨hs, if_neg ‹_›⟩

theorem Rowed.newCommand_editor (hs : s.Rowed) :
    s.newCommand.Rowed ∧ s.newCommand.editor = {s.editor with inputStr := []} := by
  obtain ⟨u, heq, hrowed, -, heditor, -⟩ := hs.newCommand
  have hprint := hrowed.print (ascii ['>', ' '])
  rw [heq]
  exact ⟨⟨hprint.rowed.nonneg, hprint.rowed.row, hprint.rowed.column⟩, hprint.editor.trans heditor⟩

/-- A key does to the line and the history what it does to the editor. -/
theorem press_editor (hs : s.Rowed) {a : Surroundings} {key : Key} (ht : s.press a key = some t) :
    t.Rowed ∧ s.editor.press a key = some t.editor := by
  have hkept : s.Rowed ∧ some s.editor = some s.editor := ⟨hs, rfl⟩
  cases key with
  | backspace =>
    have hline : Rowed {s with inputStr := s.inputStr.dropLast} := ⟨hs.nonneg, hs.row, hs.column⟩
    obtain ⟨hrowed, heditor⟩ := hline.eraseMany 1
    obtain rfl := Option.some.inj ht
    split
    · exact ⟨⟨hrowed.nonneg, hrowed.row, hrowed.column⟩, congrArg some heditor.symm⟩
    · have hempty : s.inputStr = [] := List.length_eq_zero_iff.mp (Nat.eq_zero_of_not_pos ‹_›)
      refine ⟨hs, ?_⟩
      rw [Editor.press, editor, hempty, List.dropLast_nil]
  | enter =>
    obtain ⟨u, hu, rfl⟩ := Option.map_eq_some_iff.mp ht
    obtain ⟨hrowed, hrun⟩ := hs.runCommand hu
    obtain ⟨hrowed, heditor⟩ := hrowed.newCommand_editor
    refine ⟨hrowed, ?_⟩
    rw [Editor.press, hrun, heditor]
    rfl
  | up =>
    obtain rfl := Option.some.inj ht
    rw [Editor.press]
    by_cases h : s.commandIndex > 0
    · obtain ⟨hrowed, heditor⟩ := hs.takeCommand a (s.commandIndex - 1)
      rw [if_pos h, heditor]
      exact ⟨hrowed, congrArg some (if_pos h)⟩
    · rw [if_neg h]
      exact ⟨hs, congrArg some (if_neg h)⟩
  | down =>
    obtain rfl := Option.some.inj ht
    rw [Editor.press]
    by_cases h : s.below
    · obtain ⟨hrowed, heditor⟩ := hs.takeCommand a (s.commandIndex + 1)
      rw [if_pos h, heditor]
      exact ⟨hrowed, congrArg some (if_pos h)⟩
    · rw [if_neg h]
      exact ⟨hs, congrArg some (if_neg h)⟩
  | escape =>
    obtain ⟨-, hrowed⟩ := hs.clearCommand
    obtain rfl := Option.some.inj ht
    refine ⟨⟨hrowed.nonneg, hrowed.row, hrowed.column⟩, ?_⟩
    exact congrArg (fun e : Editor => some {e with commandIndex := s.previousCommands.length})
      hs.clearCommand_editor.symm
  | ignored =>
    obtain rfl := Option.some.inj ht
    exact hkept
  | char c =>
    have hline : Rowed {s with inputStr := s.inputStr ++ [c]} := ⟨hs.nonneg, hs.row, hs.column⟩
    have hput := hline.putchar c
    obtain rfl := Option.some.inj ht
    exact ⟨hput.rowed, congrArg some hput.editor.symm⟩

end VirtualConsole

/-! ### In range -/

namespace Editor
variable {e f : Editor}

/-- The index is one of a command or behind the last one, and every command looked up was
there. -/
structure Ranged (e : Editor) : Prop where
  index : 0 ≤ e.commandIndex ∧ e.commandIndex ≤ e.previousCommands.length
  lookups : ∀ p ∈ e.lookups, 0 ≤ p.1 ∧ p.1 < p.2

theorem Ranged.below_iff (h : e.Ranged) (hroom : e.previousCommands.length ≤ 256) :
    e.below ↔ e.commandIndex + 1 < e.previousCommands.length ∨ e.previousCommands = [] := by
  obtain ⟨hnonneg, hle⟩ := h.index
  rw [below, BitVec.lt_def, BitVec.toNat_ofInt, BitVec.toNat_sub, BitVec.toNat_ofNat, ← List.length_eq_zero_iff]
  show (e.commandIndex % 4294967296).toNat < (4294967296 - 1 + e.previousCommands.length % 4294967296) % 4294967296 ↔ _
  omega

/-- A lookup is in range as its index is. -/
theorem Ranged.takeCommand (h : e.Ranged) (a : Surroundings) (index : Int) :
    (e.takeCommand a index).Ranged ↔ 0 ≤ index ∧ index < e.previousCommands.length := by
  constructor
  · exact fun ht => ht.lookups (index, e.previousCommands.length) (List.mem_cons_self ..)
  · rintro ⟨hnonneg, hlt⟩
    exact ⟨⟨hnonneg, Int.le_of_lt hlt⟩, List.forall_mem_cons.mpr ⟨⟨hnonneg, hlt⟩, h.lookups⟩⟩

theorem Ranged.runCommand (h : e.Ranged) (hf : e.runCommand = some f) (hroom : e.previousCommands.length ≤ 256) :
    f.Ranged ∧ f.previousCommands.length ≤ 256 := by
  rw [Editor.runCommand] at hf
  split at hf
  · split at hf
    · obtain rfl := Option.some.inj hf
      simp only [List.length_append, List.length_singleton]
      exact ⟨⟨by simp; omega, h.lookups⟩, by omega⟩
    · cases hf
  · obtain rfl := Option.some.inj hf
    exact ⟨h, hroom⟩

/-- A key stays in range, but for `down` in front of an empty history. -/
theorem Ranged.press (h : e.Ranged) (hroom : e.previousCommands.length ≤ 256) {a : Surroundings} {key : Key}
    (hf : e.press a key = some f) :
    (f.Ranged ↔ (key = .down → e.previousCommands ≠ [])) ∧ f.previousCommands.length ≤ 256 := by
  have hkept : ∀ {f : Editor}, key ≠ .down → f.Ranged → (f.Ranged ↔ (key = .down → e.previousCommands ≠ [])) :=
    fun hkey hf => iff_of_true hf fun hdown => absurd hdown hkey
  cases key with
  | backspace =>
    obtain rfl := Option.some.inj hf
    exact ⟨hkept (by decide) ⟨h.index, h.lookups⟩, hroom⟩
  | enter =>
    obtain ⟨g, hg, rfl⟩ := Option.map_eq_some_iff.mp hf
    obtain ⟨hranged, hroom⟩ := h.runCommand hg hroom
    exact ⟨hkept (by decide) ⟨hranged.index, hranged.lookups⟩, hroom⟩
  | up =>
    obtain rfl := Option.some.inj hf
    have hle := h.index.2
    split
    · exact ⟨hkept (by decide) ((h.takeCommand a _).mpr ⟨by omega, by omega⟩), hroom⟩
    · exact ⟨hkept (by decide) h, hroom⟩
  | down =>
    obtain rfl := Option.some.inj hf
    have hnonneg := h.index.1
    have hbelow := h.below_iff hroom
    split
    · refine ⟨?_, hroom⟩
      rw [h.takeCommand, ← List.length_pos_iff_ne_nil]
      rw [← List.length_eq_zero_iff] at hbelow
      have := hbelow.mp ‹_›
      simp only [forall_const]
      omega
    · refine ⟨iff_of_true h fun _ hempty => ?_, hroom⟩
      exact absurd (hbelow.mpr (.inr hempty)) ‹_›
  | escape =>
    obtain rfl := Option.some.inj hf
    exact ⟨hkept (by decide) ⟨⟨by simp, by simp⟩, h.lookups⟩, hroom⟩
  | ignored =>
    obtain rfl := Option.some.inj hf
    exact ⟨hkept (by decide) h, hroom⟩
  | char c =>
    obtain rfl := Option.some.inj hf
    exact ⟨hkept nofun ⟨h.index, h.lookups⟩, hroom⟩

end Editor

/-! ### Runs -/

namespace System
variable {s t : System}

/-- An event that does not press `down` in front of an empty history. -/
def Answers (s : System) (e : Event) : Prop := s.key e = some .down → s.console.previousCommands ≠ []

instance (s : System) (e : Event) : Decidable (s.Answers e) := inferInstanceAs (Decidable (_ → _))

/-- An event does to the line and the history what its key does to the editor. -/
theorem step_editor (hs : s.console.Rowed) {e : Event} (ht : s.step e = some t) :
    t.console.Rowed ∧ match s.key e, e with
      | some key, .irq _ a => s.console.editor.press a key = some t.console.editor
      | _, .newCommand => t.console.editor = {s.console.editor with inputStr := []}
      | _, _ => t.console.editor = s.console.editor := by
  cases e with
  | irq raw a =>
    obtain ⟨-, hkey⟩ := step_key ht
    cases hk : s.key (.irq raw a) with
    | none =>
      rw [hk] at hkey
      rw [hkey]
      exact ⟨hs, rfl⟩
    | some key =>
      rw [hk] at hkey
      exact VirtualConsole.press_editor hs hkey
  | putchar c =>
    obtain rfl := Option.some.inj ht
    exact ⟨(hs.putchar c).rowed, (hs.putchar c).editor⟩
  | newCommand =>
    obtain rfl := Option.some.inj ht
    exact hs.newCommand_editor

/-- What holds behind every history that answered. -/
structure InRange (s : System) : Prop where
  rowed : s.console.Rowed
  ranged : s.console.editor.Ranged
  room : s.console.previousCommands.length ≤ 256

theorem InRange.step (h : s.InRange) {e : Event} (ht : s.step e = some t) :
    (t.console.editor.Ranged ↔ s.Answers e) ∧ t.console.previousCommands.length ≤ 256 := by
  obtain ⟨-, heditor⟩ := step_editor h.rowed ht
  have hline : ∀ line, s.key e ≠ some .down → t.console.editor = {s.console.editor with inputStr := line} →
      (t.console.editor.Ranged ↔ s.Answers e) ∧ t.console.previousCommands.length ≤ 256 := by
    intro line hkey heq
    have hcommands : t.console.previousCommands = s.console.previousCommands :=
      congrArg Editor.previousCommands heq
    refine ⟨iff_of_true ?_ fun hdown => absurd hdown hkey, hcommands ▸ h.room⟩
    rw [heq]
    exact ⟨h.ranged.index, h.ranged.lookups⟩
  cases e with
  | irq raw a =>
    cases hk : s.key (.irq raw a) with
    | none =>
      rw [hk] at heditor
      exact hline s.console.inputStr (by simp [hk]) heditor
    | some key =>
      rw [hk] at heditor
      obtain ⟨hranged, hroom⟩ := h.ranged.press h.room heditor
      rw [Answers, hk, Option.some_inj]
      exact ⟨hranged, hroom⟩
  | putchar c => exact hline s.console.inputStr nofun heditor
  | newCommand => exact hline [] nofun heditor

/-- **The history is navigated in range exactly as long as `down` waits for a command.** -/
theorem history_in_range (k : KeyboardDevice) (video : Int → u16) {es : List Event}
    (hrun : Run step Answers (boot k video) es s) :
    s.console.editor.Ranged ∧ ∀ e t, s.step e = some t → (t.console.editor.Ranged ↔ s.Answers e) := by
  have hboot : (boot k video).InRange := by
    obtain ⟨m, st, heq, -⟩ := VirtualConsole.new_eq video
    rw [boot, heq]
    exact ⟨⟨by simp, by simp, by simp⟩, ⟨by simp [VirtualConsole.editor], by simp [VirtualConsole.editor]⟩, by simp⟩
  have h := hrun.invariant InRange (fun s e t h hrule ht =>
    ⟨(step_editor h.rowed ht).1, (h.step ht).1.mpr hrule, (h.step ht).2⟩) hboot
  exact ⟨h.ranged, fun e t ht => (h.step ht).1⟩

/-- A command entered and brought back, and `down` pressed behind it. -/
theorem history_in_range_entered :
    ∃ s, follow step Answers (boot ⟨false, false⟩ fun _ => 0)
        [.irq 0x1E silent, .irq 0x1C silent, .irq 0x48 silent] = some s ∧
      s.console.editor.Ranged ∧ ∀ t, s.step (.irq 0x50 silent) = some t → t.console.editor.Ranged := by
  have hfollow : (follow step Answers (boot ⟨false, false⟩ fun _ => 0)
      [.irq 0x1E silent, .irq 0x1C silent, .irq 0x48 silent]).map
        (fun s => decide (s.Answers (.irq 0x50 silent))) = some true := by
    decide +kernel
  obtain ⟨s, hs, hanswers⟩ := Option.map_eq_some_iff.mp hfollow
  obtain ⟨h, hstep⟩ := history_in_range _ _ (run_iff_follow.mpr hs)
  exact ⟨s, hs, h, fun t ht => (hstep _ t ht).mpr (of_decide_eq_true hanswers)⟩

/-- The first key is `down`. -/
theorem empty_history_looked_up :
    ∃ s, Run step (fun _ _ => True) (boot ⟨false, false⟩ fun _ => 0) [.irq 0x50 silent] s ∧
      s.console.commandIndex = 1 ∧ s.console.lookups = [(1, 0)] ∧ ¬s.console.editor.Ranged := by
  have hfollow : (follow step (fun _ _ => True) (boot ⟨false, false⟩ fun _ => 0) [.irq 0x50 silent]).map
      (fun s => (s.console.commandIndex, s.console.lookups)) = some (1, [(1, 0)]) := by
    decide +kernel
  obtain ⟨s, hs, hboth⟩ := Option.map_eq_some_iff.mp hfollow
  obtain ⟨hindex, hlookups⟩ := Prod.mk.inj hboth
  refine ⟨s, run_iff_follow.mpr hs, hindex, hlookups, fun h => ?_⟩
  have hmem : (1, 0) ∈ s.console.lookups := by
    rw [hlookups]
    exact List.mem_singleton_self _
  have := (h.lookups (1, 0) hmem).2
  omega

end System

end UntitledOS.Console
