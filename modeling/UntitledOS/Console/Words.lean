import UntitledOS.Console.Screen
import UntitledOS.Filesystem.Fat12List
import UntitledOS.Y.StringSplit

/-! The words of a command, and of a name in the root directory.

`runCommand` and `list` split a string at its spaces and read words by index. The guards
are about the string, not about its words: a line that is not empty, an entry in use. A
string of spaces has no words, and the first one is read all the same. With one other
character every read is in range (`words_in_range_iff`), and then what an index outside of
a vector finds makes no difference (`runCommand_stray`, `listed_isSome_iff`). -/
namespace UntitledOS
open Lib
open Y (String)

/-! ### The reads -/

namespace Console.VirtualConsole

/-- The indices of `split` that `runCommand` reads, in order. -/
def wordReads (a : Surroundings) (wholeCommand : List u8) : List Nat :=
  if wholeCommand.length > 0 then
    let split := String.tokens 0x20 wholeCommand
    let command := split[0]?.getD a.stray
    0 :: if command ∈ [ascii ['t', 'i', 'm', 'e'], ascii ['d', 'a', 't', 'e'], ascii ['u', 'p', 't', 'i', 'm', 'e'],
        ascii ['r', 'a', 'm'], ascii ['m', 'e', 'm']] then []
      else if command = ascii ['o', 'p', 'e', 'n'] ∧ split.length > 1 then [1]
      else if command = ascii ['l', 's'] then []
      else if command = ascii ['w', 'r', 'i', 't', 'e'] ∧ split.length > 2 then
        List.range' 2 (split.length - 2) ++ [1]
      else []
  else []

end Console.VirtualConsole

namespace Filesystem.FAT12

/-- The indices of `split` that `list` reads for the name of an entry. -/
def listReads (attributes : u8) (fname : List u8) : List Nat :=
  if attributes = 0x10 then []
  else if attributes = 0x0 then
    let split := String.tokens 0x20 fname
    if split.length ≥ 2 then [0, split.length - 1] else [0]
  else []

/-- Whatever the name of an entry is, its words are read in range. -/
def EntryInRange (m : MOUNT_INFO) (after : Nat → List u8) (d : Disk) (slot : Nat × Nat) : Prop :=
  ∀ name, fname (d (m.rootOffset + slot.1)) slot.2 (after slot.1) = some name →
    ∀ k ∈ listReads (attributes (d (m.rootOffset + slot.1)) slot.2) name, k < (String.tokens 0x20 name).length

end Filesystem.FAT12

/-! ### A first word -/

theorem Y.String.tokens_pos_iff {delim : u8} {cs : List u8} :
    0 < (tokens delim cs).length ↔ ∃ c ∈ cs, c ≠ delim := by
  obtain ⟨htokens, hflatten⟩ := tokens_runs delim cs
  rw [List.length_pos_iff]
  constructor
  · intro hne
    obtain ⟨t, ts, hts⟩ := List.exists_cons_of_ne_nil hne
    have ht : t ∈ tokens delim cs := hts ▸ List.mem_cons_self ..
    obtain ⟨c, hc⟩ := List.exists_mem_of_ne_nil t (htokens t ht).1
    have hmem : c ∈ cs.filter (· ≠ delim) := hflatten ▸ List.mem_flatten.mpr ⟨t, ht, hc⟩
    exact ⟨c, List.mem_of_mem_filter hmem, fun heq => (htokens t ht).2 (heq ▸ hc)⟩
  · intro h hnil
    obtain ⟨c, hc, hne⟩ := h
    rw [hnil, List.flatten_nil] at hflatten
    have hmem : c ∈ cs.filter (· ≠ delim) := List.mem_filter.mpr ⟨hc, decide_eq_true hne⟩
    rw [← hflatten] at hmem
    exact List.not_mem_nil hmem

namespace Console.VirtualConsole

/-- The guards are right about the other words. -/
theorem wordReads_in_range {a : Surroundings} {wholeCommand : List u8} (h : wholeCommand ≠ []) :
    (∀ k ∈ wordReads a wholeCommand, k < (String.tokens 0x20 wholeCommand).length) ↔
      0 < (String.tokens 0x20 wholeCommand).length := by
  rw [wordReads, if_pos (List.length_pos_iff.mpr h), List.forall_mem_cons]
  refine and_iff_left_of_imp fun hpos k hk => ?_
  split_ifs at hk with hfixed hopen hls hwrite
  · exact absurd hk List.not_mem_nil
  · rw [List.mem_singleton.mp hk]
    exact hopen.2
  · exact absurd hk List.not_mem_nil
  · rcases List.mem_append.mp hk with hk | hk
    · rw [List.mem_range'_1] at hk
      omega
    · rw [List.mem_singleton.mp hk]
      exact Nat.lt_of_succ_lt hwrite.2
  · exact absurd hk List.not_mem_nil

/-- With all reads in range, what lies outside of a vector does not matter. -/
theorem runCommand_stray {a : Surroundings} {wholeCommand : List u8}
    (h : ∀ k ∈ wordReads a wholeCommand, k < (String.tokens 0x20 wholeCommand).length) (stray : List u8)
    (s : VirtualConsole) : s.runCommand {a with stray := stray} wholeCommand = s.runCommand a wholeCommand := by
  by_cases hempty : wholeCommand = []
  · rw [hempty]
    rfl
  · have hfirst := (wordReads_in_range hempty).mp h
    have hword : (String.tokens 0x20 wholeCommand)[0]? = some (String.tokens 0x20 wholeCommand)[0] :=
      List.getElem?_eq_getElem hfirst
    simp only [runCommand, answer, hword, Option.getD_some]

end Console.VirtualConsole

namespace Filesystem.FAT12

/-- Without attributes, the last word is in range if the first one is. -/
theorem listReads_in_range {name : List u8} :
    (∀ k ∈ listReads 0 name, k < (String.tokens 0x20 name).length) ↔ 0 < (String.tokens 0x20 name).length := by
  have hreads : listReads 0 name = if (String.tokens 0x20 name).length ≥ 2 then
      [0, (String.tokens 0x20 name).length - 1] else [0] := rfl
  rw [hreads]
  split <;> simp

section Entries
variable {m : MOUNT_INFO} {after : Nat → List u8} {beyond : Nat × Nat → List u8} {d : Disk} {slot : Nat × Nat}

/-- Without attributes, the name ends at the attributes at the latest. -/
theorem fname_eq (hslot : slot ∈ slots) (hattributes : attributes (d (m.rootOffset + slot.1)) slot.2 = 0)
    (after : List u8) :
    fname (d (m.rootOffset + slot.1)) slot.2 after = some ((nameBytes m d slot).takeWhile (· ≠ 0)) := by
  have hi := (mem_slots.mp hslot).2
  have hsplit : (List.range (512 - 32 * slot.2)).map (fun k => d (m.rootOffset + slot.1) (32 * slot.2 + k)) ++ after =
      nameBytes m d slot ++
        0 :: ((List.range (500 - 32 * slot.2)).map (fun k => slotByte m d slot (12 + k)) ++ after) := by
    rw [show 512 - 32 * slot.2 = 11 + 1 + (500 - 32 * slot.2) by omega, List.range_add, List.range_succ,
      List.map_append, List.map_append, List.map_map, ← hattributes]
    simp [nameBytes, slotByte, attributes, Function.comp_def]
  rw [fname, hsplit, Buffer.cString_zero]

theorem entryInRange_iff (hslot : slot ∈ slots) (hattributes : attributes (d (m.rootOffset + slot.1)) slot.2 = 0) :
    EntryInRange m after d slot ↔ ∃ c ∈ (nameBytes m d slot).takeWhile (· ≠ 0), c ≠ 0x20 := by
  rw [EntryInRange, fname_eq hslot hattributes, hattributes, ← String.tokens_pos_iff, ← listReads_in_range]
  constructor
  · exact fun h => h _ rfl
  · intro h name hname
    rw [← Option.some.inj hname]
    exact h

/-- And an entry with any has no words read. -/
theorem entryInRange_of_attributes (hattributes : attributes (d (m.rootOffset + slot.1)) slot.2 ≠ 0) :
    EntryInRange m after d slot := by
  intro name _ k hk
  rw [listReads, if_neg hattributes] at hk
  split at hk <;> exact absurd hk List.not_mem_nil

/-- An entry whose name ends is listed exactly if its words are read in range. -/
theorem listed_isSome_iff (hends : (fname (d (m.rootOffset + slot.1)) slot.2 (after slot.1)).isSome) :
    (listed m after beyond d slot).isSome ↔ EntryInRange m after d slot := by
  obtain ⟨name, hname⟩ := Option.isSome_iff_exists.mp hends
  by_cases hattributes : attributes (d (m.rootOffset + slot.1)) slot.2 = 0
  · have hwords : EntryInRange m after d slot ↔ 0 < (String.tokens 0x20 name).length := by
      rw [EntryInRange, hname, hattributes, ← listReads_in_range]
      exact ⟨fun h => h name rfl, fun h name' heq => Option.some.inj heq ▸ h⟩
    rw [hwords, listed, hname, Option.bind_some, hattributes, if_neg (by decide), if_pos rfl]
    cases hsplit : String.tokens 0x20 name with
    | nil => simp
    | cons t ts =>
      simp only
      split <;> simp
  · refine iff_of_true ?_ (entryInRange_of_attributes hattributes)
    rw [listed, hname, Option.bind_some, if_neg hattributes]
    split <;> rfl

end Entries

end Filesystem.FAT12

/-! ### Every read -/

open Console Filesystem Filesystem.FAT12

/-- **Words are read in range exactly if there are any**, in a line that is not empty and in the
name of an entry without attributes. -/
theorem words_in_range_iff (a : Console.Surroundings) (wholeCommand : List u8) (m : MOUNT_INFO) (after : Nat → List u8)
    (d : Disk) :
    ((∀ k ∈ VirtualConsole.wordReads a wholeCommand, k < (String.tokens 0x20 wholeCommand).length) ↔
      wholeCommand = [] ∨ ∃ c ∈ wholeCommand, c ≠ 0x20) ∧
    ((∀ slot ∈ slots, slotByte m d slot 0 ≠ 0 → EntryInRange m after d slot) ↔
      ∀ slot ∈ slots, slotByte m d slot 0 ≠ 0 → attributes (d (m.rootOffset + slot.1)) slot.2 = 0 →
        ∃ c ∈ (nameBytes m d slot).takeWhile (· ≠ 0), c ≠ 0x20) := by
  constructor
  · by_cases hempty : wholeCommand = []
    · rw [hempty]
      exact iff_of_true (fun k hk => absurd hk List.not_mem_nil) (Or.inl rfl)
    · rw [VirtualConsole.wordReads_in_range hempty, String.tokens_pos_iff, or_iff_right hempty]
  · refine forall₃_congr fun slot hslot _ => ?_
    by_cases hattributes : attributes (d (m.rootOffset + slot.1)) slot.2 = 0
    · rw [entryInRange_iff hslot hattributes, imp_iff_right hattributes]
    · exact iff_of_true (entryInRange_of_attributes hattributes) fun h => absurd h hattributes

/-- A line of one space, and a root directory whose first entry is named with spaces. -/
theorem spaces_out_of_range :
    (¬∀ k ∈ VirtualConsole.wordReads silent [0x20], k < (String.tokens 0x20 [0x20]).length) ∧
      ¬EntryInRange ⟨0, 0, 0⟩ (fun _ => []) (fun _ k => if k < 11 then 0x20 else 0) (0, 0) := by
  have htokens : String.tokens 0x20 [0x20] = [] := by decide
  constructor
  · intro h
    exact absurd ((VirtualConsole.wordReads_in_range (by simp)).mp h) (by rw [htokens]; decide)
  · rw [entryInRange_iff (mem_slots.mpr ⟨by decide, by decide⟩) rfl]
    decide

end UntitledOS
