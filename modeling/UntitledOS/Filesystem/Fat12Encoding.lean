import UntitledOS.Filesystem.Fat12Lookup

/-! The eleven characters of a name, and the characters they are made from.

Three methods turn a name into eleven characters with the same two loops. The first stops
at a dot in the one place where a name with an extension of three characters has it; the
second takes the last three characters, whatever they are. So the result is the name's form
exactly for extensions of three characters, and for these two names have one form exactly
when they differ in case only (`names_encode`). No loop looks at the length: names without
that dot need eight characters, or they are read beyond their end. And `directory` copies
the whole name into a field of 32 bytes, for a long name when its first eight and last three
characters are those of an entry (`names_in_bounds`). -/
namespace UntitledOS.Filesystem
open Lib Y

namespace FAT12

/-! ### The form of a name -/

section Form
variable {base base' ext ext' : List u8}

/-- A name as it is written: a base, and maybe a dot with an extension. -/
def spelled (base : List u8) (ext : Option (List u8)) : List u8 := base ++ ext.elim [] (0x2e :: ·)

/-- The loops make of the name the form it should have. -/
def Encodes (base : List u8) (ext : Option (List u8)) : Prop :=
  dosName (spelled base ext) = some (nameForm base (ext.getD []))

theorem takeWhile_spaces (h : 0x20 ∉ base) (n : Nat) :
    (base ++ List.replicate n (0x20 : u8)).takeWhile (· ≠ 0x20) = base := by
  have hall : ∀ c ∈ base, decide (c ≠ 0x20) = true := by
    intro c hc
    rw [decide_eq_true_iff]
    rintro rfl
    exact h hc
  rw [List.takeWhile_append_of_pos hall, List.takeWhile_replicate, if_neg (by decide), List.append_nil]

/-- The form of a short name tells its base and its extension. -/
theorem padded_inj (h : ShortName base ext) (h' : ShortName base' ext') (heq : padded base ext = padded base' ext') :
    base = base' ∧ ext = ext' := by
  have hle := h.le
  have hle' := h'.le
  obtain ⟨hbase, hext⟩ := List.append_inj heq (by
    simp only [List.length_append, List.length_replicate]
    omega)
  constructor
  · rw [← takeWhile_spaces h.free.1 (8 - base.length), hbase, takeWhile_spaces h'.free.1]
  · rw [← takeWhile_spaces h.free.2 (3 - ext.length), hext, takeWhile_spaces h'.free.2]

/-- No character of a name is a space, nor becomes one. -/
theorem spelled_upper {ext : Option (List u8)} (h : TypedName base (ext.getD [])) :
    0x20 ∉ (spelled base ext).map String.upper := by
  intro hmem
  obtain ⟨c, hc, hspace⟩ := List.mem_map.mp hmem
  rw [upper_space] at hspace
  subst hspace
  rcases List.mem_append.mp hc with hbase | hrest
  · exact (h.chars _ (List.mem_append_left _ hbase)).2.1 rfl
  · cases ext with
    | none => cases hrest
    | some ext =>
      rcases List.mem_cons.mp hrest with hdot | hext
      · exact absurd hdot (by decide)
      · exact (h.chars _ (List.mem_append_right _ hext)).2.1 rfl

/-- With three characters the extension is in its place; with fewer, the last character of the
name is where a space belongs. -/
theorem encodes_iff {ext : Option (List u8)} (h : TypedName base (ext.getD [])) :
    Encodes base ext ↔ (ext.getD []).length = 3 := by
  constructor
  · intro hencodes
    have hlast := (dosName_last hencodes).2
    have hpad := h.upper.padded_last
    rw [List.length_map] at hpad
    refine hpad.mp fun hspace => ?_
    have hmem := List.mem_of_getLast? (hlast.symm.trans hspace)
    exact spelled_upper h hmem
  · intro hthree
    cases ext with
    | none => cases hthree
    | some ext => exact dosName_form h.le hthree

/-- **A name gets its form, and the form tells the name but for case, exactly for extensions of
three characters.** -/
theorem names_encode {ext ext' : Option (List u8)} (h : TypedName base (ext.getD []))
    (h' : TypedName base' (ext'.getD [])) :
    (Encodes base ext ∧ Encodes base' ext' ∧ (dosName (spelled base ext) = dosName (spelled base' ext') ↔
      (spelled base ext).map String.upper = (spelled base' ext').map String.upper)) ↔
      (ext.getD []).length = 3 ∧ (ext'.getD []).length = 3 := by
  constructor
  · rintro ⟨hencodes, hencodes', -⟩
    exact ⟨(encodes_iff h).mp hencodes, (encodes_iff h').mp hencodes'⟩
  · rintro ⟨hthree, hthree'⟩
    have hencodes := (encodes_iff h).mpr hthree
    have hencodes' := (encodes_iff h').mpr hthree'
    refine ⟨hencodes, hencodes', ?_⟩
    rw [hencodes, hencodes', Option.some.injEq]
    cases ext with
    | none => cases hthree
    | some ext =>
      cases ext' with
      | none => cases hthree'
      | some ext' =>
        have hmap : ∀ base ext : List u8, (spelled base (some ext)).map String.upper =
            base.map String.upper ++ 0x2e :: ext.map String.upper := by
          intro base ext
          rw [spelled, List.map_append]
          rfl
        rw [hmap, hmap]
        constructor
        · intro hform
          obtain ⟨hbase, hext⟩ := padded_inj h.upper h'.upper hform
          rw [hbase]
          exact congrArg (base'.map String.upper ++ 0x2e :: ·) hext
        · intro hname
          obtain ⟨hbase, hext⟩ := List.append_inj' hname (by
            simp only [List.length_cons, List.length_map]
            exact congrArg (· + 1) (hthree.trans hthree'.symm))
          rw [nameForm, nameForm, hbase]
          exact congrArg (padded (base'.map String.upper)) (List.cons.inj hext).2

/-- `readme.txt` and `README.TXT` get the same form. -/
theorem names_encode_readme :
    Encodes readmeBase (some readmeExt) ∧ Encodes (readmeBase.map String.upper) (some (readmeExt.map String.upper)) ∧
      (dosName (spelled readmeBase (some readmeExt)) =
          dosName (spelled (readmeBase.map String.upper) (some (readmeExt.map String.upper))) ↔
        (spelled readmeBase (some readmeExt)).map String.upper =
          (spelled (readmeBase.map String.upper) (some (readmeExt.map String.upper))).map String.upper) :=
  (names_encode (show TypedName _ ((some readmeExt : Option (List u8)).getD []) from
    ⟨by decide, by decide, by decide, by decide⟩)
    (show TypedName _ ((some (readmeExt.map String.upper) : Option (List u8)).getD []) from
      ⟨by decide, by decide, by decide, by decide⟩)).mpr ⟨rfl, rfl⟩

/-- `MAKEFILE` becomes `MAKEFILEILE`. -/
theorem extension_invented : ¬ ∀ (base base' : List u8) (ext ext' : Option (List u8)), TypedName base (ext.getD []) →
    TypedName base' (ext'.getD []) →
    Encodes base ext ∧ Encodes base' ext' ∧ (dosName (spelled base ext) = dosName (spelled base' ext') ↔
      (spelled base ext).map String.upper = (spelled base' ext').map String.upper) := by
  intro h
  have hname : TypedName [0x4d, 0x41, 0x4b, 0x45, 0x46, 0x49, 0x4c, 0x45] ((none : Option (List u8)).getD []) :=
    ⟨by decide, by decide, by decide, by decide⟩
  have hencodes : dosName [0x4d, 0x41, 0x4b, 0x45, 0x46, 0x49, 0x4c, 0x45] =
      some [0x4d, 0x41, 0x4b, 0x45, 0x46, 0x49, 0x4c, 0x45, 0x20, 0x20, 0x20] := (h _ _ none none hname hname).1
  exact absurd hencodes (by decide)

end Form

/-! ### What is read of a name -/

/-- The positions of the first loop. It stops at a position inside, whatever lies beyond the name. -/
def baseReads (upper : List u8) (i : Nat) : Nat → List Int
  | 0 => []
  | n + 1 => i :: if upper[i]? = some 0x2e ∧ (i : Int) = upper.length - 4 then [] else baseReads upper (i + 1) n

/-- The positions of the second loop. -/
def extensionReads (upper : List u8) (i : Nat) : Nat → List Int
  | 0 => []
  | n + 1 => ((upper.length : Int) - i - 1) :: extensionReads upper (i + 1) n

/-- The positions at which `directory` and `writetest` read the name in capitals. -/
def nameReads (name : List u8) : List Int :=
  baseReads (name.map String.upper) 0 8 ++ extensionReads (name.map String.upper) 0 3

/-- The name is read inside, and copied only where it fits `FILE.name`. -/
structure NamesInBounds (m : MOUNT_INFO) (after : Nat → List u8) (name : List u8) (d : Disk) : Prop where
  reads : ∀ k ∈ nameReads name, 0 ≤ k ∧ k < name.length
  copy : ∀ slot, found m after name d = some (some slot) → name.length ≤ 32

/-- What a long name is looked up as. -/
def longForm (name : List u8) : List u8 :=
  (name.map String.upper).take 8 ++ (name.map String.upper).drop (name.length - 3)

section Reads
variable (upper : List u8) (i n : Nat)

/-- A loop has its result exactly if it reads inside. -/
theorem dosBase_isSome (dosName : List u8) :
    (dosBase upper i n dosName).isSome ↔ ∀ k ∈ baseReads upper i n, 0 ≤ k ∧ k < upper.length := by
  induction n generalizing i dosName with
  | zero => simp [dosBase, baseReads]
  | succ n ih =>
    rw [dosBase, baseReads, List.forall_mem_cons]
    cases hchar : upper[i]? with
    | none =>
      have hend : upper.length ≤ i := List.getElem?_eq_none_iff.mp hchar
      rw [Option.bind_none]
      exact iff_of_false (by simp) fun h => by omega
    | some c =>
      have hin : i < upper.length := (List.getElem?_eq_some_iff.mp hchar).1
      have hread : (0 : Int) ≤ i ∧ (i : Int) < upper.length := by omega
      rw [Option.bind_some, and_iff_right hread]
      by_cases hstop : c = 0x2e ∧ (i : Int) = upper.length - 4
      · rw [if_pos hstop, if_pos ⟨congrArg some hstop.1, hstop.2⟩]
        simp
      · rw [if_neg hstop, if_neg fun h => hstop ⟨Option.some.inj h.1, h.2⟩]
        exact ih _ _

theorem dosExtension_isSome (dosName : List u8) :
    (dosExtension upper i n dosName).isSome ↔ ∀ k ∈ extensionReads upper i n, 0 ≤ k ∧ k < upper.length := by
  induction n generalizing i dosName with
  | zero => simp [dosExtension, extensionReads]
  | succ n ih =>
    rw [dosExtension, extensionReads, List.forall_mem_cons]
    by_cases hin : i < upper.length
    · have hread : (0 : Int) ≤ upper.length - i - 1 ∧ (upper.length : Int) - i - 1 < upper.length := by omega
      rw [if_pos hin, List.getElem?_eq_getElem (by omega), Option.bind_some, and_iff_right hread]
      exact ih _ _
    · rw [if_neg hin, Option.bind_none]
      exact iff_of_false (by simp) fun h => by omega

/-- The last characters are there, if there are any to read. -/
theorem extensionReads_inside : (∀ k ∈ extensionReads upper i n, 0 ≤ k ∧ k < upper.length) ↔
    n = 0 ∨ i + n ≤ upper.length := by
  induction n generalizing i with
  | zero => simp [extensionReads]
  | succ n ih =>
    rw [extensionReads, List.forall_mem_cons, ih]
    omega

/-- The first loop reads inside where the characters suffice, or where it meets the dot. -/
theorem baseReads_inside : (∀ k ∈ baseReads upper i n, 0 ≤ k ∧ k < upper.length) ↔
    n = 0 ∨ i + n ≤ upper.length ∨ ∃ j, i ≤ j ∧ j < i + n ∧ j + 4 = upper.length ∧ upper[j]? = some 0x2e := by
  induction n generalizing i with
  | zero => simp [baseReads]
  | succ n ih =>
    rw [baseReads, List.forall_mem_cons]
    by_cases hstop : upper[i]? = some 0x2e ∧ (i : Int) = upper.length - 4
    · rw [if_pos hstop]
      have hdot : ∃ j, i ≤ j ∧ j < i + (n + 1) ∧ j + 4 = upper.length ∧ upper[j]? = some 0x2e :=
        ⟨i, le_refl i, by omega, by omega, hstop.1⟩
      exact iff_of_true ⟨⟨by omega, by omega⟩, by simp⟩ (.inr (.inr hdot))
    · rw [if_neg hstop, ih]
      constructor
      · rintro ⟨⟨-, hin⟩, hzero | hlen | ⟨j, hle, hlt, hdot⟩⟩
        · exact .inr (.inl (by omega))
        · exact .inr (.inl (by omega))
        · exact .inr (.inr ⟨j, by omega, by omega, hdot⟩)
      · rintro (hzero | hlen | ⟨j, hle, hlt, hend, hdot⟩)
        · cases hzero
        · exact ⟨⟨by omega, by omega⟩, .inr (.inl (by omega))⟩
        · have hne : j ≠ i := by
            rintro rfl
            exact hstop ⟨hdot, by omega⟩
          exact ⟨⟨by omega, by omega⟩, .inr (.inr ⟨j, by omega, by omega, hend, hdot⟩)⟩

end Reads

section Bounds
variable {m : MOUNT_INFO} {d : Disk} {name : List u8}

theorem nameReads_inside : (∀ k ∈ nameReads name, 0 ≤ k ∧ k < name.length) ↔
    8 ≤ name.length ∨ 4 ≤ name.length ∧ name[name.length - 4]? = some 0x2e := by
  have hlen : (name.map String.upper).length = name.length := List.length_map ..
  have hbase := baseReads_inside (name.map String.upper) 0 8
  have hlast := extensionReads_inside (name.map String.upper) 0 3
  rw [hlen] at hbase hlast
  rw [nameReads, List.forall_mem_append, hbase, hlast]
  have hdot : ∀ j : Nat, (name.map String.upper)[j]? = some 0x2e ↔ name[j]? = some 0x2e := by
    intro j
    rw [List.getElem?_map, Option.map_eq_some_iff]
    constructor
    · rintro ⟨c, hc, hupper⟩
      rw [hc, upper_dot.mp hupper]
    · intro h
      exact ⟨_, h, by decide⟩
  constructor
  · rintro ⟨hzero | hlong | ⟨j, -, hj, hend, hj'⟩, -⟩
    · cases hzero
    · exact .inl (by omega)
    · refine .inr ⟨by omega, ?_⟩
      rw [← hdot, ← hj']
      exact congrArg ((name.map String.upper)[·]?) (by omega)
  · rintro (hlong | ⟨hfour, hdotted⟩)
    · exact ⟨.inr (.inl (by omega)), by omega⟩
    · refine ⟨?_, by omega⟩
      by_cases hlong : 8 ≤ name.length
      · exact .inr (.inl (by omega))
      · exact .inr (.inr ⟨name.length - 4, by omega, by omega, by omega, (hdot _).mpr hdotted⟩)

/-- A name has a form exactly if it is read inside. -/
theorem dosName_isSome : (dosName name).isSome ↔ ∀ k ∈ nameReads name, 0 ≤ k ∧ k < name.length := by
  have hlen : (name.map String.upper).length = name.length := List.length_map ..
  have hbase := dosBase_isSome (name.map String.upper) 0 8 (List.replicate 11 0x20)
  have hlast := dosExtension_isSome (name.map String.upper) 0 3
  simp only [hlen] at hbase hlast
  rw [nameReads, List.forall_mem_append, ← hbase, dosName]
  cases hdn : dosBase (name.map String.upper) 0 8 (List.replicate 11 0x20) with
  | none => simp
  | some dn => simp only [Option.bind_some, Option.isSome_some, true_and, hlast]

theorem found_long (after : Nat → List u8) (hlong : 32 < name.length) :
    (∃ slot, found m after name d = some (some slot)) ↔
      0 ∉ longForm name ∧ ∃ slot ∈ slots, Bears m d (longForm name) slot := by
  have hdn : dosName name = some (longForm name) := by
    rw [dosName_undotted fun i hi _ => by omega, if_pos (by omega)]
    rfl
  rw [found_iff after]
  constructor
  · rintro ⟨dn, hdn', hzero, hslot⟩
    obtain rfl := Option.some.inj (hdn.symm.trans hdn')
    exact ⟨hzero, hslot⟩
  · rintro ⟨hzero, hslot⟩
    exact ⟨_, hdn, hzero, hslot⟩

/-- **Names are handled in bounds exactly if** they have eight characters or their dot in its place,
and a name of more than 32 has no entry with its first eight and last three. -/
theorem names_in_bounds (m : MOUNT_INFO) (after : Nat → List u8) (name : List u8) (d : Disk) :
    NamesInBounds m after name d ↔
      (8 ≤ name.length ∨ 4 ≤ name.length ∧ name[name.length - 4]? = some 0x2e) ∧
      (32 < name.length → 0 ∉ longForm name → ∀ slot ∈ slots, ¬Bears m d (longForm name) slot) := by
  rw [← nameReads_inside]
  constructor
  · rintro ⟨hreads, hcopy⟩
    refine ⟨hreads, fun hlong hzero slot hslot hbears => ?_⟩
    obtain ⟨slot', hfound⟩ := (found_long after hlong).mpr ⟨hzero, slot, hslot, hbears⟩
    exact absurd (hcopy slot' hfound) (by omega)
  · rintro ⟨hreads, hlongs⟩
    refine ⟨hreads, fun slot hfound => ?_⟩
    by_contra hlong
    obtain ⟨hzero, slot', hslot', hbears⟩ := (found_long after (by omega)).mp ⟨slot, hfound⟩
    exact hlongs (by omega) hzero slot' hslot' hbears

/-- Of `A.B`, five characters are read that are not there. -/
theorem short_name_overread : ¬ ∀ (m : MOUNT_INFO) (after : Nat → List u8) (name : List u8) (d : Disk),
    NamesInBounds m after name d := by
  intro h
  have hreads := (h floppy (fun _ => []) [0x41, 0x2e, 0x42] blank).reads
  exact absurd (nameReads_inside.mp hreads) (by decide)

end Bounds

end FAT12

end UntitledOS.Filesystem
