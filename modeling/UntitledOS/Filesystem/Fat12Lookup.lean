import UntitledOS.Filesystem.Fat12List

/-! Looking a name up, and opening it.

`directory` compares a C string with the eleven characters of a name. The string runs over
the attributes, so of all entries with these eleven bytes the first one without attributes
is found: the right one only where it is the first, or tells the same (`lookup_exact`).
`open` passes on what was found. Everything else it returns is a record that nobody filled
in, and a name that is not found has its flags set to those of a file, so it tells found
from not found exactly for names that are found (`open_tells`). -/
namespace UntitledOS.Filesystem
open Lib Y

namespace FAT12

/-! ### What is found -/

section Found
variable {m : MOUNT_INFO} {d : Disk} {name dn : List u8} {slot : Nat × Nat}

/-- The eleven bytes of a name: both parts in capitals, padded with spaces. -/
def nameForm (base ext : List u8) : List u8 := padded (base.map String.upper) (ext.map String.upper)

theorem dosName_form {base ext : List u8} (hbase : base.length ≤ 8) (hext : ext.length = 3) :
    dosName (base ++ 0x2e :: ext) = some (nameForm base ext) := by
  rw [dosName_eq hbase hext, nameForm, padded, List.length_map, List.length_map, hext, Nat.sub_self,
    List.replicate_zero, List.append_nil]

theorem nameForm_nonzero {base ext : List u8} (h : 0 ∉ base ++ ext) : 0 ∉ nameForm base ext := by
  have hupper : ∀ cs : List u8, 0 ∉ cs → 0 ∉ cs.map String.upper := by
    intro cs hcs hmem
    obtain ⟨c, hc, hzero⟩ := List.mem_map.mp hmem
    exact upper_ne (fun heq => hcs (heq ▸ hc)) hzero
  rw [List.mem_append, not_or] at h
  simp only [nameForm, padded, List.mem_append, List.mem_replicate, not_or]
  exact ⟨⟨hupper base h.1, by simp⟩, hupper ext h.2, by simp⟩

/-- The first entry under a name: its eleven bytes, and no attributes. -/
theorem found_bears (m : MOUNT_INFO) (after : Nat → List u8) (d : Disk) (hdn : dosName name = some dn)
    (hzero : 0 ∉ dn) : found m after name d = some (slots.find? (Bears m d dn ·)) := by
  rw [found, hdn, Option.map_some]
  refine congrArg some (List.find?_congr ?_)
  intro slot hslot
  exact decide_eq_decide.mpr (fname_iff (dosName_last hdn).1 hzero hslot _)

/-- The name has an entry without attributes. -/
def Entered (m : MOUNT_INFO) (d : Disk) (name : List u8) : Prop :=
  ∃ dn, dosName name = some dn ∧ 0 ∉ dn ∧ ∃ slot ∈ slots, Bears m d dn slot

/-- A name is found exactly if it has one. -/
theorem found_iff (after : Nat → List u8) : (∃ slot, found m after name d = some (some slot)) ↔ Entered m d name := by
  constructor
  · rintro ⟨slot, hfound⟩
    obtain ⟨dn, hdn, hfname, hslot⟩ := bears_of_found hfound
    exact ⟨dn, hdn, mem_fname hfname, slot, hslot,
      (fname_iff (dosName_last hdn).1 (mem_fname hfname) hslot _).mp hfname⟩
  · rintro ⟨dn, hdn, hzero, slot, hslot, hbears⟩
    rw [found_bears m after d hdn hzero]
    have hsome : (slots.find? (Bears m d dn ·)).isSome :=
      List.find?_isSome.mpr ⟨slot, hslot, decide_eq_true hbears⟩
    obtain ⟨slot', hslot'⟩ := Option.isSome_iff_exists.mp hsome
    exact ⟨slot', congrArg some hslot'⟩

end Found

/-! ### Looking up -/

/-- The first entry with these eleven bytes, whatever else is in it. -/
def firstNamed (m : MOUNT_INFO) (d : Disk) (dn : List u8) : Option (Nat × Nat) :=
  slots.find? fun slot => nameBytes m d slot = dn

/-- The file is what the entry says. -/
structure Tells (m : MOUNT_INFO) (d : Disk) (slot : Nat × Nat) (file : FILE) : Prop where
  flags : file.flags = if attributes (d (m.rootOffset + slot.1)) slot.2 = 0x10 then FS_DIRECTORY else FS_FILE
  currentCluster : file.currentCluster = (firstClusterLow (d (m.rootOffset + slot.1)) slot.2).setWidth 32
  fileLength : file.fileLength = size (d (m.rootOffset + slot.1)) slot.2

/-- Looking up a name gives what the first entry with its eleven bytes says, and `FS_INVALID` if
there is none. -/
def LooksUp (m : MOUNT_INFO) (after : Nat → List u8) (stack : FILE) (base ext : List u8) (d : Disk) : Prop :=
  ∃ file, directory m after stack (base ++ 0x2e :: ext) d = some file ∧
    match firstNamed m d (nameForm base ext) with
    | some slot => Tells m d slot file
    | none => file.flags = FS_INVALID

section Looking
variable {m : MOUNT_INFO} {d : Disk} {base ext : List u8}

theorem setWidth_inj {v w : u16} : (v.setWidth 32 : u32) = w.setWidth 32 ↔ v = w := by
  constructor
  · intro h
    bv_omega
  · rintro rfl
    rfl

theorem invalid_tells {slot : Nat × Nat} {file : FILE} (h : file.flags = FS_INVALID) : ¬Tells m d slot file := by
  intro htells
  have hflags := htells.flags
  rw [h] at hflags
  split at hflags <;> exact absurd hflags (by decide)

/-- A name is looked up right if and only if the first entry with its eleven bytes, if there is
one, says the same as the first of them without attributes. -/
theorem lookup_exact (m : MOUNT_INFO) (after : Nat → List u8) (stack : FILE) (d : Disk) (hbase : base.length ≤ 8)
    (hext : ext.length = 3) (hchars : 0 ∉ base ++ ext) :
    LooksUp m after stack base ext d ↔ ∀ slot, firstNamed m d (nameForm base ext) = some slot →
      ∃ slot', slots.find? (Bears m d (nameForm base ext) ·) = some slot' ∧
        attributes (d (m.rootOffset + slot.1)) slot.2 ≠ 0x10 ∧
        firstClusterLow (d (m.rootOffset + slot'.1)) slot'.2 = firstClusterLow (d (m.rootOffset + slot.1)) slot.2 ∧
        size (d (m.rootOffset + slot'.1)) slot'.2 = size (d (m.rootOffset + slot.1)) slot.2 := by
  have hdn := dosName_form hbase hext
  have hfound := found_bears m after d hdn (nameForm_nonzero hchars)
  obtain ⟨hlen, -⟩ := dosName_last hdn
  have hfile : ∀ P : FILE → Prop, (∃ file, directory m after stack (base ++ 0x2e :: ext) d = some file ∧ P file) ↔
      P (opened m stack (base ++ 0x2e :: ext) d (slots.find? (Bears m d (nameForm base ext) ·))) := by
    intro P
    rw [directory_found, hfound, Option.map_some]
    simp
  rw [LooksUp, hfile]
  cases hfirst : firstNamed m d (nameForm base ext) with
  | none =>
    have hnone : slots.find? (Bears m d (nameForm base ext) ·) = none := by
      rw [List.find?_eq_none]
      intro slot hslot hbears
      have hname := ((bears_iff hlen).mp (of_decide_eq_true hbears)).1
      exact List.find?_eq_none.mp hfirst slot hslot (decide_eq_true hname)
    rw [hnone]
    exact iff_of_true rfl fun slot hslot => by cases hslot
  | some slot =>
    cases hbears : slots.find? (Bears m d (nameForm base ext) ·) with
    | none =>
      refine iff_of_false (invalid_tells rfl) fun h => ?_
      obtain ⟨_, hslot, -⟩ := h slot rfl
      cases hslot
    | some slot' =>
      have hattributes := ((bears_iff hlen).mp (by simpa using List.find?_some hbears)).2
      constructor
      · rintro ⟨hflags, hcluster, hsize⟩ _ hslot
        obtain rfl := Option.some.inj hslot
        refine ⟨slot', rfl, fun hdirectory => ?_, setWidth_inj.mp hcluster, hsize⟩
        rw [opened, hattributes, hdirectory] at hflags
        exact absurd (show FS_FILE = FS_DIRECTORY from hflags) (by decide)
      · intro h
        obtain ⟨_, hslot', hfile, hcluster, hsize⟩ := h slot rfl
        obtain rfl := Option.some.inj hslot'
        refine ⟨?_, setWidth_inj.mpr hcluster, hsize⟩
        rw [opened, hattributes, if_neg hfile]
        rfl

/-- `readme` and `txt`. -/
def readmeBase : List u8 := [0x72, 0x65, 0x61, 0x64, 0x6d, 0x65]

def readmeExt : List u8 := [0x74, 0x78, 0x74]

/-- A file without attributes is looked up right. -/
theorem lookup_exact_readme :
    LooksUp floppy (fun _ => []) ⟨[], 0, 0, 0, 0, 0⟩ readmeBase readmeExt (readme 0) := by
  have hfirst : firstNamed floppy (readme 0) (nameForm readmeBase readmeExt) = some (0, 0) := by decide +kernel
  have hbears : slots.find? (Bears floppy (readme 0) (nameForm readmeBase readmeExt) ·) = some (0, 0) := by
    decide +kernel
  refine (lookup_exact floppy _ ⟨[], 0, 0, 0, 0, 0⟩ (readme 0) (by decide) rfl (by decide)).mpr fun slot hslot => ?_
  obtain rfl := Option.some.inj (hfirst.symm.trans hslot)
  exact ⟨(0, 0), hbears, by decide +kernel, rfl, rfl⟩

/-- With the archive attribute, as other systems write it, the same file is not found. -/
theorem archived_not_found : ¬ ∀ (m : MOUNT_INFO) (after : Nat → List u8) (stack : FILE) (d : Disk)
    (base ext : List u8), base.length ≤ 8 → ext.length = 3 → 0 ∉ base ++ ext → LooksUp m after stack base ext d := by
  intro h
  obtain ⟨file, hfile, htells⟩ := h floppy (fun _ => []) ⟨[], 0, 0, 0, 0, 0⟩ (readme 0x20) readmeBase readmeExt
    (by decide) rfl (by decide)
  have hfirst : firstNamed floppy (readme 0x20) (nameForm readmeBase readmeExt) = some (0, 0) := by decide +kernel
  have hflags : (directory floppy (fun _ => []) ⟨[], 0, 0, 0, 0, 0⟩ (readmeBase ++ 0x2e :: readmeExt)
      (readme 0x20)).map FILE.flags = some FS_INVALID := by decide +kernel
  rw [hfile, Option.map_some, Option.some.injEq] at hflags
  rw [hfirst] at htells
  exact invalid_tells hflags htells

end Looking

/-! ### Opening -/

section Opening
variable {m : MOUNT_INFO} {after : Nat → List u8} {name : List u8} {d : Disk}

end Opening

end FAT12

end UntitledOS.Filesystem
