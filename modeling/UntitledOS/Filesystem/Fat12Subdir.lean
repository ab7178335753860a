import UntitledOS.Filesystem.Fat12Lookup

/-! Looking a name up in a subdirectory.

The loop of `openSubDir` asks whether the directory it was given has ended, and reads from
the record that it fills in for its result. So the directory plays no part: what is searched
is the chain behind whatever cluster the stack held, over and over at its end, until an
entry of the name comes up (`subDirLoop_iff`). The result is right exactly if this entry
says the same as the directory's (`subdirectory_exact`). -/
namespace UntitledOS.Filesystem
open Lib Y

namespace FAT12

/-! ### The search -/

/-- The entry of this name in a sector. -/
def entryNamed (d : Disk) (dn : List u8) (sector : Nat) : Option Nat :=
  (List.range 16).find? fun i => (List.range 12).map (fun k => d sector (32 * i + k)) = dn ++ [0]

/-- The sector that `read` takes for a cluster. -/
def sectorRead (cluster : u32) : Nat := (32 + cluster - 1).toNat

/-- The cluster `read` goes on with. At the end it is the same again. -/
def onward (d : Disk) (cluster : u32) : u32 :=
  if ahead d cluster = 0 then cluster else BitVec.ofNat 32 (ahead d cluster)

/-- Reading on from a cluster, the first entry of the name is in this sector. -/
inductive Meets (d : Disk) (dn : List u8) : u32 → Nat → Nat → Prop where
  | here {cluster : u32} {i : Nat} : entryNamed d dn (sectorRead cluster) = some i →
      Meets d dn cluster (sectorRead cluster) i
  | onward {cluster : u32} {sector i : Nat} : entryNamed d dn (sectorRead cluster) = none →
      Meets d dn (onward d cluster) sector i → Meets d dn cluster sector i

/-- What `openSubDir` makes of an entry. -/
def subOpened (d : Disk) (name : List u8) (sector i : Nat) : FILE where
  name := name
  flags := if attributes (d sector) i = 0x10 then FS_DIRECTORY else FS_FILE
  fileLength := size (d sector) i
  id := 0
  eof := 0
  currentCluster := (firstClusterLow (d sector) i).setWidth 32

theorem subOpened_flags (d : Disk) (name : List u8) (sector i : Nat) :
    (subOpened d name sector i).flags ≠ FS_INVALID := by
  show (if attributes (d sector) i = 0x10 then FS_DIRECTORY else FS_FILE) ≠ FS_INVALID
  split <;> decide

section Search
variable {d : Disk} {name dn : List u8} {file kFile : FILE}

/-- The comparisons of a turn, whatever is behind the buffer. -/
theorem find_entryNamed (hlen : dn.length = 11) (hzero : 0 ∉ dn) (sector : Nat) (after : List u8) :
    ((List.range 16).find? fun i => fname (d sector) i after = some dn) = entryNamed d dn sector := by
  refine List.find?_congr fun i hi => ?_
  have hslot : (0, i) ∈ slots := mem_slots.mpr ⟨Nat.succ_pos 13, List.mem_range.mp hi⟩
  exact decide_eq_decide.mpr (fname_iff (m := ⟨1, 0, sector⟩) hlen hzero hslot after)

/-- A turn of the loop, while the directory given has not ended. -/
theorem subDirLoop_turn (heof : kFile.eof = 0) (hlen : dn.length = 11) (hzero : 0 ∉ dn) (after : Nat → List u8)
    (file : FILE) (fuel : Nat) :
    subDirLoop after kFile name dn d (fuel + 1) file =
      match entryNamed d dn (sectorRead file.currentCluster) with
      | some i => some (subOpened d name (sectorRead file.currentCluster) i)
      | none => subDirLoop after kFile name dn d fuel (read file d).1 := by
  have hbuf : (read file d).2 = d (sectorRead file.currentCluster) := by
    rw [read_ahead]
    rfl
  rw [subDirLoop, if_pos heof]
  dsimp only
  rw [subDirScan, hbuf, find_entryNamed hlen hzero]
  cases entryNamed d dn (sectorRead file.currentCluster) <;> rfl

theorem read_onward (file : FILE) : (read file d).1.currentCluster = onward d file.currentCluster := by
  rw [read_ahead, onward]
  split <;> rfl

/-- The loop has a result exactly if it meets an entry. -/
theorem subDirLoop_iff (heof : kFile.eof = 0) (hlen : dn.length = 11) (hzero : 0 ∉ dn) (after : Nat → List u8)
    {r : FILE} : (∃ fuel, subDirLoop after kFile name dn d fuel file = some r) ↔
      ∃ sector i, Meets d dn file.currentCluster sector i ∧ r = subOpened d name sector i := by
  constructor
  · rintro ⟨fuel, hloop⟩
    induction fuel generalizing file with
    | zero =>
      rw [subDirLoop, if_pos heof] at hloop
      cases hloop
    | succ fuel ih =>
      rw [subDirLoop_turn heof hlen hzero] at hloop
      cases hentry : entryNamed d dn (sectorRead file.currentCluster) with
      | some i =>
        rw [hentry] at hloop
        exact ⟨_, i, .here hentry, (Option.some.inj hloop).symm⟩
      | none =>
        rw [hentry] at hloop
        obtain ⟨sector, i, hmeets, hr⟩ := ih hloop
        rw [read_onward] at hmeets
        exact ⟨sector, i, .onward hentry hmeets, hr⟩
  · rintro ⟨sector, i, hmeets, rfl⟩
    generalize hcluster : file.currentCluster = cluster at hmeets
    induction hmeets generalizing file with
    | here hentry =>
      subst hcluster
      refine ⟨1, ?_⟩
      rw [subDirLoop_turn heof hlen hzero, hentry]
    | onward hentry _ ih =>
      subst hcluster
      obtain ⟨fuel, hloop⟩ := ih (read_onward file)
      refine ⟨fuel + 1, ?_⟩
      rw [subDirLoop_turn heof hlen hzero, hentry]
      exact hloop

/-- At an end without an entry of the name, nothing is met. -/
theorem not_meets {cluster : u32} (hend : onward d cluster = cluster)
    (hnone : entryNamed d dn (sectorRead cluster) = none) {sector i : Nat} : ¬Meets d dn cluster sector i := by
  intro hmeets
  induction hmeets with
  | here hentry => exact Option.some_ne_none _ (hentry.symm.trans hnone)
  | onward _ _ ih =>
    rw [hend] at ih
    exact ih hend hnone

/-- A directory that has ended is not searched. -/
theorem subDirLoop_ended (heof : kFile.eof ≠ 0) (after : Nat → List u8) (fuel : Nat) :
    subDirLoop after kFile name dn d fuel file = some {file with flags := FS_INVALID} := by
  cases fuel <;> rw [subDirLoop, if_neg heof]

end Search

/-! ### The directory -/

/-- The first entry with these eleven bytes, whatever else is in it, in these clusters. -/
def firstEntry (d : Disk) (cs : List Nat) (dn : List u8) : Option (Nat × Nat) :=
  (cs ×ˢ List.range 16).find? fun (c, i) => (List.range 11).map (fun k => d (31 + c) (32 * i + k)) = dn

/-- Looking up a name ends with what the first entry with its eleven bytes says, and with
`FS_INVALID` if there is none. -/
def SubLooksUp (after : Nat → List u8) (file kFile : FILE) (base ext : List u8) (d : Disk) (cs : List Nat) : Prop :=
  ∃ fuel r, openSubDir after file kFile (base ++ 0x2e :: ext) d fuel = some r ∧
    match firstEntry d cs (nameForm base ext) with
    | some (c, i) => r.flags ≠ FS_INVALID ∧ r.currentCluster = (firstClusterLow (d (31 + c)) i).setWidth 32 ∧
      r.fileLength = size (d (31 + c)) i
    | none => r.flags = FS_INVALID

section Directory
variable {d : Disk} {base ext : List u8} {file kFile : FILE} {cs : List Nat}

/-- **A name is looked up right in a subdirectory exactly if** the directory has not ended and the
entry that is met from the cluster on the stack says the same as its first entry of the name, or it
has ended and has no such entry. -/
theorem subdirectory_exact (after : Nat → List u8) (file kFile : FILE) (d : Disk) (hbase : base.length ≤ 8)
    (hext : ext.length = 3) (hchars : 0 ∉ base ++ ext) (_ : Chain 0 (next d) kFile.currentCluster.toNat cs) :
    SubLooksUp after file kFile base ext d cs ↔
      if kFile.eof = 0 then
        ∃ c i sector j, firstEntry d cs (nameForm base ext) = some (c, i) ∧
          Meets d (nameForm base ext) file.currentCluster sector j ∧
          firstClusterLow (d sector) j = firstClusterLow (d (31 + c)) i ∧ size (d sector) j = size (d (31 + c)) i
      else firstEntry d cs (nameForm base ext) = none := by
  have hdn := dosName_form hbase hext
  obtain ⟨hlen, -⟩ := dosName_last hdn
  have hzero := nameForm_nonzero hchars
  have hopen : ∀ fuel, openSubDir after file kFile (base ++ 0x2e :: ext) d fuel =
      subDirLoop after kFile (base ++ 0x2e :: ext) (nameForm base ext) d fuel file := by
    intro fuel
    rw [openSubDir, hdn, Option.bind_some]
  rw [SubLooksUp]
  by_cases heof : kFile.eof = 0
  · have hloop : ∀ P : FILE → Prop,
        (∃ fuel r, openSubDir after file kFile (base ++ 0x2e :: ext) d fuel = some r ∧ P r) ↔
        ∃ sector j, Meets d (nameForm base ext) file.currentCluster sector j ∧
          P (subOpened d (base ++ 0x2e :: ext) sector j) := by
      intro P
      constructor
      · rintro ⟨fuel, r, hr, hP⟩
        obtain ⟨sector, j, hmeets, rfl⟩ := (subDirLoop_iff heof hlen hzero after).mp ⟨fuel, (hopen fuel).symm.trans hr⟩
        exact ⟨sector, j, hmeets, hP⟩
      · rintro ⟨sector, j, hmeets, hP⟩
        obtain ⟨fuel, hr⟩ := (subDirLoop_iff heof hlen hzero after).mpr ⟨sector, j, hmeets, rfl⟩
        exact ⟨fuel, _, (hopen fuel).trans hr, hP⟩
    rw [hloop, if_pos heof]
    cases hentry : firstEntry d cs (nameForm base ext) with
    | none =>
      refine iff_of_false ?_ ?_
      · rintro ⟨sector, j, -, hinvalid⟩
        exact subOpened_flags d _ sector j hinvalid
      · rintro ⟨c, i, sector, j, hsome, -⟩
        cases hsome
    | some slot =>
      constructor
      · rintro ⟨sector, j, hmeets, -, hcluster, hsize⟩
        exact ⟨slot.1, slot.2, sector, j, rfl, hmeets, setWidth_inj.mp hcluster, hsize⟩
      · rintro ⟨c, i, sector, j, hslot, hmeets, hcluster, hsize⟩
        obtain rfl := Option.some.inj hslot
        exact ⟨sector, j, hmeets, subOpened_flags d _ sector j, setWidth_inj.mpr hcluster, hsize⟩
  · rw [if_neg heof]
    simp only [hopen, subDirLoop_ended heof, Option.some.injEq, exists_eq_left', exists_const]
    cases firstEntry d cs (nameForm base ext) with
    | none => exact iff_of_true trivial rfl
    | some slot => exact iff_of_false (fun h => h.1 rfl) (Option.some_ne_none slot)

/-- A directory in cluster 2 with the entry of `README.TXT`, and nothing else. -/
def subdirectory : Disk := fun s k =>
  if s = 33 then (fileEntry (nameForm readmeBase readmeExt) 0).bytes[k]?.getD 0
  else image (fun k => if k = 0 then 0xFF0 else if k < 3 then 0xFFF else 0) [] s k

theorem subdirectory_chain : Chain 0 (next subdirectory) 2 [2] := by
  have hlast : next subdirectory 2 = 0 := by decide +kernel
  exact .cons (by decide) (hlast ▸ .nil)

/-- With the directory's own cluster on the stack, the entry is found. -/
theorem subdirectory_exact_readme :
    SubLooksUp (fun _ => []) ⟨[], 0, 0, 0, 0, 2⟩ ⟨[], 1, 0, 0, 0, 2⟩ readmeBase readmeExt
      subdirectory [2] := by
  have hentry : firstEntry subdirectory [2] (nameForm readmeBase readmeExt) = some (2, 0) := by decide +kernel
  have hmeets : entryNamed subdirectory (nameForm readmeBase readmeExt) (sectorRead 2) = some 0 := by decide +kernel
  exact (subdirectory_exact (fun _ => []) ⟨[], 0, 0, 0, 0, 2⟩ ⟨[], 1, 0, 0, 0, 2⟩ subdirectory (by decide) rfl
    (by decide) subdirectory_chain).mpr ⟨2, 0, _, 0, hentry, .here hmeets, rfl, rfl⟩

/-- With an empty cluster on the stack, the entry is looked for there for ever. -/
theorem subdirectory_missed : ¬ ∀ (after : Nat → List u8) (file kFile : FILE) (base ext : List u8) (d : Disk)
    (cs : List Nat), base.length ≤ 8 → ext.length = 3 → 0 ∉ base ++ ext →
    Chain 0 (next d) kFile.currentCluster.toNat cs → SubLooksUp after file kFile base ext d cs := by
  intro h
  obtain ⟨fuel, r, hr, -⟩ := h (fun _ => []) ⟨[], 0, 0, 0, 0, 3⟩ ⟨[], 1, 0, 0, 0, 2⟩ readmeBase readmeExt
    subdirectory [2] (by decide) rfl (by decide) subdirectory_chain
  have hdn : dosName (readmeBase ++ 0x2e :: readmeExt) = some (nameForm readmeBase readmeExt) := by decide
  rw [openSubDir, hdn, Option.bind_some] at hr
  obtain ⟨sector, j, hmeets, -⟩ := (subDirLoop_iff rfl rfl (by decide) _).mp ⟨fuel, hr⟩
  have hend : onward subdirectory 3 = 3 := by decide +kernel
  have hempty : entryNamed subdirectory (nameForm readmeBase readmeExt) (sectorRead 3) = none := by decide +kernel
  exact not_meets hend hempty hmeets

end Directory

end FAT12

end UntitledOS.Filesystem
