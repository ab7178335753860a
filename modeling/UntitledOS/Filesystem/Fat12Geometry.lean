import UntitledOS.Filesystem.Fat12List
import UntitledOS.Lib.Move

/-! The sectors that the driver accesses, and where the boot sector says they are.

The layout of a volume follows from its boot sector: reserved sectors, the copies of the FAT,
the root directory, the clusters. The driver takes the start of the root directory from the
number of FATs and their size; that one sector is reserved, that the root directory has 14
sectors, that cluster 2 is sector 33 and that a cluster is one sector are literals of its
methods. `accesses` is what a call reads and writes, in the order of the calls of
`IDE::readSector` and `writeSector` and with what each is for; a call depends on these sectors
only and changes no other (`read_footprint`, `root_footprint`, `writetest_footprint`). They
lie where the geometry says exactly on volumes whose geometry is that of the literals
(`regions_follow`), as long as no entry is read from the last sector of the FAT, for `read`
looks at the sector behind it too. -/
namespace UntitledOS.Filesystem
open Lib

/-- The fields of the boot sector that make the layout. -/
structure BOOTSECTOR where
  bytesPerSector : u16
  sectorsPerCluster : u8
  reservedSectors : u16
  FATs : u8
  directoryEntries : u16
  sectorsPerFAT : u16

namespace FAT12

def bootsector (d : Disk) : BOOTSECTOR where
  bytesPerSector := Packed.word (d 0 11) (d 0 12)
  sectorsPerCluster := d 0 13
  reservedSectors := Packed.word (d 0 14) (d 0 15)
  FATs := d 0 16
  directoryEntries := Packed.word (d 0 17) (d 0 18)
  sectorsPerFAT := Packed.word (d 0 22) (d 0 23)

/-- What a sector is accessed for: entries of the FAT, the root directory, or the data of a
cluster. -/
inductive Use where
  | FAT
  | root
  | data (cluster : Nat)

structure Access where
  use : Use
  sector : Nat

/-! ### The layout -/

section Layout
variable (b : BOOTSECTOR)

def rootStart : Nat := b.reservedSectors.toNat + b.FATs.toNat * b.sectorsPerFAT.toNat

def rootSize : Nat := b.directoryEntries.toNat * 32 / b.bytesPerSector.toNat

def dataStart : Nat := rootStart b + rootSize b

/-- The sectors that belong to a use. -/
def region : Use → Finset Nat
  | .FAT => Finset.Ico b.reservedSectors.toNat (b.reservedSectors.toNat + b.sectorsPerFAT.toNat)
  | .root => Finset.Ico (rootStart b) (dataStart b)
  | .data cluster => Finset.Ico (dataStart b + (cluster - 2) * b.sectorsPerCluster.toNat)
      (dataStart b + (cluster - 2) * b.sectorsPerCluster.toNat + b.sectorsPerCluster.toNat)

/-- A boot sector of a volume with sectors of 512 bytes. -/
structure Mountable : Prop where
  bytesPerSector : b.bytesPerSector = 512
  sectorsPerCluster : 1 ≤ b.sectorsPerCluster.toNat
  reservedSectors : 1 ≤ b.reservedSectors.toNat
  FATs : 1 ≤ b.FATs.toNat
  sectorsPerFAT : 1 ≤ b.sectorsPerFAT.toNat
  root : b.directoryEntries.toNat * 32 % 512 = 0

end Layout

theorem mount_bootsector (d : Disk) : mount d =
    ⟨1, (bootsector d).sectorsPerFAT.toNat,
      (bootsector d).FATs.toNat * (bootsector d).sectorsPerFAT.toNat + 1⟩ := rfl

/-! ### The calls -/

def readAccesses (file : FILE) : List Access :=
  let physSector : u32 := 32 + file.currentCluster - 1
  let FATOffset : u32 := file.currentCluster + file.currentCluster / 2
  let FATSector := 1 + FATOffset.toNat / SECTOR_SIZE
  [⟨.data file.currentCluster.toNat, physSector.toNat⟩, ⟨.FAT, FATSector⟩, ⟨.FAT, FATSector + 1⟩]

/-- Numbers that do not wrap are where the entries and the data of clusters are. -/
theorem readAccesses_small {file : FILE} (h : file.currentCluster.toNat < 2 ^ 31) :
    readAccesses file = [⟨.data file.currentCluster.toNat, 32 + file.currentCluster.toNat - 1⟩,
      ⟨.FAT, 1 + (file.currentCluster.toNat + file.currentCluster.toNat / 2) / SECTOR_SIZE⟩,
      ⟨.FAT, 1 + (file.currentCluster.toNat + file.currentCluster.toNat / 2) / SECTOR_SIZE + 1⟩] := by
  have hsector : 31 + file.currentCluster.toNat = 32 + file.currentCluster.toNat - 1 := by omega
  simp only [readAccesses, physSector_eq h, FATOffset_eq h, hsector]

/-- The loop over the root directory, up to the slot where it stops. -/
def rootAccesses (m : MOUNT_INFO) : Option (Nat × Nat) → List Access
  | some (sector, _) => (List.range (sector + 1)).map fun sector => ⟨.root, m.rootOffset + sector⟩
  | none => (List.range 14).map fun sector => ⟨.root, m.rootOffset + sector⟩

/-- The loop of `findSectors`. -/
def findAccesses (m : MOUNT_INFO) (behind : Nat → u8) (sectorCount : Nat) (d : Disk) :
    Nat → Nat → List Nat → List Access
  | 0, _, _ => []
  | n + 1, j, sectors => ⟨.FAT, m.FATOffset + j⟩ ::
    match scan (readSector (m.FATOffset + j) (behind j) d) sectorCount 512 0 0 0 sectors with
    | (_, true) => []
    | (sectors, false) => findAccesses m behind sectorCount d n (j + 1) sectors

/-- `updateFAT` reads a sector and writes it back. -/
def updateAccesses (S : List Nat) : List Access :=
  S.map fun cluster => ⟨.FAT, 1 + (cluster + cluster / 2) / SECTOR_SIZE⟩

def chunkAccesses (S : List Nat) : List Access := S.map fun cluster => ⟨.data cluster, 32 + cluster - 1⟩

def writetestAccesses (m : MOUNT_INFO) (s : Surroundings) (filename : List u8) (len : Nat) (d : Disk) :
    Option (List Access) :=
  (dosName filename).bind fun _ =>
    let sectorCount := if len % SECTOR_SIZE = 0 then len / SECTOR_SIZE else len / SECTOR_SIZE + 1
    (findSectors m s.behind sectorCount d).bind fun sectors =>
      let search := findAccesses m s.behind sectorCount d m.FATSize 0 []
      match sectors with
      | [] => some search
      | first :: rest =>
        match slots.find? fun (sector, i) => d (m.rootOffset + sector) (32 * i) = 0 with
        | none => some (search ++ rootAccesses m none)
        | some (sector, i) =>
          some (search ++ rootAccesses m (some (sector, i)) ++ ⟨.root, m.rootOffset + sector⟩ ::
            updateAccesses (first :: rest) ++ chunkAccesses (first :: rest))

/-- A call of the driver. `open` is a call of `directory`. -/
inductive Request where
  | directory (dirName : List u8)
  | list
  | read (file : FILE)
  | writetest (around : Surroundings) (filename : List u8) (len : Nat)

def accesses (m : MOUNT_INFO) (after : Nat → List u8) (d : Disk) : Request → Option (List Access)
  | .directory dirName => (found m after dirName d).map (rootAccesses m)
  | .list => some (rootAccesses m none)
  | .read file => some (readAccesses file)
  | .writetest around filename len => writetestAccesses m around filename len d

/-- The call looks at the whole root directory: it lists it, or it searches it in vain. -/
def exhausts (m : MOUNT_INFO) (after : Nat → List u8) (d : Disk) : Request → Prop
  | .directory dirName => found m after dirName d = some none
  | .list => True
  | _ => False

/-- The accesses of a call follow the layout: each lies where its use says, of a cluster all
sectors are accessed, and of the root directory when the call looks at the whole of it. -/
structure Follows (b : BOOTSECTOR) (accesses : List Access) (whole : Prop) : Prop where
  inside : ∀ a ∈ accesses, a.sector ∈ region b a.use
  clusters : ∀ a ∈ accesses, ∀ cluster, a.use = .data cluster →
    ∀ sector ∈ region b (.data cluster), ⟨.data cluster, sector⟩ ∈ accesses
  root : whole → ∀ sector ∈ region b .root, ⟨.root, sector⟩ ∈ accesses

/-- The data accessed is that of clusters of a volume on which this is the last. -/
def Within (last : Nat) (accesses : List Access) : Prop :=
  ∀ a ∈ accesses, ∀ cluster, a.use = .data cluster → 2 ≤ cluster ∧ cluster ≤ last

/-- After mounting `d₀`, every call on every disk follows the layout of `d₀`. -/
def FollowsGeometry (d₀ : Disk) (last : Nat) : Prop :=
  ∀ after d request as, accesses (mount d₀) after d request = some as → Within last as →
    Follows (bootsector d₀) as (exhausts (mount d₀) after d request)

/-- The geometry is that of the literals, and no entry lies in the last sector of the FAT. -/
structure Literal (b : BOOTSECTOR) (last : Nat) : Prop where
  reservedSectors : b.reservedSectors = 1
  directoryEntries : b.directoryEntries = 224
  sectorsPerCluster : b.sectorsPerCluster = 1
  FATs : b.FATs.toNat * b.sectorsPerFAT.toNat = 18
  last : (last + last / 2) / 512 + 2 ≤ b.sectorsPerFAT.toNat

/-! ### Nothing else matters -/

/-- The disks agree on the sectors accessed. -/
def Agree (accesses : List Access) (d e : Disk) : Prop := ∀ a ∈ accesses, e a.sector = d a.sector

section Footprint
variable {m : MOUNT_INFO} {after : Nat → List u8} {behind : Nat → u8} {d d' e : Disk} {as : List Access}

theorem read_footprint {file : FILE} (h : Agree (readAccesses file) d e) : read file e = read file d := by
  have hdata := h ⟨.data file.currentCluster.toNat, (32 + file.currentCluster - 1).toNat⟩ (by simp [readAccesses])
  have hfirst := h ⟨.FAT, 1 + (file.currentCluster + file.currentCluster / 2).toNat / SECTOR_SIZE⟩
    (by simp [readAccesses])
  have hsecond := h ⟨.FAT, 1 + (file.currentCluster + file.currentCluster / 2).toNat / SECTOR_SIZE + 1⟩
    (by simp [readAccesses])
  simp only [read, hdata, hfirst, hsecond]

theorem slots_sorted : slots.Pairwise fun slot slot' => slot.1 ≤ slot'.1 :=
  (pairwise_cells 14 16).imp fun h => h.elim le_of_lt fun h => h.1.le

/-- A search of the root directory depends on the sectors up to the one where it stops. -/
theorem find_footprint {p q : Nat × Nat → Bool} {r : Option (Nat × Nat)} (hp : slots.find? p = r)
    (h : ∀ slot ∈ slots, (⟨.root, m.rootOffset + slot.1⟩ : Access) ∈ rootAccesses m r → q slot = p slot) :
    slots.find? q = r := by
  have hsector : ∀ slot ∈ slots, (∀ slot', r = some slot' → slot.1 ≤ slot'.1) →
      (⟨.root, m.rootOffset + slot.1⟩ : Access) ∈ rootAccesses m r := by
    intro slot hslot hle
    cases r with
    | none => exact List.mem_map.mpr ⟨slot.1, List.mem_range.mpr (mem_slots.mp hslot).1, rfl⟩
    | some slot' => exact List.mem_map.mpr ⟨slot.1, List.mem_range.mpr (Nat.lt_succ_of_le (hle slot' rfl)), rfl⟩
  cases r with
  | none =>
    rw [List.find?_eq_none] at hp ⊢
    intro slot hslot
    rw [h slot hslot (hsector slot hslot fun slot' heq => by cases heq)]
    exact hp slot hslot
  | some found =>
    obtain ⟨hfound, pre, post, hsplit, hpre⟩ := List.find?_eq_some_iff_append.mp hp
    have hsorted := slots_sorted
    rw [hsplit, List.pairwise_append] at hsorted
    have hmem : ∀ slot ∈ pre ++ [found], slot ∈ slots ∧ slot.1 ≤ found.1 := by
      intro slot hslot
      rw [hsplit]
      rcases List.mem_append.mp hslot with hslot | hslot
      · exact ⟨List.mem_append_left _ hslot, hsorted.2.2 slot hslot found (List.mem_cons_self ..)⟩
      · obtain rfl := List.mem_singleton.mp hslot
        exact ⟨List.mem_append_right _ (List.mem_cons_self ..), le_refl _⟩
    have hsame : ∀ slot ∈ pre ++ [found], q slot = p slot := by
      intro slot hslot
      obtain ⟨hslot, hle⟩ := hmem slot hslot
      exact h slot hslot (hsector slot hslot fun slot' heq => Option.some.inj heq ▸ hle)
    refine List.find?_eq_some_iff_append.mpr ⟨?_, pre, post, hsplit, fun slot hslot => ?_⟩
    · rw [hsame found (List.mem_append_right _ (List.mem_singleton_self _)), hfound]
    · rw [hsame slot (List.mem_append_left _ hslot), hpre slot hslot]

theorem found_footprint {dirName : List u8} {r : Option (Nat × Nat)} (hfound : found m after dirName d = some r)
    (h : Agree (rootAccesses m r) d e) : found m after dirName e = some r := by
  obtain ⟨dn, hdn, hfind⟩ := Option.map_eq_some_iff.mp hfound
  have hfind' := find_footprint (q := fun (sector, i) =>
    decide (fname (e (m.rootOffset + sector)) i (after sector) = some dn)) hfind (m := m) (by
      intro slot _ haccess
      have hsector := h _ haccess
      simp only [hsector])
  rw [found, hdn, Option.map_some, hfind']

theorem directory_footprint {dirName : List u8} {r : Option (Nat × Nat)} (hfound : found m after dirName d = some r)
    (h : Agree (rootAccesses m r) d e) (file : FILE) :
    directory m after file dirName e = directory m after file dirName d := by
  rw [directory_found, directory_found, found_footprint hfound h, hfound]
  cases r with
  | none => rfl
  | some slot =>
    have hsector : e (m.rootOffset + slot.1) = d (m.rootOffset + slot.1) :=
      h ⟨.root, _⟩ (List.mem_map.mpr ⟨slot.1, List.mem_range.mpr (Nat.lt_succ_self _), rfl⟩)
    simp only [Option.map_some, opened, hsector]

theorem list_footprint (beyond : Nat × Nat → List u8) (h : Agree (rootAccesses m none) d e) :
    list m after beyond e = list m after beyond d := by
  have hsector : ∀ slot ∈ slots, e (m.rootOffset + slot.1) = d (m.rootOffset + slot.1) := fun slot hslot =>
    h ⟨.root, _⟩ (List.mem_map.mpr ⟨slot.1, List.mem_range.mpr (mem_slots.mp hslot).1, rfl⟩)
  have hfilter : slots.filter (fun (sector, i) => e (m.rootOffset + sector) (32 * i) ≠ 0) =
      slots.filter (fun (sector, i) => d (m.rootOffset + sector) (32 * i) ≠ 0) := by
    apply List.filter_congr
    intro slot hslot
    simp only [hsector slot hslot]
  rw [list, list, hfilter]
  apply mapM_congr
  intro slot hslot
  simp only [listed, hsector slot (mem_listed.mp hslot).1]

/-- The search for clusters depends on the sectors of the FAT that it goes through. -/
theorem findFrom_footprint {sectorCount n j : Nat} {sectors : List Nat}
    (h : Agree (findAccesses m behind sectorCount d n j sectors) d e) :
    findFrom m behind sectorCount e n j sectors = findFrom m behind sectorCount d n j sectors := by
  induction n generalizing j sectors with
  | zero => rfl
  | succ n ih =>
    have hsector : readSector (m.FATOffset + j) (behind j) e = readSector (m.FATOffset + j) (behind j) d := by
      funext k
      rw [readSector, readSector, h ⟨.FAT, _⟩ (List.mem_cons_self ..)]
    rw [findFrom, findFrom, hsector]
    rw [findAccesses] at h
    split
    · rfl
    · rename_i hscan
      rw [hscan] at h
      exact ih fun a ha => h a (List.mem_cons_of_mem _ ha)

theorem writeSector_agree (h : Agree as d e) (sector : Nat) (buf : Nat → u8) :
    Agree as (writeSector sector buf d) (writeSector sector buf e) := by
  intro a ha
  funext k
  rw [writeSector, writeSector, h a ha]

theorem updateFAT_agree {S : List Nat} (hS : ∀ a ∈ updateAccesses S, a ∈ as) (h : Agree as d e) :
    Agree as (updateFAT S d) (updateFAT S e) := by
  induction S generalizing d e with
  | nil => exact h
  | cons cluster rest ih =>
    have hsector : e (1 + (cluster + cluster / 2) / 512) = d (1 + (cluster + cluster / 2) / 512) :=
      h ⟨.FAT, _⟩ (hS _ (List.mem_cons_self ..))
    rw [updateFAT_cons, updateFAT_cons, linkEntry, linkEntry, hsector]
    exact ih (fun a ha => hS a (List.mem_cons_of_mem _ ha)) (writeSector_agree h _ _)

theorem writeChunks_agree (buffer : Nat → u8) {j : Nat} {S : List Nat} (h : Agree as d e) :
    Agree as (writeChunks buffer j S d) (writeChunks buffer j S e) := by
  induction S generalizing d e j with
  | nil => exact h
  | cons cluster rest ih => exact ih (writeSector_agree h _ _)

theorem findSectors_footprint {sectorCount : Nat}
    (h : Agree (findAccesses m behind sectorCount d m.FATSize 0 []) d e) :
    findSectors m behind sectorCount e = findSectors m behind sectorCount d := by
  rw [findSectors, findSectors, findFrom_footprint h]

theorem firstFree_footprint {r : Option (Nat × Nat)} (hfree : firstFree m d = r) (h : Agree (rootAccesses m r) d e) :
    firstFree m e = r := by
  apply find_footprint (m := m) hfree
  intro slot _ haccess
  have hsector := h _ haccess
  simp only [slotByte, hsector]
  rfl

section Writing
variable {s : Surroundings} {name dn : List u8} {len first : Nat} {rest : List Nat}
  {slot : Nat × Nat}

/-- The search of `writetest` for clusters. -/
def searched (m : MOUNT_INFO) (s : Surroundings) (len : Nat) (d : Disk) : List Access :=
  findAccesses m s.behind (if len % SECTOR_SIZE = 0 then len / SECTOR_SIZE else len / SECTOR_SIZE + 1) d m.FATSize 0 []

/-- Without clusters or without a free slot, it is searched only. -/
theorem accesses_nothing {S : List Nat} (hdn : dosName name = some dn)
    (hS : findSectors m s.behind (if len % SECTOR_SIZE = 0 then len / SECTOR_SIZE else len / SECTOR_SIZE + 1) d =
      some S) (h : S = [] ∨ firstFree m d = none) :
    writetestAccesses m s name len d = some (searched m s len d ++ if S = [] then [] else rootAccesses m none) := by
  simp only [writetestAccesses, hdn, Option.bind_some]
  rw [hS, Option.bind_some]
  cases S with
  | nil => rw [if_pos rfl, List.append_nil]; rfl
  | cons first rest =>
    rcases h with h | h
    · cases h
    · have hfree : slots.find? (fun (sector, i) => decide (d (m.rootOffset + sector) (32 * i) = 0)) = none := h
      simp only [hfree, reduceCtorEq, if_false]
      rfl

/-- With both, the entry, the FAT and the data are written. -/
theorem accesses_something (hdn : dosName name = some dn)
    (hS : findSectors m s.behind (if len % SECTOR_SIZE = 0 then len / SECTOR_SIZE else len / SECTOR_SIZE + 1) d =
      some (first :: rest)) (hslot : firstFree m d = some slot) :
    writetestAccesses m s name len d =
      some (searched m s len d ++ rootAccesses m (some slot) ++ ⟨.root, m.rootOffset + slot.1⟩ ::
        updateAccesses (first :: rest) ++ chunkAccesses (first :: rest)) := by
  have hfree : slots.find? (fun (sector, i) => decide (d (m.rootOffset + sector) (32 * i) = 0)) = some slot := hslot
  simp only [writetestAccesses, hdn, Option.bind_some]
  rw [hS, Option.bind_some]
  simp only [hfree]
  rfl

/-- A call of `writetest` changes no other sector, and what it does depends on no other. -/
theorem writetest_footprint {buffer : Nat → u8} (h : writetest m s name buffer len d = some d') :
    ∃ as, writetestAccesses m s name len d = some as ∧
      (∀ sector, (∀ a ∈ as, sector ≠ a.sector) → d' sector = d sector) ∧
      ∀ e, Agree as d e → ∃ e', writetest m s name buffer len e = some e' ∧ Agree as d' e' := by
  obtain ⟨dn, hdn, hrest⟩ := Option.bind_eq_some_iff.mp h
  obtain ⟨S, hS, -⟩ := Option.bind_eq_some_iff.mp hrest
  have hsearch : ∀ {e}, Agree (searched m s len d) d e → findSectors m s.behind
      (if len % SECTOR_SIZE = 0 then len / SECTOR_SIZE else len / SECTOR_SIZE + 1) e = some S := fun hagree =>
    (findSectors_footprint hagree).trans hS
  by_cases hnothing : S = [] ∨ firstFree m d = none
  · obtain rfl := Option.some.inj ((writetest_nothing buffer hdn hS hnothing).symm.trans h)
    refine ⟨_, accesses_nothing hdn hS hnothing, fun _ _ => rfl, fun e hagree => ⟨e, ?_, hagree⟩⟩
    have hS' := hsearch fun a ha => hagree a (List.mem_append_left _ ha)
    have hnothing' : S = [] ∨ firstFree m e = none := by
      by_cases hnil : S = []
      · exact .inl hnil
      · rw [if_neg hnil] at hagree
        exact .inr (firstFree_footprint (hnothing.resolve_left hnil) fun a ha => hagree a (List.mem_append_right _ ha))
    exact writetest_nothing buffer hdn hS' hnothing'
  · obtain ⟨hne, hfull⟩ := not_or.mp hnothing
    obtain ⟨first, rest, rfl⟩ := List.exists_cons_of_ne_nil hne
    obtain ⟨slot, hslot⟩ := Option.ne_none_iff_exists'.mp hfull
    have hwrite := writetest_something buffer hdn hS hslot
    have haccesses := accesses_something hdn hS hslot
    obtain rfl := Option.some.inj (hwrite.symm.trans h)
    refine ⟨_, haccesses, fun sector hother => ?_, fun e hagree => ?_⟩
    · -- each of the three writes leaves the sector alone
      have hdata : ∀ cluster ∈ first :: rest, sector ≠ 31 + cluster := by
        intro cluster hcluster
        have hne : sector ≠ 32 + cluster - 1 := hother ⟨.data cluster, _⟩
          (List.mem_append_right _ (List.mem_map.mpr ⟨cluster, hcluster, rfl⟩))
        omega
      have hentry : ∀ cluster ∈ first :: rest, sector ≠ 1 + (cluster + cluster / 2) / 512 := by
        intro cluster hcluster
        apply hother ⟨.FAT, _⟩
        apply List.mem_append_left
        apply List.mem_append_right
        exact List.mem_cons_of_mem _ (List.mem_map.mpr ⟨cluster, hcluster, rfl⟩)
      rw [filed, writeChunks_sector buffer hdata, updateFAT_sector hentry]
      funext k
      rw [writeSector, if_neg fun hk => hother ⟨.root, m.rootOffset + slot.1⟩ (by simp) hk.1]
    · have hsearched : Agree (searched m s len d) d e := fun a ha => hagree a (by simp [ha])
      have hroot : Agree (rootAccesses m (some slot)) d e := fun a ha => hagree a (by simp [ha])
      have hsector : e (m.rootOffset + slot.1) = d (m.rootOffset + slot.1) :=
        hagree ⟨.root, m.rootOffset + slot.1⟩ (by simp)
      have hwrite' := writetest_something buffer hdn (hsearch hsearched) (firstFree_footprint hslot hroot)
      rw [filed, hsector] at hwrite'
      refine ⟨_, hwrite', writeChunks_agree buffer (updateFAT_agree (fun a ha => ?_) (writeSector_agree hagree _ _))⟩
      simp [ha]

end Writing

end Footprint

/-! ### Where the accesses lie -/

section Places
variable {m : MOUNT_INFO} {behind : Nat → u8} {d : Disk} {a : Access}

theorem mem_rootAccesses {r : Option (Nat × Nat)} (hr : ∀ slot, r = some slot → slot ∈ slots)
    (ha : a ∈ rootAccesses m r) : ∃ k < 14, a = ⟨.root, m.rootOffset + k⟩ := by
  cases r with
  | none =>
    obtain ⟨k, hk, rfl⟩ := List.mem_map.mp ha
    exact ⟨k, List.mem_range.mp hk, rfl⟩
  | some slot =>
    obtain ⟨k, hk, rfl⟩ := List.mem_map.mp ha
    have hsector := (mem_slots.mp (hr slot rfl)).1
    have hk := List.mem_range.mp hk
    exact ⟨k, by omega, rfl⟩

theorem mem_findAccesses {sectorCount n j : Nat} {sectors : List Nat}
    (ha : a ∈ findAccesses m behind sectorCount d n j sectors) :
    ∃ k, j ≤ k ∧ k < j + n ∧ a = ⟨.FAT, m.FATOffset + k⟩ := by
  induction n generalizing j sectors with
  | zero => cases ha
  | succ n ih =>
    rw [findAccesses] at ha
    rcases List.mem_cons.mp ha with rfl | ha
    · exact ⟨j, le_refl j, by omega, rfl⟩
    · split at ha
      · cases ha
      · obtain ⟨k, hk, hk', rfl⟩ := ih ha
        exact ⟨k, by omega, by omega, rfl⟩

/-- What a call of `writetest` accesses: sectors in the FAT, sectors of the root directory, and for
the clusters it has found their entries and their data. -/
theorem mem_writetestAccesses {s : Surroundings} {filename : List u8} {len : Nat} {as : List Access}
    (h : writetestAccesses m s filename len d = some as) (ha : a ∈ as) :
    (∃ k < m.FATSize, a = ⟨.FAT, m.FATOffset + k⟩) ∨ (∃ k < 14, a = ⟨.root, m.rootOffset + k⟩) ∨
      ∃ cluster, ⟨.data cluster, 32 + cluster - 1⟩ ∈ as ∧
        (a = ⟨.FAT, 1 + (cluster + cluster / 2) / SECTOR_SIZE⟩ ∨ a = ⟨.data cluster, 32 + cluster - 1⟩) := by
  obtain ⟨dn, hdn, hrest⟩ := Option.bind_eq_some_iff.mp h
  obtain ⟨S, hS, -⟩ := Option.bind_eq_some_iff.mp hrest
  have hsearch : a ∈ searched m s len d → ∃ k < m.FATSize, a = ⟨.FAT, m.FATOffset + k⟩ := by
    intro ha
    obtain ⟨k, -, hk, rfl⟩ := mem_findAccesses ha
    exact ⟨k, by omega, rfl⟩
  by_cases hnothing : S = [] ∨ firstFree m d = none
  · have haccesses := accesses_nothing hdn hS hnothing
    obtain rfl := Option.some.inj (haccesses.symm.trans h)
    rcases List.mem_append.mp ha with ha | ha
    · exact .inl (hsearch ha)
    · split at ha
      · cases ha
      · exact .inr (.inl (mem_rootAccesses (fun slot hslot => by cases hslot) ha))
  · obtain ⟨hne, hfull⟩ := not_or.mp hnothing
    obtain ⟨first, rest, rfl⟩ := List.exists_cons_of_ne_nil hne
    obtain ⟨slot, hslot⟩ := Option.ne_none_iff_exists'.mp hfull
    have hmem : slot ∈ slots := List.mem_of_find?_eq_some hslot
    have haccesses := accesses_something hdn hS hslot
    obtain rfl := Option.some.inj (haccesses.symm.trans h)
    have hdata : ∀ cluster ∈ first :: rest, (⟨.data cluster, 32 + cluster - 1⟩ : Access) ∈ searched m s len d ++
        rootAccesses m (some slot) ++ ⟨.root, m.rootOffset + slot.1⟩ :: updateAccesses (first :: rest) ++
          chunkAccesses (first :: rest) := fun cluster hcluster =>
      List.mem_append_right _ (List.mem_map.mpr ⟨cluster, hcluster, rfl⟩)
    simp only [List.append_assoc, List.cons_append, List.mem_append, List.mem_cons] at ha
    rcases ha with ha | ha | rfl | ha | ha
    · exact .inl (hsearch ha)
    · exact .inr (.inl (mem_rootAccesses (fun slot' heq => Option.some.inj heq ▸ hmem) ha))
    · exact .inr (.inl ⟨slot.1, (mem_slots.mp hmem).1, rfl⟩)
    · obtain ⟨cluster, hcluster, rfl⟩ := List.mem_map.mp ha
      exact .inr (.inr ⟨cluster, hdata cluster hcluster, .inl rfl⟩)
    · obtain ⟨cluster, hcluster, rfl⟩ := List.mem_map.mp ha
      exact .inr (.inr ⟨cluster, hdata cluster hcluster, .inr rfl⟩)

end Places

/-! ### The layout that the literals describe -/

section Literal
variable {b : BOOTSECTOR} {last : Nat}

theorem Literal.layout (h : Literal b last) (hb : Mountable b) :
    rootStart b = 19 ∧ dataStart b = 33 ∧ b.reservedSectors.toNat = 1 ∧ b.sectorsPerCluster.toNat = 1 := by
  have hreserved : b.reservedSectors.toNat = 1 := by rw [h.reservedSectors]; rfl
  have hstart : rootStart b = 19 := by rw [rootStart, hreserved, h.FATs]
  have hdata : dataStart b = 33 := by
    rw [dataStart, hstart, rootSize, h.directoryEntries, hb.bytesPerSector]
    rfl
  exact ⟨hstart, hdata, hreserved, by rw [h.sectorsPerCluster]; rfl⟩

theorem Literal.data (h : Literal b last) (hb : Mountable b) {cluster : Nat} (hc : 2 ≤ cluster) :
    region b (.data cluster) = {32 + cluster - 1} := by
  obtain ⟨-, hdata, -, hcluster⟩ := h.layout hb
  have hplace : 33 + (cluster - 2) * 1 = 32 + cluster - 1 := by omega
  rw [region, hdata, hcluster, hplace]
  exact Nat.Ico_succ_singleton _

theorem Literal.entry (h : Literal b last) (hb : Mountable b) {cluster k : Nat} (hc : cluster ≤ last) (hk : k < 2) :
    1 + (cluster + cluster / 2) / SECTOR_SIZE + k ∈ region b .FAT := by
  obtain ⟨-, -, hreserved, -⟩ := h.layout hb
  have hlast := h.last
  have hhalf : cluster / 2 ≤ last / 2 := Nat.div_le_div_right hc
  have hsector : (cluster + cluster / 2) / 512 ≤ (last + last / 2) / 512 := Nat.div_le_div_right (by omega)
  rw [region, hreserved, Finset.mem_Ico, SECTOR_SIZE]
  omega

theorem Literal.root {d₀ : Disk} (h : Literal (bootsector d₀) last) (hb : Mountable (bootsector d₀)) {sector : Nat} :
    sector ∈ region (bootsector d₀) .root ↔ ∃ k < 14, sector = (mount d₀).rootOffset + k := by
  obtain ⟨hstart, hdata, -, -⟩ := h.layout hb
  have hoffset : (mount d₀).rootOffset = 19 := congrArg (· + 1) h.FATs
  rw [region, hstart, hdata, Finset.mem_Ico, hoffset]
  constructor
  · intro hsector
    exact ⟨sector - 19, by omega, by omega⟩
  · rintro ⟨k, hk, rfl⟩
    omega

/-- A call that only looks at the root directory. -/
theorem Literal.follows_root {d₀ : Disk} (h : Literal (bootsector d₀) last) (hb : Mountable (bootsector d₀))
    {r : Option (Nat × Nat)} {whole : Prop} (hr : ∀ slot, r = some slot → slot ∈ slots) (hwhole : whole → r = none) :
    Follows (bootsector d₀) (rootAccesses (mount d₀) r) whole := by
  constructor
  · intro a ha
    obtain ⟨k, hk, rfl⟩ := mem_rootAccesses hr ha
    exact (h.root hb).mpr ⟨k, hk, rfl⟩
  · intro a ha cluster huse
    obtain ⟨k, -, rfl⟩ := mem_rootAccesses hr ha
    cases huse
  · intro hw sector hsector
    obtain ⟨k, hk, rfl⟩ := (h.root hb).mp hsector
    rw [hwhole hw]
    exact List.mem_map.mpr ⟨k, List.mem_range.mpr hk, rfl⟩

/-- What a call that reads or writes files accesses: the FAT, the root directory, and for some
clusters their entries and their data. -/
def FileAccess (m : MOUNT_INFO) (accesses : List Access) (a : Access) : Prop :=
  (∃ k < m.FATSize, a = ⟨.FAT, m.FATOffset + k⟩) ∨ (∃ k < 14, a = ⟨.root, m.rootOffset + k⟩) ∨
    ∃ cluster, ⟨.data cluster, 32 + cluster - 1⟩ ∈ accesses ∧
      ((∃ k < 2, a = ⟨.FAT, 1 + (cluster + cluster / 2) / SECTOR_SIZE + k⟩) ∨ a = ⟨.data cluster, 32 + cluster - 1⟩)

theorem Literal.follows_files {d₀ : Disk} (h : Literal (bootsector d₀) last) (hb : Mountable (bootsector d₀))
    {as : List Access} (hwithin : Within last as) (hplaces : ∀ a ∈ as, FileAccess (mount d₀) as a) :
    Follows (bootsector d₀) as False := by
  obtain ⟨-, -, hreserved, -⟩ := h.layout hb
  constructor
  · intro a ha
    rcases hplaces a ha with ⟨k, hk, rfl⟩ | ⟨k, hk, rfl⟩ | ⟨cluster, hcluster, ⟨k, hk, rfl⟩ | rfl⟩
    · rw [region, hreserved, Finset.mem_Ico]
      exact ⟨Nat.le_add_right 1 k, Nat.add_lt_add_left hk 1⟩
    · exact (h.root hb).mpr ⟨k, hk, rfl⟩
    · exact h.entry hb (hwithin _ hcluster cluster rfl).2 hk
    · rw [h.data hb (hwithin _ hcluster cluster rfl).1]
      exact Finset.mem_singleton_self _
  · intro a ha cluster huse sector hsector
    rw [h.data hb (hwithin a ha cluster huse).1, Finset.mem_singleton] at hsector
    rw [hsector]
    rcases hplaces a ha with ⟨k, -, rfl⟩ | ⟨k, -, rfl⟩ | ⟨cluster', hcluster, ⟨k, -, rfl⟩ | rfl⟩ <;> cases huse
    exact hcluster
  · exact False.elim

/-- Every call follows such a layout. -/
theorem Literal.follows {d₀ : Disk} (h : Literal (bootsector d₀) last) (hb : Mountable (bootsector d₀)) :
    FollowsGeometry d₀ last := by
  intro after d request as haccesses hwithin
  cases request with
  | directory dirName =>
    obtain ⟨r, hfound, rfl⟩ := Option.map_eq_some_iff.mp haccesses
    apply h.follows_root hb
    · rintro slot rfl
      obtain ⟨-, -, -, hslot⟩ := bears_of_found hfound
      exact hslot
    · intro hwhole
      exact Option.some.inj (hfound.symm.trans hwhole)
  | list =>
    obtain rfl := Option.some.inj haccesses
    exact h.follows_root hb (fun slot hslot => by cases hslot) fun _ => rfl
  | read file =>
    obtain rfl := Option.some.inj haccesses
    have hsmall : file.currentCluster.toNat < 2 ^ 31 := by
      have hle := (hwithin ⟨.data file.currentCluster.toNat, _⟩ (List.mem_cons_self ..) _ rfl).2
      have hlast := h.last
      have hFAT := (bootsector d₀).sectorsPerFAT.isLt
      omega
    rw [readAccesses_small hsmall] at hwithin ⊢
    apply h.follows_files hb hwithin
    intro a ha
    refine .inr (.inr ⟨file.currentCluster.toNat, List.mem_cons_self .., ?_⟩)
    simp only [List.mem_cons, List.not_mem_nil, or_false] at ha
    rcases ha with rfl | rfl | rfl
    · exact .inr rfl
    · exact .inl ⟨0, by decide, rfl⟩
    · exact .inl ⟨1, by decide, rfl⟩
  | writetest around filename len =>
    apply h.follows_files hb hwithin
    intro a ha
    rcases mem_writetestAccesses haccesses ha with hfat | hroot | ⟨cluster, hcluster, rfl | rfl⟩
    · exact .inl hfat
    · exact .inr (.inl hroot)
    · exact .inr (.inr ⟨cluster, hcluster, .inl ⟨0, by decide, rfl⟩⟩)
    · exact .inr (.inr ⟨cluster, hcluster, .inr rfl⟩)

/-- What is read of a cluster. -/
theorem FollowsGeometry.read {d₀ : Disk} (h : FollowsGeometry d₀ last) {cluster : Nat} (hlow : 2 ≤ cluster)
    (hlast : cluster ≤ last) (hsmall : cluster < 2 ^ 31) : Follows (bootsector d₀)
      [⟨.data cluster, 32 + cluster - 1⟩, ⟨.FAT, 1 + (cluster + cluster / 2) / 512⟩,
        ⟨.FAT, 1 + (cluster + cluster / 2) / 512 + 1⟩] False := by
  have hfile : (BitVec.ofNat 32 cluster).toNat = cluster := by
    rw [BitVec.toNat_ofNat]
    exact Nat.mod_eq_of_lt (by omega)
  have haccesses : readAccesses ⟨[], 0, 0, 0, 0, BitVec.ofNat 32 cluster⟩ =
      [⟨.data cluster, 32 + cluster - 1⟩, ⟨.FAT, 1 + (cluster + cluster / 2) / 512⟩,
        ⟨.FAT, 1 + (cluster + cluster / 2) / 512 + 1⟩] := by
    rw [readAccesses_small (by rw [hfile]; exact hsmall), hfile]
    rfl
  refine h (fun _ => []) d₀ (.read ⟨[], 0, 0, 0, 0, BitVec.ofNat 32 cluster⟩) _ (congrArg some haccesses) ?_
  intro a ha cluster' huse
  simp only [List.mem_cons, List.not_mem_nil, or_false] at ha
  rcases ha with rfl | rfl | rfl <;> cases huse
  exact ⟨hlow, hlast⟩

/-- And no other layout is followed: listing tells where the root directory is, reading cluster 2
where the clusters are, and reading the last cluster where the FAT ends. -/
theorem literal_of_follows {d₀ : Disk} (hb : Mountable (bootsector d₀)) (hlow : 2 ≤ last)
    (h : FollowsGeometry d₀ last) : Literal (bootsector d₀) last := by
  obtain ⟨hbytes, hcluster, hreserved, -, -, hwhole⟩ := hb
  have hlist : Follows (bootsector d₀) (rootAccesses (mount d₀) none) True := by
    refine h (fun _ => []) d₀ .list _ rfl fun a ha cluster huse => ?_
    obtain ⟨k, -, rfl⟩ := mem_rootAccesses (fun slot hslot => by cases hslot) ha
    cases huse
  have hfirst := h.read (le_refl 2) hlow (by decide)
  have hlast : ∀ cluster, 2 ≤ cluster → cluster ≤ last → cluster < 2 ^ 31 →
      1 + (cluster + cluster / 2) / 512 + 1 ∈ region (bootsector d₀) .FAT := fun cluster hlow hle hsmall =>
    (h.read hlow hle hsmall).inside ⟨.FAT, 1 + (cluster + cluster / 2) / 512 + 1⟩ (by simp)
  have hstart : ∀ k < 14, (mount d₀).rootOffset + k ∈ region (bootsector d₀) .root := fun k hk =>
    hlist.inside ⟨.root, _⟩ (List.mem_map.mpr ⟨k, List.mem_range.mpr hk, rfl⟩)
  have hend : ∀ sector ∈ region (bootsector d₀) .root, ∃ k < 14, (mount d₀).rootOffset + k = sector := by
    intro sector hsector
    obtain ⟨k, hk, heq⟩ := List.mem_map.mp (hlist.root trivial sector hsector)
    cases heq
    exact ⟨k, List.mem_range.mp hk, rfl⟩
  have hdata : ∀ sector ∈ region (bootsector d₀) (.data 2), sector = 33 := by
    intro sector hsector
    have hmem := hfirst.clusters ⟨.data 2, _⟩ (List.mem_cons_self ..) 2 rfl sector hsector
    simpa using hmem
  have hoffset : (mount d₀).rootOffset = (bootsector d₀).FATs.toNat * (bootsector d₀).sectorsPerFAT.toNat + 1 :=
    congrArg MOUNT_INFO.rootOffset (mount_bootsector d₀)
  have hsize : rootSize (bootsector d₀) = (bootsector d₀).directoryEntries.toNat * 32 / 512 := by
    rw [rootSize, hbytes]
    rfl
  generalize bootsector d₀ = b at *
  simp only [region, Finset.mem_Ico, hoffset, dataStart, rootStart] at hlast hstart hend hdata
  have hsmall : last < 2 ^ 30 := by
    -- no FAT has an entry for a larger number
    by_contra hlarge
    have hentry := (hlast (2 ^ 30) (by decide) (by omega) (by decide)).2
    have hFAT := b.sectorsPerFAT.isLt
    have hstart := b.reservedSectors.isLt
    omega
  have hlast := hlast last hlow (le_refl last) (by omega)
  obtain ⟨hroot, -⟩ := hstart 0 (by decide)
  obtain ⟨-, hroot'⟩ := hstart 13 (by decide)
  obtain ⟨k, hk, hlastRoot⟩ := hend
    (b.reservedSectors.toNat + b.FATs.toNat * b.sectorsPerFAT.toNat + rootSize b - 1) ⟨by omega, by omega⟩
  have hfirstData := hdata (b.reservedSectors.toNat + b.FATs.toNat * b.sectorsPerFAT.toNat + rootSize b)
    ⟨by omega, by omega⟩
  have hlastData := hdata (b.reservedSectors.toNat + b.FATs.toNat * b.sectorsPerFAT.toNat + rootSize b +
    b.sectorsPerCluster.toNat - 1) ⟨by omega, by omega⟩
  refine ⟨BitVec.eq_of_toNat_eq ?_, BitVec.eq_of_toNat_eq ?_, BitVec.eq_of_toNat_eq ?_, by omega, by omega⟩
  · show b.reservedSectors.toNat = 1
    omega
  · show b.directoryEntries.toNat = 224
    omega
  · show b.sectorsPerCluster.toNat = 1
    omega

end Literal

/-- **The accesses follow the layout exactly on volumes with the geometry of the literals**, up to
a last cluster whose entry lies in front of the last sector of the FAT; then data lies behind the
FATs and the root directory. -/
theorem regions_follow {d₀ : Disk} (hb : Mountable (bootsector d₀)) {last : Nat} (hlow : 2 ≤ last)
    (_ : last < 2 ^ 32) :
    (FollowsGeometry d₀ last ↔ Literal (bootsector d₀) last) ∧
      (FollowsGeometry d₀ last → ∀ after d request as, accesses (mount d₀) after d request = some as →
        Within last as → ∀ a ∈ as, ∀ cluster, a.use = .data cluster → dataStart (bootsector d₀) ≤ a.sector) := by
  refine ⟨⟨literal_of_follows hb hlow, fun h => h.follows hb⟩, ?_⟩
  intro h after d request as haccesses hwithin a ha cluster huse
  have hinside := (h after d request as haccesses hwithin).inside a ha
  rw [huse, region, Finset.mem_Ico] at hinside
  exact (Nat.le_add_right _ _).trans hinside.1

/-- A volume with one reserved sector and two FATs. -/
def formatted (sectorsPerCluster directoryEntries sectorsPerFAT : u8) : Disk := fun s k =>
  if s = 0 then [0, 0, 0, 0, 0, 0, 0, 0, 0, 0, 0, 0, 2, sectorsPerCluster, 1, 0, 2, directoryEntries, 0, 0, 0, 0,
    sectorsPerFAT, 0][k]?.getD 0
  else 0

/-- 1.44 MB, with 2000 clusters in use. -/
theorem regions_follow_floppy : FollowsGeometry (formatted 1 224 9) 2000 ∧ ∀ file : FILE,
    2 ≤ file.currentCluster.toNat → file.currentCluster.toNat ≤ 2000 → 33 ≤ 32 + file.currentCluster.toNat - 1 := by
  have hb : Mountable (bootsector (formatted 1 224 9)) :=
    ⟨by decide, by decide, by decide, by decide, by decide, by decide⟩
  have h := regions_follow hb (show 2 ≤ 2000 by decide) (by decide)
  have hfollows := h.1.mpr ⟨by decide, by decide, by decide, by decide, by decide⟩
  refine ⟨hfollows, fun file hlow hhigh => ?_⟩
  have haccesses := readAccesses_small (show file.currentCluster.toNat < 2 ^ 31 by omega)
  refine h.2 hfollows (fun _ => []) (formatted 1 224 9) (.read file) _ (congrArg some haccesses) ?_ ⟨.data _, _⟩
    (List.mem_cons_self ..) _ rfl
  intro a ha cluster huse
  simp only [List.mem_cons, List.not_mem_nil, or_false] at ha
  rcases ha with rfl | rfl | rfl <;> cases huse
  exact ⟨hlow, hhigh⟩

/-- On 720 KB, cluster 2 is sectors 14 and 15, and what is read for it is sector 33. -/
theorem cluster_elsewhere :
    Mountable (bootsector (formatted 2 112 3)) ∧ region (bootsector (formatted 2 112 3)) (.data 2) = {14, 15} ∧
      (readAccesses ⟨[], 0, 0, 0, 0, 2⟩).head? = some ⟨.data 2, 33⟩ ∧ ¬FollowsGeometry (formatted 2 112 3) 2 := by
  have hb : Mountable (bootsector (formatted 2 112 3)) :=
    ⟨by decide, by decide, by decide, by decide, by decide, by decide⟩
  refine ⟨hb, by decide, rfl, fun h => ?_⟩
  have hcluster := (literal_of_follows hb (le_refl 2) h).sectorsPerCluster
  exact absurd hcluster (by decide)

end FAT12

end UntitledOS.Filesystem
