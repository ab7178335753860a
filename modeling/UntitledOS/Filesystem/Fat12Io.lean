import UntitledOS.Lib.Prog
import UntitledOS.Filesystem.Fat12Lookup

/-! The FAT12 driver's requests to the disk.

The functions of `Fat12.lean` take the disk as a whole. Here are the same functions as
programs that ask `IDE` for one sector after the other, in the order of the source, and hold
nothing of the disk but the buffers they were given. Over a disk of bytes a program does what
the function says (`writetestIo_does`, `openIo_does`, `readAllIo_does`), and on a 1.44 MB
volume it stays below sector 2880. What is behind a buffer in memory is any byte (`junk`). -/
namespace UntitledOS.Filesystem
open Lib Y

namespace FAT12

/-! ### Requests -/

/-- A sector read into a new buffer with that byte behind it, or written from a buffer. -/
inductive Transfer where
  | read (sector : Nat) (behind : u8)
  | write (sector : Nat) (buf : Nat → u8)

abbrev Transfer.Answer : Transfer → Type
  | .read .. => Nat → u8
  | .write .. => Unit

def Transfer.sector : Transfer → Nat
  | .read sector _ => sector
  | .write sector _ => sector

abbrev Io := Prog Transfer Transfer.Answer

def readSectorIo (sector : Nat) (behind : u8) : Io (Nat → u8) := Prog.ask (Transfer.read sector behind)

def writeSectorIo (sector : Nat) (buf : Nat → u8) : Io Unit := Prog.ask (Transfer.write sector buf)

/-- A disk that is its bytes. -/
def onDisk : (q : Transfer) → Disk → Option (q.Answer × Disk)
  | .read sector behind, d => some (readSector sector behind d, d)
  | .write sector buf, d => some ((), writeSector sector buf d)

/-! ### The driver -/

/-- `FAT12::FAT12`. -/
def mountIo (junk : Nat → u8) : Io MOUNT_INFO := do
  let bootsector ← readSectorIo 0 (junk 0)
  pure (mount fun _ => bootsector)

/-- `for(sector < 14) for(i < 16)`: the first entry with a property, and the buffer it is in. -/
def findEntry (junk : Nat → u8) (m : MOUNT_INFO) (p : Nat → (Nat → u8) → Nat → Bool) :
    Nat → Nat → Io (Option (Nat × Nat × (Nat → u8)))
  | 0, _ => pure none
  | n + 1, sector => do
    let buf ← readSectorIo (m.rootOffset + sector) (junk (m.rootOffset + sector))
    match (List.range 16).find? (p sector buf) with
    | some i => pure (some (sector, i, buf))
    | none => findEntry junk m p n (sector + 1)

def directoryIo (junk : Nat → u8) (m : MOUNT_INFO) (after : Nat → List u8) (file : FILE) (dirName : List u8) :
    Io FILE :=
  match dosName dirName with
  | none => .fail
  | some dosName => do
    let r ← findEntry junk m (fun sector buf i => fname buf i (after sector) = some dosName) 14 0
    match r with
    | some (_, i, buf) => pure { file with
        name := dirName
        id := 0
        currentCluster := (firstClusterLow buf i).setWidth 32
        eof := 0
        fileLength := size buf i
        flags := if attributes buf i = 0x10 then FS_DIRECTORY else FS_FILE }
    | none => pure {file with flags := FS_INVALID}

def openIo (junk : Nat → u8) (m : MOUNT_INFO) (after : Nat → List u8) (stack : Fin 3 → FILE) (name : List u8) :
    Io FILE :=
  if (String.tokens 0x5c name).length = 1 then do
    let curDirectory ← directoryIo junk m after (stack 1) name
    pure (if curDirectory.flags = FS_FILE then curDirectory else {stack 2 with flags := FS_FILE})
  else pure (stack 0)

/-- What `read` makes of the file, with two sectors of the FAT in `FAT`. -/
def advanced (file : FILE) (FAT : Nat → u8) : FILE :=
  let FATOffset : u32 := file.currentCluster + file.currentCluster / 2
  let entryOffset := FATOffset.toNat % SECTOR_SIZE
  let nextCluster := Packed.word (FAT entryOffset) (FAT (entryOffset + 1))
  let nextCluster := if file.currentCluster.toNat % 2 = 1 then nextCluster >>> 4 else nextCluster &&& 0xFFF
  if nextCluster ≥ 0xFF8 then {file with eof := 1}
  else if nextCluster = 0 then {file with eof := 1}
  else {file with currentCluster := nextCluster.setWidth 32}

def readIo (junk : Nat → u8) (file : FILE) : Io (FILE × (Nat → u8)) := do
  let physSector : u32 := 32 + file.currentCluster - 1
  let sector ← readSectorIo physSector.toNat (junk physSector.toNat)
  let FATOffset : u32 := file.currentCluster + file.currentCluster / 2
  let FATSector := 1 + FATOffset.toNat / SECTOR_SIZE
  let low ← readSectorIo FATSector (junk FATSector)
  let high ← readSectorIo (FATSector + 1) (junk (FATSector + 1))
  pure (advanced file fun k => if k < 512 then low k else high (k - 512), sector)

/-- `read` until `eof`, with fuel. -/
def readAllIo (junk : Nat → u8) : Nat → FILE → Io (List u8)
  | 0, _ => .fail
  | fuel + 1, file => do
    let r ← readIo junk file
    let bytes := (List.range 512).map r.2
    if r.1.eof = 1 then pure bytes
    else do
      let rest ← readAllIo junk fuel r.1
      pure (bytes ++ rest)

def findFromIo (m : MOUNT_INFO) (behind : Nat → u8) (sectorCount : Nat) : Nat → Nat → List Nat → Io (List Nat)
  | 0, _, sectors => pure sectors
  | n + 1, j, sectors => do
    let FAT ← readSectorIo (m.FATOffset + j) (behind j)
    match scan FAT sectorCount 512 0 0 0 sectors with
    | (sectors, true) => pure sectors
    | (sectors, false) => findFromIo m behind sectorCount n (j + 1) sectors

def findSectorsIo (m : MOUNT_INFO) (behind : Nat → u8) (sectorCount : Nat) : Io (List Nat) := do
  let sectors ← findFromIo m behind sectorCount m.FATSize 0 []
  if sectors.length ≤ 1024 then pure sectors else .fail

def updateFATIo (junk : Nat → u8) : List Nat → Io Unit
  | [] => pure ()
  | cluster :: rest => do
    let FATOffset := cluster + cluster / 2
    let FATSector := 1 + FATOffset / SECTOR_SIZE
    let entryOffset := FATOffset % SECTOR_SIZE
    let FAT ← readSectorIo FATSector (junk FATSector)
    let mask : u16 := if cluster % 2 = 1 then
        match rest with
        | [] => 0xFFF0
        | s2 :: _ => BitVec.ofNat 16 (0x10 * s2)
      else
        match rest with
        | [] => 0x0FFF
        | s2 :: _ => BitVec.ofNat 16 s2
    writeSectorIo FATSector (Packed.orWord FAT entryOffset mask)
    updateFATIo junk rest

def writeChunksIo (buffer : Nat → u8) (j : Nat) : List Nat → Io Unit
  | [] => pure ()
  | cluster :: rest => do
    writeSectorIo (32 + cluster - 1) fun k => buffer (512 * j + k)
    writeChunksIo buffer (j + 1) rest

def writetestIo (junk : Nat → u8) (m : MOUNT_INFO) (s : Surroundings) (filename : List u8) (buffer : Nat → u8)
    (len : Nat) : Io Unit :=
  match dosName filename with
  | none => .fail
  | some dosName => do
    let sectorCount := if len % SECTOR_SIZE = 0 then len / SECTOR_SIZE else len / SECTOR_SIZE + 1
    let sectors ← findSectorsIo m s.behind sectorCount
    match sectors with
    | [] => pure ()
    | first :: rest => do
      let r ← findEntry junk m (fun _ buf i => buf (32 * i) = 0) 14 0
      match r with
      | none => pure ()
      | some (sector, i, buf) =>
        writeSectorIo (m.rootOffset + sector) (putEntry (newDirectory s dosName first len) i buf)
        updateFATIo junk (first :: rest)
        writeChunksIo buffer 0 (first :: rest)

/-! ### What the programs do -/

/-- Over the disk the program gives the result, with requests that are `ok` only. -/
structure Does {α : Type} (ok : Transfer → Prop) (p : Io α) (d : Disk) (r : Option (α × Disk)) : Prop where
  run : p.run onDisk d = r
  within : p.Admits onDisk (fun q _ => ok q) d

/-- A request for a sector below a bound. -/
def Below (bound : Nat) (q : Transfer) : Prop := q.sector < bound

/-- A read of one. -/
def Reading (bound : Nat) : Transfer → Prop
  | .read sector _ => sector < bound
  | .write .. => False

section Does
variable {α β : Type} {ok : Transfer → Prop} {p : Io α} {f : α → Io β} {d d' : Disk} {a : α}
  {r : Option (β × Disk)}

theorem Does.pure (ok : Transfer → Prop) (a : α) (d : Disk) : Does ok (pure a : Io α) d (some (a, d)) :=
  ⟨rfl, trivial⟩

theorem Does.fail (ok : Transfer → Prop) (d : Disk) : Does ok (.fail : Io α) d none := ⟨rfl, trivial⟩

theorem Does.bind (h : Does ok p d (some (a, d'))) (hf : Does ok (f a) d' r) : Does ok (p >>= f) d r := by
  constructor
  · rw [Prog.run_bind, h.run, Option.bind_some]
    exact hf.run
  · refine h.within.bind fun b d'' hrun => ?_
    obtain ⟨rfl, rfl⟩ := Prod.mk.inj (Option.some.inj (h.run.symm.trans hrun))
    exact hf.within

theorem Does.bind_none (h : Does ok p d none) : Does ok (p >>= f) d none := by
  constructor
  · rw [Prog.run_bind, h.run, Option.bind_none]
  · refine h.within.bind fun b d'' hrun => ?_
    rw [h.run] at hrun
    cases hrun

theorem Does.read {sector : Nat} {behind : u8} (h : ok (.read sector behind)) (d : Disk) :
    Does ok (readSectorIo sector behind) d (some (readSector sector behind d, d)) :=
  ⟨Prog.run_ask _ _, h, fun _ _ _ => trivial⟩

theorem Does.write {sector : Nat} {buf : Nat → u8} (h : ok (.write sector buf)) (d : Disk) :
    Does ok (writeSectorIo sector buf) d (some ((), writeSector sector buf d)) :=
  ⟨Prog.run_ask _ _, h, fun _ _ _ => trivial⟩

end Does

theorem readSector_of_lt {sector k : Nat} (behind : u8) (d : Disk) (hk : k < 512) :
    readSector sector behind d k = d sector k := if_pos hk

/-- Only the first 512 bytes of a buffer are written. -/
theorem writeSector_congr {buf buf' : Nat → u8} (sector : Nat) (h : ∀ k < 512, buf k = buf' k) (d : Disk) :
    writeSector sector buf d = writeSector sector buf' d := by
  funext s k
  rw [writeSector, writeSector]
  split
  · exact h k (by omega)
  · rfl

variable {junk : Nat → u8} {d : Disk} {ok : Transfer → Prop} {m : MOUNT_INFO}

theorem mountIo_does (hok : ok (.read 0 (junk 0))) : Does ok (mountIo junk) d (some (mount d, d)) := by
  refine .bind (.read hok d) ?_
  exact .pure ok (mount d) d

/-- The search of the root directory, sector by sector. -/
theorem findEntry_does {p : Nat → (Nat → u8) → Nat → Bool} {n sector : Nat}
    (hok : ∀ k behind, k < m.rootOffset + sector + n → ok (.read k behind))
    (hp : ∀ sector behind, ∀ i < 16, p sector (readSector (m.rootOffset + sector) behind d) i =
      p sector (d (m.rootOffset + sector)) i) :
    Does ok (findEntry junk m p n sector) d
      (some (((List.range' sector n ×ˢ List.range 16).find? fun slot => p slot.1 (d (m.rootOffset + slot.1)) slot.2).map
        fun slot => (slot.1, slot.2, readSector (m.rootOffset + slot.1) (junk (m.rootOffset + slot.1)) d), d)) := by
  induction n generalizing sector with
  | zero => exact .pure ok none d
  | succ n ih =>
    refine .bind (.read (hok _ _ (by omega)) d) ?_
    have hfirst : (List.range 16).find?
          (p sector (readSector (m.rootOffset + sector) (junk (m.rootOffset + sector)) d)) =
        (List.range 16).find? (p sector (d (m.rootOffset + sector))) := by
      apply List.find?_congr
      intro i hi
      exact hp sector _ i (List.mem_range.mp hi)
    have hsplit : (List.range' sector (n + 1) ×ˢ List.range 16).find?
          (fun slot => p slot.1 (d (m.rootOffset + slot.1)) slot.2) =
        (((List.range 16).find? (p sector (d (m.rootOffset + sector)))).map (sector, ·)).or
          ((List.range' (sector + 1) n ×ˢ List.range 16).find?
            fun slot => p slot.1 (d (m.rootOffset + slot.1)) slot.2) := by
      rw [List.range'_succ, List.product_cons, List.find?_append, List.find?_map]
      rfl
    rw [hfirst, hsplit]
    cases hfind : (List.range 16).find? (p sector (d (m.rootOffset + sector))) with
    | some i => exact .pure ok _ d
    | none => exact ih fun k behind hk => hok k behind (by omega)

/-! ### Opening -/

section Opening
variable {after : Nat → List u8} {name : List u8}

theorem fname_readSector (sector : Nat) (behind : u8) (d : Disk) (i : Nat) (after : List u8) :
    fname (readSector sector behind d) i after = fname (d sector) i after := by
  have hmap : (List.range (512 - 32 * i)).map (fun k => readSector sector behind d (32 * i + k)) =
      (List.range (512 - 32 * i)).map fun k => d sector (32 * i + k) := by
    apply List.map_congr_left
    intro k hk
    have hk := List.mem_range.mp hk
    exact readSector_of_lt behind d (by omega)
  rw [fname, fname, hmap]

/-- What is read of an entry lies in its sector. -/
theorem entry_readSector (sector : Nat) (behind : u8) (d : Disk) {i : Nat} (hi : i < 16) :
    attributes (readSector sector behind d) i = attributes (d sector) i ∧
      firstClusterLow (readSector sector behind d) i = firstClusterLow (d sector) i ∧
      size (readSector sector behind d) i = size (d sector) i := by
  have hbyte : ∀ k < 32, readSector sector behind d (32 * i + k) = d sector (32 * i + k) :=
    fun k hk => readSector_of_lt behind d (by omega)
  refine ⟨hbyte 11 (by decide), ?_, ?_⟩
  · rw [firstClusterLow, hbyte 26 (by decide), hbyte 27 (by decide), ← firstClusterLow]
  · rw [size, hbyte 28 (by decide), hbyte 29 (by decide), hbyte 30 (by decide), hbyte 31 (by decide), ← size]

theorem directoryIo_does (hok : ∀ k behind, k < m.rootOffset + 14 → ok (.read k behind)) (file : FILE) :
    Does ok (directoryIo junk m after file name) d ((directory m after file name d).map (·, d)) := by
  cases hdn : dosName name with
  | none =>
    rw [directoryIo, directory, hdn]
    exact .fail ok d
  | some dn =>
    have hfind : Does ok (findEntry junk m (fun sector buf i => fname buf i (after sector) = some dn) 14 0) d _ :=
      findEntry_does hok fun sector behind i _ => by rw [fname_readSector]
    rw [← List.range_eq_range', ← slots] at hfind
    rw [directoryIo, directory, hdn]
    simp only [Option.map_some]
    refine hfind.bind ?_
    cases hslot : slots.find? fun slot =>
        decide (fname (d (m.rootOffset + slot.1)) slot.2 (after slot.1) = some dn) with
    | none => exact .pure ok _ d
    | some slot =>
      obtain ⟨hattributes, hcluster, hsize⟩ := entry_readSector (m.rootOffset + slot.1)
        (junk (m.rootOffset + slot.1)) d (mem_slots.mp (List.mem_of_find?_eq_some hslot)).2
      simp only [Option.map_some, hattributes, hcluster, hsize]
      exact .pure ok _ d

theorem openIo_does (hok : ∀ k behind, k < m.rootOffset + 14 → ok (.read k behind)) (stack : Fin 3 → FILE) :
    Does ok (openIo junk m after stack name) d ((«open» m after stack name d).map (·, d)) := by
  rw [openIo, «open»]
  split
  · have hdirectory : Does ok (directoryIo junk m after (stack 1) name) d _ := directoryIo_does hok (stack 1)
    cases hfile : directory m after (stack 1) name d with
    | none =>
      rw [hfile] at hdirectory
      exact hdirectory.bind_none
    | some file =>
      rw [hfile] at hdirectory
      exact hdirectory.bind (.pure ok _ d)
  · exact .pure ok _ d

end Opening

/-! ### Reading -/

/-- Only two bytes of the FAT are looked at. -/
theorem advanced_congr {file : FILE} {FAT FAT' : Nat → u8} (h : ∀ k < 1024, FAT k = FAT' k) :
    advanced file FAT = advanced file FAT' := by
  have hoffset : (file.currentCluster + file.currentCluster / 2).toNat % SECTOR_SIZE < 512 :=
    Nat.mod_lt _ (by decide)
  rw [advanced, advanced, h _ (by omega), h _ (by omega)]

theorem read_advanced (file : FILE) (d : Disk) : (read file d).1 = advanced file fun k =>
    if k < 512 then d (1 + (file.currentCluster + file.currentCluster / 2).toNat / SECTOR_SIZE) k
    else d (1 + (file.currentCluster + file.currentCluster / 2).toNat / SECTOR_SIZE + 1) (k - 512) := by
  rw [read, advanced]
  dsimp only
  rw [apply_ite Prod.fst, apply_ite Prod.fst]

/-- The sectors of a cluster's data and of its entry. -/
theorem readIo_does {bound : Nat} (hok : ∀ k behind, k < bound → ok (.read k behind)) {file : FILE}
    (hdata : (32 + file.currentCluster - 1).toNat < bound)
    (hentry : 1 + (file.currentCluster + file.currentCluster / 2).toNat / SECTOR_SIZE + 1 < bound) :
    Does ok (readIo junk file) d (some (((read file d).1,
      readSector (32 + file.currentCluster - 1).toNat (junk (32 + file.currentCluster - 1).toNat) d), d)) := by
  refine (Does.read (hok _ _ hdata) d).bind (Does.bind (.read (hok _ _ (by omega)) d)
    (Does.bind (.read (hok _ _ hentry) d) ?_))
  rw [read_advanced, advanced_congr fun k hk => ?_]
  · exact .pure ok _ d
  · split
    · exact readSector_of_lt _ d ‹_›
    · exact readSector_of_lt _ d (show k - 512 < 512 by omega)

theorem range_readSector (sector : Nat) (behind : u8) (d : Disk) :
    (List.range 512).map (readSector sector behind d) = (List.range 512).map (d sector) := by
  apply List.map_congr_left
  intro k hk
  exact readSector_of_lt behind d (List.mem_range.mp hk)

/-- Reading a chain of the data area. -/
theorem readAllIo_does {c : Nat} {rest : List Nat} (h : Chain 0 (next d) c (c :: rest))
    (hlast : ∀ k ∈ c :: rest, k ≤ 2848) {file : FILE} (hc : file.currentCluster.toNat = c) (heof : file.eof = 0)
    (hok : ∀ k behind, k < 2880 → ok (.read k behind)) (fuel : Nat) :
    Does ok (readAllIo junk fuel file) d ((readAll d fuel file).map (·, d)) := by
  induction fuel generalizing c rest file with
  | zero => exact .fail ok d
  | succ fuel ih =>
    have hle := hlast c (List.mem_cons_self ..)
    have hsmall : file.currentCluster.toNat < 2 ^ 31 := by omega
    have hphys := physSector_eq hsmall
    have hoffset := FATOffset_eq hsmall
    have hread : readAll d (fuel + 1) file = if (read file d).1.eof = 1 then some ((List.range 512).map (read file d).2)
        else (readAll d fuel (read file d).1).map ((List.range 512).map (read file d).2 ++ ·) := rfl
    rw [hread]
    refine (readIo_does hok (by omega) (by rw [SECTOR_SIZE]; omega)).bind ?_
    have hbytes : (List.range 512).map (read file d).2 = (List.range 512).map
        (readSector (32 + file.currentCluster - 1).toNat (junk (32 + file.currentCluster - 1).toNat) d) := by
      rw [range_readSector, read_eq d hsmall, hphys]
    rw [hbytes]
    dsimp only
    split
    · exact .pure ok _ d
    · rename_i hmore
      rw [read_eq d hsmall] at hmore ⊢
      by_cases hnext : next d file.currentCluster.toNat = 0
      · rw [if_pos hnext] at hmore
        exact absurd rfl hmore
      · rw [if_neg hnext]
        cases rest with
        | nil =>
          rw [hc] at hnext
          exact absurd (h.tail.eq_nil_iff.mp rfl) hnext
        | cons k rest =>
          obtain rfl : next d c = k := h.tail.head_eq
          rw [hc]
          generalize hfile : ({file with currentCluster := BitVec.ofNat 32 (next d c)} : FILE) = file'
          have hrest : Does ok (readAllIo junk fuel file') d ((readAll d fuel file').map (·, d)) :=
            ih h.tail (fun k hk => hlast k (List.mem_cons_of_mem _ hk)) (by rw [← hfile]; exact toNat_next d c)
              (by rw [← hfile]; exact heof)
          cases hall : readAll d fuel file' with
          | none =>
            rw [hall] at hrest
            exact hrest.bind_none
          | some bytes =>
            rw [hall] at hrest
            exact hrest.bind (.pure ok _ d)

/-! ### Writing -/

theorem findFromIo_does {behind : Nat → u8} {sectorCount n j : Nat}
    (hok : ∀ k behind, k < m.FATOffset + j + n → ok (.read k behind)) (sectors : List Nat) :
    Does ok (findFromIo m behind sectorCount n j sectors) d
      (some (findFrom m behind sectorCount d n j sectors, d)) := by
  induction n generalizing j sectors with
  | zero => exact .pure ok sectors d
  | succ n ih =>
    refine .bind (.read (hok _ _ (by omega)) d) ?_
    rw [findFrom]
    rcases scan (readSector (m.FATOffset + j) (behind j) d) sectorCount 512 0 0 0 sectors with ⟨found, done⟩
    cases done with
    | true => exact .pure ok found d
    | false => exact ih (fun k behind hk => hok k behind (by omega)) found

theorem findSectorsIo_does {behind : Nat → u8} {sectorCount : Nat}
    (hok : ∀ k behind, k < m.FATOffset + m.FATSize → ok (.read k behind)) :
    Does ok (findSectorsIo m behind sectorCount) d ((findSectors m behind sectorCount d).map (·, d)) := by
  rw [findSectors]
  refine (findFromIo_does hok []).bind ?_
  split
  · exact .pure ok _ d
  · exact .fail ok d

theorem updateFATIo_does {bound : Nat} {S : List Nat} (hS : ∀ c ∈ S, 1 + (c + c / 2) / SECTOR_SIZE < bound) :
    Does (Below bound) (updateFATIo junk S) d (some ((), updateFAT S d)) := by
  induction S generalizing d with
  | nil => exact .pure _ () d
  | cons cluster rest ih =>
    have hcluster := hS cluster (List.mem_cons_self ..)
    -- the same mask is or-ed into the same word of the same sector
    obtain ⟨mask, FATSector, entryOffset, hsector, hpure, hprogram⟩ : ∃ (mask : u16) (FATSector entryOffset : Nat),
        FATSector < bound ∧
        updateFAT (cluster :: rest) d =
          updateFAT rest (writeSector FATSector (Packed.orWord (d FATSector) entryOffset mask) d) ∧
        updateFATIo junk (cluster :: rest) = readSectorIo FATSector (junk FATSector) >>= fun FAT =>
          writeSectorIo FATSector (Packed.orWord FAT entryOffset mask) >>= fun _ => updateFATIo junk rest :=
      ⟨_, _, _, hcluster, rfl, rfl⟩
    have hword : ∀ k < 512, Packed.orWord (readSector FATSector (junk FATSector) d) entryOffset mask k =
        Packed.orWord (d FATSector) entryOffset mask k := by
      intro k hk
      rw [Packed.orWord, Packed.orWord, readSector_of_lt _ d hk]
    rw [hpure, hprogram, ← writeSector_congr _ hword d]
    exact .bind (.read hsector d) (.bind (.write hsector d) (ih fun c hc => hS c (List.mem_cons_of_mem _ hc)))

theorem writeChunksIo_does {bound : Nat} (buffer : Nat → u8) {j : Nat} {S : List Nat}
    (hS : ∀ c ∈ S, 32 + c - 1 < bound) :
    Does (Below bound) (writeChunksIo buffer j S) d (some ((), writeChunks buffer j S d)) := by
  induction S generalizing d j with
  | nil => exact .pure _ () d
  | cons cluster rest ih =>
    exact .bind (.write (hS cluster (List.mem_cons_self ..)) d) (ih fun c hc => hS c (List.mem_cons_of_mem _ hc))

/-- A call on a 1.44 MB volume. -/
theorem writetestIo_does (s : Surroundings) (name : List u8) (buffer : Nat → u8) (len : Nat) :
    Does (Below 2880) (writetestIo junk floppy s name buffer len) d
      ((writetest floppy s name buffer len d).map ((), ·)) := by
  rw [writetestIo, writetest]
  cases dosName name with
  | none => exact .fail _ d
  | some dn =>
    dsimp only [Option.bind_some]
    generalize (if len % SECTOR_SIZE = 0 then len / SECTOR_SIZE else len / SECTOR_SIZE + 1) = sectorCount
    have hsearch : Does (Below 2880) (findSectorsIo floppy s.behind sectorCount) d
        ((findSectors floppy s.behind sectorCount d).map (·, d)) :=
      findSectorsIo_does fun k _ hk => Nat.lt_trans hk (by decide)
    cases hfound : findSectors floppy s.behind sectorCount d with
    | none =>
      rw [hfound] at hsearch
      exact hsearch.bind_none
    | some S =>
      rw [hfound] at hsearch
      refine hsearch.bind ?_
      rw [Option.bind_some]
      cases S with
      | nil => exact .pure _ () d
      | cons first rest =>
        have hS : ∀ c ∈ first :: rest, c < 342 := by
          rw [findSectors_located] at hfound
          split at hfound
          · rw [← Option.some.inj hfound]
            exact located_lt floppy s.behind d
          · cases hfound
        have hfind : Does (Below 2880) (findEntry junk floppy (fun _ buf i => buf (32 * i) = 0) 14 0) d _ :=
          findEntry_does (fun k _ hk => Nat.lt_trans hk (by decide)) fun sector behind i hi => by
            rw [readSector_of_lt _ d (by omega)]
        rw [← List.range_eq_range', ← slots] at hfind
        refine hfind.bind ?_
        cases hslot : slots.find? fun slot => decide (d (floppy.rootOffset + slot.1) (32 * slot.2) = 0) with
        | none => exact .pure _ () d
        | some slot =>
          have hmem := mem_slots.mp (List.mem_of_find?_eq_some hslot)
          dsimp only [Option.map_some]
          have hput : ∀ k < 512, putEntry (newDirectory s dn first len) slot.2
                (readSector (floppy.rootOffset + slot.1) (junk (floppy.rootOffset + slot.1)) d) k =
              putEntry (newDirectory s dn first len) slot.2 (d (floppy.rootOffset + slot.1)) k := by
            intro k hk
            rw [putEntry, putEntry, readSector_of_lt _ d hk]
          have hsector : floppy.rootOffset + slot.1 < 2880 := by
            show 19 + slot.1 < 2880
            omega
          refine .bind (.write hsector d) ?_
          rw [writeSector_congr _ hput d]
          refine .bind (updateFATIo_does fun c hc => ?_) (writeChunksIo_does buffer fun c hc => ?_)
          · have := hS c hc
            rw [SECTOR_SIZE]
            omega
          · have := hS c hc
            omega

end FAT12

end UntitledOS.Filesystem
