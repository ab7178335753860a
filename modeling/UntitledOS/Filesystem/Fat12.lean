import UntitledOS.Lib.Packed
import UntitledOS.Y.StringSpec

/-! The FAT12 driver of `FAT12.cpp`.

A disk is its bytes, by sector and offset; `IDE::readSector` and `writeSector` are taken to
work. Sector buffers are 512 bytes of the heap, and what lies behind one in memory is an
argument (`behind`, `after`), as is what the stack holds in variables nobody has assigned
(`stack`, `windowsNTRESERVED`).

Of `new` it is assumed that the block it gives is apart from all blocks in use. The
kernel's own heap keeps to that as long as what it is asked for fits in sixteen pages
(`System.requests_fit`); it gets to their end sooner because the sector buffers of
`directory`, `list`, `writetest` and `updateFAT` are never deleted.

Strings are their characters: where `append` has filled a buffer, the terminator that
`c_str` puts behind it stays in the block, which has 32 bytes at least, for all names
shorter than that. Only in `list` a string is read that has no terminator, and what is
`beyond` it in memory is an argument (`plus`).

A `Vector<int>` is a list. More than 1024 numbers do not fit a page, so pushing them has no
result. After `sectors = findSectors(..)` the vector has a buffer that the temporary has
deleted. The numbers are still read from it, as no call of `new` gets the block in the
meantime: only sector buffers are allocated, of 512 bytes, and if the block is of that size,
it was allocated while a sector of the FAT was in use, so that `delete FAT` has dropped it
from the heap's lists, for good (`System.dropped_never_reused` of the heap). -/
namespace UntitledOS.Filesystem
open Lib Y

def SECTOR_SIZE : Nat := 512

/-- Sector, offset, byte. -/
abbrev Disk := Nat → Nat → u8

def readSector (sector : Nat) (behind : u8) (d : Disk) : Nat → u8 :=
  fun k => if k < 512 then d sector k else behind

def writeSector (sector : Nat) (buf : Nat → u8) (d : Disk) : Disk :=
  fun s k => if s = sector ∧ k < 512 then buf k else d s k

/-! ### Records -/

/-- A directory entry. `filename` is the name and the extension. -/
structure DIRECTORY where
  filename : List u8
  attributes : u8
  windowsNTRESERVED : u8
  creationTimeMS : u8
  creationTime : u16
  creationDate : u16
  lastAccessedDate : u16
  firstClusterHi : u16
  lastModifiedTime : u16
  lastModifiedDate : u16
  firstClusterLow : u16
  size : u32

def bytes16 (w : u16) : List u8 := [w.setWidth 8, (w >>> 8).setWidth 8]

def bytes32 (w : u32) : List u8 :=
  [w.setWidth 8, (w >>> 8).setWidth 8, (w >>> 16).setWidth 8, (w >>> 24).setWidth 8]

def DIRECTORY.bytes (e : DIRECTORY) : List u8 :=
  e.filename ++ [e.attributes, e.windowsNTRESERVED, e.creationTimeMS] ++ bytes16 e.creationTime ++
    bytes16 e.creationDate ++ bytes16 e.lastAccessedDate ++ bytes16 e.firstClusterHi ++
    bytes16 e.lastModifiedTime ++ bytes16 e.lastModifiedDate ++ bytes16 e.firstClusterLow ++ bytes32 e.size

/-- `directory->attributes`, `firstClusterLow` and `size` of entry `i` of a sector. -/
def attributes (buf : Nat → u8) (i : Nat) : u8 := buf (32 * i + 11)

def firstClusterLow (buf : Nat → u8) (i : Nat) : u16 :=
  Packed.word (buf (32 * i + 26)) (buf (32 * i + 27))

def size (buf : Nat → u8) (i : Nat) : u32 :=
  Packed.word (buf (32 * i + 30)) (buf (32 * i + 31)) ++ Packed.word (buf (32 * i + 28)) (buf (32 * i + 29))

def FS_FILE : u32 := 0
def FS_DIRECTORY : u32 := 1
def FS_INVALID : u32 := 2

structure FILE where
  name : List u8
  flags : u32
  fileLength : u32
  id : u32
  eof : u32
  currentCluster : u32

/-- The fields of `mountInfo` that are read. -/
structure MOUNT_INFO where
  FATOffset : Nat
  FATSize : Nat
  rootOffset : Nat

/-- The clock's registers. -/
structure RTC where
  second : u8
  minute : u8
  hour : u8
  day : u8
  month : u8
  year : u8

/-- What `writetest` finds around it. -/
structure Surroundings where
  behind : Nat → u8
  rtc : RTC
  windowsNTRESERVED : u8

namespace FAT12

/-- `FAT12::FAT12`. -/
def mount (d : Disk) : MOUNT_INFO :=
  let FATs := d 0 16
  let sectorsPerFAT := Packed.word (d 0 22) (d 0 23)
  ⟨1, sectorsPerFAT.toNat, FATs.toNat * sectorsPerFAT.toNat + 1⟩

/-! ### Names -/

/-- The loop of `directory` and `writetest` over the first `n` characters from `i` on. -/
def dosBase (upper : List u8) (i : Nat) : Nat → List u8 → Option (List u8)
  | 0, dosName => some dosName
  | n + 1, dosName => upper[i]?.bind fun c =>
    if c = 0x2e ∧ (i : Int) = upper.length - 4 then some dosName
    else dosBase upper (i + 1) n (dosName.set i c)

/-- The loop over the last characters. -/
def dosExtension (upper : List u8) (i : Nat) : Nat → List u8 → Option (List u8)
  | 0, dosName => some dosName
  | n + 1, dosName => (if i < upper.length then upper[upper.length - i - 1]? else none).bind fun c =>
    dosExtension upper (i + 1) n (dosName.set (10 - i) c)

def dosName (name : List u8) : Option (List u8) :=
  let upper := name.map String.upper
  (dosBase upper 0 8 (List.replicate 11 0x20)).bind (dosExtension upper 0 3)

/-- `for(sector < 14) for(i < 16)`: the entries of the root directory. -/
def slots : List (Nat × Nat) := List.range 14 ×ˢ List.range 16

/-- The C string at entry `i` of a sector, with the memory behind the sector. -/
def fname (buf : Nat → u8) (i : Nat) (after : List u8) : Option (List u8) :=
  Buffer.cString ((List.range (512 - 32 * i)).map (fun k => buf (32 * i + k)) ++ after)

def directory (m : MOUNT_INFO) (after : Nat → List u8) (file : FILE) (dirName : List u8) (d : Disk) :
    Option FILE :=
  (dosName dirName).map fun dosName =>
    match slots.find? fun (sector, i) =>
      fname (d (m.rootOffset + sector)) i (after sector) = some dosName with
    | some (sector, i) =>
      let buf := d (m.rootOffset + sector)
      { file with
        name := dirName
        id := 0
        currentCluster := (firstClusterLow buf i).setWidth 32
        eof := 0
        fileLength := size buf i
        flags := if attributes buf i = 0x10 then FS_DIRECTORY else FS_FILE }
    | none => {file with flags := FS_INVALID}

/-- `string + str`, made from the C string in the buffer of `string`. Behind its characters the buffer
goes on with what is `beyond`, and a terminator follows that at the latest. -/
def plus (beyond string str : List u8) : List u8 := string ++ beyond.takeWhile (· ≠ 0) ++ str

/-- The name that `list` gives for an entry. The buffer of `split[0]` has a terminator. The one of
`split[0] + "."` ends with the dot, and `beyond` it there is what its block held before. -/
def listed (m : MOUNT_INFO) (after : Nat → List u8) (beyond : Nat × Nat → List u8) (d : Disk) :
    Nat × Nat → Option (List u8)
  | (sector, i) =>
    let buf := d (m.rootOffset + sector)
    (fname buf i (after sector)).bind fun fname =>
      if attributes buf i = 0x10 then some (fname.take 8)
      else if attributes buf i = 0x0 then
        let split := String.tokens 0x20 fname
        if split.length ≥ 2 then
          split[0]?.bind fun first => split[split.length - 1]?.map fun last =>
            plus (beyond (sector, i)) (plus [0] first [0x2e]) last
        else split[0]?
      else some fname

def list (m : MOUNT_INFO) (after : Nat → List u8) (beyond : Nat × Nat → List u8) (d : Disk) :
    Option (List (List u8)) :=
  (slots.filter fun (sector, i) => d (m.rootOffset + sector) (32 * i) ≠ 0).mapM (listed m after beyond d)

/-- Numerals name the three variables of `open`. -/
instance neZero_three : NeZero 3 := ⟨by decide⟩

/-- `stack` is what `curDirectory`, `file` of `directory` and `ret` hold at first. -/
def «open» (m : MOUNT_INFO) (after : Nat → List u8) (stack : Fin 3 → FILE) (name : List u8) (d : Disk) :
    Option FILE :=
  if (String.tokens 0x5c name).length = 1 then
    (directory m after (stack 1) name d).map fun curDirectory =>
      if curDirectory.flags = FS_FILE then curDirectory else {stack 2 with flags := FS_FILE}
  else some (stack 0)

/-! ### Reading -/

/-- `read`: the file afterwards, and the 512 bytes in `buf`. -/
def read (file : FILE) (d : Disk) : FILE × (Nat → u8) :=
  let physSector : u32 := 32 + file.currentCluster - 1
  let sector := d physSector.toNat
  let FATOffset : u32 := file.currentCluster + file.currentCluster / 2
  let FATSector := 1 + FATOffset.toNat / SECTOR_SIZE
  let entryOffset := FATOffset.toNat % SECTOR_SIZE
  let FAT : Nat → u8 := fun k => if k < 512 then d FATSector k else d (FATSector + 1) (k - 512)
  let nextCluster := Packed.word (FAT entryOffset) (FAT (entryOffset + 1))
  let nextCluster := if file.currentCluster.toNat % 2 = 1 then nextCluster >>> 4 else nextCluster &&& 0xFFF
  if nextCluster ≥ 0xFF8 then ({file with eof := 1}, sector)
  else if nextCluster = 0 then ({file with eof := 1}, sector)
  else ({file with currentCluster := nextCluster.setWidth 32}, sector)

/-- `read` until `eof`, with fuel: all the bytes delivered. -/
def readAll (d : Disk) : Nat → FILE → Option (List u8)
  | 0, _ => none
  | fuel + 1, file =>
    let (file, sector) := read file d
    let bytes := (List.range 512).map sector
    if file.eof = 1 then some bytes else (readAll d fuel file).map (bytes ++ ·)

/-- The `for` loop of `openSubDir` over a sector, with what is behind it on the stack. -/
def subDirScan (buf : Nat → u8) (after : List u8) (file : FILE) (name dosName : List u8) : Option FILE :=
  ((List.range 16).find? fun i => fname buf i after = some dosName).map fun i =>
    { file with
      name := name
      id := 0
      currentCluster := (firstClusterLow buf i).setWidth 32
      eof := 0
      fileLength := size buf i
      flags := if attributes buf i = 0x10 then FS_DIRECTORY else FS_FILE }

/-- The `while` loop, with fuel. It tests `kFile`, and `read` advances `file`. -/
def subDirLoop (after : Nat → List u8) (kFile : FILE) (name dosName : List u8) (d : Disk) : Nat → FILE → Option FILE
  | 0, file => if kFile.eof = 0 then none else some {file with flags := FS_INVALID}
  | fuel + 1, file =>
    if kFile.eof = 0 then
      let (file, buf) := read file d
      (subDirScan buf (after fuel) file name dosName).or (subDirLoop after kFile name dosName d fuel file)
    else some {file with flags := FS_INVALID}

/-- `file` is what the stack holds at first. -/
def openSubDir (after : Nat → List u8) (file kFile : FILE) (name : List u8) (d : Disk) (fuel : Nat) : Option FILE :=
  (dosName name).bind fun dosName => subDirLoop after kFile name dosName d fuel file

/-! ### Writing -/

/-- The value `findSectors` looks at. -/
def scanValue (FAT : Nat → u8) (i c : Nat) : u16 :=
  let val := Packed.word (FAT i) (FAT (i + 1))
  let p1 : u8 := val.setWidth 8
  let p2 : u8 := (val >>> 8).setWidth 8
  if c = 0 then (0x0f &&& p2).setWidth 16 <<< 8 ||| p1.setWidth 16
  else p2.setWidth 16 <<< 4 ||| ((0xf0 &&& p1) >>> 4).setWidth 16

/-- The `while` loop of `findSectors` over one sector, and whether it returned. Every
turn goes on by a byte at least, so 512 turns are enough. -/
def scan (FAT : Nat → u8) (sectorCount : Nat) :
    Nat → Nat → Nat → Nat → List Nat → List Nat × Bool
  | 0, _, _, _, sectors => (sectors, false)
  | fuel + 1, i, c, sector, sectors =>
    if i < 512 then
      if scanValue FAT i c = 0 then
        if (sectors ++ [sector]).length ≥ sectorCount then (sectors ++ [sector], true)
        else scan FAT sectorCount fuel (if c = 1 then i + 2 else i + 1) (if c = 1 then 0 else c + 1)
          (sector + 1) (sectors ++ [sector])
      else scan FAT sectorCount fuel (if c = 1 then i + 2 else i + 1) (if c = 1 then 0 else c + 1)
        (sector + 1) sectors
    else (sectors, false)

/-- The `for` loop of `findSectors` over `n` sectors of the FAT from `j` on. The counter
`sector` starts from 0 in each. -/
def findFrom (m : MOUNT_INFO) (behind : Nat → u8) (sectorCount : Nat) (d : Disk) :
    Nat → Nat → List Nat → List Nat
  | 0, _, sectors => sectors
  | n + 1, j, sectors =>
    match scan (readSector (m.FATOffset + j) (behind j) d) sectorCount 512 0 0 0 sectors with
    | (sectors, true) => sectors
    | (sectors, false) => findFrom m behind sectorCount d n (j + 1) sectors

def findSectors (m : MOUNT_INFO) (behind : Nat → u8) (sectorCount : Nat) (d : Disk) : Option (List Nat) :=
  let sectors := findFrom m behind sectorCount d m.FATSize 0 []
  if sectors.length ≤ 1024 then some sectors else none

/-- `updateFAT`. An entry that straddles two sectors has its second byte behind the
buffer; it is or-ed there and never written. -/
def updateFAT : List Nat → Disk → Disk
  | [], d => d
  | cluster :: rest, d =>
    let FATOffset := cluster + cluster / 2
    let FATSector := 1 + FATOffset / SECTOR_SIZE
    let entryOffset := FATOffset % SECTOR_SIZE
    let mask : u16 := if cluster % 2 = 1 then
        match rest with
        | [] => 0xFFF0
        | s2 :: _ => BitVec.ofNat 16 (0x10 * s2)
      else
        match rest with
        | [] => 0x0FFF
        | s2 :: _ => BitVec.ofNat 16 s2
    updateFAT rest (writeSector FATSector (Packed.orWord (d FATSector) entryOffset mask) d)

/-- The loop of `writetest` over the clusters of a file from the `j`th on. -/
def writeChunks (buffer : Nat → u8) (j : Nat) : List Nat → Disk → Disk
  | [], d => d
  | cluster :: rest, d => writeChunks buffer (j + 1) rest
    (writeSector (32 + cluster - 1) (fun k => buffer (512 * j + k)) d)

def newDirectory (s : Surroundings) (dosName : List u8) (first len : Nat) : DIRECTORY :=
  let creationTime := BitVec.ofInt 16
    ((s.rtc.second.toNat / 2 : Nat) + s.rtc.minute.toNat * 0x20 + ((s.rtc.hour.toNat : Int) - 1) * 0x800)
  let creationDate := BitVec.ofNat 16
    (s.rtc.day.toNat + s.rtc.month.toNat * 0x20 + (s.rtc.year.toNat + 20) * 0x200)
  { filename := dosName
    attributes := 0
    windowsNTRESERVED := s.windowsNTRESERVED
    creationTimeMS := 0
    creationTime := creationTime
    creationDate := creationDate
    lastAccessedDate := creationDate
    firstClusterHi := 0
    lastModifiedTime := creationTime
    lastModifiedDate := creationDate
    firstClusterLow := BitVec.ofNat 16 first
    size := BitVec.ofNat 32 len }

/-- `memcpy(dir, &directory, sizeof(DIRECTORY))`, for entry `i` of a sector. -/
def putEntry (e : DIRECTORY) (i : Nat) (buf : Nat → u8) : Nat → u8 :=
  fun k => if 32 * i ≤ k then e.bytes[k - 32 * i]?.getD (buf k) else buf k

def writetest (m : MOUNT_INFO) (s : Surroundings) (filename : List u8) (buffer : Nat → u8) (len : Nat)
    (d : Disk) : Option Disk :=
  (dosName filename).bind fun dosName =>
    let sectorCount := if len % SECTOR_SIZE = 0 then len / SECTOR_SIZE else len / SECTOR_SIZE + 1
    (findSectors m s.behind sectorCount d).bind fun sectors =>
      match sectors with
      | [] => some d
      | first :: rest =>
        match slots.find? fun (sector, i) => d (m.rootOffset + sector) (32 * i) = 0 with
        | none => some d
        | some (sector, i) =>
          let dir := putEntry (newDirectory s dosName first len) i (d (m.rootOffset + sector))
          let d := writeSector (m.rootOffset + sector) dir d
          some (writeChunks buffer 0 (first :: rest) (updateFAT (first :: rest) d))

end FAT12

end UntitledOS.Filesystem
