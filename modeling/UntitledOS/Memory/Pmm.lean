import UntitledOS.Types
import UntitledOS.Lib.Bitmap

/-! The physical memory manager of `pmm.cpp`.

One bit a frame of 4096 bytes, set when the frame is in use, in a bitmap of 32-bit
words placed behind the kernel image; `usedBlocks` counts next to it. Memory behind
the bitmap is part of `memoryMap`, since nothing in the code stops a write there.
Frame numbers are natural: the code's `int`s never go below zero except for the -1
of a search that fails, here `none`.

The constructor reads the boot loader's memory map out of `memory` as the loop does,
24 bytes an entry. Printed lines are not modelled, nor `memorySize` and `kernelEnd`,
which nothing here reads. -/
namespace UntitledOS.Memory

/-- An entry of the memory map; the field `size` is only printed. -/
structure MmapEntry where
  addr : u64
  len : u64
  type : u32

/-- What the constructor is given: the boot information, and the memory it reads the
map from. -/
structure MultibootInfo where
  mem_lower : u32
  mem_upper : u32
  mmap_length : u32
  mmap_addr : u32
  memory : Addr → u8

namespace MultibootInfo

/-- The bytes at `a` as a number, low byte first. -/
def read (mbt : MultibootInfo) (a : Addr) : Nat → Nat
  | 0 => 0
  | n + 1 => (mbt.memory a).toNat + 256 * mbt.read (a + 1) n

/-- `mmap[i]`. -/
def mmap (mbt : MultibootInfo) (i : Nat) : MmapEntry :=
  let a := mbt.mmap_addr + 0xC0000000 + BitVec.ofNat 32 (24 * i)
  ⟨BitVec.ofNat 64 (mbt.read (a + 4) 8), BitVec.ofNat 64 (mbt.read (a + 12) 8),
    BitVec.ofNat 32 (mbt.read (a + 20) 4)⟩

end MultibootInfo

structure PMM where
  memoryMap : Nat → BitVec 32
  usedBlocks : u32
  maxBlocks : u32

namespace PMM

def mmapSet (bit : Nat) (m : PMM) : PMM :=
  {m with memoryMap :=
    Function.update m.memoryMap (bit / 32) (m.memoryMap (bit / 32) ||| 1#32 <<< (bit % 32))}

def mmapUnset (bit : Nat) (m : PMM) : PMM :=
  {m with memoryMap :=
    Function.update m.memoryMap (bit / 32) (m.memoryMap (bit / 32) &&& ~~~(1#32 <<< (bit % 32)))}

/-- The inner loop of `mmapFirstFree`. -/
def firstFreeIn (word : BitVec 32) : Option Nat :=
  if word ≠ 0xffffffff then (List.range 32).find? fun j => word &&& 1#32 <<< j = 0#32 else none

def mmapFirstFree (m : PMM) : Option Nat :=
  (List.range (m.maxBlocks / 32).toNat).findSome? fun i =>
    (firstFreeIn (m.memoryMap i)).map fun j => i * 32 + j

/-- `allocBlock`. The subtraction is unsigned, so the first test is for equality. -/
def allocBlock (m : PMM) : PMM × Addr :=
  if m.maxBlocks - m.usedBlocks ≤ 0 then (m, 0)
  else
    match m.mmapFirstFree with
    | none => (m, 0)
    | some frame =>
      ({m.mmapSet frame with usedBlocks := m.usedBlocks + 1}, BitVec.ofNat 32 (frame * 4096))

def freeBlock (p : Addr) (m : PMM) : PMM :=
  {m.mmapUnset (p / 4096).toNat with usedBlocks := m.usedBlocks - 1}

/-! ### The constructor -/

/-- The loop of `initRegion`, over frames from `align` on. -/
def unsetFrames (align : Nat) : Nat → PMM → PMM
  | 0, m => m
  | blocks + 1, m =>
    unsetFrames (align + 1) blocks {m.mmapUnset align with usedBlocks := m.usedBlocks - 1}

def initRegion (base size : u32) (m : PMM) : PMM :=
  (unsetFrames (base / 4096).toNat (size / 4096).toNat m).mmapSet 0

/-- The loop of `deinitRegion`. -/
def setFrames (align : Nat) : Nat → PMM → PMM
  | 0, m => m
  | blocks + 1, m => setFrames (align + 1) blocks {m.mmapSet align with usedBlocks := m.usedBlocks + 1}

def deinitRegion (base size : u32) (m : PMM) : PMM :=
  setFrames (base / 4096).toNat (size / 4096).toNat m

/-- The word of four bytes, low byte first. -/
def word (b : Nat → u8) : BitVec 32 := b 3 ++ b 2 ++ b 1 ++ b 0

/-- `memset` over a map: the first `size` bytes become `value`. -/
def memset (value : u8) (size : Nat) (map : Nat → BitVec 32) : Nat → BitVec 32 := fun i =>
  word fun k => if 4 * i + k < size then value else (map i).extractLsb' (8 * k) 8

/-- The body of the constructor's loop: an available region of the map is freed, unless
its address reads 1. -/
def initEntry (e : MmapEntry) (m : PMM) : PMM :=
  if e.type = 1 ∧ e.addr.setWidth 32 ≠ (1 : u32) then
    m.initRegion (e.addr.setWidth 32) (e.len.setWidth 32)
  else m

/-- The constructor's loop: `mmap_length` is a number of bytes, and read as a number of
entries. -/
def initEntries (mbt : MultibootInfo) : Nat → PMM → PMM
  | 0, m => m
  | n + 1, m => initEntry (mbt.mmap n) (initEntries mbt n m)

/-- `useableMemory * 1024 / BLOCK_SIZE`, in `int`s. -/
def blocks (mbt : MultibootInfo) : u32 := ((mbt.mem_lower + mbt.mem_upper) * 1024).sdiv 4096

/-- `PMM::PMM`, with what was in memory where the bitmap goes. -/
def new (mbt : MultibootInfo) (stale : Nat → BitVec 32) : PMM :=
  (initEntries mbt mbt.mmap_length.toNat
    ⟨memset 0xf (blocks mbt / 8).toNat stale, blocks mbt, blocks mbt⟩).deinitRegion 0 0x400000

/-! ### The bitmap -/

/-- The bit of a frame: set when the frame is in use. -/
def bit (m : PMM) (frame : Nat) : Bool := Lib.Bitmap.bit m.memoryMap frame

/-- How many frames below `maxBlocks` are in use. -/
def used (m : PMM) : Nat := Lib.Bitmap.count m.memoryMap m.maxBlocks.toNat

@[simp] theorem bit_mmapSet (frame f : Nat) (m : PMM) :
    (m.mmapSet frame).bit f = (decide (f = frame) || m.bit f) :=
  Lib.Bitmap.bit_set (by decide) m.memoryMap frame f

@[simp] theorem bit_mmapUnset (frame f : Nat) (m : PMM) :
    (m.mmapUnset frame).bit f = (!decide (f = frame) && m.bit f) :=
  Lib.Bitmap.bit_unset (by decide) m.memoryMap frame f

theorem mmapFirstFree_eq (m : PMM) :
    m.mmapFirstFree = Lib.Bitmap.firstClear m.memoryMap (m.maxBlocks / 32).toNat := rfl

theorem scanned_eq (m : PMM) : (m.maxBlocks / 32).toNat = m.maxBlocks.toNat / 32 := BitVec.toNat_udiv

/-- What the search finds: the first clear frame of the words it scans. -/
theorem mmapFirstFree_some {m : PMM} {frame : Nat} (h : m.mmapFirstFree = some frame) :
    frame < m.maxBlocks.toNat / 32 * 32 ∧ m.bit frame = false ∧ ∀ f < frame, m.bit f = true := by
  have hspec := Lib.Bitmap.firstClear_spec m.memoryMap (m.maxBlocks / 32).toNat
  rw [← mmapFirstFree_eq, h, scanned_eq] at hspec
  exact hspec

/-- When the search fails, the words it scans are full. -/
theorem mmapFirstFree_none {m : PMM} (h : m.mmapFirstFree = none) :
    ∀ f < m.maxBlocks.toNat / 32 * 32, m.bit f = true := by
  have hspec := Lib.Bitmap.firstClear_spec m.memoryMap (m.maxBlocks / 32).toNat
  rw [← mmapFirstFree_eq, h, scanned_eq] at hspec
  exact hspec

end PMM

end UntitledOS.Memory
