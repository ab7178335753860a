import UntitledOS.Memory.Pmm

/-! The virtual memory manager of `vmm.cpp`.

Physical memory is `ram`, frames of 1024 words; `dir` is the frame of the page
directory, which the hardware walks from. The code never sees physical memory: it
reads and writes the directory and the page tables at the virtual addresses where the
directory's last entry shows them, so its accesses are translated like any other
(`translate`) and fault where nothing is mapped. The bitmap of the frame allocator
is kept apart from `ram`. Cached translations are not modelled: the code only ever
adds entries where none was present. -/
namespace UntitledOS.Memory

structure VMM where
  ram : Nat → Nat → u32
  dir : Nat
  pmm : PMM

def PAGE_DIR_ADDR : Addr := 0xFFFFF000
def PAGE_TABLE_BASE_ADDR : Addr := 0xFFC00000

def PAGE_DIRECTORY_INDEX (x : Addr) : u32 := x >>> 22
def PAGE_TABLE_INDEX (x : Addr) : u32 := (x >>> 12) &&& 0x3ff

/-! ### The hardware -/

/-- Bit 0 of an entry: there is a frame behind it. -/
def Present (entry : u32) : Prop := entry &&& 1 = 1

/-- Bit 7 of a directory entry: it maps 4 MiB itself. -/
def Large (entry : u32) : Prop := entry &&& 0x80 ≠ 0

instance (entry : u32) : Decidable (Present entry) := inferInstanceAs (Decidable (entry &&& 1 = 1))
instance (entry : u32) : Decidable (Large entry) := inferInstanceAs (Decidable (entry &&& 0x80 ≠ 0))

/-- The frame an entry points to. -/
def frameOf (entry : u32) : Nat := (entry >>> 12).toNat

namespace VMM

/-- The frame and the word in it that a virtual address stands for. -/
def translate (s : VMM) (v : Addr) : Option (Nat × Nat) :=
  let pde := s.ram s.dir (PAGE_DIRECTORY_INDEX v).toNat
  let word := ((v &&& 0xfff) >>> 2).toNat
  if ¬ Present pde then none
  else if Large pde then some (frameOf pde / 1024 * 1024 + (PAGE_TABLE_INDEX v).toNat, word)
  else
    let pte := s.ram (frameOf pde) (PAGE_TABLE_INDEX v).toNat
    if Present pte then some (frameOf pte, word) else none

def setWord (frame word : Nat) (x : u32) (s : VMM) : VMM :=
  {s with ram := Function.update s.ram frame (Function.update (s.ram frame) word x)}

/-- A load, or a page fault. -/
def read (v : Addr) (s : VMM) : Option u32 :=
  (s.translate v).map fun a => s.ram a.1 a.2

/-- A store, or a page fault. -/
def write (v : Addr) (x : u32) (s : VMM) : Option VMM :=
  (s.translate v).map fun a => s.setWord a.1 a.2 x

/-! ### The code -/

/-- `&pageDirectory[pageDirIndex]`. -/
def dirEntry (pageDirIndex : u32) : Addr := PAGE_DIR_ADDR + 4 * pageDirIndex

/-- `&table[pageTableIndex]`, for the table of a directory entry. -/
def tableEntry (pageDirIndex pageTableIndex : u32) : Addr :=
  PAGE_TABLE_BASE_ADDR + 4 * (0x400 * pageDirIndex) + 4 * pageTableIndex

/-- An address with the flags `PRESENT`, `WRITABLE` and `USER`. -/
def entryFor (address : Addr) : u32 := address ||| 1 ||| 2 ||| 4

/-- `mapPage` once the table is there: an entry that is present is left alone. -/
def mapEntry (phys virt : Addr) (s : VMM) : Option VMM :=
  let pte := tableEntry (PAGE_DIRECTORY_INDEX virt) (PAGE_TABLE_INDEX virt)
  (s.read pte).bind fun entry =>
    if Present entry then some s else s.write pte (entryFor phys)

/-- `mapPage`. The `memset` over a new table clears `sizeof(table)` bytes, the size of a
pointer. -/
def mapPage (phys virt : Addr) (s : VMM) : Option VMM :=
  let pageDirIndex := PAGE_DIRECTORY_INDEX virt
  (s.read (dirEntry pageDirIndex)).bind fun pde =>
    if Present pde then s.mapEntry phys virt
    else
      let r := s.pmm.allocBlock
      let s := {s with pmm := r.1}
      if r.2 = 0 then some s
      else
        (s.write (dirEntry pageDirIndex) (entryFor r.2)).bind fun s =>
          (s.write (tableEntry pageDirIndex 0) 0).bind fun s => s.mapEntry phys virt

/-- `allocPage`, which answers with the address it was given. -/
def allocPage (address : Addr) (s : VMM) : Option (VMM × Addr) :=
  let r := s.pmm.allocBlock
  (mapPage r.2 address {s with pmm := r.1}).map (·, address)

/-- The loop of `allocPages`, from page `i` on. -/
def allocPagesFrom (address : Addr) (i : Nat) : Nat → VMM → Option VMM
  | 0, s => some s
  | pages + 1, s => (s.allocPage (address + 0x1000 * BitVec.ofNat 32 i)).bind fun r =>
    allocPagesFrom address (i + 1) pages r.1

def allocPages (pages : u32) (address : Addr) (s : VMM) : Option (VMM × Addr) :=
  (allocPagesFrom address 0 pages.toNat s).map (·, address)

end VMM

end UntitledOS.Memory
