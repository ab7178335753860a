import UntitledOS.Types
import UntitledOS.Lib.Ata

/-! The disk driver of `IDE.cpp`, over the ports of `ports.cpp`.

The machine has one drive, at the ports from `0x1F0`. The driver's other two ports,
`bus + REG_CONTROL` and `bus + 0x306`, are nobody's: reading them gives ones and writing
them does nothing, but either takes its time. Loops that poll the status have as many
polls as they are given, and no result when these run out. Of the `sout` lines there is
what `init` found and whether `readSector` saw an error. -/
namespace UntitledOS.Filesystem
open Lib.Ata

namespace IDE

def BUS_ADDR : u16 := 0x1F0

def REG_FEATURES : u16 := 0x01
def REG_SECCOUNT0 : u16 := 0x02
def REG_LBA0 : u16 := 0x03
def REG_LBA1 : u16 := 0x04
def REG_LBA2 : u16 := 0x05
def REG_HDDEVSEL : u16 := 0x06
def REG_COMMAND : u16 := 0x07
def REG_STATUS : u16 := 0x07
def REG_CONTROL : u16 := 0x0C
def REG_ALTSTATUS : u16 := 0x0C

def SR_BSY : u8 := 0x80
def SR_DF : u8 := 0x20
def SR_DRQ : u8 := 0x08
def SR_ERR : u8 := 0x01

def CMD_READ_PIO : u8 := 0x20
def CMD_WRITE_PIO : u8 := 0x30
def CMD_CACHE_FLUSH : u8 := 0xE7
def CMD_IDENTIFY : u8 := 0xEC

/-! ### Ports -/

/-- `inb`. Of the drive's registers only the status is ever read. -/
def inb (port : u16) (d : Drive) : u8 × Drive :=
  (if port = BUS_ADDR + REG_STATUS then d.status else 0xFF, d.tick)

def outb (q : Quirks) (port : u16) (val : u8) (d : Drive) : Drive :=
  if (port - BUS_ADDR).toNat < 8 then d.writeRegister q (port - BUS_ADDR).toNat val else d.tick

def ins (q : Quirks) (port : u16) (d : Drive) : u16 × Drive :=
  if port = BUS_ADDR then d.readData q else (0xFFFF, d.tick)

def outs (q : Quirks) (port : u16) (val : u16) (d : Drive) : Drive :=
  if port = BUS_ADDR then d.writeData q val else d.tick

/-- `rep insw`, and the words it stores. -/
def insm (q : Quirks) (port : u16) : Nat → Drive → List u16 × Drive
  | 0, d => ([], d)
  | size + 1, d =>
    let r := ins q port d
    let rest := insm q port size r.2
    (r.1 :: rest.1, rest.2)

/-- `rep outsw`, from the words it loads. -/
def outsm (q : Quirks) (port : u16) : List u16 → Drive → Drive
  | [], d => d
  | w :: ws, d => outsm q port ws (outs q port w d)

/-! ### The driver -/

def ataIOwait (bus : u16) (d : Drive) : Drive :=
  let d := (inb (bus + REG_ALTSTATUS) d).2
  let d := (inb (bus + REG_ALTSTATUS) d).2
  let d := (inb (bus + REG_ALTSTATUS) d).2
  (inb (bus + REG_ALTSTATUS) d).2

/-- The loop of `ataWaitReady`, which is the loop of `ataWait`. -/
def ataWaitReady (bus : u16) : Nat → Drive → Option Drive
  | 0, _ => none
  | polls + 1, d =>
    let r := inb (bus + REG_STATUS) d
    if r.1 &&& SR_BSY ≠ 0 then ataWaitReady bus polls r.2 else some r.2

/-- `ataWait`, true for 1. -/
def ataWait (polls : Nat) (bus : u16) (advanced : Bool) (d : Drive) : Option (Bool × Drive) :=
  (ataWaitReady bus polls (ataIOwait bus d)).map fun d =>
    if advanced then
      let r := inb (bus + REG_STATUS) d
      let status := r.1
      (status &&& SR_ERR ≠ 0 || status &&& SR_DF ≠ 0 || !(status &&& SR_DRQ ≠ 0), r.2)
    else (false, d)

def ataSelect (q : Quirks) (bus : u16) (d : Drive) : Drive := outb q (bus + REG_HDDEVSEL) 0xA0 d

/-- The byte for `REG_HDDEVSEL`: linear addresses, the drive, the top of the address. -/
def devsel (slave : u8) (lba : u32) : u8 :=
  ((0xe0 : u32) ||| slave.setWidth 32 <<< 4 ||| (lba &&& 0x0f000000) >>> 24).setWidth 8

def lbaByte0 (lba : u32) : u8 := ((lba &&& 0x000000ff) >>> 0).setWidth 8
def lbaByte1 (lba : u32) : u8 := ((lba &&& 0x0000ff00) >>> 8).setWidth 8
def lbaByte2 (lba : u32) : u8 := ((lba &&& 0x00ff0000) >>> 16).setWidth 8

/-- The registers from `FEATURES` to the top of `LBA`, as both transfers write them. -/
def setup (q : Quirks) (bus : u16) (lba : u32) (d : Drive) : Drive :=
  let d := outb q (bus + REG_FEATURES) 0x00 d
  let d := outb q (bus + REG_SECCOUNT0) 1 d
  let d := outb q (bus + REG_LBA0) (lbaByte0 lba) d
  let d := outb q (bus + REG_LBA1) (lbaByte1 lba) d
  outb q (bus + REG_LBA2) (lbaByte2 lba) d

/-- `readSector` of a bus: the words of the buffer, and whether an error was printed. -/
def readWords (q : Quirks) (polls : Nat) (bus : u16) (slave : u8) (lba : u32) (d : Drive) :
    Option ((List u16 × Bool) × Drive) :=
  let d := outb q (bus + REG_CONTROL) 0x02 d
  (ataWaitReady bus polls d).bind fun d =>
    let d := outb q (bus + REG_HDDEVSEL) (devsel slave lba) d
    let d := setup q bus lba d
    let d := outb q (bus + REG_COMMAND) CMD_READ_PIO d
    (ataWait polls bus true d).bind fun r =>
      let words := insm q bus 256 r.2
      (ataWait polls bus false words.2).map fun last => ((words.1, r.1), last.2)

/-- `readSector`: a new buffer of 512 bytes, with what is behind it in memory. -/
def readSector (q : Quirks) (polls : Nat) (sector : u32) (behind : u8) (d : Drive) :
    Option ((Nat → u8) × Drive) :=
  (readWords q polls BUS_ADDR 0 sector d).map fun r =>
    (fun k => if k < 512 then bytesOf r.1.1 k else behind, r.2)

/-- `writeSector` of a bus. A byte goes to the data register before the words do, and the
cache is flushed without waiting for the drive. -/
def writeWords (q : Quirks) (polls : Nat) (bus : u16) (slave : u8) (lba : u32) (words : List u16) (d : Drive) :
    Option Drive :=
  let d := outb q (bus + REG_CONTROL) 0x02 d
  (ataWaitReady bus polls d).bind fun d =>
    let d := outb q (bus + REG_HDDEVSEL) (devsel slave lba) d
    (ataWait polls bus false d).bind fun r =>
      let d := setup q bus lba r.2
      let d := outb q (bus + REG_COMMAND) CMD_WRITE_PIO d
      let d := outb q bus 0 d
      let d := outsm q bus words d
      let d := outb q (bus + 0x07) CMD_CACHE_FLUSH d
      (ataWait polls bus false d).map fun last => last.2

/-- `writeSector`, from the first 512 bytes of a buffer. -/
def writeSector (q : Quirks) (polls : Nat) (sector : u32) (buf : Nat → u8) (d : Drive) : Option Drive :=
  writeWords q polls BUS_ADDR 0 sector (wordsOf buf) d

/-! ### Identification -/

/-- What `init` prints of the drive. -/
structure Identified where
  model : List u8
  sectors_48 : u32
  sectors_28 : u32
  size : u32
deriving DecidableEq

/-- Where `model` is in the record. -/
def IDENT_MODEL : Nat := 54

/-- The `for` loop over `ptr`, from index `i` on, and the terminator after it, which is the
first byte of `sectors_per_int`. -/
def swapModel (bytes : Nat → u8) : Nat → Nat → Nat → u8
  | _, 0 => Function.update bytes (IDENT_MODEL + 40) 0
  | i, n + 1 =>
    let ptr := fun k => IDENT_MODEL + k
    let tmp := bytes (ptr (i + 1))
    let bytes := Function.update bytes (ptr (i + 1)) (bytes (ptr i))
    swapModel (Function.update bytes (ptr i) tmp) (i + 2) n

/-- The bytes from `k` on up to the first zero, as `%s` takes them. -/
def cStringAt (bytes : Nat → u8) (k : Nat) : Nat → List u8
  | 0 => []
  | n + 1 => if bytes k = 0 then [] else bytes k :: cStringAt bytes (k + 1) n

def word32 (bytes : Nat → u8) (k : Nat) : u32 :=
  (bytes (k + 3)).setWidth 32 <<< 24 ||| (bytes (k + 2)).setWidth 32 <<< 16 ||| (bytes (k + 1)).setWidth 32 <<< 8 |||
    (bytes k).setWidth 32

/-- What is printed of a record of 512 bytes; the string ends at the terminator at the
latest. -/
def identified (bytes : Nat → u8) : Identified :=
  let bytes := swapModel bytes 0 20
  let sectors_28 := word32 bytes 120
  ⟨cStringAt bytes IDENT_MODEL 41, word32 bytes 200, sectors_28, sectors_28 / 2 / 1024⟩

/-- `init`. -/
def init (q : Quirks) (polls : Nat) (bus : u16) (d : Drive) : Option (Identified × Drive) :=
  let d := outb q (bus + 1) 1 d
  let d := outb q (bus + 0x306) 0 d
  let d := ataSelect q bus d
  let d := ataIOwait bus d
  let d := outb q (bus + REG_COMMAND) CMD_IDENTIFY d
  let d := ataIOwait bus d
  let d := (inb (bus + REG_COMMAND) d).2
  (ataWaitReady bus polls d).map fun d =>
    let words := insm q bus 256 d
    (identified (bytesOf words.1), outb q (bus + REG_CONTROL) 0x02 words.2)

end IDE

end UntitledOS.Filesystem
