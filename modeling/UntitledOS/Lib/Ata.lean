import Mathlib

/-! A disk drive on the AT bus, as its ports show it.

A command written to an idle drive makes it busy for a while, and then it has a sector
of words to send, or room for one to receive, or is idle again. Time is counted in
accesses: a drive told to pause for `n` is busy during the next `n` of them, whichever
port they go to. Nobody knows how long a drive takes, so the lengths of its pauses are
part of the drive, one for each time it gets busy (`pauses`).

What software may do depends on what the drive is at: registers are written while it is
idle, words are moved while it waits for them. What happens otherwise is not specified;
it is left to a `Quirks`, and what is proved for all of them depends on none. -/
namespace UntitledOS.Lib.Ata

/-- What a drive that is not busy is at. -/
inductive Phase where
  | idle (error : Bool)
  | sending (words : List (BitVec 16))
  | receiving (lba : Nat) (words : List (BitVec 16))
deriving DecidableEq

structure Drive where
  sectors : Nat → Nat → BitVec 8
  /-- How many sectors there are. -/
  count : Nat
  /-- The words of IDENTIFY. -/
  identity : Nat → BitVec 16
  features : BitVec 8
  seccount : BitVec 8
  lba0 : BitVec 8
  lba1 : BitVec 8
  lba2 : BitVec 8
  device : BitVec 8
  phase : Phase
  /-- For how many accesses the drive is still busy. -/
  left : Nat
  pauses : List Nat

/-- What a drive does on an access that is out of place, and what a word read so is. -/
structure Quirks where
  wild : Drive → Drive
  junk : Drive → BitVec 16

/-- Accesses that are out of place are ignored. -/
def Quirks.Ignores (q : Quirks) : Prop := ∀ d, q.wild d = d

/-- The 256 words of a sector, low byte first. -/
def wordsOf (sector : Nat → BitVec 8) : List (BitVec 16) :=
  (List.range 256).map fun i => (sector (2 * i + 1)).setWidth 16 <<< 8 ||| (sector (2 * i)).setWidth 16

/-- The bytes words are stored as. -/
def bytesOf (words : List (BitVec 16)) (k : Nat) : BitVec 8 :=
  let word := words.getD (k / 2) 0
  if k % 2 = 0 then word.setWidth 8 else (word >>> 8).setWidth 8

namespace Drive

def tick (d : Drive) : Drive := {d with left := d.left - 1}

/-- The next pause, and what comes after it. -/
def pause (phase : Phase) (d : Drive) : Drive :=
  {d with phase := phase, left := d.pauses.headD 0, pauses := d.pauses.tail}

/-- The address in the registers, of 28 bits. -/
def lba (d : Drive) : Nat :=
  d.lba0.toNat + 2 ^ 8 * d.lba1.toNat + 2 ^ 16 * d.lba2.toNat + 2 ^ 24 * (d.device.toNat % 16)

/-- The registers say one sector of the first drive, by its linear address. -/
def Addressed (d : Drive) : Prop := d.seccount = 1 ∧ d.device &&& 0x50 = 0x40

instance decidableAddressed (d : Drive) : Decidable d.Addressed :=
  inferInstanceAs (Decidable (d.seccount = 1 ∧ d.device &&& 0x50 = 0x40))

/-- A command: READ SECTORS, WRITE SECTORS, FLUSH CACHE, IDENTIFY, or none that is known.
Transfers addressed in other ways are left to the quirks. -/
def execute (q : Quirks) (command : BitVec 8) (d : Drive) : Drive :=
  if command = 0x20 then
    if d.Addressed then
      d.pause (if d.lba < d.count then .sending (wordsOf (d.sectors d.lba)) else .idle true)
    else (q.wild d).tick
  else if command = 0x30 then
    if d.Addressed then d.pause (if d.lba < d.count then .receiving d.lba [] else .idle true)
    else (q.wild d).tick
  else if command = 0xE7 then d.pause (.idle false)
  else if command = 0xEC then d.pause (.sending ((List.range 256).map d.identity))
  else d.pause (.idle true)

/-- Not busy, and not waiting for words. -/
def Idle (d : Drive) : Prop := d.left = 0 ∧ ∃ error, d.phase = .idle error

/-- The status: bit 7 for busy, bit 3 for words to be moved, bit 0 for an error. -/
def status (d : Drive) : BitVec 8 :=
  if d.left ≠ 0 then 0xD0
  else
    match d.phase with
    | .idle false => 0x50
    | .idle true => 0x51
    | .sending _ | .receiving _ _ => 0x58

/-- A byte written to a register; the data register takes words. -/
def writeRegister (q : Quirks) (register : Nat) (value : BitVec 8) (d : Drive) : Drive :=
  match d.left, d.phase, register with
  | 0, .idle _, 1 => {d with features := value}
  | 0, .idle _, 2 => {d with seccount := value}
  | 0, .idle _, 3 => {d with lba0 := value}
  | 0, .idle _, 4 => {d with lba1 := value}
  | 0, .idle _, 5 => {d with lba2 := value}
  | 0, .idle _, 6 => {d with device := value}
  | 0, .idle _, 7 => d.execute q value
  | _, _, _ => (q.wild d).tick

/-- A word read from the data register. -/
def readData (q : Quirks) (d : Drive) : BitVec 16 × Drive :=
  match d.left, d.phase with
  | 0, .sending [w] => (w, {d with phase := .idle false})
  | 0, .sending (w :: ws) => (w, {d with phase := .sending ws})
  | _, _ => (q.junk d, (q.wild d).tick)

def store (lba : Nat) (words : List (BitVec 16)) (d : Drive) : Drive :=
  {d with sectors := Function.update d.sectors lba fun k => if k < 512 then bytesOf words k else d.sectors lba k}

/-- A word written to the data register. The sector is stored with its last word. -/
def writeData (q : Quirks) (w : BitVec 16) (d : Drive) : Drive :=
  match d.left, d.phase with
  | 0, .receiving lba ws =>
    if ws.length = 255 then (d.store lba (ws ++ [w])).pause (.idle false)
    else {d with phase := .receiving lba (ws ++ [w])}
  | _, _ => (q.wild d).tick

end Drive

/-! ### Words and bytes -/

theorem bytesOf_wordsOf (sector : Nat → BitVec 8) {k : Nat} (hk : k < 512) :
    bytesOf (wordsOf sector) k = sector k := by
  have hword : (wordsOf sector).getD (k / 2) 0 =
      (sector (2 * (k / 2) + 1)).setWidth 16 <<< 8 ||| (sector (2 * (k / 2))).setWidth 16 := by
    rw [wordsOf, List.getD_eq_getElem?_getD, List.getElem?_map, List.getElem?_range (by omega)]
    rfl
  rw [bytesOf, hword]
  split
  · rw [show 2 * (k / 2) = k by omega]
    apply BitVec.eq_of_getLsbD_eq
    intro i hi
    simp [hi]
  · rw [show 2 * (k / 2) + 1 = k by omega]
    apply BitVec.eq_of_getLsbD_eq
    intro i hi
    simp [hi, show 8 + i < 16 by omega, show i < 16 by omega]

theorem length_wordsOf (sector : Nat → BitVec 8) : (wordsOf sector).length = 256 := by
  rw [wordsOf, List.length_map, List.length_range]

/-! ### One access -/

namespace Drive

variable {q : Quirks} {d : Drive}

theorem tick_ready (h : d.left = 0) : d.tick = d := by
  have hsame : d.left - 1 = d.left := by omega
  rw [tick, hsame]

/-- What a command leaves alone: all but what the drive is at, and when. -/
structure Same (d d' : Drive) : Prop where
  sectors : d'.sectors = d.sectors
  count : d'.count = d.count
  identity : d'.identity = d.identity

theorem Same.trans {d' d'' : Drive} (h : Same d d') (h' : Same d' d'') : Same d d'' :=
  ⟨h'.sectors.trans h.sectors, h'.count.trans h.count, h'.identity.trans h.identity⟩

theorem execute_read (h : d.Addressed) (hin : d.lba < d.count) :
    d.execute q 0x20 = d.pause (.sending (wordsOf (d.sectors d.lba))) := by
  rw [execute, if_pos rfl, if_pos h, if_pos hin]

theorem execute_missing (h : d.Addressed) (hout : d.count ≤ d.lba) : d.execute q 0x20 = d.pause (.idle true) := by
  rw [execute, if_pos rfl, if_pos h, if_neg (by omega)]

theorem execute_write (h : d.Addressed) (hin : d.lba < d.count) : d.execute q 0x30 = d.pause (.receiving d.lba []) := by
  rw [execute, if_neg (by decide), if_pos rfl, if_pos h, if_pos hin]

theorem execute_flush : d.execute q 0xE7 = d.pause (.idle false) := rfl

theorem execute_identify : d.execute q 0xEC = d.pause (.sending ((List.range 256).map d.identity)) := rfl

theorem readData_cons (hleft : d.left = 0) {w : BitVec 16} {ws : List (BitVec 16)}
    (hphase : d.phase = .sending (w :: ws)) :
    d.readData q = (w, {d with phase := if ws = [] then .idle false else .sending ws}) := by
  unfold readData
  rw [hleft, hphase]
  cases ws <;> rfl

/-- No byte goes to the data register. -/
theorem writeRegister_data (value : BitVec 8) : d.writeRegister q 0 value = (q.wild d).tick := by
  unfold writeRegister
  split <;> first | rfl | contradiction

/-- Registers are written while the drive is idle. -/
theorem writeRegister_ignored (hq : q.Ignores) (h : ¬d.Idle) (register : Nat) (value : BitVec 8) :
    d.writeRegister q register value = d.tick := by
  unfold writeRegister
  split
  on_goal 8 => rw [hq]
  all_goals exact absurd ⟨by assumption, _, by assumption⟩ h

theorem writeData_receiving (hleft : d.left = 0) {lba : Nat} {ws : List (BitVec 16)}
    (hphase : d.phase = .receiving lba ws) (w : BitVec 16) : d.writeData q w =
      if ws.length = 255 then (d.store lba (ws ++ [w])).pause (.idle false)
      else {d with phase := .receiving lba (ws ++ [w])} := by
  unfold writeData
  rw [hleft, hphase]
  rfl

/-- A busy drive takes no words. -/
theorem writeData_busy (hq : q.Ignores) (hleft : d.left ≠ 0) (w : BitVec 16) : d.writeData q w = d.tick := by
  unfold writeData
  split
  · rename_i hzero _
    exact absurd hzero hleft
  · rw [hq]

end Drive

end UntitledOS.Lib.Ata
