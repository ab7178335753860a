import UntitledOS.Types
import UntitledOS.Y.StringSpec

/-! The console of `VirtualConsole.cpp`, behind the keyboard of `KeyboardDevice.cpp`.

Strings and vectors are their contents; the vector of commands ends at 256, where the next
array would not fit a page, and pushing another one has no result. `row`, `column` and
`commandIndex` are `int`s, and nothing in the code keeps them from going below zero.
`vgaBuffer` is memory, by index, on the screen or not. What an index outside of a vector
finds, and what the commands print that ask other parts of the kernel, are arguments
(`Surroundings`).

Four fields are what has happened so far, last one first: `stores` are the indices written to
`vgaBuffer`, `cursors` the positions told to the hardware, `lookups` the commands read, by
index, with their number then, and `scrolls` is how often the screen was scrolled. -/
namespace UntitledOS.Console
open Y

def VGA_WIDTH : Int := 80
def VGA_HEIGHT : Int := 25

/-! ### The keyboard -/

/-- The characters by scancode, and those with shift or caps lock. The arrays have 0x80
entries, the last ones 0. -/
def map : List u8 := [
  0, 0x1b, 0x31, 0x32, 0x33, 0x34, 0x35, 0x36, 0x37, 0x38, 0x39, 0x30, 0x2d, 0x3d, 0x08, 0x09,
  0x71, 0x77, 0x65, 0x72, 0x74, 0x79, 0x75, 0x69, 0x6f, 0x70, 0x5b, 0x5d, 0x0a, 0, 0x61, 0x73,
  0x64, 0x66, 0x67, 0x68, 0x6a, 0x6b, 0x6c, 0x3b, 0x27, 0x60, 0, 0x5c, 0x7a, 0x78, 0x63, 0x76,
  0x62, 0x6e, 0x6d, 0x2c, 0x2e, 0x2f, 0, 0x2a, 0, 0x20, 0, 0, 0, 0, 0, 0,
  0, 0, 0, 0, 0, 0, 0, 0, 0, 0, 0x2d, 0, 0, 0, 0x2b, 0,
  0, 0, 0, 0, 0, 0, 0x5c, 0, 0, 0]

def shift_map : List u8 := [
  0, 0x1b, 0x21, 0x40, 0x23, 0x24, 0x25, 0x5e, 0x26, 0x2a, 0x28, 0x29, 0x5f, 0x2b, 0x08, 0x09,
  0x51, 0x57, 0x45, 0x52, 0x54, 0x59, 0x55, 0x49, 0x4f, 0x50, 0x7b, 0x7d, 0x0a, 0, 0x41, 0x53,
  0x44, 0x46, 0x47, 0x48, 0x4a, 0x4b, 0x4c, 0x3a, 0x22, 0x7e, 0, 0x7c, 0x5a, 0x58, 0x43, 0x56,
  0x42, 0x4e, 0x4d, 0x3c, 0x3e, 0x3f, 0, 0x2a, 0, 0x20, 0, 0, 0, 0, 0, 0,
  0, 0, 0, 0, 0, 0, 0, 0, 0, 0, 0x2d, 0, 0, 0, 0x2b, 0,
  0, 0, 0, 0, 0, 0, 0x7c, 0, 0, 0]

structure KeyboardDevice where
  shifted : Bool
  capsLock : Bool

namespace KeyboardDevice

def keyStateChanged (ch : u8) (pressed : Bool) (k : KeyboardDevice) : KeyboardDevice :=
  if ch = 0x2a then {k with shifted := pressed} else k

/-- `handleIRQ`, for the device itself. -/
def handleIRQ (raw : u8) (k : KeyboardDevice) : KeyboardDevice :=
  let k := if raw = 0x3A then {k with capsLock := !k.capsLock} else k
  k.keyStateChanged (raw &&& 0x7f) (raw &&& 0x80 = 0)

end KeyboardDevice

/-- The cases of the console's `switch`. -/
inductive Key where
  | backspace
  | enter
  | up
  | down
  | escape
  | ignored
  | char (c : u8)
deriving DecidableEq

def keyOf (k : KeyboardDevice) (ch : u8) : Key :=
  if ch = 0x0E then .backspace
  else if ch = 0x1C then .enter
  else if ch ∈ [0x2A, 0x1D, 0x3A, 0x0F, 0x36, 0x38, 0x5C] then .ignored
  else if ch = 0x48 then .up
  else if ch = 0x50 then .down
  else if ch = 0x4B then .ignored
  else if ch = 0x4D then .ignored
  else if ch = 0x01 then .escape
  else .char ((if k.shifted || k.capsLock then shift_map else map).getD ch.toNat 0)

/-! ### The console -/

structure Surroundings where
  stray : List u8
  reply : List (List u8) → List u8

structure VirtualConsole where
  vgaBuffer : Int → u16
  row : Int
  column : Int
  inputStr : List u8
  previousCommands : List (List u8)
  commandIndex : Int
  stores : List Int
  cursors : List (Int × Int)
  lookups : List (Int × Nat)
  scrolls : Nat

def ascii (cs : List Char) : List u8 := cs.map fun c => BitVec.ofNat 8 c.toNat

/-- `c | 0x0f << 8`, of a signed `char`. -/
def cell (c : u8) : u16 := c.signExtend 16 ||| 0x0f00

def blank : u16 := cell 0x20

namespace VirtualConsole

/-- `vgaBuffer[index] = v`. -/
def store (index : Int) (v : u16) (s : VirtualConsole) : VirtualConsole :=
  {s with
    vgaBuffer := Function.update s.vgaBuffer index v
    stores := index :: s.stores}

/-- `VirtualConsole::VirtualConsole`, over whatever video memory holds. -/
def new (video : Int → u16) : VirtualConsole :=
  (List.range 80 ×ˢ List.range 25).foldl (fun s p => s.store (p.1 + p.2 * VGA_WIDTH) blank)
    ⟨video, 0, 0, [], [], 0, [], [], [], 0⟩

def updateCursor (s : VirtualConsole) : VirtualConsole := {s with cursors := (s.column, s.row) :: s.cursors}

def scroll (s : VirtualConsole) : VirtualConsole :=
  let s := (List.range 24 ×ˢ List.range 80).foldl
    (fun s p => s.store (p.1 * VGA_WIDTH + p.2) (s.vgaBuffer (p.1 * VGA_WIDTH + p.2 + VGA_WIDTH))) s
  let s := (List.range 80).foldl (fun s x => s.store ((VGA_HEIGHT - 1) * VGA_WIDTH + (x : Int)) blank) s
  {s with scrolls := s.scrolls + 1}

/-- `if(row == VGA_HEIGHT) { row--; scroll(); }`. -/
def scrollAtEnd (s : VirtualConsole) : VirtualConsole :=
  if s.row = VGA_HEIGHT then scroll {s with row := s.row - 1} else s

def putchar (c : u8) (s : VirtualConsole) : VirtualConsole :=
  updateCursor <| scrollAtEnd <|
    if c = 0x0a then {s with column := 0, row := s.row + 1}
    else
      let s := s.store (s.row * VGA_WIDTH + s.column) (cell c)
      if s.column + 1 = VGA_WIDTH then {s with column := 0, row := s.row + 1}
      else {s with column := s.column + 1}

/-- Characters printed one after the other. -/
def print (cs : List u8) (s : VirtualConsole) : VirtualConsole := cs.foldl (fun s c => s.putchar c) s

/-- `printf("%s", str.c_str())`, which stops at a null. -/
def printStr (str : List u8) (s : VirtualConsole) : VirtualConsole := s.print (str.takeWhile (· ≠ 0))

def newCommand (s : VirtualConsole) : VirtualConsole :=
  let s := scrollAtEnd {s with inputStr := [], row := s.row + 1}
  updateCursor (print (ascii ['>', ' ']) {s with column := 0})

/-- `column--; putchar(' '); column--;`. -/
def erase (s : VirtualConsole) : VirtualConsole :=
  let s := putchar 0x20 {s with column := s.column - 1}
  {s with column := s.column - 1}

def eraseMany : Nat → VirtualConsole → VirtualConsole
  | 0, s => s
  | n + 1, s => eraseMany n s.erase

def clearCommand (s : VirtualConsole) : VirtualConsole :=
  updateCursor {eraseMany s.inputStr.length s with inputStr := []}

/-- `previousCommands[index]`. -/
def command (a : Surroundings) (index : Int) (s : VirtualConsole) : List u8 :=
  if 0 ≤ index then (s.previousCommands[index.toNat]?).getD a.stray else a.stray

/-- The commands whose output comes from elsewhere, by name and number of words. -/
def answered (command : List u8) (words : Nat) : Prop :=
  command ∈ [ascii ['t', 'i', 'm', 'e'], ascii ['d', 'a', 't', 'e'], ascii ['u', 'p', 't', 'i', 'm', 'e'],
    ascii ['r', 'a', 'm'], ascii ['m', 'e', 'm'], ascii ['l', 's']] ∨
  command = ascii ['o', 'p', 'e', 'n'] ∧ words > 1 ∨
  command = ascii ['w', 'r', 'i', 't', 'e'] ∧ words > 2

instance (command : List u8) (words : Nat) : Decidable (answered command words) :=
  inferInstanceAs (Decidable (_ ∨ _ ∨ _))

/-- What a command prints. -/
def answer (a : Surroundings) (wholeCommand : List u8) (split : List (List u8)) (s : VirtualConsole) :
    VirtualConsole :=
  let s := s.putchar 0x0a
  if answered (split[0]?.getD a.stray) split.length then s.print (a.reply split)
  else
    (s.print (ascii ['U', 'n', 'k', 'n', 'o', 'w', 'n', ' ', 'c', 'o', 'm', 'm', 'a', 'n', 'd', ':', ' '])).printStr
      wholeCommand

def runCommand (a : Surroundings) (wholeCommand : List u8) (s : VirtualConsole) : Option VirtualConsole :=
  if wholeCommand.length > 0 then
    if s.previousCommands.length < 256 then
      some (answer a wholeCommand (String.tokens 0x20 wholeCommand) {s with
        previousCommands := s.previousCommands ++ [wholeCommand]
        commandIndex := s.previousCommands.length + 1})
    else none
  else some s

/-- A command of the history takes the place of the line. -/
def replaceCommand (a : Surroundings) (index : Int) (s : VirtualConsole) : VirtualConsole :=
  let s := {s.clearCommand with commandIndex := index}
  {s with
    inputStr := s.command a index
    lookups := (index, s.previousCommands.length) :: s.lookups}

def takeCommand (a : Surroundings) (index : Int) (s : VirtualConsole) : VirtualConsole :=
  let s := s.replaceCommand a index
  s.printStr s.inputStr

/-- `commandIndex < previousCommands.size() - 1`, which compares without sign. -/
def below (s : VirtualConsole) : Prop :=
  BitVec.ofInt 32 s.commandIndex < BitVec.ofNat 32 s.previousCommands.length - 1

instance (s : VirtualConsole) : Decidable s.below := inferInstanceAs (Decidable (_ < _))

/-- The `switch` of `keyStateChanged`. -/
def press (a : Surroundings) (s : VirtualConsole) : Key → Option VirtualConsole
  | .backspace =>
    some (if s.inputStr.length > 0 then updateCursor (erase {s with inputStr := s.inputStr.dropLast}) else s)
  | .enter => (runCommand a s.inputStr s).map newCommand
  | .up => some (if s.commandIndex > 0 then s.takeCommand a (s.commandIndex - 1) else s)
  | .down => some (if s.below then s.takeCommand a (s.commandIndex + 1) else s)
  | .escape => some {s.clearCommand with commandIndex := s.previousCommands.length}
  | .ignored => some s
  | .char c => some (putchar c {s with inputStr := s.inputStr ++ [c]})

/-- `keyStateChanged`, with the keyboard as it is then. -/
def keyStateChanged (a : Surroundings) (k : KeyboardDevice) (raw : u8) (pressed : Bool) (s : VirtualConsole) :
    Option VirtualConsole :=
  if pressed then s.press a (keyOf k (raw &&& 0x7f)) else some s

end VirtualConsole

/-! ### The system -/

structure System where
  keyboard : KeyboardDevice
  console : VirtualConsole

/-- An interrupt of the keyboard, or a call from elsewhere in the kernel. -/
inductive Event where
  | irq (raw : u8) (a : Surroundings)
  | putchar (c : u8)
  | newCommand

namespace System

/-- Behind a console just constructed. -/
def boot (k : KeyboardDevice) (video : Int → u16) : System := ⟨k, .new video⟩

/-- `KeyboardDevice::handleIRQ`: the device first, then its listener. -/
def step (s : System) : Event → Option System
  | .irq raw a =>
    let keyboard := s.keyboard.handleIRQ raw
    (s.console.keyStateChanged a keyboard raw (raw &&& 0x80 = 0)).map fun console => ⟨keyboard, console⟩
  | .putchar c => some {s with console := s.console.putchar c}
  | .newCommand => some {s with console := s.console.newCommand}

/-- The key that an event presses. -/
def key (s : System) : Event → Option Key
  | .irq raw _ => if raw &&& 0x80 = 0 then some (keyOf (s.keyboard.handleIRQ raw) (raw &&& 0x7f)) else none
  | _ => none

end System

end UntitledOS.Console
