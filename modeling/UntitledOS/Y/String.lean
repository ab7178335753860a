import UntitledOS.Types
import UntitledOS.Lib.Buffer

/-! The class `String` of `Y/String.cpp`.

A string is a buffer with a capacity and a size kept next to it. `buffer` holds
exactly the bytes the buffer was allocated with, none for the null pointer, and an
access outside of it has no result. What an allocation finds in memory is an
argument, `fresh`: a call that allocates several times has `fresh k` for the `k`th.
A request of more than a page is refused and gives the null pointer, as the kernel's
heap does. Sizes are natural numbers: a buffer has at most 4096 bytes, so no sum the
code forms wraps.

Calls on two strings work on the variables they are given, since both may be the same
object. -/
namespace UntitledOS.Y
open Lib

structure String where
  buffer : List u8
  m_capacity : Nat
  m_size : Nat

/-- `new char[n]`. -/
def newChars (fresh : Nat → u8) (n : Nat) : List u8 :=
  if n ≤ 4096 then (List.range n).map fresh else []

namespace String

/-- `String::String()`. -/
def default : String := ⟨[], 0, 0⟩

/-- `String::String(const char *)`, for the characters in front of the terminator. -/
def ofCStr (fresh : Nat → u8) (str : List u8) : Option String :=
  (Buffer.storeAll (newChars fresh (str.length + 1)) 0 str).bind fun buffer =>
    (Buffer.store buffer str.length 0).map fun buffer => ⟨buffer, str.length, str.length⟩

/-- `c_str`, which writes the terminator behind the characters. -/
def c_str (s : String) : Option String :=
  (Buffer.store s.buffer s.m_size 0).map fun buffer => {s with buffer := buffer}

/-- `String::String(const String &)`: the copy, and what `c_str` made of the original. -/
def copyOf (fresh : Nat → u8) (str : String) : Option (String × String) :=
  str.c_str.bind fun str =>
    (Buffer.copy str.buffer (newChars fresh (str.m_size + 1)) 0 str.m_size).bind fun buffer =>
      (Buffer.store buffer str.m_size 0).map fun buffer => (⟨buffer, str.m_size, str.m_size⟩, str)

def reserve (fresh : Nat → u8) (capacity : Nat) (s : String) : Option String :=
  (Buffer.copy s.buffer (newChars fresh capacity) 0 s.m_size).map fun buffer =>
    ⟨buffer, capacity, s.m_size⟩

/-- `append(const char &)`. -/
def append (fresh : Nat → u8) (value : u8) (s : String) : Option String :=
  (if s.m_size ≥ s.m_capacity then
    s.reserve fresh (if s.m_capacity = 0 then 1 else s.m_capacity * 2)
  else some s).bind fun s =>
    (Buffer.store s.buffer s.m_size value).map fun buffer =>
      {s with buffer := buffer, m_size := s.m_size + 1}

def pop_back (s : String) : Option String :=
  if s.m_size > 0 then
    (Buffer.store s.buffer (s.m_size - 1) 0).map fun buffer =>
      {s with buffer := buffer, m_size := s.m_size - 1}
  else some s

def clear (s : String) : Option String :=
  (Buffer.storeAll s.buffer 0 (List.replicate s.m_capacity 0)).map fun buffer =>
    {s with buffer := buffer, m_size := 0}

/-- The character `toUpper` puts in place of one. -/
def upper (c : u8) : u8 := if 0x61 ≤ c ∧ c ≤ 0x7a then c - (0x61 - 0x41) else c

/-- The loop of `toUpper` over `n` characters from `i` on. -/
def toUpperFrom (fresh : Nat → Nat → u8) (s : String) (i : Nat) : Nat → String → Option String
  | 0, newString => some newString
  | n + 1, newString => s.buffer[i]?.bind fun c =>
    (newString.append (fresh i) (upper c)).bind (toUpperFrom fresh s (i + 1) n)

def toUpper (fresh : Nat → Nat → u8) (s : String) : Option String :=
  toUpperFrom fresh s 0 s.m_size default

/-- The `Vector<String>` that `split` fills. -/
structure Pieces where
  m_capacity : Nat
  items : List String

/-- `Vector<String>::reserve`: the new array, with its length in front, has to fit in a
page; every string is copied by assignment to an empty one. -/
def Pieces.reserve (fresh : Nat → u8) (capacity : Nat) (v : Pieces) : Option Pieces :=
  if 4 + 12 * capacity ≤ 4096 then
    (v.items.mapM fun s => (copyOf fresh s).map Prod.fst).map fun items => ⟨capacity, items⟩
  else none

/-- `Vector<String>::push_back`, with the string as the copying leaves it. -/
def Pieces.push_back (fresh : Nat → u8) (value : String) (v : Pieces) : Option (Pieces × String) :=
  (if v.items.length ≥ v.m_capacity then
    v.reserve fresh (if v.m_capacity = 0 then 1 else v.m_capacity * 2)
  else some v).bind fun v =>
    (value.copyOf fresh).map fun r => ({v with items := v.items ++ [r.1]}, r.2)

/-- The loop of `split` over `n` characters from `i` on. -/
def splitFrom (fresh : Nat → Nat → u8) (delim : u8) (this : String) (i : Nat) :
    Nat → Pieces × String → Option (Pieces × String)
  | 0, r => some r
  | n + 1, (v, s) => this.buffer[i]?.bind fun c =>
    (if c = delim then
      if s.m_size > 0 then
        (v.push_back (fresh i) s).bind fun r => r.2.clear.map fun s => (r.1, s)
      else some (v, s)
    else (s.append (fresh i) c).map fun s => (v, s)).bind (splitFrom fresh delim this (i + 1) n)

def split (fresh : Nat → Nat → u8) (delim : u8) (s : String) : Option (List String) :=
  (splitFrom fresh delim s 0 s.m_size (⟨0, []⟩, default)).bind fun r =>
    if r.2.m_size > 0 then (r.1.push_back (fresh s.m_size) r.2).map fun r => r.1.items
    else some r.1.items

/-! ### Numbers -/

/-- The loop of `itoa`: the digits of `n`, last one first. Ten turns are enough for an
`int`. -/
def digits : Nat → Int → List u8
  | 0, _ => []
  | fuel + 1, n => BitVec.ofInt 8 (n.tmod 10 + 48) ::
    if n.tdiv 10 > 0 then digits fuel (n.tdiv 10) else []

/-- The characters `itoa` writes. Negating the least `int` gives itself. -/
def itoa (n : BitVec 32) : List u8 :=
  let m := if n.toInt < 0 then (-n).toInt else n.toInt
  (digits 10 m ++ if n.toInt < 0 then [0x2d] else []).reverse

/-- `append(str[i])` for each of some characters. -/
def appendEach (fresh : Nat → Nat → u8) (i : Nat) : List u8 → String → Option String
  | [], s => some s
  | c :: cs, s => (s.append (fresh i) c).bind (appendEach fresh (i + 1) cs)

/-- `operator+=(const int &)`. -/
def addInt (fresh : Nat → Nat → u8) (n : BitVec 32) (s : String) : Option String :=
  s.appendEach fresh 0 (itoa n)

end String

/-! ### Two strings -/

/-- The variables of a program, by number. -/
abbrev Vars := Nat → String

namespace Vars

def set (x : Nat) (s : String) (v : Vars) : Vars := Function.update v x s

/-- A new variable `x`, copied from `y`. -/
def copy (fresh : Nat → u8) (x y : Nat) (v : Vars) : Option Vars :=
  ((v y).copyOf fresh).map fun r => (v.set y r.2).set x r.1

/-- `x = y`. The old buffer is gone and the new one in place before `y` is read. -/
def assign (fresh : Nat → u8) (x y : Nat) (v : Vars) : Option Vars :=
  let length := (v y).m_size
  let v := v.set x {v x with buffer := newChars fresh (length + 1)}
  (v y).c_str.bind fun str =>
    let v := v.set y str
    (Buffer.copy (v y).buffer (v x).buffer 0 length).bind fun buffer =>
      (Buffer.store buffer length 0).map fun buffer => v.set x ⟨buffer, length, length⟩

/-- The loop of `append(const String &)` over `n` indices from `i` on: each turn copies
`y` to read one character of it. -/
def appendFrom (fresh : Nat → Nat → u8) (x y i : Nat) : Nat → Vars → Option Vars
  | 0, v => some v
  | n + 1, v => ((v y).copyOf (fresh i)).bind fun r =>
    let v := v.set y r.2
    r.1.buffer[i]?.bind fun c =>
      (Buffer.store (v x).buffer ((v x).m_size + i) c).bind fun buffer =>
        appendFrom fresh x y (i + 1) n (v.set x {v x with buffer := buffer})

/-- `x.append(y)`. -/
def append (fresh : Nat → Nat → u8) (x y : Nat) (v : Vars) : Option Vars :=
  let length := (v y).m_size
  (if (v x).m_size + length ≥ (v x).m_capacity then
    ((v x).reserve (fresh length) ((v x).m_size + length)).map fun s => v.set x s
  else some v).bind fun v =>
    (appendFrom fresh x y 0 length v).map fun v =>
      let v := v.set x {v x with m_size := (v x).m_size + (v y).m_size}
      v.set x {v x with m_capacity := (v x).m_size + (v y).m_size}

/-- `x += value` for a character: the overload that takes a string, constructed from the
bytes at `value`, of which `after` follow it in memory. -/
def addChar (fresh : Nat → Nat → u8) (x : Nat) (value : u8) (after : List u8) (v : Vars) : Option Vars :=
  (Buffer.cString (value :: after)).bind fun str =>
    (String.ofCStr (fresh (str.length + 1)) str).bind fun temp =>
      -- the temporary is a variable of its own
      let w : Vars := fun k => if k = 0 then v x else temp
      (append fresh 0 1 w).map fun w => v.set x (w 0)

/-- `x + y`, a new string `r` made from the C string in `x`'s buffer. -/
def plus (fresh : Nat → Nat → u8) (r x y : Nat) (v : Vars) : Option Vars :=
  (Buffer.cString (v x).buffer).bind fun str =>
    (String.ofCStr (fresh ((v y).m_size + 1)) str).bind fun string =>
      append fresh r y (v.set r string)

/-- The loop of `operator==` over `n` indices from `i` on. -/
def eqFrom (x y i : Nat) (v : Vars) : Nat → Option Bool
  | 0 => some true
  | n + 1 => (v y).buffer[i]?.bind fun a => (v x).buffer[i]?.bind fun b =>
    if a ≠ b then some false else eqFrom x y (i + 1) v n

/-- `x == y`. -/
def eq (x y : Nat) (v : Vars) : Option Bool :=
  if (v y).m_size ≠ (v x).m_size then some false else eqFrom x y 0 v (v x).m_size

end Vars

end UntitledOS.Y
