import UntitledOS.Types
import UntitledOS.Lib.Blocks

/-! The class `Vector` of `Y/include/Y/Vector.h`, for `int`.

A vector is a pointer, a capacity and a size. It has no copy constructor and no
assignment of its own, so both copy the three fields, and its destructor deletes the
buffer. Blocks are those of `Lib.Blocks`: a read or a write through a pointer whose
block was deleted, or outside of its block, and a second deletion have no result. A
request of more than a page is refused and gives the null pointer, as the kernel's heap
does; where a block goes (`addr`) and what it holds at first (`fresh`) is chosen by the
memory. Programs name their vectors by numbers, and share the heap with buffers of
others, which they name as well. -/
namespace UntitledOS.Y
open Lib

/-- `new int[n]`. -/
def newInts (addr : Nat) (fresh : Nat → u32) (n : Nat) (h : Blocks u32) : Blocks u32 × Ptr :=
  if 4 * n ≤ 4096 then h.new addr ((List.range n).map fresh) else (h, .null)

structure Vector where
  buffer : Ptr
  m_capacity : Nat
  m_size : Nat

namespace Vector
variable (addr : Nat) (fresh : Nat → u32)

def reserve (capacity : Nat) (v : Vector) (h : Blocks u32) : Option (Blocks u32 × Vector) :=
  let (h, newBuffer) := newInts addr fresh capacity h
  (Blocks.copy v.buffer newBuffer 0 v.m_size h).bind fun h =>
    (h.delete v.buffer).map fun h => (h, ⟨newBuffer, capacity, v.m_size⟩)

/-- `push_back`, also `operator+=` and `operator<<`. The argument is a reference, read
when it is stored. -/
def push_back (value : Blocks u32 → Option u32) (v : Vector) (h : Blocks u32) :
    Option (Blocks u32 × Vector) :=
  (if v.m_size ≥ v.m_capacity then
    v.reserve addr fresh (if v.m_capacity = 0 then 1 else v.m_capacity * 2) h
  else some (h, v)).bind fun (h, v) =>
    (value h).bind fun a => (h.store v.buffer v.m_size a).map fun h =>
      (h, {v with m_size := v.m_size + 1})

/-- The destructor of an `int` does nothing. -/
def pop_back (v : Vector) : Vector :=
  if v.m_size > 0 then {v with m_size := v.m_size - 1} else v

end Vector

/-! ### Programs -/

inductive VectorCall where
  | construct (x : Nat)
  | sized (x : Nat) (size : u32)
  | push_back (x : Nat) (value : u32)
  /-- `x.push_back(y[i])` -/
  | pushElement (x y i : Nat)
  | pop_back (x : Nat)
  | reserve (x : Nat) (capacity : u32)
  | get (x i : Nat)
  | set (x i : Nat) (value : u32)
  | copy (x y : Nat)
  | assign (x y : Nat)
  | destroy (x : Nat)
  | otherNew (o size : Nat)
  | otherSet (o i : Nat) (value : u32)
  | otherDelete (o : Nat)

/-- A call, with the place and the first contents of the block it may allocate. -/
structure VectorEvent where
  call : VectorCall
  addr : Nat
  fresh : Nat → u32

structure Machine where
  heap : Blocks u32
  vectors : Nat → Option Vector
  others : Nat → Option Ptr

namespace Machine

def start : Machine := ⟨.empty, fun _ => none, fun _ => none⟩

/-- What a call on vector `x` made of it and of the heap. -/
def put (s : Machine) (x : Nat) (r : Blocks u32 × Vector) : Machine :=
  {s with heap := r.1, vectors := Function.update s.vectors x (some r.2)}

def step (s : Machine) (e : VectorEvent) : Option Machine :=
  match e.call with
  | .construct x => some (s.put x (s.heap, ⟨.null, 0, 0⟩))
  | .sized x size =>
    let (heap, buffer) := newInts e.addr e.fresh size.toNat s.heap
    some (s.put x (heap, ⟨buffer, size.toNat, 0⟩))
  | .push_back x value => (s.vectors x).bind fun v =>
    (v.push_back e.addr e.fresh (fun _ => some value) s.heap).map (s.put x)
  | .pushElement x y i => (s.vectors x).bind fun v => (s.vectors y).bind fun w =>
    (v.push_back e.addr e.fresh (fun h => h.load w.buffer i) s.heap).map (s.put x)
  | .pop_back x => (s.vectors x).map fun v => s.put x (s.heap, v.pop_back)
  | .reserve x capacity => (s.vectors x).bind fun v =>
    (v.reserve e.addr e.fresh capacity.toNat s.heap).map (s.put x)
  | .get x i => (s.vectors x).bind fun v => (s.heap.load v.buffer i).map fun _ => s
  | .set x i value => (s.vectors x).bind fun v =>
    (s.heap.store v.buffer i value).map fun h => s.put x (h, v)
  | .copy x y => (s.vectors y).map fun w => s.put x (s.heap, w)
  | .assign x y => (s.vectors y).map fun w => s.put x (s.heap, w)
  | .destroy x => (s.vectors x).bind fun v =>
    (s.heap.delete v.buffer).map fun h => {s with heap := h, vectors := Function.update s.vectors x none}
  | .otherNew o size =>
    let (heap, p) := newInts e.addr e.fresh size s.heap
    some {s with heap := heap, others := Function.update s.others o (some p)}
  | .otherSet o i value => (s.others o).bind fun p =>
    (s.heap.store p i value).map fun h => {s with heap := h}
  | .otherDelete o => (s.others o).bind fun p =>
    (s.heap.delete p).map fun h => {s with heap := h, others := Function.update s.others o none}

/-- What the language and the allocator promise: a name is constructed once and used
while it lives, an index is below the size, others write in their own buffers, and a
block goes where none is. -/
def Proper (s : Machine) (e : VectorEvent) : Prop :=
  (e.addr ≠ 0 ∧ s.heap.block e.addr = none) ∧
  match e.call with
  | .construct x => s.vectors x = none
  | .sized x _ => s.vectors x = none
  | .push_back x _ => (s.vectors x).isSome
  | .pushElement x y i => (s.vectors x).isSome ∧ ∃ w ∈ s.vectors y, i < w.m_size
  | .pop_back x => (s.vectors x).isSome
  | .reserve x _ => (s.vectors x).isSome
  | .get x i => ∃ v ∈ s.vectors x, i < v.m_size
  | .set x i _ => ∃ v ∈ s.vectors x, i < v.m_size
  | .copy x y => s.vectors x = none ∧ (s.vectors y).isSome
  | .assign x y => (s.vectors x).isSome ∧ (s.vectors y).isSome
  | .destroy x => (s.vectors x).isSome
  | .otherNew o _ => s.others o = none
  | .otherSet o i _ => ∃ p ∈ s.others o, i < (s.heap.cells p).length
  | .otherDelete o => (s.others o).isSome

end Machine

/-! ### Lists -/

/-- What the vectors of a program are meant to hold. -/
abbrev Lists := Nat → Option (List u32)

/-- What a call is for. -/
def VectorCall.apply (t : Lists) : VectorCall → Lists
  | .construct x => Function.update t x (some [])
  | .sized x _ => Function.update t x (some [])
  | .push_back x value => Function.update t x ((t x).map (· ++ [value]))
  | .pushElement x y i => Function.update t x ((t x).map (· ++ ((t y).bind (·[i]?)).toList))
  | .pop_back x => Function.update t x ((t x).map List.dropLast)
  | .reserve _ _ => t
  | .get _ _ => t
  | .set x i value => Function.update t x ((t x).map (·.set i value))
  | .copy x y => Function.update t x (t y)
  | .assign x y => Function.update t x (t y)
  | .destroy x => Function.update t x none
  | .otherNew _ _ => t
  | .otherSet _ _ _ => t
  | .otherDelete _ => t

end UntitledOS.Y
