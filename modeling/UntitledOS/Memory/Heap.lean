import UntitledOS.Types
import UntitledOS.Lib.Chain

/-! The kernel heap of `heap.cpp`.

Eight size classes, 32 to 4096 bytes. Each has a list of free frames (`slabs`)
and a list of frames handed out (`allocedSlabs`); a frame descriptor is a record
in memory that `PMM::kmem` gave out and that is never given back. Lists are kept
as the code keeps them, by the descriptors' `next` pointers; descriptor memory is
`frames`, and `kernelEnd` is where the next descriptor goes.

`VMM::allocPage` is a parameter: it is asked for an address and answers with one,
0 standing for the failure `moreMem` tests for. The `sout` lines are not modelled,
nor `slabSize`, which nothing reads. -/
namespace UntitledOS.Memory

/-- A frame descriptor. Pointers to descriptors are natural numbers, 0 for `NULL`. -/
structure SlabFrame where
  next : Nat
  startAddr : Addr
  endAddr : Addr

structure Slab where
  allocSize : u32
  firstFrame : Nat

def heapStart : Addr := 0xD0000000

structure Heap where
  heapStartOffset : u16
  slabs : Fin 8 → Slab
  allocedSlabs : Fin 8 → Slab
  frames : Nat → SlabFrame
  kernelEnd : Nat

namespace Heap

/-- The constructor's `size`, doubled on every turn of its loop. -/
def allocSize : Nat → u32
  | 0 => 32
  | i + 1 => allocSize i * 2

/-- `Heap::Heap`, over whatever descriptor memory holds. -/
def new (frames : Nat → SlabFrame) (kernelEnd : Nat) : Heap where
  heapStartOffset := 0
  slabs := fun i => ⟨allocSize i, 0⟩
  allocedSlabs := fun i => ⟨allocSize i, 0⟩
  frames := frames
  kernelEnd := kernelEnd

/-- `frame->next`. -/
def next (h : Heap) (frame : Nat) : Nat := (h.frames frame).next

def setFrame (h : Heap) (frame : Nat) (f : SlabFrame) : Heap :=
  {h with frames := Function.update h.frames frame f}

/-- `slabs[i].firstFrame = frame`. -/
def setFree (h : Heap) (i : Fin 8) (frame : Nat) : Heap :=
  {h with slabs := Function.update h.slabs i {h.slabs i with firstFrame := frame}}

/-- `allocedSlabs[i].firstFrame = frame`. -/
def setAlloced (h : Heap) (i : Fin 8) (frame : Nat) : Heap :=
  {h with allocedSlabs := Function.update h.allocedSlabs i {h.allocedSlabs i with firstFrame := frame}}

/-- `newSlabFrame`: twelve bytes from `PMM::kmem`, cleared. -/
def newSlabFrame (h : Heap) : Heap × Nat :=
  ({h.setFrame h.kernelEnd ⟨0, 0, 0⟩ with kernelEnd := h.kernelEnd + 12}, h.kernelEnd)

/-- `moreMem`. The new descriptor is linked before the page is asked for. -/
def moreMem (allocPage : Addr → Addr) (i : Fin 8) (h : Heap) : Heap :=
  if (h.slabs i).firstFrame ≠ 0 then h
  else
    let (h, frame) := h.newSlabFrame
    let h := h.setFree i frame
    let memory := allocPage (heapStart + h.heapStartOffset.setWidth 32)
    let h := if memory ≠ 0 then {h with heapStartOffset := h.heapStartOffset + 0x1000} else h
    h.setFrame frame {h.frames frame with startAddr := memory, endAddr := memory + 0x1000 - 1}

/-- `slabAlloc` after its call of `moreMem`. The frame at the head of the free
list is cut while more than one allocation is left in it, and handed over whole
otherwise; `endAddr` is the last byte of a frame, not the first one after it. -/
def takeFrame (i : Fin 8) (h : Heap) : Heap × Addr :=
  let firstFrame := (h.slabs i).firstFrame
  let first := h.frames firstFrame
  let size := (h.slabs i).allocSize
  if first.endAddr - first.startAddr > size then
    let (h, allocedFrame) := h.newSlabFrame
    let h := h.setFrame allocedFrame
      ⟨(h.allocedSlabs i).firstFrame, first.startAddr, first.startAddr + size - 1⟩
    let h := h.setFrame firstFrame {first with startAddr := first.startAddr + size}
    (h.setAlloced i allocedFrame, first.startAddr)
  else
    let h := h.setFree i first.next
    let h := h.setFrame firstFrame {first with next := (h.allocedSlabs i).firstFrame}
    (h.setAlloced i firstFrame, first.startAddr)

def slabAlloc (allocPage : Addr → Addr) (i : Fin 8) (h : Heap) : Heap × Addr :=
  takeFrame i (if (h.slabs i).firstFrame = 0 then moreMem allocPage i h else h)

/-- The class `alloc` serves a size from: the first whose frames are large enough. -/
def classFor (h : Heap) (size : u32) : Option (Fin 8) :=
  (List.finRange 8).find? fun i => size ≤ (h.slabs i).allocSize

/-- `Heap::alloc`. -/
def alloc (allocPage : Addr → Addr) (size : u32) (h : Heap) : Heap × Addr :=
  if size > 4096 then (h, 0)
  else
    match h.classFor size with
    | some i => slabAlloc allocPage i h
    | none => (h, 0)

/-- What `free` does with the frame it found: the frame goes to the front of the
free list, and the alloced list goes on at the frame that followed it. -/
def moveFrame (i : Fin 8) (frame : Nat) (h : Heap) : Heap :=
  let nextAllocedFrame := h.next frame
  let h := h.setFrame frame {h.frames frame with next := (h.slabs i).firstFrame}
  let h := h.setFree i frame
  h.setAlloced i nextAllocedFrame

/-- The `while` loop of `free` over one alloced list. A list of distinct descriptors
is no longer than the descriptor memory handed out, so running out of fuel is
walking a cycle. -/
def findFrame (h : Heap) (address : Addr) (i : Fin 8) : Option (Option Nat) :=
  Lib.seek 0 h.next (fun frame => (h.frames frame).startAddr = address) h.kernelEnd
    (h.allocedSlabs i).firstFrame

/-- The `for` loop of `free` over the classes still to search; no answer when the
inner loop does not end. -/
def freeFrom (address : Addr) : List (Fin 8) → Heap → Option Heap
  | [], h => some h
  | i :: rest, h => (h.findFrame address i).bind fun found =>
    match found with
    | some frame => some (moveFrame i frame h)
    | none => freeFrom address rest h

/-- `Heap::free`. -/
def free (p : Addr) (h : Heap) : Option Heap := freeFrom p (List.finRange 8) h

end Heap

end UntitledOS.Memory
