import UntitledOS.Memory.Heap

/-! The heap as sixteen lists of byte ranges.

The slab heap keeps its frames in linked lists of descriptors. Here the pointers
go: a heap *represents* `l : Lists` when its sixteen lists are chains that share
no descriptor and the ranges of the frames on them are, in order, those of `l`.
`take` and `release` are what `alloc` and `free` do to the ranges. Each operation
of `heap.cpp` refines its operation on lists (`Represents.slabAlloc`,
`Represents.free`), from any represented state, so whatever else is said about
the heap is said about `Lists`. In particular `free` always ends. -/
namespace UntitledOS.Memory

/-- The bytes from `start` to `fin`, both included. -/
structure Span where
  start : Addr
  fin : Addr
deriving DecidableEq

/-- The sixteen lists. -/
inductive Place where
  | free (i : Fin 8)
  | alloced (i : Fin 8)
deriving DecidableEq

theorem Place.free_ne_alloced (i j : Fin 8) : Place.free i ≠ .alloced j := nofun
theorem Place.alloced_ne_free (i j : Fin 8) : Place.alloced i ≠ .free j := nofun

abbrev Lists := Place → List Span

namespace Lists

/-- The page `moreMem` puts on an empty free list. -/
def refill (i : Fin 8) (memory : Addr) (l : Lists) : Lists :=
  if l (.free i) = [] then
    Function.update l (.free i) [⟨memory, memory + 0x1000 - 1⟩]
  else l

/-- One frame from the front of a free list, cut to size or whole. -/
def take (i : Fin 8) (l : Lists) : Lists × Addr :=
  match l (.free i) with
  | [] => (l, 0)
  | f :: rest =>
    if f.fin - f.start > Heap.allocSize i then
      (Function.update
        (Function.update l (.free i) (⟨f.start + Heap.allocSize i, f.fin⟩ :: rest))
        (.alloced i) (⟨f.start, f.start + Heap.allocSize i - 1⟩ :: l (.alloced i)), f.start)
    else
      (Function.update (Function.update l (.free i) rest) (.alloced i) (f :: l (.alloced i)), f.start)

/-- A frame on class `i`'s alloced list starts at `p`. -/
def holds (p : Addr) (l : Lists) (i : Fin 8) : Bool := (l (.alloced i)).any (·.start = p)

/-- The class whose alloced list a search for `p` stops in. -/
def holder (p : Addr) (l : Lists) : Option (Fin 8) := (List.finRange 8).find? (holds p l)

/-- The frame at `p` goes to the front of its class's free list. What was in front of
it on the alloced list is dropped from there. -/
def release (p : Addr) (l : Lists) : Lists :=
  match l.holder p with
  | none => l
  | some i =>
    match (l (.alloced i)).dropWhile (·.start ≠ p) with
    | [] => l
    | f :: post => Function.update (Function.update l (.alloced i) post) (.free i) (f :: l (.free i))

end Lists

namespace Heap

/-- The head pointers of the sixteen lists. -/
def head (h : Heap) : Place → Nat
  | .free i => (h.slabs i).firstFrame
  | .alloced i => (h.allocedSlabs i).firstFrame

/-- The range of the frame a descriptor stands for. -/
def span (h : Heap) (p : Nat) : Span := ⟨(h.frames p).startAddr, (h.frames p).endAddr⟩

/-! ### What the small writes do -/

section Writes
variable (h : Heap) (p q : Nat) (f : SlabFrame) (i : Fin 8)

@[simp] theorem setFrame_head : (h.setFrame p f).head = h.head := by
  funext c
  cases c <;> rfl

@[simp] theorem setFrame_next : (h.setFrame p f).next = Function.update h.next p f.next := by
  funext q
  by_cases hq : q = p
  · subst hq
    simp [setFrame, next]
  · simp [setFrame, next, Function.update_of_ne hq]

@[simp] theorem setFrame_span :
    (h.setFrame p f).span = Function.update h.span p ⟨f.startAddr, f.endAddr⟩ := by
  funext q
  by_cases hq : q = p
  · subst hq
    simp [setFrame, span]
  · simp [setFrame, span, Function.update_of_ne hq]

@[simp] theorem setFree_head : (h.setFree i p).head = Function.update h.head (.free i) p := by
  funext c
  cases c with
  | free j =>
    by_cases hj : j = i
    · subst hj
      simp [setFree, head]
    · have : Place.free j ≠ .free i := by simpa using hj
      simp [setFree, head, Function.update_of_ne hj, Function.update_of_ne this]
  | alloced j => simp [setFree, head]

@[simp] theorem setAlloced_head :
    (h.setAlloced i p).head = Function.update h.head (.alloced i) p := by
  funext c
  cases c with
  | free j => simp [setAlloced, head]
  | alloced j =>
    by_cases hj : j = i
    · subst hj
      simp [setAlloced, head]
    · have : Place.alloced j ≠ .alloced i := by simpa using hj
      simp [setAlloced, head, Function.update_of_ne hj, Function.update_of_ne this]

@[simp] theorem setFree_next : (h.setFree i p).next = h.next := rfl
@[simp] theorem setAlloced_next : (h.setAlloced i p).next = h.next := rfl
@[simp] theorem setFree_span : (h.setFree i p).span = h.span := rfl
@[simp] theorem setAlloced_span : (h.setAlloced i p).span = h.span := rfl

@[simp] theorem setFrame_kernelEnd : (h.setFrame p f).kernelEnd = h.kernelEnd := rfl
@[simp] theorem setFree_kernelEnd : (h.setFree i p).kernelEnd = h.kernelEnd := rfl
@[simp] theorem setAlloced_kernelEnd : (h.setAlloced i p).kernelEnd = h.kernelEnd := rfl
@[simp] theorem setFrame_slabs : (h.setFrame p f).slabs = h.slabs := rfl
@[simp] theorem setAlloced_slabs : (h.setAlloced i p).slabs = h.slabs := rfl

@[simp] theorem setFree_allocSize (j : Fin 8) :
    ((h.setFree i p).slabs j).allocSize = (h.slabs j).allocSize := by
  by_cases hj : j = i
  · subst hj
    simp [setFree]
  · simp [setFree, Function.update_of_ne hj]

@[simp] theorem newSlabFrame_snd : h.newSlabFrame.2 = h.kernelEnd := rfl
@[simp] theorem newSlabFrame_slabs : h.newSlabFrame.1.slabs = h.slabs := rfl

@[simp] theorem newSlabFrame_head : h.newSlabFrame.1.head = h.head := by
  funext c
  cases c <;> rfl

@[simp] theorem newSlabFrame_next :
    h.newSlabFrame.1.next = Function.update h.next h.kernelEnd 0 :=
  h.setFrame_next h.kernelEnd ⟨0, 0, 0⟩

@[simp] theorem newSlabFrame_span :
    h.newSlabFrame.1.span = Function.update h.span h.kernelEnd ⟨0, 0⟩ :=
  h.setFrame_span h.kernelEnd ⟨0, 0, 0⟩

end Writes

/-! ### The descriptors behind the lists -/

/-- The lists hold the descriptors `L`, all of them handed out by `kmem`, for the
ranges `l`. -/
structure Threads (h : Heap) (L : Place → List Nat) (l : Lists) : Prop where
  family : Lib.Family 0 h.next h.head L
  given : ∀ c, ∀ f ∈ L c, f < h.kernelEnd
  span : ∀ c, (L c).map h.span = l c
  size : ∀ i, (h.slabs i).allocSize = allocSize i
  pos : 0 < h.kernelEnd

/-- The heap's lists, with the ranges of their frames, are `l`. -/
def Represents (h : Heap) (l : Lists) : Prop := ∃ L, Threads h L l

theorem represents_new (frames : Nat → SlabFrame) {kernelEnd : Nat} (hpos : 0 < kernelEnd) :
    (new frames kernelEnd).Represents fun _ => [] := by
  refine ⟨fun _ => [], ?_, fun _ _ hf => absurd hf List.not_mem_nil, fun _ => rfl, fun _ => rfl, hpos⟩
  have hhead : (new frames kernelEnd).head = fun _ => 0 := by
    funext c
    cases c <;> rfl
  rw [hhead]
  exact Lib.Family.empty _

namespace Threads

variable {h : Heap} {L : Place → List Nat} {l : Lists}

/-- No list is longer than the descriptor memory handed out. -/
theorem length_le (ht : Threads h L l) (c : Place) : (L c).length ≤ h.kernelEnd := by
  have hsub : (L c).toFinset ⊆ Finset.range h.kernelEnd := by
    intro f hf
    exact Finset.mem_range.mpr (ht.given c f (List.mem_toFinset.mp hf))
  have hcard := Finset.card_le_card hsub
  rwa [List.toFinset_card_of_nodup (ht.family.nodup c), Finset.card_range] at hcard

/-- The next descriptor of `kmem` is on no list. -/
theorem fresh (ht : Threads h L l) (c : Place) : h.kernelEnd ∉ L c :=
  fun hf => absurd (ht.given c _ hf) (lt_irrefl _)

theorem map_span_update {h h' : Heap} {f : Nat} {s : Span}
    (hspan : h'.span = Function.update h.span f s) {ps : List Nat} (hf : f ∉ ps) :
    ps.map h'.span = ps.map h.span := by
  refine List.map_congr_left fun q hq => ?_
  have hne : q ≠ f := by
    rintro rfl
    exact hf hq
  rw [hspan, Function.update_of_ne hne]

/-- A descriptor on no list goes to the front of one, with a range of its own. -/
theorem push (ht : Threads h L l) (h' : Heap) (c : Place) (f : Nat) (s : Span) (hf : f ≠ 0)
    (hnew : ∀ d, f ∉ L d) (hnext : h'.next = Function.update h.next f (h.head c))
    (hhead : h'.head = Function.update h.head c f) (hspan : h'.span = Function.update h.span f s)
    (hsize : ∀ i, (h'.slabs i).allocSize = (h.slabs i).allocSize)
    (hend : h.kernelEnd ≤ h'.kernelEnd) (hgiven : f < h'.kernelEnd) :
    Threads h' (Function.update L c (f :: L c)) (Function.update l c (s :: l c)) := by
  refine ⟨?_, fun d q hq => ?_, fun d => ?_, fun i => (hsize i).trans (ht.size i),
    ht.pos.trans_le hend⟩
  · rw [hnext, hhead]
    exact ht.family.push c hf hnew
  · by_cases hd : d = c
    · subst hd
      rw [Function.update_self] at hq
      rcases List.mem_cons.mp hq with rfl | hq
      · exact hgiven
      · exact (ht.given d q hq).trans_le hend
    · rw [Function.update_of_ne hd] at hq
      exact (ht.given d q hq).trans_le hend
  · by_cases hd : d = c
    · subst hd
      rw [Function.update_self, Function.update_self, List.map_cons,
        map_span_update hspan (hnew d), ht.span, hspan, Function.update_self]
    · rw [Function.update_of_ne hd, Function.update_of_ne hd, map_span_update hspan (hnew d), ht.span]

/-- A list goes on behind one of its descriptors, which is then on no list. -/
theorem cut (ht : Threads h L l) (h' : Heap) (c : Place) (pre post : List Nat) (f : Nat)
    (hc : L c = pre ++ f :: post) (hnext : h'.next = h.next)
    (hhead : h'.head = Function.update h.head c (h.next f)) (hspan : h'.span = h.span)
    (hsize : ∀ i, (h'.slabs i).allocSize = (h.slabs i).allocSize)
    (hend : h'.kernelEnd = h.kernelEnd) :
    Threads h' (Function.update L c post) (Function.update l c (post.map h.span)) ∧
      ∀ d, f ∉ Function.update L c post d := by
  obtain ⟨hfamily, hgone⟩ := ht.family.cut hc
  refine ⟨⟨?_, fun d q hq => ?_, fun d => ?_, fun i => (hsize i).trans (ht.size i), hend ▸ ht.pos⟩, hgone⟩
  · rw [hnext, hhead]
    exact hfamily
  · rw [hend]
    by_cases hd : d = c
    · subst hd
      rw [Function.update_self] at hq
      refine ht.given d q ?_
      rw [hc]
      exact List.mem_append_right _ (List.mem_cons_of_mem _ hq)
    · rw [Function.update_of_ne hd] at hq
      exact ht.given d q hq
  · by_cases hd : d = c
    · subst hd
      rw [Function.update_self, Function.update_self, hspan]
    · rw [Function.update_of_ne hd, Function.update_of_ne hd, hspan, ht.span]

/-- The first frame of a list changes its range and stays where it is. -/
theorem respan (ht : Threads h L l) (h' : Heap) (c : Place) (f : Nat) (rest : List Nat) (s : Span)
    (hc : L c = f :: rest) (hnext : h'.next = h.next) (hhead : h'.head = h.head)
    (hspan : h'.span = Function.update h.span f s)
    (hsize : ∀ i, (h'.slabs i).allocSize = (h.slabs i).allocSize)
    (hend : h'.kernelEnd = h.kernelEnd) :
    Threads h' L (Function.update l c (s :: rest.map h.span)) := by
  have hmem : f ∈ L c := by
    rw [hc]
    exact List.mem_cons_self ..
  have hnodup := ht.family.nodup c
  rw [hc, List.nodup_cons] at hnodup
  refine ⟨?_, fun d q hq => ?_, fun d => ?_, fun i => (hsize i).trans (ht.size i), hend ▸ ht.pos⟩
  · rw [hnext, hhead]
    exact ht.family
  · rw [hend]
    exact ht.given d q hq
  · by_cases hd : d = c
    · subst hd
      rw [Function.update_self, hc, List.map_cons, map_span_update hspan hnodup.1, hspan,
        Function.update_self]
    · rw [Function.update_of_ne hd,
        map_span_update hspan fun hf => hd (ht.family.place_unique hf hmem), ht.span]

end Threads

/-! ### Allocation -/

theorem Represents.free_empty {h : Heap} {l : Lists} (hr : h.Represents l) (i : Fin 8) :
    (h.slabs i).firstFrame = 0 ↔ l (.free i) = [] := by
  obtain ⟨L, ht⟩ := hr
  rw [← ht.span, List.map_eq_nil_iff]
  exact (ht.family.chain (.free i)).eq_nil_iff.symm

/-- What `moreMem` leaves of a heap whose list is empty, read as writes to the old one. -/
theorem moreMem_reads (allocPage : Addr → Addr) (i : Fin 8) (h : Heap)
    (hempty : (h.slabs i).firstFrame = 0) :
    let memory := allocPage (heapStart + h.heapStartOffset.setWidth 32)
    let h' := moreMem allocPage i h
    h'.next = Function.update h.next h.kernelEnd 0 ∧
      h'.head = Function.update h.head (.free i) h.kernelEnd ∧
      h'.span = Function.update h.span h.kernelEnd ⟨memory, memory + 0x1000 - 1⟩ ∧
      (∀ j, (h'.slabs j).allocSize = (h.slabs j).allocSize) ∧
      h'.kernelEnd = h.kernelEnd + 12 ∧
      h'.heapStartOffset = if memory = 0 then h.heapStartOffset else h.heapStartOffset + 0x1000 := by
  intro memory h'
  -- the bump of the offset touches no other field
  have hbump : h' =
      {((h.setFrame h.kernelEnd ⟨0, 0, 0⟩).setFree i h.kernelEnd).setFrame h.kernelEnd
          ⟨0, memory, memory + 0x1000 - 1⟩ with
        kernelEnd := h.kernelEnd + 12
        heapStartOffset :=
          if memory = 0 then h.heapStartOffset else h.heapStartOffset + 0x1000} := by
    by_cases hm : allocPage (heapStart + h.heapStartOffset.setWidth 32) = 0#32 <;>
      simp [h', memory, moreMem, newSlabFrame, hempty, setFree, setFrame, hm]
  rw [hbump]
  refine ⟨?_, ?_, ?_, fun j => ?_, rfl, rfl⟩
  · show (((h.setFrame h.kernelEnd ⟨0, 0, 0⟩).setFree i h.kernelEnd).setFrame h.kernelEnd
      ⟨0, memory, memory + 0x1000 - 1⟩).next = _
    simp
  · show (((h.setFrame h.kernelEnd ⟨0, 0, 0⟩).setFree i h.kernelEnd).setFrame h.kernelEnd
      ⟨0, memory, memory + 0x1000 - 1⟩).head = _
    simp
  · show (((h.setFrame h.kernelEnd ⟨0, 0, 0⟩).setFree i h.kernelEnd).setFrame h.kernelEnd
      ⟨0, memory, memory + 0x1000 - 1⟩).span = _
    simp
  · show (((h.setFrame h.kernelEnd ⟨0, 0, 0⟩).setFree i h.kernelEnd).slabs j).allocSize = _
    simp

theorem Represents.moreMem {h : Heap} {l : Lists} (hr : h.Represents l) (allocPage : Addr → Addr)
    (i : Fin 8) (hempty : l (.free i) = []) :
    (moreMem allocPage i h).Represents
      (l.refill i (allocPage (heapStart + h.heapStartOffset.setWidth 32))) := by
  have hnull := (hr.free_empty i).mpr hempty
  have hhead0 : h.head (.free i) = 0 := hnull
  obtain ⟨L, ht⟩ := hr
  obtain ⟨hnext, hhead, hspan, hsize, hend, _⟩ := moreMem_reads allocPage i h hnull
  have ht' := ht.push (Heap.moreMem allocPage i h) (.free i) h.kernelEnd _ ht.pos.ne' ht.fresh
    (by rw [hnext, hhead0]) hhead hspan hsize (by omega) (by omega)
  rw [hempty] at ht'
  rw [Lists.refill, if_pos hempty]
  exact ⟨_, ht'⟩

/-- What `takeFrame` leaves when it cuts the head frame. -/
theorem takeFrame_cut (i : Fin 8) (h : Heap) (hne : (h.slabs i).firstFrame ≠ h.kernelEnd)
    (hcut : (h.span (h.slabs i).firstFrame).fin - (h.span (h.slabs i).firstFrame).start >
      (h.slabs i).allocSize) :
    let first := h.span (h.slabs i).firstFrame
    let size := (h.slabs i).allocSize
    let h' := (takeFrame i h).1
    (takeFrame i h).2 = first.start ∧
      h'.next = Function.update h.next h.kernelEnd (h.head (.alloced i)) ∧
      h'.head = Function.update h.head (.alloced i) h.kernelEnd ∧
      h'.span = Function.update
        (Function.update h.span (h.slabs i).firstFrame ⟨first.start + size, first.fin⟩)
        h.kernelEnd ⟨first.start, first.start + size - 1⟩ ∧
      h'.slabs = h.slabs ∧ h'.kernelEnd = h.kernelEnd + 12 ∧
      h'.heapStartOffset = h.heapStartOffset := by
  intro first size h'
  simp only [span] at hcut
  simp only [h', first, size, takeFrame, span, hcut, if_true]
  refine ⟨trivial, ?_, by simp, ?_, rfl, rfl, rfl⟩
  · -- the head frame keeps its link
    rw [setAlloced_next, setFrame_next, setFrame_next, newSlabFrame_next, newSlabFrame_snd,
      Function.update_idem]
    refine Function.update_eq_self_iff.mpr ?_
    rw [Function.update_of_ne hne]
    rfl
  · rw [setAlloced_span, setFrame_span, setFrame_span, newSlabFrame_span, newSlabFrame_snd,
      Function.update_idem, Function.update_comm hne.symm]

/-- What `takeFrame` leaves when it hands over the head frame whole: the frame leaves
the free list and goes to the alloced one as it is. -/
theorem takeFrame_whole (i : Fin 8) (h : Heap)
    (hwhole : ¬ (h.span (h.slabs i).firstFrame).fin - (h.span (h.slabs i).firstFrame).start >
      (h.slabs i).allocSize) :
    let f := (h.slabs i).firstFrame
    let popped := h.setFree i (h.next f)
    let h' := (takeFrame i h).1
    (takeFrame i h).2 = (h.span f).start ∧
      h'.next = Function.update popped.next f (popped.head (.alloced i)) ∧
      h'.head = Function.update popped.head (.alloced i) f ∧
      h'.span = Function.update popped.span f (h.span f) ∧
      (∀ j, (h'.slabs j).allocSize = (popped.slabs j).allocSize) ∧
      h'.kernelEnd = popped.kernelEnd ∧ h'.heapStartOffset = h.heapStartOffset := by
  intro f popped h'
  simp only [span] at hwhole
  simp only [h', popped, f, takeFrame, span, hwhole, if_false]
  refine ⟨trivial, ?_, by simp [next], ?_, fun _ => rfl, rfl, rfl⟩
  · rw [setAlloced_next, setFrame_next]
    rfl
  · rw [setAlloced_span, setFrame_span]
    rfl

/-- `takeFrame` on a list that is not empty is `take`. -/
theorem Represents.takeFrame {h : Heap} {l : Lists} (hr : h.Represents l) (i : Fin 8)
    (hsome : l (.free i) ≠ []) :
    (takeFrame i h).1.Represents (l.take i).1 ∧ (takeFrame i h).2 = (l.take i).2 ∧
      (takeFrame i h).1.heapStartOffset = h.heapStartOffset := by
  obtain ⟨L, ht⟩ := hr
  obtain ⟨f, rest, hL⟩ : ∃ f rest, L (.free i) = f :: rest := by
    rcases hL : L (.free i) with _ | ⟨f, rest⟩
    · exact absurd (by rw [← ht.span, hL]; rfl) hsome
    · exact ⟨f, rest, rfl⟩
  have hchain := ht.family.chain (.free i)
  rw [hL] at hchain
  have hfirst : (h.slabs i).firstFrame = f := hchain.head_eq
  have hfk : f < h.kernelEnd := by
    refine ht.given (.free i) f ?_
    rw [hL]
    exact List.mem_cons_self ..
  have hlf : l (.free i) = h.span f :: rest.map h.span := by
    rw [← ht.span, hL]
    rfl
  have hap := Place.alloced_ne_free i i
  by_cases hcut : (h.span f).fin - (h.span f).start > allocSize i
  · -- the head frame is shortened in place, then the piece is pushed
    obtain ⟨hp, hnext, hhead, hspan, hslabs, hend, hoff⟩ := takeFrame_cut i h (hfirst ▸ hfk.ne)
      (by rw [hfirst, ht.size]; exact hcut)
    rw [hfirst, ht.size] at hspan
    rw [hfirst] at hp
    let short := h.setFrame f {h.frames f with startAddr := (h.span f).start + allocSize i}
    have hshort : short.next = h.next := by
      rw [setFrame_next]
      exact Function.update_eq_self ..
    have ht₁ := ht.respan short (.free i) f rest ⟨(h.span f).start + allocSize i, (h.span f).fin⟩ hL
      hshort (h.setFrame_head ..) (h.setFrame_span ..) (fun _ => rfl) rfl
    have hkeep : short.kernelEnd ≤ (Heap.takeFrame i h).1.kernelEnd := by
      rw [hend]
      exact Nat.le_add_right _ _
    have ht₂ := ht₁.push (Heap.takeFrame i h).1 (.alloced i) h.kernelEnd
      ⟨(h.span f).start, (h.span f).start + allocSize i - 1⟩ ht.pos.ne' ht.fresh
      (by rw [hnext, hshort, h.setFrame_head]) (by rw [hhead, h.setFrame_head])
      (by rw [hspan, h.setFrame_span]; rfl) (fun j => by rw [hslabs]; rfl) hkeep (by omega)
    simp only [Lists.take, hlf, hcut, if_true]
    rw [Function.update_of_ne hap] at ht₂
    exact ⟨⟨_, ht₂⟩, hp, hoff⟩
  · -- the head frame leaves the free list, then it is pushed as it is
    obtain ⟨hp, hnext, hhead, hspan, hsize, hend, hoff⟩ := takeFrame_whole i h
      (by rw [hfirst, ht.size]; exact hcut)
    rw [hfirst] at hp hnext hhead hspan hsize hend
    obtain ⟨ht₁, hgone⟩ := ht.cut (h.setFree i (h.next f)) (.free i) [] rest f hL rfl
      (h.setFree_head ..) rfl (h.setFree_allocSize _ i) rfl
    have ht₂ := ht₁.push (Heap.takeFrame i h).1 (.alloced i) f (h.span f) hchain.head_ne hgone hnext
      hhead hspan hsize hend.ge (by rw [hend]; exact hfk)
    simp only [Lists.take, hlf, hcut, if_false]
    rw [Function.update_of_ne hap] at ht₂
    exact ⟨⟨_, ht₂⟩, hp, hoff⟩

/-- `slabAlloc` is a refill, if the class has no free frame, and a `take`. The offset
moves when a page was drawn. -/
theorem Represents.slabAlloc {h : Heap} {l : Lists} (hr : h.Represents l)
    (allocPage : Addr → Addr) (i : Fin 8) :
    let memory := allocPage (heapStart + h.heapStartOffset.setWidth 32)
    (slabAlloc allocPage i h).1.Represents ((l.refill i memory).take i).1 ∧
      (slabAlloc allocPage i h).2 = ((l.refill i memory).take i).2 ∧
      (slabAlloc allocPage i h).1.heapStartOffset =
        if l (.free i) = [] ∧ memory ≠ 0 then h.heapStartOffset + 0x1000 else h.heapStartOffset := by
  intro memory
  unfold Heap.slabAlloc
  by_cases hempty : l (.free i) = []
  · have hnull := (hr.free_empty i).mpr hempty
    rw [if_pos hnull]
    have hmore : (Heap.moreMem allocPage i h).Represents (l.refill i memory) :=
      hr.moreMem allocPage i hempty
    have hsome : l.refill i memory (.free i) ≠ [] := by
      rw [Lists.refill, if_pos hempty, Function.update_self]
      exact List.cons_ne_nil _ _
    obtain ⟨hrep, hp, hoff⟩ := hmore.takeFrame i hsome
    refine ⟨hrep, hp, ?_⟩
    rw [hoff, (moreMem_reads allocPage i h hnull).2.2.2.2.2]
    by_cases hm : memory = 0
    · rw [if_pos hm, if_neg fun hc => hc.2 hm]
    · rw [if_neg hm, if_pos ⟨hempty, hm⟩]
  · rw [if_neg fun hnull => hempty ((hr.free_empty i).mp hnull), Lists.refill, if_neg hempty,
      if_neg fun hc => hempty hc.1]
    exact hr.takeFrame i hempty

/-! ### Release -/

/-- The search of one alloced list ends, at the first frame that starts at `p`. -/
theorem Threads.findFrame {h : Heap} {L : Place → List Nat} {l : Lists} (ht : Threads h L l)
    (p : Addr) (i : Fin 8) :
    h.findFrame p i = some ((L (.alloced i)).find? fun f => (h.span f).start = p) :=
  (ht.family.chain (.alloced i)).seek _ (ht.length_le _)

/-- Moving the frame found: it goes to the front of the free list, and with it
everything in front of it leaves the alloced list. -/
theorem Threads.moveFrame {h : Heap} {L : Place → List Nat} {l : Lists} (ht : Threads h L l)
    (i : Fin 8) (pre post : List Nat) (f : Nat) (hL : L (.alloced i) = pre ++ f :: post) :
    (moveFrame i f h).Represents (Function.update
      (Function.update l (.alloced i) (post.map h.span)) (.free i) (h.span f :: l (.free i))) := by
  have hfa := Place.free_ne_alloced i i
  have hmem : f ∈ L (.alloced i) := by
    rw [hL]
    exact List.mem_append_right _ (List.mem_cons_self ..)
  let off := h.setAlloced i (h.next f)
  obtain ⟨ht₁, hgone⟩ := ht.cut off (.alloced i) pre post f hL rfl (h.setAlloced_head ..) rfl
    (fun _ => rfl) rfl
  have ht₂ := ht₁.push (Heap.moveFrame i f h) (.free i) f (h.span f)
    ((ht.family.chain _).ne_null f hmem) hgone ?_ ?_ ?_ (fun j => ?_) le_rfl (ht.given _ f hmem)
  · rw [Function.update_of_ne hfa] at ht₂
    exact ⟨_, ht₂⟩
  · rw [Heap.moveFrame, setAlloced_next, setFree_next, setFrame_next, h.setAlloced_head,
      Function.update_of_ne hfa]
    rfl
  · rw [Heap.moveFrame, setAlloced_head, setFree_head, setFrame_head, h.setAlloced_head,
      Function.update_comm hfa]
  · rw [Heap.moveFrame, setAlloced_span, setFree_span, setFrame_span]
    rfl
  · exact (h.setFrame f _).setFree_allocSize f i j

/-- `free` always ends, and is `release` on the lists. -/
theorem Represents.free {h : Heap} {l : Lists} (hr : h.Represents l) (p : Addr) :
    ∃ h', free p h = some h' ∧ h'.Represents (l.release p) ∧
      h'.heapStartOffset = h.heapStartOffset ∧ (l.holder p = none → h' = h) := by
  obtain ⟨L, ht⟩ := hr
  have hany : ∀ i, l.holds p i = true ↔
      ((L (.alloced i)).find? fun f => (h.span f).start = p).isSome := by
    intro i
    rw [Lists.holds, ← ht.span, List.any_map, List.find?_isSome, List.any_eq_true]
    rfl
  -- the classes are searched in order; the induction is on those still to search
  suffices hfrom : ∀ is : List (Fin 8),
      match is.find? (l.holds p) with
      | none => freeFrom p is h = some h
      | some i => ∃ f, (L (.alloced i)).find? (fun f => (h.span f).start = p) = some f ∧
          freeFrom p is h = some (Heap.moveFrame i f h) by
    have hall := hfrom (List.finRange 8)
    unfold Lists.release
    cases hholder : l.holder p with
    | none =>
      rw [Lists.holder] at hholder
      rw [hholder] at hall
      exact ⟨h, hall, ⟨L, ht⟩, rfl, fun _ => rfl⟩
    | some i =>
      rw [Lists.holder] at hholder
      rw [hholder] at hall
      obtain ⟨f, hfind, hfree⟩ := hall
      obtain ⟨hf, pre, post, hL, hpre⟩ := List.find?_eq_some_iff_append.mp hfind
      refine ⟨_, hfree, ?_, rfl, nofun⟩
      have hdrop : (l (.alloced i)).dropWhile (·.start ≠ p) = h.span f :: post.map h.span := by
        rw [← ht.span, hL, List.map_append, List.dropWhile_append_of_pos, List.map_cons]
        · rw [List.dropWhile_cons_of_neg]
          simpa using hf
        · intro s hs
          obtain ⟨q, hq, rfl⟩ := List.mem_map.mp hs
          simpa using hpre q hq
      simp only [hdrop]
      exact ht.moveFrame i pre post f hL
  intro is
  induction is with
  | nil => rfl
  | cons i is ih =>
    cases hfind : (L (.alloced i)).find? fun f => (h.span f).start = p with
    | some f =>
      have hi : l.holds p i = true := (hany i).mpr (by rw [hfind]; rfl)
      rw [List.find?_cons_of_pos hi]
      refine ⟨f, hfind, ?_⟩
      simp only [freeFrom, ht.findFrame, hfind, Option.bind_some]
    | none =>
      have hi : ¬ l.holds p i = true := by
        rw [hany i, hfind]
        exact Bool.false_ne_true
      rw [List.find?_cons_of_neg hi]
      simpa only [freeFrom, ht.findFrame, hfind, Option.bind_some] using ih

end Heap

end UntitledOS.Memory
