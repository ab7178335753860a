import UntitledOS.Memory.HeapRuns

/-! The shape of the slabs.

Whatever is requested and whatever is freed, block or not and however often, the sixteen
lists are chains that end and share no descriptor, and what is on them are frames of their
classes (`Shaped`). The frames are those of `Lists.Framed`, seen through the descriptors;
that every page is drawn at a multiple of its size is all the heap adds (`Sane`). -/
namespace UntitledOS.Memory
open Lib

/-- The lists of a heap: chains that share no descriptor, of free frames made of whole
allocations, and of alloced frames that are a single one. -/
structure Heap.Shaped (h : Heap) (L : Place → List Nat) : Prop where
  size : ∀ i, (h.slabs i).allocSize.toNat = frameSize i
  family : Family 0 h.next h.head L
  free : ∀ i, ∀ f ∈ L (.free i), IsFrame i (h.span f)
  alloced : ∀ i, ∀ f ∈ L (.alloced i), IsFrame i (h.span f) ∧
    (h.span f).fin.toNat + 1 = (h.span f).start.toNat + frameSize i

/-- What `alloc` answered with: the start of the frame in front on the alloced list of a
class, a single allocation, aligned to its size. -/
structure Heap.Serves (i : Fin 8) (h : Heap) (p : Addr) : Prop where
  some : (h.allocedSlabs i).firstFrame ≠ 0
  start : (h.span (h.allocedSlabs i).firstFrame).start = p
  single : (h.span (h.allocedSlabs i).firstFrame).fin.toNat + 1 = p.toNat + frameSize i
  aligned : frameSize i ∣ p.toNat

/-- The smallest class with room for a request. -/
def Smallest (size : u32) (i : Fin 8) : Prop :=
  size ≤ Heap.allocSize i ∧ ∀ j < i, Heap.allocSize j < size

theorem Heap.Threads.shaped {h : Heap} {L : Place → List Nat} {l : Lists} (ht : h.Threads L l)
    (hl : l.Framed) : h.Shaped L where
  size i := by rw [ht.size, allocSize_toNat]
  family := ht.family
  free i f hf := hl.free i _ (ht.span (.free i) ▸ List.mem_map_of_mem hf)
  alloced i f hf := hl.alloced i _ (ht.span (.alloced i) ▸ List.mem_map_of_mem hf)

/-- The frame in front on an alloced list, by its descriptor. -/
theorem Heap.Represents.front {h : Heap} {l : Lists} (hr : h.Represents l) {i : Fin 8} {g : Span}
    {post : List Span} (hi : l (.alloced i) = g :: post) :
    (h.allocedSlabs i).firstFrame ≠ 0 ∧ h.span (h.allocedSlabs i).firstFrame = g := by
  obtain ⟨L, ht⟩ := hr
  have hchain := ht.family.chain (.alloced i)
  have hspan := ht.span (.alloced i)
  rw [hi] at hspan
  obtain ⟨f, rest, hL, hf, -⟩ := List.map_eq_cons_iff.mp hspan
  rw [hL] at hchain
  have hfirst : (h.allocedSlabs i).firstFrame = f := hchain.head_eq
  rw [hfirst]
  exact ⟨hchain.head_ne, hf⟩

theorem Heap.Represents.smallest {h : Heap} {l : Lists} (hr : h.Represents l) {size : u32} {i : Fin 8}
    (hi : h.served size = some i) : Smallest size i := by
  obtain ⟨L, ht⟩ := hr
  unfold Heap.served at hi
  split at hi
  · cases hi
  · obtain ⟨hsize, k, hk, hik, hbefore⟩ := List.find?_eq_some_iff_getElem.mp hi
    rw [List.getElem_finRange] at hik
    refine ⟨by simpa [ht.size] using hsize, fun j hj => ?_⟩
    have hlt : (j : Nat) < k := by
      rw [← hik] at hj
      exact hj
    have hsmall := hbefore j hlt
    rw [List.getElem_finRange] at hsmall
    simpa [ht.size] using hsmall

namespace System

variable {s t : System}

/-- The lists hold frames, and the next page is at a multiple of its size. -/
structure Sane (s : System) : Prop where
  framed : ∃ l, s.heap.Represents l ∧ l.Framed
  offset : 4096 ∣ s.heap.heapStartOffset.toNat

theorem Sane.boot (frames : Nat → SlabFrame) {kernelEnd : Nat} (hpos : 0 < kernelEnd) :
    Sane (boot frames kernelEnd) :=
  ⟨⟨_, Heap.represents_new frames hpos, ⟨by simp, by simp⟩⟩, Nat.dvd_zero _⟩

theorem Sane.nextPage (h : s.Sane) : 4096 ∣ s.nextPage.toNat ∧ heapStart.toNat ≤ s.nextPage.toNat := by
  rw [nextPage_toNat]
  exact ⟨Nat.dvd_add (by decide) h.offset, Nat.le_add_right _ _⟩

theorem Sane.step (h : s.Sane) {e : Event} (ht : s.step e = some t) : t.Sane := by
  obtain ⟨l, hr, hl⟩ := h.framed
  cases e with
  | alloc size =>
    cases hi : s.heap.served size with
    | none =>
      obtain rfl := Option.some.inj ((step_refused hi).symm.trans ht)
      exact h
    | some i =>
      obtain ⟨hrep, -, -, hoff⟩ := step_served hr hi ht
      obtain ⟨halign, habove⟩ := h.nextPage
      refine ⟨⟨_, hrep, (hl.refill halign habove).take⟩, ?_⟩
      have hold := h.offset
      rw [hoff]
      split
      · rw [BitVec.toNat_add]
        show 4096 ∣ (s.heap.heapStartOffset.toNat + 4096) % 65536
        omega
      · exact hold
  | free p =>
    obtain ⟨t', ht', hrep, -, -, hoff, -⟩ := step_free hr p
    obtain rfl := Option.some.inj (ht'.symm.trans ht)
    exact ⟨⟨_, hrep, hl.release p⟩, hoff ▸ h.offset⟩

/-- A request of at most a page is served from its class. -/
theorem Sane.alloc (h : s.Sane) {size : u32} (hsize : size ≤ 4096) :
    ∃ i, Smallest size i ∧ (s.heap.alloc (fun a => a) size).1.Serves i (s.heap.alloc (fun a => a) size).2 := by
  obtain ⟨l, hr, hl⟩ := h.framed
  obtain ⟨i, hi⟩ := hr.served hsize
  refine ⟨i, hr.smallest hi, ?_⟩
  obtain ⟨halign, habove⟩ := h.nextPage
  obtain ⟨hrep, hp, -⟩ := hr.slabAlloc (fun a => a) i
  have hframed : (l.refill i s.nextPage).Framed := hl.refill halign habove
  -- there is a frame in front now, and it was handed over
  obtain ⟨f, fs, hf⟩ : ∃ f fs, l.refill i s.nextPage (.free i) = f :: fs := by
    unfold Lists.refill
    split
    · exact ⟨_, _, Function.update_self ..⟩
    · exact List.exists_cons_of_ne_nil ‹_›
  obtain ⟨⟨g, hg, hfront⟩, -⟩ := Lists.take_alloced hf
  have hstart := Lists.take_start hf
  obtain ⟨hne, hspan⟩ := hrep.front hfront
  have hsingle := hframed.take.alloced i g (hfront ▸ List.mem_cons_self ..)
  have hanswer : g.start = (Heap.slabAlloc (fun a => a) i s.heap).2 := by
    rw [hp, hg]
    exact hstart.symm
  rw [Heap.alloc_eq, hi]
  constructor
  · exact hne
  · rw [hspan]
    exact hanswer
  · rw [hspan, ← hanswer]
    exact hsingle.2
  · rw [← hanswer]
    exact hsingle.1.aligned

/-- **The slabs keep their shape, and every request gets a frame of its class.** -/
theorem slabs_shaped (frames : Nat → SlabFrame) {kernelEnd : Nat} (hpos : 0 < kernelEnd) {es : List Event}
    (hrun : Run step (fun _ _ => True) (boot frames kernelEnd) es s) :
    (∃ L, s.heap.Shaped L) ∧ (∀ p, ∃ heap, s.heap.free p = some heap) ∧
      ∀ size ≤ 4096, ∃ i, Smallest size i ∧
        (s.heap.alloc (fun a => a) size).1.Serves i (s.heap.alloc (fun a => a) size).2 := by
  have hsane : s.Sane := hrun.invariant _ (fun _ _ _ h _ => h.step) (.boot frames hpos)
  obtain ⟨l, ⟨L, ht⟩, hl⟩ := hsane.framed
  refine ⟨⟨L, ht.shaped hl⟩, fun p => ?_, fun size => hsane.alloc⟩
  obtain ⟨heap, hfree, -⟩ := Heap.Represents.free ⟨L, ht⟩ p
  exact ⟨heap, hfree⟩

/-- Two blocks, then a free in the middle of one, and of one twice. -/
theorem slabs_shaped_two :
    ∃ s, follow step (fun _ _ => True) (boot (fun _ => ⟨0, 0, 0⟩) 4096)
        [.alloc 32, .alloc 100, .free 0xD0000010, .free 0xD0000000, .free 0xD0000000] = some s ∧
      ∃ L, s.heap.Shaped L := by
  have hfollow : (follow step (fun _ _ => True) (boot (fun _ => ⟨0, 0, 0⟩) 4096)
      [.alloc 32, .alloc 100, .free 0xD0000010, .free 0xD0000000, .free 0xD0000000]).isSome := by
    decide +kernel
  obtain ⟨s, hs⟩ := Option.isSome_iff_exists.mp hfollow
  exact ⟨s, hs, (slabs_shaped _ (by decide) (run_iff_follow.mpr hs)).1⟩

end System

end UntitledOS.Memory
