import UntitledOS.Memory.HeapLists

/-! The frames on the heap's lists.

Every frame of a class is a whole number of allocations of that class, aligned to
their size, inside one page of the heap; every frame on an alloced list is a single
allocation (`Lists.Framed`). The test with which `slabAlloc` decides between cutting
a frame and handing it over compares inclusive ends, and decides right on such
frames: what is cut leaves frames on both sides, and what is not cut is one
allocation. Nothing about which addresses were freed, or how often, is needed. -/
namespace UntitledOS.Memory

/-! ### Sizes -/

/-- The bytes of a frame of class `i`. -/
def frameSize (i : Fin 8) : Nat := 32 * 2 ^ (i : Nat)

theorem allocSize_toNat : ∀ i : Fin 8, (Heap.allocSize i).toNat = frameSize i := by decide

theorem frameSize_bounds : ∀ i : Fin 8, 32 ≤ frameSize i ∧ frameSize i ∣ 4096 := by decide

theorem frameSize_pos (i : Fin 8) : 0 < frameSize i := by
  have := (frameSize_bounds i).1
  omega

/-! ### Frames -/

/-- A frame a class can cut allocations from: whole allocations, aligned to their size,
inside one page of the heap. -/
structure IsFrame (i : Fin 8) (s : Span) : Prop where
  aligned : frameSize i ∣ s.start.toNat
  whole : frameSize i ∣ s.fin.toNat + 1 - s.start.toNat
  ordered : s.start.toNat ≤ s.fin.toNat
  page : s.start.toNat / 4096 = s.fin.toNat / 4096
  above : heapStart.toNat ≤ s.start.toNat

/-- The first allocation of a frame, and what is left of it. -/
def Span.piece (i : Fin 8) (s : Span) : Span := ⟨s.start, s.start + Heap.allocSize i - 1⟩
def Span.rest (i : Fin 8) (s : Span) : Span := ⟨s.start + Heap.allocSize i, s.fin⟩

theorem IsFrame.size_le {i : Fin 8} {s : Span} (h : IsFrame i s) :
    s.start.toNat + frameSize i ≤ s.fin.toNat + 1 := by
  have hpos : 0 < s.fin.toNat + 1 - s.start.toNat := by
    have := h.ordered
    omega
  have := Nat.le_of_dvd hpos h.whole
  omega

/-- The test of `slabAlloc`, on the numbers. -/
theorem IsFrame.cut_iff {i : Fin 8} {s : Span} (h : IsFrame i s) :
    s.fin - s.start > Heap.allocSize i ↔ s.start.toNat + frameSize i < s.fin.toNat := by
  rw [gt_iff_lt, BitVec.lt_def, allocSize_toNat, BitVec.toNat_sub_of_le (BitVec.le_def.mpr h.ordered)]
  omega

/-- A frame that is not cut is one allocation. -/
theorem IsFrame.single {i : Fin 8} {s : Span} (h : IsFrame i s)
    (hcut : ¬ s.fin - s.start > Heap.allocSize i) :
    s.fin.toNat + 1 = s.start.toNat + frameSize i := by
  rw [h.cut_iff] at hcut
  have hsize := h.size_le
  have hbound := (frameSize_bounds i).1
  -- a multiple of the size that is at most the size plus one
  obtain ⟨k, hk⟩ := h.whole
  have hk1 : k = 1 := by
    rcases Nat.lt_trichotomy k 1 with h0 | h1 | h2
    · obtain rfl : k = 0 := by omega
      omega
    · exact h1
    · have : frameSize i * 2 ≤ frameSize i * k := Nat.mul_le_mul_left _ h2
      omega
  subst hk1
  omega

/-- Cutting a frame with more than one allocation left. -/
theorem IsFrame.cut {i : Fin 8} {s : Span} (h : IsFrame i s)
    (hcut : s.fin - s.start > Heap.allocSize i) :
    IsFrame i (s.piece i) ∧ IsFrame i (s.rest i) ∧
      (s.piece i).fin.toNat + 1 = s.start.toNat + frameSize i ∧
      (s.rest i).start.toNat = s.start.toNat + frameSize i := by
  rw [h.cut_iff] at hcut
  have hfin := s.fin.isLt
  have hbound := (frameSize_bounds i).1
  have hstart : (s.start + Heap.allocSize i).toNat = s.start.toNat + frameSize i := by
    rw [BitVec.toNat_add, allocSize_toNat, Nat.mod_eq_of_lt (by omega)]
  have hone : (1 : BitVec 32) ≤ s.start + Heap.allocSize i := by
    rw [BitVec.le_def, hstart]
    show 1 ≤ _
    omega
  have hlast : (s.start + Heap.allocSize i - 1).toNat + 1 = s.start.toNat + frameSize i := by
    rw [BitVec.toNat_sub_of_le hone, hstart]
    show s.start.toNat + frameSize i - 1 + 1 = _
    omega
  have hpage := h.page
  refine ⟨⟨h.aligned, ?_, ?_, ?_, h.above⟩, ⟨?_, ?_, ?_, ?_, ?_⟩, hlast, hstart⟩
  · show frameSize i ∣ (s.start + Heap.allocSize i - 1).toNat + 1 - s.start.toNat
    rw [hlast, Nat.add_sub_cancel_left]
  · show s.start.toNat ≤ (s.start + Heap.allocSize i - 1).toNat
    omega
  · show s.start.toNat / 4096 = (s.start + Heap.allocSize i - 1).toNat / 4096
    omega
  · show frameSize i ∣ (s.start + Heap.allocSize i).toNat
    rw [hstart]
    exact Nat.dvd_add_self_right.mpr h.aligned
  · show frameSize i ∣ s.fin.toNat + 1 - (s.start + Heap.allocSize i).toNat
    rw [hstart, ← Nat.sub_sub]
    exact Nat.dvd_sub h.whole (dvd_refl _)
  · show (s.start + Heap.allocSize i).toNat ≤ s.fin.toNat
    omega
  · show (s.start + Heap.allocSize i).toNat / 4096 = s.fin.toNat / 4096
    omega
  · show heapStart.toNat ≤ (s.start + Heap.allocSize i).toNat
    have := h.above
    omega

/-- A page is a frame of every class. -/
theorem isFrame_page (i : Fin 8) (a : Addr) (halign : 4096 ∣ a.toNat)
    (habove : heapStart.toNat ≤ a.toNat) :
    IsFrame i ⟨a, a + 0x1000 - 1⟩ ∧ (a + 0x1000 - 1).toNat + 1 = a.toNat + 4096 := by
  have ha := a.isLt
  obtain ⟨k, hk⟩ := halign
  have hdvd := (frameSize_bounds i).2
  have hfin : (a + 0x1000 - 1).toNat + 1 = a.toNat + 4096 := by
    rw [BitVec.toNat_sub, BitVec.toNat_add]
    show (2 ^ 32 - 1 + (a.toNat + 4096) % 2 ^ 32) % 2 ^ 32 + 1 = a.toNat + 4096
    omega
  refine ⟨⟨hdvd.trans ⟨k, hk⟩, ?_, ?_, ?_, habove⟩, hfin⟩
  · show frameSize i ∣ (a + 0x1000 - 1).toNat + 1 - a.toNat
    rw [hfin, Nat.add_sub_cancel_left]
    exact hdvd
  · show a.toNat ≤ (a + 0x1000 - 1).toNat
    omega
  · show a.toNat / 4096 = (a + 0x1000 - 1).toNat / 4096
    omega

/-- What the frames on the lists are, whatever was freed and however often. -/
structure Lists.Framed (l : Lists) : Prop where
  free : ∀ i, ∀ s ∈ l (.free i), IsFrame i s
  alloced : ∀ i, ∀ s ∈ l (.alloced i), IsFrame i s ∧ s.fin.toNat + 1 = s.start.toNat + frameSize i

/-! ### The operations on the lists, case by case -/

namespace Lists

variable {l : Lists} {i : Fin 8}

/-- A frame with more than one allocation left is cut; any other goes whole. -/
theorem take_cases {f : Span} {fs : List Span} (hf : l (.free i) = f :: fs) :
    (f.fin - f.start > Heap.allocSize i ∧ l.take i = (Function.update
        (Function.update l (.free i) (f.rest i :: fs)) (.alloced i) (f.piece i :: l (.alloced i)),
        f.start)) ∨
      (¬ f.fin - f.start > Heap.allocSize i ∧ l.take i = (Function.update
        (Function.update l (.free i) fs) (.alloced i) (f :: l (.alloced i)), f.start)) := by
  by_cases hcut : f.fin - f.start > Heap.allocSize i
  · exact .inl ⟨hcut, by simp only [take, hf, hcut, if_true]; rfl⟩
  · exact .inr ⟨hcut, by simp only [take, hf, hcut, if_false]⟩

theorem take_start {f : Span} {fs : List Span} (hf : l (.free i) = f :: fs) :
    (l.take i).2 = f.start := by
  rcases take_cases hf with ⟨_, h⟩ | ⟨_, h⟩ <;> rw [h]

theorem refill_alloced (i j : Fin 8) (a : Addr) (l : Lists) :
    l.refill i a (.alloced j) = l (.alloced j) := by
  unfold refill
  split
  · rw [Function.update_of_ne (Place.alloced_ne_free j i)]
  · rfl

theorem alloced_update_ne {j : Fin 8} (hj : j ≠ i) (fs as : List Span) :
    Function.update (Function.update l (.free i) fs) (.alloced i) as (.alloced j) = l (.alloced j) := by
  rw [Function.update_of_ne (by simpa using hj), Function.update_of_ne (Place.alloced_ne_free j i)]

/-- The class's alloced list grows by a frame that starts where the free one did. -/
theorem take_alloced {f : Span} {fs : List Span} (hf : l (.free i) = f :: fs) :
    (∃ g : Span, g.start = f.start ∧ (l.take i).1 (.alloced i) = g :: l (.alloced i)) ∧
      ∀ j, j ≠ i → (l.take i).1 (.alloced j) = l (.alloced j) := by
  rcases take_cases hf with ⟨_, ht⟩ | ⟨_, ht⟩ <;> rw [ht]
  · exact ⟨⟨f.piece i, rfl, Function.update_self ..⟩, fun j hj => alloced_update_ne hj _ _⟩
  · exact ⟨⟨f, rfl, Function.update_self ..⟩, fun j hj => alloced_update_ne hj _ _⟩

/-- The alloced lists once a frame was moved. -/
theorem release_alloced (i j : Fin 8) (fs post : List Span) (l : Lists) :
    Function.update (Function.update l (.alloced i) post) (.free i) fs (.alloced j) =
      if j = i then post else l (.alloced j) := by
  rw [Function.update_of_ne (Place.alloced_ne_free j i)]
  by_cases hj : j = i
  · rw [if_pos hj, hj, Function.update_self]
  · rw [if_neg hj, Function.update_of_ne (by simpa using hj)]

/-- A search that finds a frame moves it, and drops what was in front of it. -/
theorem release_cases (p : Addr) (l : Lists) :
    (l.release p = l ∧ ∀ i, ∀ s ∈ l (.alloced i), s.start ≠ p) ∨
      ∃ i pre f post, l (.alloced i) = pre ++ f :: post ∧ f.start = p ∧
        l.release p = Function.update (Function.update l (.alloced i) post) (.free i)
          (f :: l (.free i)) := by
  unfold release
  cases hholder : l.holder p with
  | none =>
    refine .inl ⟨rfl, fun i s hs hp => ?_⟩
    have hno := List.find?_eq_none.mp hholder i (List.mem_finRange i)
    exact hno (List.any_eq_true.mpr ⟨s, hs, by simpa using hp⟩)
  | some i =>
    have hi : l.holds p i = true := List.find?_some hholder
    have hfind : ((l (.alloced i)).find? (·.start = p)).isSome :=
      List.find?_isSome.mpr (List.any_eq_true.mp hi)
    obtain ⟨f, hf⟩ := Option.isSome_iff_exists.mp hfind
    obtain ⟨hstart, pre, post, hsplit, hpre⟩ := List.find?_eq_some_iff_append.mp hf
    have hdrop : (l (.alloced i)).dropWhile (·.start ≠ p) = f :: post := by
      rw [hsplit, List.dropWhile_append_of_pos, List.dropWhile_cons_of_neg]
      · simpa using hstart
      · intro s hs
        simpa using hpre s hs
    exact .inr ⟨i, pre, f, post, hsplit, by simpa using hstart, by simp only [hdrop]⟩

/-- The frames stay frames. -/
theorem Framed.refill (h : l.Framed) {a : Addr} (halign : 4096 ∣ a.toNat)
    (habove : heapStart.toNat ≤ a.toNat) : (l.refill i a).Framed := by
  unfold Lists.refill
  split
  · refine ⟨fun j s hs => ?_, fun j s hs => ?_⟩
    · by_cases hj : j = i
      · subst hj
        rw [Function.update_self, List.mem_singleton] at hs
        rw [hs]
        exact (isFrame_page j a halign habove).1
      · rw [Function.update_of_ne (by simpa using hj)] at hs
        exact h.free j s hs
    · rw [Function.update_of_ne (Place.alloced_ne_free j i)] at hs
      exact h.alloced j s hs
  · exact h

/-- Two lists of one class change, and hold frames. -/
theorem Framed.update (h : l.Framed) {fs as : List Span} (hfs : ∀ s ∈ fs, IsFrame i s)
    (has : ∀ s ∈ as, IsFrame i s ∧ s.fin.toNat + 1 = s.start.toNat + frameSize i) :
    Framed (Function.update (Function.update l (.free i) fs) (.alloced i) as) := by
  refine ⟨fun j s hs => ?_, fun j s hs => ?_⟩
  · rw [Function.update_of_ne (Place.free_ne_alloced j i)] at hs
    by_cases hj : j = i
    · subst hj
      rw [Function.update_self] at hs
      exact hfs s hs
    · rw [Function.update_of_ne (by simpa using hj)] at hs
      exact h.free j s hs
  · by_cases hj : j = i
    · subst hj
      rw [Function.update_self] at hs
      exact has s hs
    · rw [Function.update_of_ne (by simpa using hj), Function.update_of_ne (Place.alloced_ne_free j i)] at hs
      exact h.alloced j s hs

theorem Framed.take (h : l.Framed) : (l.take i).1.Framed := by
  rcases hf : l (.free i) with _ | ⟨f, fs⟩
  · have : l.take i = (l, 0) := by simp only [Lists.take, hf]
    rw [this]
    exact h
  · have hfree : ∀ s ∈ f :: fs, IsFrame i s := fun s hs => h.free i s (hf ▸ hs)
    have hframe := hfree f (List.mem_cons_self ..)
    have hrest : ∀ s ∈ fs, IsFrame i s := fun s hs => hfree s (List.mem_cons_of_mem _ hs)
    rcases take_cases hf with ⟨hcut, ht⟩ | ⟨hcut, ht⟩ <;> rw [ht]
    · obtain ⟨hpiece, hleft, hfin, _⟩ := hframe.cut hcut
      refine h.update (fun s hs => ?_) fun s hs => ?_
      · rcases List.mem_cons.mp hs with rfl | hs
        · exact hleft
        · exact hrest s hs
      · rcases List.mem_cons.mp hs with rfl | hs
        · exact ⟨hpiece, hfin⟩
        · exact h.alloced i s hs
    · refine h.update hrest fun s hs => ?_
      rcases List.mem_cons.mp hs with rfl | hs
      · exact ⟨hframe, hframe.single hcut⟩
      · exact h.alloced i s hs

theorem Framed.release (h : l.Framed) (p : Addr) : (l.release p).Framed := by
  rcases release_cases p l with ⟨hsame, _⟩ | ⟨i, pre, f, post, hsplit, _, hr⟩
  · rw [hsame]
    exact h
  · have hmem : ∀ s ∈ f :: post, s ∈ l (.alloced i) := by
      intro s hs
      rw [hsplit]
      exact List.mem_append_right _ hs
    rw [hr, Function.update_comm (Place.alloced_ne_free i i)]
    refine h.update (fun s hs => ?_) fun s hs => h.alloced i s (hmem s (List.mem_cons_of_mem _ hs))
    rcases List.mem_cons.mp hs with rfl | hs
    · exact (h.alloced i s (hmem s (List.mem_cons_self ..))).1
    · exact h.free i s hs

end Lists

end UntitledOS.Memory
