import UntitledOS.Memory.HeapSlabs

/-! How many pages a run draws.

A page is drawn for a class when its free list is empty, and holds as many allocations as
fit. What was drawn for a class is therefore used up by its requests, but for what is on
the free list (`Filled`), whatever was freed in between. So the requests alone bound the
pages drawn, class by class (`pages_drawn_le`), and a run whose requests fit in sixteen
pages draws none twice (`requests_fit`). -/
namespace UntitledOS.Memory
open Lib

/-! ### The bytes on a free list -/

def spanBytes (ss : List Span) : Nat := (ss.map fun s => s.fin.toNat + 1 - s.start.toNat).sum

theorem spanBytes_cons (s : Span) (ss : List Span) :
    spanBytes (s :: ss) = s.fin.toNat + 1 - s.start.toNat + spanBytes ss := by
  rw [spanBytes, List.map_cons, List.sum_cons]
  rfl

namespace Lists

def freeBytes (i : Fin 8) (l : Lists) : Nat := spanBytes (l (.free i))

variable {l : Lists} {i : Fin 8}

theorem freeBytes_update (i j : Fin 8) (fs as : List Span) (l : Lists) :
    freeBytes j (Function.update (Function.update l (.free i) fs) (.alloced i) as) =
      if j = i then spanBytes fs else l.freeBytes j := by
  rw [freeBytes, Function.update_of_ne (Place.free_ne_alloced j i)]
  by_cases hj : j = i
  · rw [if_pos hj, hj, Function.update_self]
  · rw [if_neg hj, Function.update_of_ne (by simpa using hj), freeBytes]

theorem freeBytes_refill (h : l (.free i) = []) {a : Addr} (halign : 4096 ∣ a.toNat)
    (habove : heapStart.toNat ≤ a.toNat) (j : Fin 8) :
    (l.refill i a).freeBytes j = l.freeBytes j + if j = i then 4096 else 0 := by
  have hpage := (isFrame_page i a halign habove).2
  rw [refill, if_pos h, freeBytes, freeBytes]
  by_cases hj : j = i
  · subst hj
    rw [Function.update_self, h, if_pos rfl, spanBytes_cons]
    dsimp only
    omega
  · rw [Function.update_of_ne (by simpa using hj), if_neg hj, Nat.add_zero]

/-- An allocation comes off the free list. -/
theorem freeBytes_take (h : l.Framed) (hsome : l (.free i) ≠ []) (j : Fin 8) :
    (l.take i).1.freeBytes j + (if j = i then frameSize i else 0) = l.freeBytes j := by
  obtain ⟨f, fs, hf⟩ := List.exists_cons_of_ne_nil hsome
  have hframe : IsFrame i f := by
    refine h.free i f ?_
    rw [hf]
    exact List.mem_cons_self ..
  have hsize := hframe.size_le
  have hbytes : j = i → l.freeBytes j = f.fin.toNat + 1 - f.start.toNat + spanBytes fs := by
    rintro rfl
    rw [freeBytes, hf, spanBytes_cons]
  rcases take_cases hf with ⟨hcut, ht⟩ | ⟨hcut, ht⟩ <;> rw [ht, freeBytes_update]
  · obtain ⟨_, _, _, hrest⟩ := hframe.cut hcut
    split
    · rw [hbytes ‹_›, spanBytes_cons, hrest]
      show f.fin.toNat + 1 - _ + _ + _ = _
      omega
    · rfl
  · have hsingle := hframe.single hcut
    split
    · rw [hbytes ‹_›]
      omega
    · rfl

theorem freeBytes_release (p : Addr) (l : Lists) (j : Fin 8) : l.freeBytes j ≤ (l.release p).freeBytes j := by
  rcases release_cases p l with ⟨hsame, _⟩ | ⟨i, pre, f, post, _, _, hr⟩
  · rw [hsame]
  · rw [hr, Function.update_comm (Place.alloced_ne_free i i), freeBytes_update]
    split
    · rename_i hj
      rw [hj, spanBytes_cons]
      exact Nat.le_add_left _ _
    · exact Nat.le_refl _

end Lists

/-! ### Requests -/

/-- The class of a request of at most a page. -/
def classOf (size : u32) : Option (Fin 8) :=
  if size > 4096 then none else (List.finRange 8).find? fun i => size ≤ Heap.allocSize i

theorem Heap.Represents.served_eq {h : Heap} {l : Lists} (hr : h.Represents l) (size : u32) :
    h.served size = classOf size := by
  rw [Heap.served, hr.classFor_eq, classOf]

/-- The request is one of class `i`. -/
def Event.asks (i : Fin 8) : Event → Bool
  | .alloc size => classOf size = some i
  | .free _ => false

/-- How many requests of class `i` there are. -/
def demand (i : Fin 8) (es : List Event) : Nat := es.countP (·.asks i)

/-- The pages that `n` blocks of class `i` take up. -/
def pagesFor (i : Fin 8) (n : Nat) : Nat := (n * frameSize i + 4095) / 4096

/-- The pages drawn for class `i`. -/
def pageCount (i : Fin 8) (pages : List (Fin 8 × Addr)) : Nat := pages.countP (·.1 = i)

theorem pageCount_cons (i : Fin 8) (p : Fin 8 × Addr) (pages : List (Fin 8 × Addr)) :
    pageCount i (p :: pages) = pageCount i pages + if p.1 = i then 1 else 0 := by
  rw [pageCount, List.countP_cons]
  simp [pageCount]

theorem sum_pageCount (pages : List (Fin 8 × Addr)) : ∑ i, pageCount i pages = pages.length := by
  induction pages with
  | nil => rfl
  | cons p pages ih =>
    simp only [pageCount_cons, Finset.sum_add_distrib, Finset.sum_ite_eq, Finset.mem_univ, if_true, ih,
      List.length_cons]

namespace System

variable {s t : System} {es : List Event} {i : Fin 8} {p n : Nat}

/-- After `n` requests of class `i` on a heap that had `p` pages of it: what was drawn was
asked for, or is on the free list. -/
structure Filled (i : Fin 8) (p n : Nat) (s : System) : Prop where
  books : ∃ l, s.heap.Represents l ∧ l.Framed ∧
    4096 * pageCount i s.pages ≤ l.freeBytes i + 4096 * p + n * frameSize i
  offset : 4096 ∣ s.heap.heapStartOffset.toNat
  bound : pageCount i s.pages ≤ p + pagesFor i n

theorem pagesFor_mono (i : Fin 8) {n m : Nat} (h : n ≤ m) : pagesFor i n ≤ pagesFor i m := by
  have := Nat.mul_le_mul_right (frameSize i) h
  unfold pagesFor
  omega

/-- What a request of class `j` does to class `i`: pages drawn and bytes left on the free
list go up and down together but for the block, and a page is drawn when no byte is left. -/
theorem serve_balance {l : Lists} (hr : s.heap.Represents l) (hl : l.Framed)
    (hoffset : 4096 ∣ s.heap.heapStartOffset.toNat) {size : u32} {j : Fin 8} (hj : s.heap.served size = some j)
    (ht : s.step (.alloc size) = some t) (i : Fin 8) :
    ∃ l', t.heap.Represents l' ∧ l'.Framed ∧
      4096 * pageCount i t.pages + l.freeBytes i =
        4096 * pageCount i s.pages + l'.freeBytes i + (if j = i then frameSize i else 0) ∧
      (pageCount i t.pages = pageCount i s.pages ∨
        j = i ∧ l.freeBytes i = 0 ∧ pageCount i t.pages = pageCount i s.pages + 1) := by
  have hsane : s.Sane := ⟨⟨l, hr, hl⟩, hoffset⟩
  obtain ⟨halign, habove⟩ := hsane.nextPage
  obtain ⟨hrep, -, hpages, -⟩ := step_served hr hj ht
  have hframed : (l.refill j s.nextPage).Framed := hl.refill halign habove
  refine ⟨_, hrep, hframed.take, ?_⟩
  by_cases hempty : l (.free j) = []
  · have hsome : l.refill j s.nextPage (.free j) ≠ [] := by
      rw [Lists.refill, if_pos hempty, Function.update_self]
      exact List.cons_ne_nil _ _
    have hrefill := Lists.freeBytes_refill hempty halign habove i
    have htake := Lists.freeBytes_take hframed hsome i
    have hcount : pageCount i t.pages = pageCount i s.pages + if j = i then 1 else 0 := by
      rw [hpages, if_pos hempty]
      exact pageCount_cons ..
    by_cases hji : j = i
    · subst hji
      have hnone : l.freeBytes j = 0 := by
        rw [Lists.freeBytes, hempty]
        rfl
      rw [if_pos rfl] at hrefill htake hcount ⊢
      exact ⟨by omega, .inr ⟨rfl, hnone, hcount⟩⟩
    · rw [if_neg (Ne.symm hji)] at hrefill htake
      rw [if_neg hji] at hcount ⊢
      exact ⟨by omega, .inl hcount⟩
  · have hkeep : l.refill j s.nextPage = l := if_neg hempty
    rw [hkeep] at hframed ⊢
    have htake := Lists.freeBytes_take hframed hempty i
    rw [if_neg hempty, List.nil_append] at hpages
    rw [hpages]
    refine ⟨?_, .inl rfl⟩
    by_cases hji : j = i
    · subst hji
      rw [if_pos rfl] at htake ⊢
      omega
    · rw [if_neg (Ne.symm hji)] at htake
      rw [if_neg hji]
      omega

/-- A request that class `j` serves. -/
theorem Filled.serve (h : Filled i p n s) {size : u32} {j : Fin 8} (hj : s.heap.served size = some j)
    (ht : s.step (.alloc size) = some t) : Filled i p (n + if j = i then 1 else 0) t := by
  obtain ⟨l, hr, hl, hbytes⟩ := h.books
  have hbound := h.bound
  have hsane : s.Sane := ⟨⟨l, hr, hl⟩, h.offset⟩
  have hoffset := (hsane.step ht).offset
  obtain ⟨l', hrep, hframed, hbalance, hcount⟩ := serve_balance hr hl h.offset hj ht i
  by_cases hji : j = i
  · have hsize := frameSize_pos i
    have hmore := pagesFor_mono i (Nat.le_add_right n 1)
    rw [if_pos hji] at hbalance ⊢
    refine ⟨⟨l', hrep, hframed, ?_⟩, hoffset, ?_⟩
    · rw [Nat.add_mul, Nat.one_mul]
      omega
    · rcases hcount with hsame | ⟨-, hnone, hdrawn⟩
      · omega
      · -- what was drawn before is used up
        rw [pagesFor, Nat.add_mul, Nat.one_mul]
        omega
  · rw [if_neg hji] at hbalance ⊢
    rw [Nat.add_zero] at hbalance ⊢
    refine ⟨⟨l', hrep, hframed, by omega⟩, hoffset, ?_⟩
    rcases hcount with hsame | ⟨heq, -⟩
    · exact hsame ▸ hbound
    · exact absurd heq hji

theorem Filled.step (h : Filled i p n s) {e : Event} (ht : s.step e = some t) :
    Filled i p (n + if e.asks i then 1 else 0) t := by
  obtain ⟨l, hr, hl, hbytes⟩ := h.books
  cases e with
  | alloc size =>
    have hserved := hr.served_eq size
    rw [Event.asks, ← hserved]
    cases hj : s.heap.served size with
    | none =>
      obtain rfl := Option.some.inj ((step_refused hj).symm.trans ht)
      exact h
    | some j =>
      have hfilled := h.serve hj ht
      simpa using hfilled
  | free q =>
    obtain ⟨t', ht', hrep, -, hpages, hoff, -⟩ := step_free hr q
    obtain rfl := Option.some.inj (ht'.symm.trans ht)
    have hmore := Lists.freeBytes_release q l i
    show Filled i p n t'
    refine ⟨⟨_, hrep, hl.release q, ?_⟩, hoff ▸ h.offset, ?_⟩
    · rw [hpages]
      omega
    · rw [hpages]
      exact h.bound

theorem demand_cons (i : Fin 8) (e : Event) (es : List Event) :
    demand i (e :: es) = (if e.asks i then 1 else 0) + demand i es := by
  rw [demand, List.countP_cons, Nat.add_comm]
  rfl

/-- **A run draws at most as many pages as its requests fill**, class by class. -/
theorem pages_drawn_le {Rule : System → Event → Prop} (h : Filled i p n s) (hrun : Run System.step Rule s es t) :
    pageCount i t.pages ≤ p + pagesFor i (n + demand i es) := by
  induction hrun generalizing n with
  | nil s => exact h.bound
  | cons _ ht _ ih =>
    rw [demand_cons, ← Nat.add_assoc]
    exact ih (h.step ht)

theorem Filled.boot (frames : Nat → SlabFrame) {kernelEnd : Nat} (hpos : 0 < kernelEnd) (i : Fin 8) :
    Filled i 0 0 (boot frames kernelEnd) :=
  ⟨⟨_, Heap.represents_new frames hpos, ⟨by simp, by simp⟩, Nat.zero_le _⟩, Nat.dvd_zero _, Nat.zero_le _⟩

/-- A page that is one of the first sixteen was not drawn before. -/
theorem Sound.drawsNew (h : Sound Ledger s) {e : Event} (ht : s.step e = some t) (hfew : t.pages.length ≤ 16) :
    s.DrawsNew e := by
  cases e with
  | free q => trivial
  | alloc size =>
    intro q hq hagain
    have hmore := (pages_step ht).2 size rfl q hq
    obtain ⟨l, hr, hledger⟩ := h.books
    obtain ⟨r, hr, hsame⟩ := List.mem_map.mp hagain
    have hbelow := hledger.drawn.below hr
    have hoffset := h.offset
    have hnext := s.nextPage_toNat
    rw [hsame, draw_page hq] at hbelow
    omega

/-- The requests to come fit in the pages left. -/
theorem fits_run (h : Sound Ledger s) {n : Fin 8 → Nat} (hfilled : ∀ i, Filled i 0 (n i) s)
    (hrun : Run System.step Admits s es t) (hfit : ∑ i, pagesFor i (n i + demand i es) ≤ 16) :
    Run System.step (fun s e => s.Admits e ∧ s.DrawsNew e) s es t ∧ Sound Ledger t := by
  induction hrun generalizing n with
  | nil s => exact ⟨.nil s, h⟩
  | @cons s u t e es hrule ht hrun ih =>
    have hnext : ∀ i, Filled i 0 (n i + if e.asks i then 1 else 0) u := fun i => (hfilled i).step ht
    have hsum : ∑ i, pagesFor i (n i + (if e.asks i then 1 else 0) + demand i es) ≤ 16 := by
      simpa only [demand_cons, Nat.add_assoc] using hfit
    have hfew : u.pages.length ≤ 16 := by
      rw [← sum_pageCount]
      refine (Finset.sum_le_sum fun i _ => ?_).trans hsum
      have hbound := (hnext i).bound
      rw [Nat.zero_add] at hbound
      exact hbound.trans (pagesFor_mono i (Nat.le_add_right _ _))
    have hnew := h.drawsNew ht hfew
    obtain ⟨hrun', ht'⟩ := ih (h.step ⟨hrule, hnew⟩ ht) hnext hsum
    exact ⟨.cons ⟨hrule, hnew⟩ ht hrun', ht'⟩

/-- **A run whose requests fit in sixteen pages, class by class, draws no more pages than they
fill, none twice**, and its live blocks do not overlap. -/
theorem requests_fit (frames : Nat → SlabFrame) {kernelEnd : Nat} (hpos : 0 < kernelEnd)
    (hrun : Run System.step Admits (boot frames kernelEnd) es s) (hfit : ∑ i, pagesFor i (demand i es) ≤ 16) :
    s.pages.length ≤ ∑ i, pagesFor i (demand i es) ∧
      Run System.step (fun s e => s.Admits e ∧ s.DrawsNew e) (boot frames kernelEnd) es s ∧
      s.live.Pairwise fun b c => Disjoint b.extent.bytes c.extent.bytes := by
  have hfilled := Filled.boot frames hpos
  refine ⟨?_, ?_⟩
  · rw [← sum_pageCount]
    refine Finset.sum_le_sum fun i _ => ?_
    have hdrawn := pages_drawn_le (hfilled i) hrun
    rwa [Nat.zero_add, Nat.zero_add] at hdrawn
  · obtain ⟨hrun, hsound⟩ := fits_run (n := fun _ => 0) (.boot .empty frames hpos) hfilled hrun
      (by simpa only [Nat.zero_add] using hfit)
    obtain ⟨l, _, hledger⟩ := hsound.books
    exact ⟨hrun, hledger.disjoint⟩

/-- Twenty buffers of a sector, one of them given back, and a short string. -/
theorem requests_fit_sectors :
    ∃ s, follow step Admits (boot (fun _ => ⟨0, 0, 0⟩) 4096)
        (List.replicate 20 (.alloc 512) ++ [.free 0xD0000000, .alloc 8]) = some s ∧
      s.live.length = 20 ∧ s.pages.length ≤ 4 ∧
      s.live.Pairwise fun b c => Disjoint b.extent.bytes c.extent.bytes := by
  have hfollow : (follow step Admits (boot (fun _ => ⟨0, 0, 0⟩) 4096)
      (List.replicate 20 (.alloc 512) ++ [.free 0xD0000000, .alloc 8])).map (·.live.length) = some 20 := by
    decide +kernel
  obtain ⟨s, hs, hlive⟩ := Option.map_eq_some_iff.mp hfollow
  have hsum : ∑ i, pagesFor i (demand i (List.replicate 20 (.alloc 512) ++ [.free 0xD0000000, .alloc 8])) = 4 := by
    decide +kernel
  obtain ⟨hpages, -, hdisjoint⟩ := requests_fit (fun _ => ⟨0, 0, 0⟩) (by decide) (run_iff_follow.mpr hs)
    (by rw [hsum]; decide)
  rw [hsum] at hpages
  exact ⟨s, hs, hlive, hpages, hdisjoint⟩

end System

end UntitledOS.Memory
