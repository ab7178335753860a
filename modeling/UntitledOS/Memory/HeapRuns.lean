import UntitledOS.Memory.HeapLedger
import UntitledOS.Lib.Run

/-! Runs of the heap and the ledger of its bytes.

A `System` is a heap together with what the outside knows of it: the blocks it
handed out and did not get back, and the pages it drew. The page allocator is the
code's own, which answers with the address it was asked for.

For every class and every byte the books balance: live blocks and free frames of a
class cover a byte at most as often as the pages drawn for it do (`Ledger`). The
offset the pages are drawn at is 16 bits wide, so the seventeenth page is the first
one again; while no page is drawn twice, live blocks are disjoint
(`live_blocks_disjoint`).

`free` drops whatever is in front of the freed frame from the alloced list. While
every live block freed is the one at the head of its list nothing is dropped, and
the books balance exactly (`slab_conserves`). -/
namespace UntitledOS.Memory
open Lib Extent

namespace Heap

/-- The class `alloc` serves a request from, if it serves it. -/
def served (h : Heap) (size : u32) : Option (Fin 8) :=
  if size > 4096 then none else h.classFor size

theorem alloc_eq (allocPage : Addr → Addr) (size : u32) (h : Heap) :
    h.alloc allocPage size =
      match h.served size with
      | some i => slabAlloc allocPage i h
      | none => (h, 0) := by
  unfold alloc served
  split <;> rfl

/-- The class of a request is the same in every represented heap. -/
theorem Represents.classFor_eq {h : Heap} {l : Lists} (hr : h.Represents l) (size : u32) :
    h.classFor size = (List.finRange 8).find? fun i : Fin 8 => size ≤ allocSize i := by
  obtain ⟨L, ht⟩ := hr
  unfold classFor
  congr 1
  funext i
  rw [ht.size]

/-- A represented heap serves every request up to a page. -/
theorem Represents.served {h : Heap} {l : Lists} (hr : h.Represents l) {size : u32}
    (hsize : size ≤ 4096) : ∃ i, h.served size = some i := by
  rw [Heap.served, if_neg (by simpa using hsize), hr.classFor_eq]
  refine Option.isSome_iff_exists.mp (List.find?_isSome.mpr ⟨7, List.mem_finRange 7, ?_⟩)
  have hlast : allocSize (7 : Fin 8) = 4096 := by decide
  rw [hlast]
  simpa using hsize

end Heap

/-! ### The system -/

structure System where
  heap : Heap
  live : List Block
  pages : List (Fin 8 × Addr)

inductive Event where
  | alloc (size : u32)
  | free (p : Addr)

namespace System

/-- A fresh heap, over descriptor memory that starts at `kernelEnd`. -/
def boot (frames : Nat → SlabFrame) (kernelEnd : Nat) : System := ⟨Heap.new frames kernelEnd, [], []⟩

/-- The page an `alloc` of `size` draws, and the class it draws it for. -/
def draw (s : System) (size : u32) : Option (Fin 8 × Addr) :=
  (s.heap.served size).bind fun i =>
    if (s.heap.slabs i).firstFrame = 0 then
      some (i, heapStart + s.heap.heapStartOffset.setWidth 32)
    else none

/-- One call. A pointer returned for a request that was served is live until it is
freed; `VMM::allocPage` answers with the address it is given. -/
def step (s : System) : Event → Option System
  | .alloc size =>
    let r := s.heap.alloc (fun a => a) size
    some ⟨r.1, ((s.heap.served size).map (⟨r.2, ·⟩)).toList ++ s.live, (s.draw size).toList ++ s.pages⟩
  | .free p => (s.heap.free p).map fun heap => ⟨heap, s.live.eraseP (·.addr = p), s.pages⟩

/-- The address is one of a live block. -/
def IsLive (s : System) (p : Addr) : Prop := ∃ b ∈ s.live, b.addr = p

/-- The block at the head of its class's alloced list starts at `p`. -/
def AtHead (s : System) (p : Addr) : Prop :=
  ∃ i, (s.heap.allocedSlabs i).firstFrame ≠ 0 ∧
    (s.heap.frames (s.heap.allocedSlabs i).firstFrame).startAddr = p

/-- What callers promise: requests of at most a page, and frees of live blocks. -/
def Admits (s : System) : Event → Prop
  | .alloc size => size ≤ 4096
  | .free p => s.IsLive p

/-- The call draws no page, or one that was not drawn before. -/
def DrawsNew (s : System) : Event → Prop
  | .alloc size => ∀ p ∈ s.draw size, p.2 ∉ s.pages.map Prod.snd
  | .free _ => True

/-- A live block that is freed is at the head of its list. -/
def FreesHead (s : System) : Event → Prop
  | .alloc _ => True
  | .free p => s.IsLive p → s.AtHead p

instance (s : System) (p : Addr) : Decidable (s.IsLive p) :=
  inferInstanceAs (Decidable (∃ b ∈ s.live, b.addr = p))

instance (s : System) (p : Addr) : Decidable (s.AtHead p) :=
  inferInstanceAs (Decidable (∃ i, (s.heap.allocedSlabs i).firstFrame ≠ 0 ∧
    (s.heap.frames (s.heap.allocedSlabs i).firstFrame).startAddr = p))

instance (s : System) : ∀ e, Decidable (s.Admits e)
  | .alloc size => inferInstanceAs (Decidable (size ≤ 4096))
  | .free p => inferInstanceAs (Decidable (s.IsLive p))

instance (s : System) : ∀ e, Decidable (s.DrawsNew e)
  | .alloc _ => Option.decidableForallMem _
  | .free _ => inferInstanceAs (Decidable True)

instance (s : System) : ∀ e, Decidable (s.FreesHead e)
  | .alloc _ => inferInstanceAs (Decidable True)
  | .free p => inferInstanceAs (Decidable (s.IsLive p → s.AtHead p))

/-! ### What a call does to the lists -/

section Steps
variable {s t : System} {l : Lists}

/-- The address of the next page. -/
def nextPage (s : System) : Addr := heapStart + s.heap.heapStartOffset.setWidth 32

theorem nextPage_toNat (s : System) :
    s.nextPage.toNat = heapStart.toNat + s.heap.heapStartOffset.toNat := by
  have := s.heap.heapStartOffset.isLt
  rw [nextPage, BitVec.toNat_add, BitVec.toNat_setWidth]
  show (3489660928 + _ % 2 ^ 32) % 2 ^ 32 = 3489660928 + _
  omega

theorem nextPage_ne (s : System) : s.nextPage ≠ 0 := by
  intro h
  have := s.nextPage_toNat
  rw [h] at this
  have : heapStart.toNat = 3489660928 := rfl
  have : (0 : Addr).toNat = 0 := rfl
  omega

theorem draw_eq (hr : s.heap.Represents l) {size : u32} {i : Fin 8} (hi : s.heap.served size = some i) :
    s.draw size = if l (.free i) = [] then some (i, s.nextPage) else none := by
  rw [draw, hi, Option.bind_some]
  simp only [hr.free_empty i]
  rfl

theorem draw_page {size : u32} {p : Fin 8 × Addr} (hp : p ∈ s.draw size) : p.2 = s.nextPage := by
  obtain ⟨i, _, hdraw⟩ := Option.bind_eq_some_iff.mp hp
  split at hdraw
  · rw [← Option.some.inj hdraw]
    rfl
  · cases hdraw

/-- A request that is not served changes nothing. -/
theorem step_refused {size : u32} (hi : s.heap.served size = none) :
    s.step (.alloc size) = some s := by
  simp [step, draw, Heap.alloc_eq, hi]

/-- A request that is served is a refill, drawing a page if the class has no free frame,
and a `take`. -/
theorem step_served (hr : s.heap.Represents l) {size : u32} {i : Fin 8}
    (hi : s.heap.served size = some i) (ht : s.step (.alloc size) = some t) :
    t.heap.Represents ((l.refill i s.nextPage).take i).1 ∧
      t.live = ⟨((l.refill i s.nextPage).take i).2, i⟩ :: s.live ∧
      t.pages = (if l (.free i) = [] then [(i, s.nextPage)] else []) ++ s.pages ∧
      t.heap.heapStartOffset =
        if l (.free i) = [] then s.heap.heapStartOffset + 0x1000 else s.heap.heapStartOffset := by
  obtain ⟨hrep, hp, hoff⟩ := hr.slabAlloc (fun a => a) i
  obtain rfl := Option.some.inj ht
  simp only [Heap.alloc_eq, hi, draw_eq hr hi]
  refine ⟨hrep, ?_, ?_, ?_⟩
  · rw [hp]
    rfl
  · split <;> rfl
  · rw [hoff]
    have hne : heapStart + s.heap.heapStartOffset.setWidth 32 ≠ 0 := s.nextPage_ne
    simp only [hne, ne_eq, not_false_eq_true, and_true]

/-- `free` is a `release`. -/
theorem step_free (hr : s.heap.Represents l) (p : Addr) :
    ∃ t, s.step (.free p) = some t ∧ t.heap.Represents (l.release p) ∧
      t.live = s.live.eraseP (·.addr = p) ∧ t.pages = s.pages ∧
      t.heap.heapStartOffset = s.heap.heapStartOffset ∧ (l.holder p = none → t.heap = s.heap) := by
  obtain ⟨heap, hfree, hrep, hoff, hnone⟩ := hr.free p
  refine ⟨⟨heap, s.live.eraseP (·.addr = p), s.pages⟩, ?_, hrep, rfl, rfl, hoff, hnone⟩
  rw [step, hfree]
  rfl

/-- Every heap reached represents some lists. -/
theorem represents_run {frames : Nat → SlabFrame} {kernelEnd : Nat} (hpos : 0 < kernelEnd)
    {Rule : System → Event → Prop} {es : List Event} (hrun : Run step Rule (boot frames kernelEnd) es s) :
    ∃ l, s.heap.Represents l := by
  refine hrun.invariant (fun s => ∃ l, s.heap.Represents l) ?_ ⟨_, Heap.represents_new frames hpos⟩
  rintro s (size | p) t ⟨l, hr⟩ _ ht
  · cases hi : s.heap.served size with
    | none =>
      obtain rfl := Option.some.inj ((step_refused hi).symm.trans ht)
      exact ⟨l, hr⟩
    | some i => exact ⟨_, (step_served hr hi ht).1⟩
  · obtain ⟨t', ht', hrep, _⟩ := step_free hr p
    obtain rfl := Option.some.inj (ht'.symm.trans ht)
    exact ⟨_, hrep⟩

/-- A call on a represented heap has an outcome. -/
theorem step_total (hr : s.heap.Represents l) (e : Event) : ∃ t, s.step e = some t := by
  cases e with
  | alloc size => exact ⟨_, rfl⟩
  | free p =>
    obtain ⟨t, ht, _⟩ := step_free hr p
    exact ⟨t, ht⟩

end Steps

/-! ### Books over runs -/

/-- The heap represents lists whose books are in order, and its offset is where the next
page goes, up to the sixteen bits it has. -/
structure Sound (Books : List Block → List (Fin 8 × Addr) → Lists → Prop) (s : System) : Prop where
  books : ∃ l, s.heap.Represents l ∧ Books s.live s.pages l
  offset : s.heap.heapStartOffset.toNat = 4096 * s.pages.length % 65536

section Books
variable {Books : List Block → List (Fin 8 × Addr) → Lists → Prop} {s t : System}

theorem Sound.boot (hempty : Books [] [] fun _ => []) (frames : Nat → SlabFrame) {kernelEnd : Nat}
    (hpos : 0 < kernelEnd) : Sound Books (boot frames kernelEnd) :=
  ⟨⟨_, Heap.represents_new frames hpos, hempty⟩, rfl⟩

/-- A call of `alloc` keeps books that a refill from a new page and a `take` keep. -/
theorem Sound.alloc
    (hrefill : ∀ {live pages l i}, Books live pages l → l (.free i) = [] → ∀ {a : Addr},
      a.toNat = heapStart.toNat + 4096 * pages.length → Books live ((i, a) :: pages) (l.refill i a))
    (htake : ∀ {live pages l i}, Books live pages l → l (.free i) ≠ [] →
      Books (⟨(l.take i).2, i⟩ :: live) pages (l.take i).1)
    (h : Sound Books s) {size : u32} (hroom : ∀ p ∈ s.draw size, s.pages.length < 16)
    (ht : s.step (.alloc size) = some t) : Sound Books t := by
  obtain ⟨l, hr, hbooks⟩ := h.books
  cases hi : s.heap.served size with
  | none =>
    obtain rfl := Option.some.inj ((step_refused hi).symm.trans ht)
    exact h
  | some i =>
    obtain ⟨hrep, hlive, hpages, hoff⟩ := step_served hr hi ht
    by_cases hempty : l (.free i) = []
    · have hlt : s.pages.length < 16 := by
        refine hroom (i, s.nextPage) ?_
        rw [draw_eq hr hi, if_pos hempty]
        rfl
      have hoffset := h.offset
      rw [Nat.mod_eq_of_lt (by omega)] at hoffset
      have hpage : s.nextPage.toNat = heapStart.toNat + 4096 * s.pages.length := by
        rw [nextPage_toNat, hoffset]
      have hsome : l.refill i s.nextPage (.free i) ≠ [] := by
        rw [Lists.refill, if_pos hempty, Function.update_self]
        exact List.cons_ne_nil _ _
      rw [if_pos hempty] at hpages hoff
      refine ⟨⟨_, hrep, ?_⟩, ?_⟩
      · rw [hlive, hpages]
        exact htake (hrefill hbooks hempty hpage) hsome
      · rw [hoff, hpages, BitVec.toNat_add, hoffset]
        show (4096 * s.pages.length + 4096) % 65536 = 4096 * (s.pages.length + 1) % 65536
        omega
    · rw [if_neg hempty] at hpages hoff
      have hkeep : l.refill i s.nextPage = l := if_neg hempty
      rw [hkeep] at hrep hlive
      refine ⟨⟨_, hrep, ?_⟩, ?_⟩
      · rw [hlive, hpages]
        exact htake hbooks hempty
      · rw [hoff, hpages]
        exact h.offset

theorem Sound.free {Books' : List Block → List (Fin 8 × Addr) → Lists → Prop} (h : Sound Books s) {p : Addr}
    (ht : s.step (.free p) = some t)
    (hrelease : ∀ l, s.heap.Represents l → Books s.live s.pages l →
      Books' (s.live.eraseP (·.addr = p)) s.pages (l.release p)) : Sound Books' t := by
  obtain ⟨l, hr, hbooks⟩ := h.books
  obtain ⟨t', ht', hrep, hlive, hpages, hoff, _⟩ := step_free hr p
  obtain rfl := Option.some.inj (ht'.symm.trans ht)
  refine ⟨⟨_, hrep, ?_⟩, ?_⟩
  · rw [hlive, hpages]
    exact hrelease l hr hbooks
  · rw [hoff, hpages]
    exact h.offset

end Books

/-! ### Live blocks -/

/-- A page drawn anew is one of the first sixteen. -/
theorem Sound.room {Books : List Block → List (Fin 8 × Addr) → Lists → Prop}
    (hdrawn : ∀ {live pages l}, Books live pages l → Drawn pages) {s : System} (h : Sound Books s) {size : u32}
    (hnew : s.DrawsNew (.alloc size)) : ∀ p ∈ s.draw size, s.pages.length < 16 := by
  intro p hp
  by_contra hmany
  obtain ⟨l, hr, hbooks⟩ := h.books
  -- sixteen pages ago the offset was what it is now
  obtain ⟨q, hq, hold⟩ := (hdrawn hbooks).mem (show s.pages.length % 16 < s.pages.length by omega)
  have hsame : q.2 = p.2 := by
    refine BitVec.eq_of_toNat_eq ?_
    rw [hold, draw_page hp, nextPage_toNat, h.offset]
    omega
  exact hnew p hp (hsame ▸ List.mem_map_of_mem hq)

theorem Sound.step {s t : System} {e : Event} (h : Sound Ledger s) (hrule : s.Admits e ∧ s.DrawsNew e)
    (ht : s.step e = some t) : Sound Ledger t := by
  cases e with
  | alloc size => exact h.alloc Ledger.refill Ledger.take (h.room Ledger.drawn hrule.2) ht
  | free p => exact h.free ht fun l _ hledger => hledger.release hrule.1

/-- **Live blocks never overlap, in a run that draws no page twice.** -/
theorem live_blocks_disjoint (frames : Nat → SlabFrame) {kernelEnd : Nat} (hpos : 0 < kernelEnd)
    {es : List Event} {s : System}
    (hrun : Run step (fun s e => s.Admits e ∧ s.DrawsNew e) (boot frames kernelEnd) es s) :
    (s.live.Pairwise fun b c => Disjoint b.extent.bytes c.extent.bytes) ∧
      ∀ e, ∃ t, s.step e = some t := by
  have hsound : Sound Ledger s := hrun.invariant _ (fun _ _ _ => Sound.step) (.boot .empty frames hpos)
  obtain ⟨l, hr, hledger⟩ := hsound.books
  exact ⟨hledger.disjoint, step_total hr⟩

/-- Three requests of two classes, the first block freed while another is in front of it. -/
theorem live_blocks_disjoint_three :
    ∃ s, follow step (fun s e => s.Admits e ∧ s.DrawsNew e) (boot (fun _ => ⟨0, 0, 0⟩) 4096)
        [.alloc 32, .alloc 0, .alloc 100, .free 0xD0000000, .alloc 20] = some s ∧
      s.live = [⟨0xD0000000, 0⟩, ⟨0xD0001000, 2⟩, ⟨0xD0000020, 0⟩] ∧
      s.live.Pairwise fun b c => Disjoint b.extent.bytes c.extent.bytes := by
  have hfollow : (follow step (fun s e => s.Admits e ∧ s.DrawsNew e) (boot (fun _ => ⟨0, 0, 0⟩) 4096)
      [.alloc 32, .alloc 0, .alloc 100, .free 0xD0000000, .alloc 20]).map System.live =
        some [⟨0xD0000000, 0⟩, ⟨0xD0001000, 2⟩, ⟨0xD0000020, 0⟩] := by
    decide +kernel
  obtain ⟨s, hs, hlive⟩ := Option.map_eq_some_iff.mp hfollow
  exact ⟨s, hs, hlive, (live_blocks_disjoint _ (by decide) (run_iff_follow.mpr hs)).1⟩

/-- The seventeenth page is the first one: a run of requests for whole pages hands out
the same block twice. -/
theorem live_blocks_overlap :
    ∃ es s, Run step Admits (boot (fun _ => ⟨0, 0, 0⟩) 4096) es s ∧
      ¬ s.live.Pairwise fun b c => Disjoint b.extent.bytes c.extent.bytes := by
  have hfollow : (follow step Admits (boot (fun _ => ⟨0, 0, 0⟩) 4096)
      (List.replicate 17 (.alloc 4096))).map
        (fun s => (s.live.head?, s.live.tail.contains ⟨0xD0000000, 7⟩)) =
          some (some ⟨0xD0000000, 7⟩, true) := by
    decide +kernel
  obtain ⟨s, hs, hlive⟩ := Option.map_eq_some_iff.mp hfollow
  obtain ⟨hhead, hagain⟩ := Prod.mk.inj hlive
  rw [List.contains_iff_mem] at hagain
  refine ⟨_, s, run_iff_follow.mpr hs, fun hdisjoint => ?_⟩
  rw [List.eq_cons_of_mem_head? hhead, List.pairwise_cons] at hdisjoint
  exact Set.disjoint_left.mp (hdisjoint.1 _ hagain) (Ledger.mem_extent _) (Ledger.mem_extent _)

/-! ### Frames -/

/-- The head of an alloced list, in the heap and on the list. -/
theorem alloced_head {s : System} {l : Lists} (hr : s.heap.Represents l) {p : Addr}
    (hp : s.AtHead p) : ∃ i f post, l (.alloced i) = f :: post ∧ f.start = p := by
  obtain ⟨L, ht⟩ := hr
  obtain ⟨i, hne, hp⟩ := hp
  have hchain := ht.family.chain (.alloced i)
  rcases hL : L (.alloced i) with _ | ⟨f, rest⟩
  · exact absurd (hchain.eq_nil_iff.mp hL) hne
  · rw [hL] at hchain
    have hf : (s.heap.allocedSlabs i).firstFrame = f := hchain.head_eq
    refine ⟨i, s.heap.span f, rest.map s.heap.span, ?_, ?_⟩
    · rw [← ht.span, hL]
      rfl
    · rw [← hp, hf]
      rfl

/-- Pages are drawn and never given back. -/
theorem pages_step {s t : System} {e : Event} (ht : s.step e = some t) :
    s.pages.length ≤ t.pages.length ∧
      ∀ size, e = .alloc size → ∀ p ∈ s.draw size, s.pages.length < t.pages.length := by
  cases e with
  | alloc size =>
    obtain rfl := Option.some.inj ht
    refine ⟨?_, ?_⟩
    · simp
    · rintro _ ⟨rfl⟩ p hp
      rw [Option.mem_def] at hp
      simp [hp]
  | free p =>
    obtain ⟨heap, _, rfl⟩ := Option.map_eq_some_iff.mp ht
    exact ⟨le_rfl, nofun⟩

theorem Sound.keep {s t : System} {e : Event} (h : Sound Kept s) (hrule : s.FreesHead e)
    (hfew : t.pages.length ≤ 16) (ht : s.step e = some t) : Sound Kept t := by
  cases e with
  | alloc size =>
    refine h.alloc Kept.refill Kept.take (fun p hp => ?_) ht
    have := (pages_step ht).2 size rfl p hp
    omega
  | free p =>
    refine h.free ht fun l hr hkept => ?_
    by_cases hlive : s.IsLive p
    · obtain ⟨i, f, post, hi, rfl⟩ := alloced_head hr (hrule hlive)
      exact hkept.release_head hi
    · have hsame : s.live.eraseP (·.addr = p) = s.live :=
        List.eraseP_of_forall_not fun b hb hbp => hlive ⟨b, hb, by simpa using hbp⟩
      rw [hsame, Lists.release, hkept.release_stray hlive]
      exact hkept

/-- **The heap conserves its memory, in a run that frees live blocks from the head of
their list only.** Each class's frames tile its pages, its alloced list is its live
blocks, `free` of the head moves that frame alone, and `free` of an address that is not
live changes nothing. -/
theorem slab_conserves (frames : Nat → SlabFrame) {kernelEnd : Nat} (hpos : 0 < kernelEnd)
    {es : List Event} {s : System} (hrun : Run step FreesHead (boot frames kernelEnd) es s)
    (hpages : s.pages.length ≤ 15) :
    ∃ l, s.heap.Represents l ∧
      (∀ i, Tiles (l.freeOf i ++ l.allocedOf i) (pagesOf i s.pages)) ∧
      (∀ i, l.allocedOf i = blocksOf i s.live) ∧
      (∀ p, s.IsLive p → s.AtHead p → ∃ i f post t, l (.alloced i) = f :: post ∧ f.start = p ∧
        s.step (.free p) = some t ∧ t.heap.Represents (Function.update
          (Function.update l (.alloced i) post) (.free i) (f :: l (.free i)))) ∧
      ∀ p, ¬ s.IsLive p → ∃ t, s.step (.free p) = some t ∧ t.heap = s.heap := by
  have hsound : s.pages.length ≤ 16 → Sound Kept s :=
    hrun.invariant (fun s => s.pages.length ≤ 16 → Sound Kept s)
      (fun s e t hs hrule ht hfew => (hs ((pages_step ht).1.trans hfew)).keep hrule hfew ht)
      (fun _ => .boot .empty frames hpos)
  obtain ⟨l, hr, hkept⟩ := (hsound (by omega)).books
  refine ⟨l, hr, hkept.tiles, hkept.allocedOf_eq, fun p _ hhead => ?_, fun p hstray => ?_⟩
  · obtain ⟨i, f, post, hi, rfl⟩ := alloced_head hr hhead
    obtain ⟨t, ht, hrep, _⟩ := step_free hr f.start
    rw [hkept.release_head_eq hi] at hrep
    exact ⟨i, f, post, t, hi, rfl, ht, hrep⟩
  · obtain ⟨t, ht, _, _, _, _, hnone⟩ := step_free hr p
    exact ⟨t, ht, hnone (hkept.release_stray hstray)⟩

/-- Blocks of two classes, the last one of the first class freed, then an address that
was never handed out. -/
theorem slab_conserves_three :
    ∃ s, follow step FreesHead (boot (fun _ => ⟨0, 0, 0⟩) 4096)
        [.alloc 32, .alloc 0, .alloc 100, .free 0xD0000020, .free 0x1000] = some s ∧
      s.live = [⟨0xD0001000, 2⟩, ⟨0xD0000000, 0⟩] ∧
      ∃ l, s.heap.Represents l ∧ ∀ i, Tiles (l.freeOf i ++ l.allocedOf i) (pagesOf i s.pages) := by
  have hfollow : (follow step FreesHead (boot (fun _ => ⟨0, 0, 0⟩) 4096)
      [.alloc 32, .alloc 0, .alloc 100, .free 0xD0000020, .free 0x1000]).map
        (fun s => (s.live, s.pages.length)) = some ([⟨0xD0001000, 2⟩, ⟨0xD0000000, 0⟩], 2) := by
    decide +kernel
  obtain ⟨s, hs, hboth⟩ := Option.map_eq_some_iff.mp hfollow
  obtain ⟨hlive, hpages⟩ := Prod.mk.inj hboth
  obtain ⟨l, hr, htiles, _⟩ := slab_conserves (fun _ => ⟨0, 0, 0⟩) (by decide)
    (run_iff_follow.mpr hs) (by omega)
  exact ⟨s, hs, hlive, l, hr, htiles⟩

/-- Freeing the older of two blocks drops the younger one, which is live, from its list. -/
theorem slab_drops :
    ∃ es s, Run step (fun _ _ => True) (boot (fun _ => ⟨0, 0, 0⟩) 4096) es s ∧ s.pages.length ≤ 15 ∧
      ∃ l, s.heap.Represents l ∧ blocksOf 0 s.live = [⟨0xD0000020, 0xD0000040⟩] ∧ l.allocedOf 0 = [] := by
  have hfollow : (follow step (fun _ _ => True) (boot (fun _ => ⟨0, 0, 0⟩) 4096)
      [.alloc 32, .alloc 32, .free 0xD0000000]).map
        (fun s => (s.live, s.pages.length, (s.heap.allocedSlabs 0).firstFrame)) =
          some ([⟨0xD0000020, 0⟩], 1, 0) := by
    decide +kernel
  obtain ⟨s, hs, hall⟩ := Option.map_eq_some_iff.mp hfollow
  obtain ⟨hlive, hrest⟩ := Prod.mk.inj hall
  obtain ⟨hpages, hempty⟩ := Prod.mk.inj hrest
  have hrun := run_iff_follow.mpr hs
  obtain ⟨l, L, ht⟩ := represents_run (by decide) hrun
  refine ⟨_, s, hrun, by omega, l, ⟨L, ht⟩, ?_, ?_⟩
  · rw [hlive]
    decide
  · rw [Lists.allocedOf, ← ht.span, (ht.family.chain (.alloced 0)).eq_nil_iff.mpr hempty]
    rfl

end System

end UntitledOS.Memory
