import UntitledOS.Memory.HeapSlabs

/-! The heap when pages run out.

`moreMem` puts the new descriptor on the free list before it asks for the page, and leaves
it there when the answer is null. The request that failed answers null as well, but from
then on the class has a frame that starts at address 0, and the next request of the class
is served out of it. So a call is right (`Survives`) exactly when its page was granted, as
long as the ones before it were (`exhaustion_survived`). -/
namespace UntitledOS.Memory
open Lib

/-- The request makes `moreMem` ask for a page. -/
def Heap.Draws (h : Heap) (size : u32) : Prop := ∃ i, h.served size = some i ∧ (h.slabs i).firstFrame = 0

instance (h : Heap) (size : u32) : Decidable (h.Draws size) :=
  inferInstanceAs (Decidable (∃ i, h.served size = some i ∧ (h.slabs i).firstFrame = 0))

/-- A heap, the pages granted to it, and the pointers it answered with that are not null. -/
structure Supply where
  heap : Heap
  granted : List Addr
  returned : List Addr

/-- A call, and for `alloc` whether a page is granted if one is asked for. -/
inductive Request where
  | alloc (size : u32) (granted : Bool)
  | free (p : Addr)

namespace Supply

def boot (frames : Nat → SlabFrame) (kernelEnd : Nat) : Supply := ⟨Heap.new frames kernelEnd, [], []⟩

/-- The address of the next page. -/
def nextPage (s : Supply) : Addr := heapStart + s.heap.heapStartOffset.setWidth 32

def step (s : Supply) : Request → Option Supply
  | .alloc size granted =>
    let r := s.heap.alloc (fun a => if granted then a else 0) size
    some ⟨r.1, if s.heap.Draws size ∧ granted then s.nextPage :: s.granted else s.granted,
      if r.2 = 0 then s.returned else r.2 :: s.returned⟩
  | .free p => (s.heap.free p).map fun heap => {s with heap := heap}

/-- A page that is asked for is granted. -/
def Granted (s : Supply) : Request → Prop
  | .alloc size granted => s.heap.Draws size → granted = true
  | .free _ => True

instance (s : Supply) : ∀ e, Decidable (s.Granted e)
  | .alloc size granted => inferInstanceAs (Decidable (s.heap.Draws size → granted = true))
  | .free _ => inferInstanceAs (Decidable True)

/-- What the call from `s` to `t` owes: a request whose page is refused answers null and
leaves the lists and the offset, and every pointer ever answered is in a page granted. -/
structure Survives (s : Supply) (e : Request) (t : Supply) : Prop where
  refused : ∀ size, e = .alloc size false → s.heap.Draws size →
    (s.heap.alloc (fun _ => 0) size).2 = 0 ∧ (∀ l, s.heap.Represents l → t.heap.Represents l) ∧
      t.heap.heapStartOffset = s.heap.heapStartOffset
  inside : ∀ p ∈ t.returned, ∃ a ∈ t.granted, a.toNat ≤ p.toNat ∧ p.toNat < a.toNat + 4096

end Supply

/-- A heap represents one list of ranges for each class. -/
theorem Heap.Represents.unique {h : Heap} {l l' : Lists} (hr : h.Represents l) (hr' : h.Represents l') : l = l' := by
  obtain ⟨L, ht⟩ := hr
  obtain ⟨L', ht'⟩ := hr'
  funext c
  rw [← ht.span c, ← ht'.span c, (ht.family.chain c).unique (ht'.family.chain c)]

namespace Lists

variable {P : Span → Prop} {l : Lists} {i : Fin 8}

theorem update_all (h : ∀ c, ∀ s ∈ l c, P s) {fs as : List Span} (hfs : ∀ s ∈ fs, P s) (has : ∀ s ∈ as, P s) :
    ∀ c, ∀ s ∈ Function.update (Function.update l (.free i) fs) (.alloced i) as c, P s := by
  intro c s hs
  by_cases ha : c = .alloced i
  · rw [ha, Function.update_self] at hs
    exact has s hs
  · rw [Function.update_of_ne ha] at hs
    by_cases hf : c = .free i
    · rw [hf, Function.update_self] at hs
      exact hfs s hs
    · rw [Function.update_of_ne hf] at hs
      exact h c s hs

/-- What a cut keeps, `take` keeps. -/
theorem take_all (h : ∀ c, ∀ s ∈ l c, P s)
    (hcut : ∀ s ∈ l (.free i), s.fin - s.start > Heap.allocSize i → P (s.piece i) ∧ P (s.rest i)) :
    ∀ c, ∀ s ∈ (l.take i).1 c, P s := by
  rcases hf : l (.free i) with _ | ⟨f, fs⟩
  · have hnone : l.take i = (l, 0) := by simp only [take, hf]
    rw [hnone]
    exact h
  · have hfree : ∀ s ∈ f :: fs, P s := fun s hs => h (.free i) s (hf ▸ hs)
    rcases take_cases hf with ⟨hmore, ht⟩ | ⟨_, ht⟩ <;> rw [ht]
    · obtain ⟨hpiece, hrest⟩ := hcut f (hf ▸ List.mem_cons_self ..) hmore
      apply update_all h
      · exact List.forall_mem_cons.mpr ⟨hrest, fun s hs => hfree s (List.mem_cons_of_mem _ hs)⟩
      · exact List.forall_mem_cons.mpr ⟨hpiece, h (.alloced i)⟩
    · apply update_all h
      · exact fun s hs => hfree s (List.mem_cons_of_mem _ hs)
      · exact List.forall_mem_cons.mpr ⟨hfree f (List.mem_cons_self ..), h (.alloced i)⟩

theorem release_all (h : ∀ c, ∀ s ∈ l c, P s) (p : Addr) : ∀ c, ∀ s ∈ l.release p c, P s := by
  rcases release_cases p l with ⟨hsame, _⟩ | ⟨i, pre, f, post, hsplit, _, hr⟩
  · rw [hsame]
    exact h
  · have hmem : ∀ s ∈ f :: post, P s := by
      intro s hs
      apply h (.alloced i)
      rw [hsplit]
      exact List.mem_append_right _ hs
    rw [hr, Function.update_comm (Place.alloced_ne_free i i)]
    apply update_all h
    · exact List.forall_mem_cons.mpr ⟨hmem f (List.mem_cons_self ..), h (.free i)⟩
    · exact fun s hs => hmem s (List.mem_cons_of_mem _ hs)

end Lists

namespace Supply

variable {s t : Supply} {l : Lists}

/-- Frames, each of them in one of the pages. -/
structure Stocked (pages : List Addr) (l : Lists) : Prop where
  framed : l.Framed
  within : ∀ c, ∀ sp ∈ l c, ∃ a ∈ pages, sp.start.toNat / 4096 = a.toNat / 4096

/-- The lists hold frames of the pages granted, which start at multiples of their size, and
the pointers answered are in these pages. -/
structure Backed (s : Supply) : Prop where
  stocked : ∃ l, s.heap.Represents l ∧ Stocked s.granted l
  offset : 4096 ∣ s.heap.heapStartOffset.toNat
  pages : ∀ a ∈ s.granted, 4096 ∣ a.toNat
  returned : ∀ p ∈ s.returned, ∃ a ∈ s.granted, p.toNat / 4096 = a.toNat / 4096

theorem Backed.boot (frames : Nat → SlabFrame) {kernelEnd : Nat} (hpos : 0 < kernelEnd) :
    (boot frames kernelEnd).Backed :=
  ⟨⟨_, Heap.represents_new frames hpos, ⟨by simp, by simp⟩, by simp⟩, Nat.dvd_zero _, nofun, nofun⟩

theorem Backed.inside (h : s.Backed) :
    ∀ p ∈ s.returned, ∃ a ∈ s.granted, a.toNat ≤ p.toNat ∧ p.toNat < a.toNat + 4096 := by
  intro p hp
  obtain ⟨a, ha, hpage⟩ := h.returned p hp
  have haligned := h.pages a ha
  exact ⟨a, ha, by omega, by omega⟩

theorem Stocked.take {pages : List Addr} {i : Fin 8} (h : Stocked pages l) : Stocked pages (l.take i).1 where
  framed := h.framed.take
  within := by
    apply Lists.take_all h.within
    intro sp hsp hcut
    obtain ⟨-, hrest, -, -⟩ := (h.framed.free i sp hsp).cut hcut
    obtain ⟨a, ha, hpage⟩ := h.within _ sp hsp
    refine ⟨⟨a, ha, hpage⟩, a, ha, ?_⟩
    -- what is left ends where the frame did, in the same page
    rw [hrest.page, ← hpage]
    exact (h.framed.free i sp hsp).page.symm

theorem Stocked.refill {pages : List Addr} {i : Fin 8} {a : Addr} (h : Stocked pages l) (halign : 4096 ∣ a.toNat)
    (habove : heapStart.toNat ≤ a.toNat) : Stocked (a :: pages) (l.refill i a) where
  framed := h.framed.refill halign habove
  within c sp hsp := by
    unfold Lists.refill at hsp
    have hold : sp ∈ l c → ∃ b ∈ a :: pages, sp.start.toNat / 4096 = b.toNat / 4096 := by
      intro hsp
      obtain ⟨b, hb, hpage⟩ := h.within c sp hsp
      exact ⟨b, List.mem_cons_of_mem _ hb, hpage⟩
    split at hsp
    · by_cases hc : c = .free i
      · rw [hc, Function.update_self, List.mem_singleton] at hsp
        exact ⟨a, List.mem_cons_self .., by rw [hsp]⟩
      · rw [Function.update_of_ne hc] at hsp
        exact hold hsp
    · exact hold hsp

theorem nextPage_toNat (s : Supply) : s.nextPage.toNat = heapStart.toNat + s.heap.heapStartOffset.toNat :=
  System.nextPage_toNat ⟨s.heap, [], []⟩

/-- A class without free frames asks for a page. -/
theorem draws_iff (hr : s.heap.Represents l) {size : u32} {i : Fin 8} (hi : s.heap.served size = some i) :
    s.heap.Draws size ↔ l (.free i) = [] := by
  rw [← hr.free_empty i]
  constructor
  · rintro ⟨j, hj, hempty⟩
    obtain rfl := Option.some.inj (hi.symm.trans hj)
    exact hempty
  · exact fun hempty => ⟨i, hi, hempty⟩

theorem mem_answered {returned : List Addr} {p q : Addr} (h : p ∈ if q = 0 then returned else q :: returned) :
    p ∈ returned ∨ p = q := by
  split at h
  · exact .inl h
  · exact (List.mem_cons.mp h).symm

theorem dvd_offset {offset : u16} (h : 4096 ∣ offset.toNat) : 4096 ∣ (offset + 0x1000).toNat := by
  rw [BitVec.toNat_add]
  show 4096 ∣ (offset.toNat + 4096) % 65536
  omega

/-- A request served takes a frame out of the pages granted, its own included. -/
theorem Backed.serve (h : s.Backed) {size : u32} {granted : Bool} {i : Fin 8} (hi : s.heap.served size = some i)
    (hrule : s.heap.Draws size → granted = true) (ht : s.step (.alloc size granted) = some t) :
    ∃ m : Lists, t.heap.Represents (m.take i).1 ∧ m (.free i) ≠ [] ∧ Stocked t.granted m ∧
      (∀ a ∈ t.granted, 4096 ∣ a.toNat) ∧ s.granted ⊆ t.granted ∧
      (∀ p ∈ t.returned, p ∈ s.returned ∨ p = (m.take i).2) ∧ 4096 ∣ t.heap.heapStartOffset.toNat := by
  obtain ⟨l, hr, hstocked⟩ := h.stocked
  obtain ⟨hrep, hp, hoff⟩ := hr.slabAlloc (fun a => if granted then a else 0) i
  rw [draws_iff hr hi] at hrule
  have halloc : s.heap.alloc (fun a => if granted then a else 0) size =
      Heap.slabAlloc (fun a => if granted then a else 0) i s.heap := by
    rw [Heap.alloc_eq, hi]
  rw [step, halloc] at ht
  obtain rfl := Option.some.inj ht
  have hoffset : 4096 ∣ (Heap.slabAlloc (fun a => if granted then a else 0) i s.heap).1.heapStartOffset.toNat := by
    have hold := h.offset
    rw [hoff]
    by_cases hc : l (.free i) = [] ∧ (if granted then heapStart + s.heap.heapStartOffset.setWidth 32 else 0) ≠ 0
    · rw [if_pos hc]
      exact dvd_offset hold
    · rw [if_neg hc]
      exact hold
  simp only [draws_iff hr hi]
  by_cases hempty : l (.free i) = []
  · obtain rfl : granted = true := hrule hempty
    have halign : 4096 ∣ s.nextPage.toNat := by
      rw [nextPage_toNat]
      exact Nat.dvd_add (by decide) h.offset
    have habove : heapStart.toNat ≤ s.nextPage.toNat := by
      rw [nextPage_toNat]
      exact Nat.le_add_right _ _
    rw [if_pos ⟨hempty, rfl⟩]
    refine ⟨_, hrep, ?_, hstocked.refill halign habove, List.forall_mem_cons.mpr ⟨halign, h.pages⟩,
      List.subset_cons_self _ _, fun p hmem => hp ▸ mem_answered hmem, hoffset⟩
    rw [Lists.refill, if_pos hempty, Function.update_self]
    exact List.cons_ne_nil _ _
  · have hkeep : ∀ a, l.refill i a = l := fun a => if_neg hempty
    rw [hkeep] at hrep hp
    rw [if_neg fun hc => hempty hc.1]
    exact ⟨l, hrep, hempty, hstocked, h.pages, fun _ ha => ha, fun p hmem => hp ▸ mem_answered hmem, hoffset⟩

theorem Backed.alloc (h : s.Backed) {size : u32} {granted : Bool} (hrule : s.heap.Draws size → granted = true)
    (ht : s.step (.alloc size granted) = some t) : t.Backed := by
  cases hi : s.heap.served size with
  | none =>
    have hno : ¬s.heap.Draws size := by
      rintro ⟨j, hj, _⟩
      rw [hi] at hj
      cases hj
    obtain rfl := Option.some.inj ht
    simp only [Heap.alloc_eq, hi, hno, false_and, if_false, if_true]
    exact h
  | some i =>
    obtain ⟨m, hrep, hsome, hstocked, hpages, hsub, hreturned, hoffset⟩ := h.serve hi hrule ht
    obtain ⟨f, fs, hf⟩ := List.exists_cons_of_ne_nil hsome
    refine ⟨⟨_, hrep, hstocked.take⟩, hoffset, hpages, fun p hp => ?_⟩
    rcases hreturned p hp with hp | rfl
    · obtain ⟨a, ha, hpage⟩ := h.returned p hp
      exact ⟨a, hsub ha, hpage⟩
    · rw [Lists.take_start hf]
      exact hstocked.within (.free i) f (hf ▸ List.mem_cons_self ..)

theorem Backed.step (h : s.Backed) {e : Request} (hrule : s.Granted e) (ht : s.step e = some t) : t.Backed := by
  cases e with
  | alloc size granted => exact h.alloc hrule ht
  | free p =>
    obtain ⟨l, hr, hstocked⟩ := h.stocked
    obtain ⟨heap, hfree, hrep, hoff, -⟩ := hr.free p
    rw [Supply.step, hfree] at ht
    obtain rfl := Option.some.inj ht
    have hreleased : Stocked s.granted (l.release p) :=
      ⟨hstocked.framed.release p, Lists.release_all hstocked.within p⟩
    exact ⟨⟨_, hrep, hreleased⟩, hoff ▸ h.offset, h.pages, h.returned⟩

/-- A request whose page is refused leaves one more frame on the alloced list. -/
theorem Backed.refused (h : s.Backed) {size : u32} (hdraws : s.heap.Draws size) :
    ∃ l, s.heap.Represents l ∧ ¬(s.heap.alloc (fun _ => 0) size).1.Represents l := by
  obtain ⟨l, hr, -⟩ := h.stocked
  obtain ⟨i, hi, hempty⟩ := hdraws
  refine ⟨l, hr, fun hsame => ?_⟩
  obtain ⟨hrep, -, -⟩ := hr.slabAlloc (fun _ => 0) i
  rw [Heap.alloc_eq, hi] at hsame
  have hnil := (hr.free_empty i).mp hempty
  have hsome : l.refill i 0 (.free i) = [⟨0, 0 + 0x1000 - 1⟩] := by
    rw [Lists.refill, if_pos hnil, Function.update_self]
  obtain ⟨⟨g, -, hgrown⟩, -⟩ := Lists.take_alloced hsome
  rw [hrep.unique hsame, Lists.refill_alloced] at hgrown
  exact List.cons_ne_self g _ hgrown.symm

/-- **The heap survives a call exactly when its page is granted**, in every state reached
by calls whose pages were. -/
theorem exhaustion_survived (frames : Nat → SlabFrame) {kernelEnd : Nat} (hpos : 0 < kernelEnd)
    {es : List Request} {e : Request} (hrun : Run step Granted (boot frames kernelEnd) es s)
    (ht : s.step e = some t) : Survives s e t ↔ s.Granted e := by
  have hbacked : s.Backed := hrun.invariant _ (fun _ _ _ h => h.step) (.boot frames hpos)
  constructor
  · intro h
    cases e with
    | free p => trivial
    | alloc size granted =>
      intro hdraws
      cases granted with
      | true => rfl
      | false =>
        obtain ⟨l, hr, hchanged⟩ := hbacked.refused hdraws
        obtain ⟨-, hlists, -⟩ := h.refused size rfl hdraws
        obtain rfl := Option.some.inj ht
        exact absurd (hlists l hr) hchanged
  · intro hrule
    refine ⟨?_, (hbacked.step hrule ht).inside⟩
    rintro size rfl hdraws
    cases hrule hdraws

/-- Two requests of one class, a page of another one refused after them. -/
theorem exhaustion_survived_two :
    ∃ s, follow step Granted (boot (fun _ => ⟨0, 0, 0⟩) 4096) [.alloc 32 true, .alloc 20 false] = some s ∧
      s.returned = [0xD0000020, 0xD0000000] ∧
      ∀ t, s.step (.alloc 100 true) = some t → Survives s (.alloc 100 true) t := by
  have hfollow : (follow step Granted (boot (fun _ => ⟨0, 0, 0⟩) 4096)
      [.alloc 32 true, .alloc 20 false]).map returned = some [0xD0000020, 0xD0000000] := by
    decide +kernel
  obtain ⟨s, hs, hreturned⟩ := Option.map_eq_some_iff.mp hfollow
  refine ⟨s, hs, hreturned, fun t ht => ?_⟩
  exact (exhaustion_survived _ (by decide) (run_iff_follow.mpr hs) ht).mpr fun _ => rfl

/-- A request fails, and the next one of its class answers with an address in no page. -/
theorem null_page_handed_out :
    ∃ s t, Run step (fun _ _ => True) (boot (fun _ => ⟨0, 0, 0⟩) 4096) [.alloc 32 false] s ∧
      s.step (.alloc 32 true) = some t ∧ t.returned = [0x20] ∧ t.granted = [] ∧
      ¬Survives s (.alloc 32 true) t := by
  have hfollow : ((follow step (fun _ _ => True) (boot (fun _ => ⟨0, 0, 0⟩) 4096) [.alloc 32 false]).bind
      fun s => s.step (.alloc 32 true)).map (fun t => (t.returned, t.granted)) = some ([0x20], []) := by
    decide +kernel
  obtain ⟨t, ht, hboth⟩ := Option.map_eq_some_iff.mp hfollow
  obtain ⟨s, hs, ht⟩ := Option.bind_eq_some_iff.mp ht
  obtain ⟨hreturned, hgranted⟩ := Prod.mk.inj hboth
  refine ⟨s, t, run_iff_follow.mpr hs, ht, hreturned, hgranted, fun h => ?_⟩
  obtain ⟨a, ha, -⟩ := h.inside 0x20 (hreturned ▸ List.mem_singleton_self _)
  rw [hgranted] at ha
  cases ha

end Supply

end UntitledOS.Memory
