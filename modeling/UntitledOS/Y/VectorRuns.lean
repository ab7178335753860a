import UntitledOS.Y.Vector
import UntitledOS.Lib.Growth
import UntitledOS.Lib.Run

/-! Runs of programs over vectors.

Copying a vector makes two that share a buffer. That alone does no harm, as long as no
call writes an element that the other one sees, or deletes the buffer of both: `Harmless`
says so call by call, besides the room that elements need. Runs of harmless calls refine
programs over lists, keep every buffer alive while a vector has it, and never get stuck
(`vectors_refine_lists`). -/
namespace UntitledOS.Y
open Lib

namespace Vector

/-- The elements of a vector. -/
def elements (h : Blocks u32) (v : Vector) : List u32 := (h.cells v.buffer).take v.m_size

def shape (h : Blocks u32) (v : Vector) : Shape := ⟨v.m_size, v.m_capacity, (h.cells v.buffer).length⟩

/-- A vector sees the same in another heap. -/
structure Unchanged (h h' : Blocks u32) (v : Vector) : Prop where
  good : h'.Good v.buffer
  shape : v.shape h' = v.shape h
  elements : v.elements h' = v.elements h

variable {h h' : Blocks u32} {v : Vector}

theorem unchanged_of_cells (hgood : h'.Good v.buffer) (hcells : h'.cells v.buffer = h.cells v.buffer) :
    v.Unchanged h h' := by
  refine ⟨hgood, ?_, ?_⟩
  · rw [shape, shape, hcells]
  · rw [elements, elements, hcells]

/-- A write at or behind a vector's end is not seen. -/
theorem unchanged_put {p : Ptr} {i : Nat} (a : u32) (hgood : h.Good v.buffer) (hp : h.Live p)
    (hsize : v.buffer = p → v.m_size ≤ i) : v.Unchanged h (h.put p ((h.cells p).set i a)) := by
  refine ⟨(Blocks.good_put _).mpr hgood, ?_, ?_⟩
  · rw [shape, shape, Blocks.cells_put hp]
    split
    · rename_i heq
      rw [List.length_set, heq]
    · rfl
  · rw [elements, elements, Blocks.cells_put hp]
    split
    · rename_i heq
      rw [List.take_set_of_le (hsize heq), heq]
    · rfl

/-! ### Allocation -/

section New
variable {addr : Nat} (haddr : addr ≠ 0 ∧ h.block addr = none) (fresh : Nat → u32)
include haddr

/-- A new buffer, or the null pointer; everything else is as it was. -/
theorem newInts_spec (n : Nat) : ∃ h' p, newInts addr fresh n h = (h', p) ∧ h'.Good p ∧
    (n ≤ 1024 → h'.Live p) ∧ (h'.cells p).length = (if n ≤ 1024 then n else 0) ∧
    ∀ q, h.Good q → h'.Good q ∧ h'.cells q = h.cells q ∧ (q.addr ≠ 0 → q ≠ p) := by
  by_cases hn : n ≤ 1024
  · let r := h.new addr ((List.range n).map fresh)
    refine ⟨r.1, r.2, if_pos (by omega), .inr (Blocks.new_live haddr.1 _),
      fun _ => Blocks.new_live haddr.1 _, ?_, fun q hq => ?_⟩
    · rw [Blocks.new_cells haddr.1, if_pos hn, List.length_map, List.length_range]
    · obtain ⟨hgood, hcells, hne⟩ := hq.new haddr.1 ((List.range n).map fresh) haddr.2
      exact ⟨hgood, hcells, fun _ => hne⟩
  · refine ⟨h, .null, if_neg (by omega), .inl rfl, fun hle => absurd hle hn, ?_,
      fun q hq => ⟨hq, rfl, fun hne heq => ?_⟩⟩
    · rw [if_neg hn, Blocks.cells_null rfl]
      rfl
    · exact hne (congrArg Ptr.addr heq)

/-- `reserve` keeps the elements, if the new buffer has room for them. -/
theorem reserve_spec {n : Nat} (hgood : h.Good v.buffer) (hvalid : (v.shape h).Valid 1024)
    (hsize : v.m_size ≤ n) (hpage : n ≤ 1024 ∨ v.m_size = 0) :
    ∃ h' p, v.reserve addr fresh n h = some (h', ⟨p, n, v.m_size⟩) ∧ h'.Good p ∧
      (h'.cells p).length = (if n ≤ 1024 then n else 0) ∧ (h'.cells p).take v.m_size = v.elements h ∧
      ∀ q, h.Good q → (v.buffer.addr ≠ 0 → q ≠ v.buffer) →
        h'.Good q ∧ h'.cells q = h.cells q ∧ (q.addr ≠ 0 → q ≠ p) := by
  have hmem : v.m_size ≤ (h.cells v.buffer).length := hvalid.memory
  obtain ⟨h₁, p, hnew, hp, hlive, hlen, hkeep⟩ := newInts_spec haddr fresh n
  obtain ⟨hold, hcells, hne⟩ := hkeep v.buffer hgood
  -- the loop fills the front of the new buffer
  obtain ⟨h₂, hcopy, hgood₂, hlen₂, htake₂, hcells₂⟩ : ∃ h₂, Blocks.copy v.buffer p 0 v.m_size h₁ = some h₂ ∧
      (∀ q, h₁.Good q → h₂.Good q) ∧ (h₂.cells p).length = (h₁.cells p).length ∧
      (h₂.cells p).take v.m_size = v.elements h ∧
      ∀ q, (q.addr ≠ 0 → q ≠ p) → h₂.cells q = h₁.cells q := by
    by_cases hn : n ≤ 1024
    · have hsrc : v.buffer ≠ p := by
        intro heq
        exact hne (heq ▸ (hlive hn).ne_zero) heq
      obtain ⟨h₂, hcopy, hgood₂, hlen₂, htake₂, hcells₂⟩ := Blocks.copy_front (n := v.m_size) (hlive hn) hsrc
        (by rw [hcells]; exact hmem) (by rw [hlen, if_pos hn]; exact hsize)
      refine ⟨h₂, hcopy, hgood₂, hlen₂, ?_, fun q hq => hcells₂ q fun heq => ?_⟩
      · rw [htake₂, hcells]
        rfl
      · exact hq (heq ▸ (hlive hn).ne_zero) heq
    · have hzero : v.m_size = 0 := hpage.resolve_left hn
      refine ⟨h₁, by rw [hzero]; rfl, fun q hq => hq, rfl, ?_, fun q _ => rfl⟩
      rw [elements, hzero]
      rfl
  obtain ⟨h₃, hdelete, hkeep₃⟩ := (hgood₂ _ hold).delete
  obtain ⟨hp₃, hpcells₃⟩ := hkeep₃ p (hgood₂ p hp) fun hzero heq => hne hzero heq.symm
  refine ⟨h₃, p, ?_, hp₃, ?_, ?_, fun q hq hqne => ?_⟩
  · simp only [reserve, hnew]
    rw [hcopy, Option.bind_some, hdelete, Option.map_some]
  · rw [hpcells₃, hlen₂, hlen]
  · rw [hpcells₃, htake₂]
  · obtain ⟨hq₁, hqcells₁, hqp⟩ := hkeep q hq
    obtain ⟨hq₃, hqcells₃⟩ := hkeep₃ q (hgood₂ q hq₁) hqne
    exact ⟨hq₃, by rw [hqcells₃, hcells₂ q hqp, hqcells₁], hqp⟩

end New

end Vector

namespace Machine

/-! ### Conditions -/

/-- No other vector has the buffer of `x`. -/
def Sole (s : Machine) (x : Nat) : Prop :=
  ∀ v ∈ s.vectors x, v.buffer.addr ≠ 0 → ∀ y, y ≠ x → ∀ w ∈ s.vectors y, w.buffer ≠ v.buffer

/-- No other vector with the buffer of `x` has an element `i`. -/
def Unseen (s : Machine) (x i : Nat) : Prop :=
  ∀ v ∈ s.vectors x, ∀ y, y ≠ x → ∀ w ∈ s.vectors y, w.buffer = v.buffer → w.m_size ≤ i

/-- An element finds room, in the buffer or in a new one of a page at most, and nobody
else notices. -/
def CanPush (s : Machine) (x : Nat) : Prop :=
  ∀ v ∈ s.vectors x, if v.m_size < v.m_capacity then
    v.m_size < (s.heap.cells v.buffer).length ∧ s.Unseen x v.m_size
  else v.m_capacity ≤ 512 ∧ s.Sole x

/-- The call touches no memory it should not, and changes no other vector. -/
def Harmless (s : Machine) : VectorCall → Prop
  | .push_back x _ => s.CanPush x
  | .pushElement x y _ => s.CanPush x ∧ ∀ v ∈ s.vectors x, x = y → v.m_size < v.m_capacity
  | .reserve x capacity => (∀ v ∈ s.vectors x,
      v.m_size ≤ capacity.toNat ∧ (capacity.toNat ≤ 1024 ∨ v.m_size = 0)) ∧ s.Sole x
  | .set x i _ => s.Unseen x i
  | .destroy x => s.Sole x
  | _ => True

/-! ### Refinement -/

/-- The machine holds the lists `t`: every vector has its elements in a live buffer, and
what belongs to others is theirs alone. -/
structure Refines (s : Machine) (t : Lists) : Prop where
  good : ∀ x, ∀ v ∈ s.vectors x, s.heap.Good v.buffer
  valid : ∀ x, ∀ v ∈ s.vectors x, (v.shape s.heap).Valid 1024
  lists : ∀ x, (s.vectors x).map (·.elements s.heap) = t x
  others : ∀ o, ∀ p ∈ s.others o, s.heap.Good p
  apart : ∀ o, ∀ p ∈ s.others o, s.heap.Live p → ∀ x, ∀ v ∈ s.vectors x, v.buffer ≠ p
  distinct : ∀ o o', ∀ p ∈ s.others o, p ∈ s.others o' → s.heap.Live p → o = o'

variable {s : Machine} {t : Lists}

theorem start_refines : start.Refines fun _ => none := by
  refine ⟨?_, ?_, fun _ => rfl, ?_, ?_, ?_⟩
  · exact fun x v hv => absurd hv (Option.not_mem_none v)
  · exact fun x v hv => absurd hv (Option.not_mem_none v)
  · exact fun o p hp => absurd hp (Option.not_mem_none p)
  · exact fun o p hp => absurd hp (Option.not_mem_none p)
  · exact fun o o' p hp => absurd hp (Option.not_mem_none p)

theorem all_update {α : Type*} {P : α → Prop} {f : Nat → Option α} {x : Nat} {r : Option α}
    (hx : ∀ a ∈ r, P a) (h : ∀ y, y ≠ x → ∀ a ∈ f y, P a) (y : Nat) :
    ∀ a ∈ Function.update f x r y, P a := by
  by_cases hy : y = x
  · rw [hy, Function.update_self]
    exact hx
  · rw [Function.update_of_ne hy]
    exact h y hy

/-- One vector has changed, and what the others see has not. -/
theorem Refines.change (hs : s.Refines t) {x : Nat} {h' : Blocks u32} {r : Option Vector}
    {l : Option (List u32)}
    (hvectors : ∀ y, y ≠ x → ∀ w ∈ s.vectors y, w.Unchanged s.heap h')
    (hothers : ∀ o, ∀ p ∈ s.others o, h'.Good p)
    (hgood : ∀ v ∈ r, h'.Good v.buffer) (hvalid : ∀ v ∈ r, (v.shape h').Valid 1024)
    (hlist : r.map (·.elements h') = l)
    (hapart : ∀ v ∈ r, ∀ o, ∀ p ∈ s.others o, s.heap.Live p → v.buffer ≠ p) :
    Refines {s with heap := h', vectors := Function.update s.vectors x r} (Function.update t x l) := by
  have hlive : ∀ o, ∀ p ∈ s.others o, h'.Live p → s.heap.Live p := fun o p hp hlive =>
    (hs.others o p hp).resolve_left hlive.ne_zero
  refine ⟨?_, ?_, fun y => ?_, hothers, fun o p hp hl => ?_,
    fun o o' p hp hp' hl => hs.distinct o o' p hp hp' (hlive o p hp hl)⟩
  · exact all_update hgood fun y hy w hw => (hvectors y hy w hw).good
  · apply all_update hvalid
    intro y hy w hw
    show (w.shape h').Valid 1024
    rw [(hvectors y hy w hw).shape]
    exact hs.valid y w hw
  · show Option.map _ (Function.update s.vectors x r y) = _
    by_cases hy : y = x
    · rw [hy, Function.update_self, Function.update_self]
      exact hlist
    · rw [Function.update_of_ne hy, Function.update_of_ne hy, ← hs.lists y]
      apply Option.map_congr
      intro w hw
      exact (hvectors y hy w hw).elements
  · apply all_update fun v hv => hapart v hv o p hp (hlive o p hp hl)
    exact fun y _ => hs.apart o p hp (hlive o p hp hl) y

section Calls
variable {x : Nat} {v : Vector}

theorem Refines.value (hs : s.Refines t) (hv : v ∈ s.vectors x) : t x = some (v.elements s.heap) := by
  rw [← hs.lists x, Option.mem_def.mp hv, Option.map_some]

/-- Only one vector has changed, and the heap has not. -/
theorem Refines.same_heap (hs : s.Refines t) {r : Vector} {l : List u32} (hgood : s.heap.Good r.buffer)
    (hvalid : (r.shape s.heap).Valid 1024) (hlist : r.elements s.heap = l)
    (hapart : ∀ o, ∀ p ∈ s.others o, s.heap.Live p → r.buffer ≠ p) :
    (s.put x (s.heap, r)).Refines (Function.update t x (some l)) := by
  apply hs.change
  · exact fun y _ w hw => Vector.unchanged_of_cells (hs.good y w hw) rfl
  · exact hs.others
  · rintro _ ⟨⟩
    exact hgood
  · rintro _ ⟨⟩
    exact hvalid
  · exact congrArg some hlist
  · rintro _ ⟨⟩
    exact hapart

/-- Others never have the buffer of a vector. -/
theorem Refines.other_ne (hs : s.Refines t) (hv : v ∈ s.vectors x) {o : Nat} {p : Ptr}
    (hp : p ∈ s.others o) (hne : v.buffer.addr ≠ 0) : p ≠ v.buffer := by
  rintro rfl
  exact hs.apart o _ hp ((hs.others o _ hp).resolve_left hne) x v hv rfl

/-- One vector has a new buffer in place of the old one. -/
theorem Refines.replace (hs : s.Refines t) (hv : v ∈ s.vectors x) (hsole : s.Sole x) {h' : Blocks u32}
    {r : Vector} {l : List u32}
    (hkeep : ∀ q, s.heap.Good q → (v.buffer.addr ≠ 0 → q ≠ v.buffer) →
      h'.Good q ∧ h'.cells q = s.heap.cells q ∧ (q.addr ≠ 0 → q ≠ r.buffer))
    (hgood : h'.Good r.buffer) (hvalid : (r.shape h').Valid 1024) (hlist : r.elements h' = l) :
    (s.put x (h', r)).Refines (Function.update t x (some l)) := by
  apply hs.change
  · intro y hy w hw
    obtain ⟨hwgood, hcells, -⟩ :=
      hkeep w.buffer (hs.good y w hw) fun hne => hsole v hv hne y hy w hw
    exact Vector.unchanged_of_cells hwgood hcells
  · intro o p hp
    exact (hkeep p (hs.others o p hp) (hs.other_ne hv hp)).1
  · rintro _ ⟨⟩
    exact hgood
  · rintro _ ⟨⟩
    exact hvalid
  · exact congrArg some hlist
  · rintro _ ⟨⟩ o p hp hlive heq
    exact (hkeep p (hs.others o p hp) (hs.other_ne hv hp)).2.2 hlive.ne_zero heq.symm

/-- An element written where nobody else looks. -/
theorem Refines.write (hs : s.Refines t) (hv : v ∈ s.vectors x) {i : Nat} (hunseen : s.Unseen x i)
    (hi : i < (s.heap.cells v.buffer).length) (a : u32) {r : Vector} {l : List u32}
    (hbuffer : r.buffer = v.buffer) (hcapacity : r.m_size ≤ r.m_capacity)
    (hmemory : r.m_size ≤ (s.heap.cells v.buffer).length)
    (hlist : ((s.heap.cells v.buffer).set i a).take r.m_size = l) :
    (s.put x (s.heap.put v.buffer ((s.heap.cells v.buffer).set i a), r)).Refines
      (Function.update t x (some l)) := by
  have hlive : s.heap.Live v.buffer := by
    apply Blocks.live_of_cells
    exact List.ne_nil_of_length_pos (Nat.zero_lt_of_lt hi)
  have hcells : (s.heap.put v.buffer ((s.heap.cells v.buffer).set i a)).cells r.buffer =
      (s.heap.cells v.buffer).set i a := by
    rw [hbuffer, Blocks.cells_put hlive, if_pos rfl]
  apply hs.change
  · exact fun y hy w hw => Vector.unchanged_put a (hs.good y w hw) hlive (hunseen v hv y hy w hw)
  · exact fun o p hp => (Blocks.good_put _).mpr (hs.others o p hp)
  · rintro _ ⟨⟩
    exact (Blocks.good_put _).mpr (.inr (hbuffer ▸ hlive))
  · rintro _ ⟨⟩
    rw [Vector.shape, hcells, List.length_set]
    exact ⟨hcapacity, hmemory, (hs.valid x v hv).limit⟩
  · rw [Option.map_some, Vector.elements, hcells, hlist]
  · rintro _ ⟨⟩ o p hp hl
    rw [hbuffer]
    exact hs.apart o p hp hl x v hv

/-- `push_back` of a value that is still there when it is stored. -/
theorem Refines.push_back (hs : s.Refines t) (hv : v ∈ s.vectors x) (hpush : s.CanPush x) {addr : Nat}
    (haddr : addr ≠ 0 ∧ s.heap.block addr = none) (fresh : Nat → u32) {f : Blocks u32 → Option u32}
    {a : u32} (hvalue : f s.heap = some a)
    (hstays : v.m_capacity ≤ v.m_size → ∀ h', (∀ q, s.heap.Good q → (v.buffer.addr ≠ 0 → q ≠ v.buffer) →
      h'.cells q = s.heap.cells q) → f h' = some a) :
    ∃ r, v.push_back addr fresh f s.heap = some r ∧
      (s.put x r).Refines (Function.update t x ((t x).map (· ++ [a]))) := by
  have hvalid := hs.valid x v hv
  rw [hs.value hv, Option.map_some]
  have hpush := hpush v hv
  split at hpush
  · rename_i hlt
    obtain ⟨hi, hunseen⟩ := hpush
    refine ⟨_, ?_, hs.write hv hunseen hi a (r := {v with m_size := v.m_size + 1}) rfl hlt hi ?_⟩
    · rw [Vector.push_back, if_neg (Nat.not_le.mpr hlt), Option.bind_some]
      dsimp only
      rw [hvalue, Option.bind_some, Blocks.store_eq hi, Option.map_some]
    · rw [List.take_succ_eq_append_getElem (by rw [List.length_set]; exact hi), List.getElem_set_self,
        List.take_set_of_le (le_refl _)]
      rfl
  · rename_i hfull
    obtain ⟨hcapacity, hsole⟩ := hpush
    have hroom : v.m_size < grown v.m_capacity := hvalid.capacity.trans_lt (Shape.lt_grown _)
    have hpage : grown v.m_capacity ≤ 1024 := by
      unfold grown
      split <;> omega
    obtain ⟨h', p, hreserve, hp, hlen, htake, hkeep⟩ :=
      Vector.reserve_spec haddr fresh (hs.good x v hv) hvalid hroom.le (.inl hpage)
    rw [if_pos hpage] at hlen
    have hi : v.m_size < (h'.cells p).length := by rw [hlen]; exact hroom
    have hlive : h'.Live p := Blocks.live_of_cells (List.ne_nil_of_length_pos (Nat.zero_lt_of_lt hi))
    have hcells : (h'.put p ((h'.cells p).set v.m_size a)).cells p = (h'.cells p).set v.m_size a := by
      rw [Blocks.cells_put hlive, if_pos rfl]
    refine ⟨(h'.put p ((h'.cells p).set v.m_size a), ⟨p, grown v.m_capacity, v.m_size + 1⟩), ?_,
      hs.replace hv hsole (fun q hq hne => ?_) ((Blocks.good_put _).mpr hp) ?_ ?_⟩
    · have hgrow : v.reserve addr fresh (if v.m_capacity = 0 then 1 else v.m_capacity * 2) s.heap =
          some (h', ⟨p, grown v.m_capacity, v.m_size⟩) := hreserve
      rw [Vector.push_back, if_pos (Nat.not_lt.mp hfull), hgrow, Option.bind_some]
      dsimp only
      rw [hstays (Nat.not_lt.mp hfull) h' fun q hq hne => (hkeep q hq hne).2.1, Option.bind_some,
        Blocks.store_eq hi, Option.map_some]
    · obtain ⟨hq', hqcells, hqne⟩ := hkeep q hq hne
      refine ⟨(Blocks.good_put _).mpr hq', ?_, hqne⟩
      rw [Blocks.cells_put hlive, if_neg, hqcells]
      rintro rfl
      exact hqne hlive.ne_zero rfl
    · rw [Vector.shape, hcells, List.length_set, hlen]
      exact ⟨hroom, hroom, hpage⟩
    · rw [Vector.elements, hcells, List.take_succ_eq_append_getElem (by rw [List.length_set]; exact hi),
        List.getElem_set_self, List.take_set_of_le (le_refl _), htake]

/-- `push_back` of an element, which must not be in the buffer that growing deletes. -/
theorem Refines.pushElement (hs : s.Refines t) (hv : v ∈ s.vectors x) {y i : Nat} {w : Vector}
    (hw : w ∈ s.vectors y) (hi : i < w.m_size) (hh : s.Harmless (.pushElement x y i)) {addr : Nat}
    (haddr : addr ≠ 0 ∧ s.heap.block addr = none) (fresh : Nat → u32) :
    ∃ r, v.push_back addr fresh (fun h => h.load w.buffer i) s.heap = some r ∧
      (s.put x r).Refines ((VectorCall.pushElement x y i).apply t) := by
  obtain ⟨hpush, hstays⟩ := hh
  have hmem : i < (s.heap.cells w.buffer).length := hi.trans_le (hs.valid y w hw).memory
  have hload : s.heap.load w.buffer i = some (s.heap.cells w.buffer)[i] := List.getElem?_eq_getElem hmem
  have helement : ((t y).bind (·[i]?)).toList = [(s.heap.cells w.buffer)[i]] := by
    rw [hs.value hw, Option.bind_some, Vector.elements, List.getElem?_take_of_lt hi,
      List.getElem?_eq_getElem hmem]
    rfl
  have hlater : v.m_capacity ≤ v.m_size → ∀ h', (∀ q, s.heap.Good q →
      (v.buffer.addr ≠ 0 → q ≠ v.buffer) → h'.cells q = s.heap.cells q) →
      Blocks.load h' w.buffer i = some (s.heap.cells w.buffer)[i] := by
    intro hfull h' hcells
    have hxy : x ≠ y := fun hxy => Nat.not_lt.mpr hfull (hstays v hv hxy)
    have hsole : s.Sole x := by
      have hpush := hpush v hv
      rw [if_neg (Nat.not_lt.mpr hfull)] at hpush
      exact hpush.2
    rw [Blocks.load, hcells w.buffer (hs.good y w hw) fun hne => hsole v hv hne y hxy.symm w hw]
    exact hload
  have hresult := hs.push_back hv hpush haddr fresh (f := fun h => h.load w.buffer i) hload hlater
  rwa [← helement] at hresult

theorem Vector.pop_back_elements (h : Blocks u32) {v : Vector} (hsize : v.m_size ≤ (h.cells v.buffer).length) :
    v.pop_back.elements h = (v.elements h).dropLast := by
  unfold Vector.pop_back
  split
  · rw [Vector.elements, Vector.elements, List.dropLast_eq_take, List.take_take, List.length_take,
      Nat.min_eq_left hsize, Nat.min_eq_left (Nat.sub_le _ _)]
  · have hzero : v.m_size = 0 := by omega
    rw [Vector.elements, hzero]
    rfl

theorem Refines.pop_back (hs : s.Refines t) (hv : v ∈ s.vectors x) :
    (s.put x (s.heap, v.pop_back)).Refines (Function.update t x ((t x).map List.dropLast)) := by
  have hvalid := hs.valid x v hv
  have hbuffer : v.pop_back.buffer = v.buffer := by
    unfold Vector.pop_back
    split <;> rfl
  have hsize : v.pop_back.m_size ≤ v.m_size ∧ v.pop_back.m_capacity = v.m_capacity := by
    unfold Vector.pop_back
    split
    · exact ⟨Nat.sub_le _ _, rfl⟩
    · exact ⟨le_refl _, rfl⟩
  rw [hs.value hv, Option.map_some]
  apply hs.same_heap
  · rw [hbuffer]
    exact hs.good x v hv
  · rw [Vector.shape, hbuffer, hsize.2]
    exact ⟨hsize.1.trans hvalid.capacity, hsize.1.trans hvalid.memory, hvalid.limit⟩
  · exact Vector.pop_back_elements s.heap hvalid.memory
  · rw [hbuffer]
    exact fun o p hp hl => hs.apart o p hp hl x v hv

/-- A vector with a new buffer, and nothing in it yet. -/
theorem Refines.sized (hs : s.Refines t) {addr : Nat} (haddr : addr ≠ 0 ∧ s.heap.block addr = none)
    (fresh : Nat → u32) (x size : Nat) :
    (s.put x ((newInts addr fresh size s.heap).1, ⟨(newInts addr fresh size s.heap).2, size, 0⟩)).Refines
      (Function.update t x (some [])) := by
  obtain ⟨h', p, hnew, hgood, -, hlen, hkeep⟩ := Vector.newInts_spec haddr fresh size
  rw [hnew]
  apply hs.change
  · intro y hy w hw
    obtain ⟨hwgood, hcells, -⟩ := hkeep w.buffer (hs.good y w hw)
    exact Vector.unchanged_of_cells hwgood hcells
  · exact fun o q hq => (hkeep q (hs.others o q hq)).1
  · rintro _ ⟨⟩
    exact hgood
  · rintro _ ⟨⟩
    rw [Vector.shape, hlen]
    exact ⟨Nat.zero_le _, Nat.zero_le _, by dsimp only; split <;> omega⟩
  · rfl
  · rintro _ ⟨⟩ o q hq hl heq
    exact (hkeep q (hs.others o q hq)).2.2 hl.ne_zero heq.symm

/-- `reserve`, of room for the elements there are. -/
theorem Refines.reserve (hs : s.Refines t) (hv : v ∈ s.vectors x) (hsole : s.Sole x) {addr : Nat}
    (haddr : addr ≠ 0 ∧ s.heap.block addr = none) (fresh : Nat → u32) {n : Nat} (hsize : v.m_size ≤ n)
    (hpage : n ≤ 1024 ∨ v.m_size = 0) :
    ∃ r, v.reserve addr fresh n s.heap = some r ∧ (s.put x r).Refines t := by
  obtain ⟨h', p, hreserve, hgood, hlen, htake, hkeep⟩ :=
    Vector.reserve_spec haddr fresh (hs.good x v hv) (hs.valid x v hv) hsize hpage
  have hvalid : (Vector.shape h' ⟨p, n, v.m_size⟩).Valid 1024 := by
    rw [Vector.shape, hlen]
    exact ⟨hsize, by dsimp only; split <;> omega, by dsimp only; split <;> omega⟩
  have hrefines := hs.replace hv hsole (r := ⟨p, n, v.m_size⟩) hkeep hgood hvalid htake
  rw [← hs.value hv, Function.update_eq_self] at hrefines
  exact ⟨_, hreserve, hrefines⟩

theorem Refines.set (hs : s.Refines t) (hv : v ∈ s.vectors x) {i : Nat} (hunseen : s.Unseen x i)
    (hi : i < (s.heap.cells v.buffer).length) (a : u32) :
    (s.put x (s.heap.put v.buffer ((s.heap.cells v.buffer).set i a), v)).Refines
      (Function.update t x ((t x).map (·.set i a))) := by
  have hvalid := hs.valid x v hv
  rw [hs.value hv, Option.map_some]
  exact hs.write hv hunseen hi a rfl hvalid.capacity hvalid.memory List.take_set

/-- A buffer that no other vector has can go. -/
theorem Refines.destroy (hs : s.Refines t) (hv : v ∈ s.vectors x) (hsole : s.Sole x) :
    ∃ h', s.heap.delete v.buffer = some h' ∧
      Refines {s with heap := h', vectors := Function.update s.vectors x none} (Function.update t x none) := by
  obtain ⟨h', hdelete, hkeep⟩ := (hs.good x v hv).delete
  refine ⟨h', hdelete, ?_⟩
  apply hs.change
  · intro y hy w hw
    obtain ⟨hgood, hcells⟩ := hkeep w.buffer (hs.good y w hw) fun hne => hsole v hv hne y hy w hw
    exact Vector.unchanged_of_cells hgood hcells
  · exact fun o p hp => (hkeep p (hs.others o p hp) (hs.other_ne hv hp)).1
  · exact fun w hw => absurd hw (Option.not_mem_none w)
  · exact fun w hw => absurd hw (Option.not_mem_none w)
  · rfl
  · exact fun w hw => absurd hw (Option.not_mem_none w)

/-- Copying and assigning share the buffer. -/
theorem Refines.copy (hs : s.Refines t) {y : Nat} {w : Vector} (hw : w ∈ s.vectors y) :
    (s.put x (s.heap, w)).Refines (Function.update t x (t y)) := by
  rw [hs.value hw]
  exact hs.same_heap (hs.good y w hw) (hs.valid y w hw) rfl fun o p hp hl => hs.apart o p hp hl y w hw

/-- Somebody else's buffer has changed, and what the vectors see has not. -/
theorem Refines.changeOther (hs : s.Refines t) {o : Nat} {h' : Blocks u32} {r : Option Ptr}
    (hvectors : ∀ y, ∀ w ∈ s.vectors y, w.Unchanged s.heap h')
    (hothers : ∀ o', o' ≠ o → ∀ p ∈ s.others o', h'.Good p)
    (hgood : ∀ p ∈ r, h'.Good p) (hapart : ∀ p ∈ r, h'.Live p → ∀ y, ∀ w ∈ s.vectors y, w.buffer ≠ p)
    (hdistinct : ∀ p ∈ r, h'.Live p → ∀ o', o' ≠ o → p ∉ s.others o') :
    Refines {s with heap := h', others := Function.update s.others o r} t := by
  have hlive : ∀ o', ∀ p ∈ s.others o', h'.Live p → s.heap.Live p := fun o' p hp hl =>
    (hs.others o' p hp).resolve_left hl.ne_zero
  refine ⟨fun y w hw => (hvectors y w hw).good, fun y w hw => ?_, fun y => ?_, all_update hgood hothers,
    ?_, fun o₁ o₂ p hp₁ hp₂ hl => ?_⟩
  · show (w.shape h').Valid 1024
    rw [(hvectors y w hw).shape]
    exact hs.valid y w hw
  · rw [← hs.lists y]
    exact Option.map_congr fun w hw => (hvectors y w hw).elements
  · apply all_update hapart
    exact fun o' _ p hp hl => hs.apart o' p hp (hlive o' p hp hl)
  · have hne : ∀ o' : Nat, o' ≠ o → p ∈ Function.update s.others o r o' → p ∈ s.others o' := by
      intro o' ho hp
      rwa [Function.update_of_ne ho] at hp
    have hself : p ∈ Function.update s.others o r o → p ∈ r := by
      intro hp
      rwa [Function.update_self] at hp
    by_cases h₁ : o₁ = o <;> by_cases h₂ : o₂ = o
    · rw [h₁, h₂]
    · rw [h₁] at hp₁
      exact absurd (hne o₂ h₂ hp₂) (hdistinct p (hself hp₁) hl o₂ h₂)
    · rw [h₂] at hp₂
      exact absurd (hne o₁ h₁ hp₁) (hdistinct p (hself hp₂) hl o₁ h₁)
    · have hp := hne o₁ h₁ hp₁
      exact hs.distinct o₁ o₂ p hp (hne o₂ h₂ hp₂) (hlive o₁ p hp hl)

theorem Refines.otherNew (hs : s.Refines t) {addr : Nat} (haddr : addr ≠ 0 ∧ s.heap.block addr = none)
    (fresh : Nat → u32) (o size : Nat) :
    Refines {s with heap := (newInts addr fresh size s.heap).1,
                    others := Function.update s.others o (some (newInts addr fresh size s.heap).2)} t := by
  obtain ⟨h', p, hnew, hp, -, -, hkeep⟩ := Vector.newInts_spec haddr fresh size
  rw [hnew]
  apply hs.changeOther
  · intro y w hw
    obtain ⟨hgood, hcells, -⟩ := hkeep w.buffer (hs.good y w hw)
    exact Vector.unchanged_of_cells hgood hcells
  · exact fun o' _ q hq => (hkeep q (hs.others o' q hq)).1
  · rintro _ ⟨⟩
    exact hp
  · rintro _ ⟨⟩ hl y w hw heq
    exact (hkeep w.buffer (hs.good y w hw)).2.2 (heq ▸ hl.ne_zero) heq
  · rintro _ ⟨⟩ hl o' _ hq
    exact (hkeep _ (hs.others o' _ hq)).2.2 hl.ne_zero rfl

theorem Refines.otherSet (hs : s.Refines t) {o i : Nat} {p : Ptr} (hp : p ∈ s.others o)
    (hi : i < (s.heap.cells p).length) (a : u32) :
    Refines {s with heap := s.heap.put p ((s.heap.cells p).set i a)} t := by
  have hlive : s.heap.Live p := Blocks.live_of_cells (List.ne_nil_of_length_pos (Nat.zero_lt_of_lt hi))
  have hrefines : Refines {s with heap := s.heap.put p ((s.heap.cells p).set i a),
                                  others := Function.update s.others o (s.others o)} t := by
    apply hs.changeOther
    · intro y w hw
      apply Vector.unchanged_put a (hs.good y w hw) hlive
      exact fun heq => absurd heq (hs.apart o p hp hlive y w hw)
    · exact fun o' _ q hq => (Blocks.good_put _).mpr (hs.others o' q hq)
    · exact fun q hq => (Blocks.good_put _).mpr (hs.others o q hq)
    · exact fun q hq hl => hs.apart o q hq ((Blocks.live_put _).mp hl)
    · exact fun q hq hl o' ho hq' => ho (hs.distinct o' o q hq' hq ((Blocks.live_put _).mp hl))
  rwa [Function.update_eq_self] at hrefines

theorem Refines.otherDelete (hs : s.Refines t) {o : Nat} {p : Ptr} (hp : p ∈ s.others o) :
    ∃ h', s.heap.delete p = some h' ∧
      Refines {s with heap := h', others := Function.update s.others o none} t := by
  obtain ⟨h', hdelete, hkeep⟩ := (hs.others o p hp).delete
  have hlive : p.addr ≠ 0 → s.heap.Live p := (hs.others o p hp).resolve_left
  refine ⟨h', hdelete, hs.changeOther (fun y w hw => ?_) (fun o' ho q hq => ?_) ?_ ?_ ?_⟩
  · obtain ⟨hgood, hcells⟩ := hkeep w.buffer (hs.good y w hw) fun hne =>
      hs.apart o p hp (hlive hne) y w hw
    exact Vector.unchanged_of_cells hgood hcells
  · refine (hkeep q (hs.others o' q hq) fun hne heq => ?_).1
    rw [heq] at hq
    exact ho (hs.distinct o' o p hq hp (hlive hne))
  · exact fun q hq => absurd hq (Option.not_mem_none q)
  · exact fun q hq => absurd hq (Option.not_mem_none q)
  · exact fun q hq => absurd hq (Option.not_mem_none q)

/-- A harmless call has an outcome, and does what it does to lists. -/
theorem Refines.step (hs : s.Refines t) {e : VectorEvent} (hp : s.Proper e) (hh : s.Harmless e.call) :
    ∃ s', s.step e = some s' ∧ s'.Refines (e.call.apply t) := by
  obtain ⟨call, addr, fresh⟩ := e
  obtain ⟨haddr, hp⟩ := hp
  cases call with
  | construct x =>
    refine ⟨_, rfl, hs.same_heap (.inl rfl) ⟨le_refl 0, Nat.zero_le _, ?_⟩ rfl fun o p _ hl heq => ?_⟩
    · rw [Vector.shape, Blocks.cells_null rfl]
      exact Nat.zero_le _
    · exact hl.ne_zero (heq ▸ rfl)
  | sized x size => exact ⟨_, rfl, hs.sized haddr fresh x size.toNat⟩
  | push_back x value =>
    obtain ⟨v, hv⟩ := Option.isSome_iff_exists.mp hp
    obtain ⟨r, hr, hrefines⟩ := hs.push_back hv hh haddr fresh (f := fun _ => some value) rfl fun _ _ _ => rfl
    refine ⟨s.put x r, ?_, hrefines⟩
    simp only [Machine.step]
    rw [hv, Option.bind_some, hr, Option.map_some]
  | pushElement x y i =>
    obtain ⟨hx, w, hw, hi⟩ := hp
    obtain ⟨v, hv⟩ := Option.isSome_iff_exists.mp hx
    obtain ⟨r, hr, hrefines⟩ := hs.pushElement hv hw hi hh haddr fresh
    refine ⟨s.put x r, ?_, hrefines⟩
    simp only [Machine.step]
    rw [hv, Option.bind_some, Option.mem_def.mp hw, Option.bind_some, hr, Option.map_some]
  | pop_back x =>
    obtain ⟨v, hv⟩ := Option.isSome_iff_exists.mp hp
    refine ⟨s.put x (s.heap, v.pop_back), ?_, hs.pop_back hv⟩
    simp only [Machine.step]
    rw [hv, Option.map_some]
  | reserve x capacity =>
    obtain ⟨v, hv⟩ := Option.isSome_iff_exists.mp hp
    obtain ⟨hsize, hpage⟩ := hh.1 v hv
    obtain ⟨r, hr, hrefines⟩ := hs.reserve hv hh.2 haddr fresh hsize hpage
    refine ⟨s.put x r, ?_, hrefines⟩
    simp only [Machine.step]
    rw [hv, Option.bind_some, hr, Option.map_some]
  | get x i =>
    obtain ⟨v, hv, hi⟩ := hp
    have hmem : i < (s.heap.cells v.buffer).length := hi.trans_le (hs.valid x v hv).memory
    refine ⟨s, ?_, hs⟩
    simp only [Machine.step]
    rw [Option.mem_def.mp hv, Option.bind_some, Blocks.load, List.getElem?_eq_getElem hmem, Option.map_some]
  | set x i value =>
    obtain ⟨v, hv, hi⟩ := hp
    have hmem : i < (s.heap.cells v.buffer).length := hi.trans_le (hs.valid x v hv).memory
    refine ⟨_, ?_, hs.set hv hh hmem value⟩
    simp only [Machine.step]
    rw [Option.mem_def.mp hv, Option.bind_some, Blocks.store_eq hmem, Option.map_some]
  | copy x y | assign x y =>
    obtain ⟨w, hw⟩ := Option.isSome_iff_exists.mp hp.2
    refine ⟨s.put x (s.heap, w), ?_, hs.copy hw⟩
    simp only [Machine.step]
    rw [hw, Option.map_some]
  | destroy x =>
    obtain ⟨v, hv⟩ := Option.isSome_iff_exists.mp hp
    obtain ⟨h', hdelete, hrefines⟩ := hs.destroy hv hh
    refine ⟨_, ?_, hrefines⟩
    simp only [Machine.step]
    rw [hv, Option.bind_some, hdelete, Option.map_some]
  | otherNew o size => exact ⟨_, rfl, hs.otherNew haddr fresh o size⟩
  | otherSet o i value =>
    obtain ⟨p, hp, hi⟩ := hp
    refine ⟨_, ?_, hs.otherSet hp hi value⟩
    simp only [Machine.step]
    rw [Option.mem_def.mp hp, Option.bind_some, Blocks.store_eq hi, Option.map_some]
  | otherDelete o =>
    obtain ⟨p, hp⟩ := Option.isSome_iff_exists.mp hp
    obtain ⟨h', hdelete, hrefines⟩ := hs.otherDelete hp
    refine ⟨_, ?_, hrefines⟩
    simp only [Machine.step]
    rw [hp, Option.bind_some, hdelete, Option.map_some]

end Calls

/-! ### Runs -/

/-- In every run of harmless calls, vectors hold what lists would, in buffers that are
alive, and no further harmless call gets stuck. -/
theorem vectors_refine_lists {s : Machine} {es : List VectorEvent}
    (h : Run step (fun s e => s.Proper e ∧ s.Harmless e.call) .start es s) :
    (∀ x, (s.vectors x).map (·.elements s.heap) =
      es.foldl (fun t e => e.call.apply t) (fun _ => none) x) ∧
      (∀ x, ∀ v ∈ s.vectors x, v.m_size = (v.elements s.heap).length ∧ s.heap.Good v.buffer) ∧
      ∀ e, s.Proper e → s.Harmless e.call → (s.step e).isSome := by
  have hrefines : s.Refines (es.foldl (fun t e => e.call.apply t) fun _ => none) := by
    apply h.simulates (fun t (e : VectorEvent) => e.call.apply t) Refines _ start_refines
    rintro s e s' t hs ⟨hp, hh⟩ hstep
    obtain ⟨s'', hs'', hrefines⟩ := hs.step hp hh
    rw [Option.some.inj (hstep.symm.trans hs'')]
    exact hrefines
  refine ⟨hrefines.lists, fun x v hv => ⟨?_, hrefines.good x v hv⟩, fun e hp hh => ?_⟩
  · have hmem : v.m_size ≤ (s.heap.cells v.buffer).length := (hrefines.valid x v hv).memory
    rw [Vector.elements, List.length_take, Nat.min_eq_left hmem]
  · obtain ⟨s', hs', -⟩ := hrefines.step hp hh
    exact Option.isSome_iff_exists.mpr ⟨s', hs'⟩

/-- A vector, a copy of it that lets go of its element, and a write to the original. -/
def someVectors : List VectorEvent :=
  [⟨.construct 0, 1, fun _ => 0⟩, ⟨.push_back 0 7, 1, fun _ => 0⟩, ⟨.copy 1 0, 2, fun _ => 0⟩,
    ⟨.pop_back 1, 2, fun _ => 0⟩, ⟨.otherNew 0 3, 2, fun _ => 0⟩, ⟨.otherSet 0 2 9, 3, fun _ => 0⟩,
    ⟨.set 0 0 5, 3, fun _ => 0⟩, ⟨.get 0 0, 3, fun _ => 0⟩]

theorem vectors_refine_lists_some : ∃ s,
    Run step (fun s e => s.Proper e ∧ s.Harmless e.call) .start someVectors s ∧
    (∀ x, (s.vectors x).map (·.elements s.heap) =
      someVectors.foldl (fun t e => e.call.apply t) (fun _ => none) x) ∧
      (∀ x, ∀ v ∈ s.vectors x, v.m_size = (v.elements s.heap).length ∧ s.heap.Good v.buffer) ∧
      ∀ e, s.Proper e → s.Harmless e.call → (s.step e).isSome := by
  have hrun : ∃ s, Run step (fun s e => s.Proper e ∧ s.Harmless e.call) .start someVectors s := by
    refine ⟨_, .cons ⟨⟨⟨by decide, rfl⟩, rfl⟩, trivial⟩ rfl (.cons ⟨⟨⟨by decide, rfl⟩, rfl⟩, ?_⟩ rfl
      (.cons ⟨⟨⟨by decide, rfl⟩, rfl, rfl⟩, trivial⟩ rfl (.cons ⟨⟨⟨by decide, rfl⟩, rfl⟩, trivial⟩ rfl
      (.cons ⟨⟨⟨by decide, rfl⟩, rfl⟩, trivial⟩ rfl (.cons ⟨⟨⟨by decide, rfl⟩, _, rfl, by decide⟩, trivial⟩ rfl
      (.cons ⟨⟨⟨by decide, rfl⟩, _, rfl, by decide⟩, ?_⟩ rfl
      (.cons ⟨⟨⟨by decide, rfl⟩, _, rfl, by decide⟩, trivial⟩ rfl (.nil _))))))))⟩
    · rintro _ ⟨⟩
      rw [if_neg (by decide)]
      refine ⟨by decide, ?_⟩
      rintro _ ⟨⟩ hne
      exact absurd rfl hne
    · rintro _ ⟨⟩ y hy w hw -
      match y with
      | 0 => exact absurd rfl hy
      | 1 =>
        cases hw
        exact le_refl 0
      | y + 2 => exact absurd hw (Option.not_mem_none w)
  obtain ⟨s, h⟩ := hrun
  exact ⟨s, h, vectors_refine_lists h⟩

/-- A vector and a copy of it, as when one is passed by value: both are destroyed, and
the buffer is deleted twice. -/
theorem vector_freed_twice : ¬ ∀ es s, Run step (fun s e => s.Proper e) .start es s →
    (∀ x, (s.vectors x).map (·.elements s.heap) =
      es.foldl (fun t e => e.call.apply t) (fun _ => none) x) ∧
      ∀ e, s.Proper e → (s.step e).isSome := by
  intro hall
  let es : List VectorEvent := [⟨.construct 0, 1, fun _ => 0⟩, ⟨.push_back 0 7, 1, fun _ => 0⟩,
    ⟨.copy 1 0, 2, fun _ => 0⟩, ⟨.destroy 1, 2, fun _ => 0⟩]
  have hrun : ∃ s, Run step (fun s e => s.Proper e) .start es s ∧
      s.Proper ⟨.destroy 0, 1, fun _ => 0⟩ ∧ s.step ⟨.destroy 0, 1, fun _ => 0⟩ = none := by
    refine ⟨_, .cons ⟨⟨by decide, rfl⟩, rfl⟩ rfl (.cons ⟨⟨by decide, rfl⟩, rfl⟩ rfl
      (.cons ⟨⟨by decide, rfl⟩, rfl, rfl⟩ rfl (.cons ⟨⟨by decide, rfl⟩, rfl⟩ rfl (.nil _)))), ?_, rfl⟩
    exact ⟨⟨by decide, rfl⟩, rfl⟩
  obtain ⟨s, h, hproper, hnone⟩ := hrun
  have hsome := (hall es s h).2 _ hproper
  rw [hnone] at hsome
  exact Bool.noConfusion hsome

end Machine

end UntitledOS.Y
