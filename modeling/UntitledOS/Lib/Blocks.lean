import UntitledOS.Lib.Buffer

/-! A heap of blocks, and pointers into it.

Memory that is freed may be handed out again at the same address. To tell an old
pointer from a new one, every allocation has a serial number, and a pointer remembers
the one it came from: it is *live* while its own allocation holds its address. A load or
a store reaches the cells of a live pointer only, and only a live pointer or the null
pointer can be deleted; anything else has no result. Each operation is described by the
cells of every pointer and by which pointers are live afterwards. -/
namespace UntitledOS.Lib

/-- An address, 0 for null, and the allocation that gave it. -/
structure Ptr where
  addr : Nat
  serial : Nat
deriving DecidableEq

def Ptr.null : Ptr := ⟨0, 0⟩

structure Block (α : Type*) where
  serial : Nat
  cells : List α

/-- Nothing is ever at address 0. -/
structure Blocks (α : Type*) where
  block : Nat → Option (Block α)
  next : Nat
  null : block 0 = none

namespace Blocks
variable {α : Type*} (h : Blocks α)

def empty : Blocks α := ⟨fun _ => none, 0, rfl⟩

/-- The allocation of a pointer still holds its address. -/
def Live (p : Ptr) : Prop := (h.block p.addr).map Block.serial = some p.serial

instance (p : Ptr) : Decidable (h.Live p) :=
  inferInstanceAs (Decidable (_ = _))

/-- A pointer that may be kept: the null pointer, or a live one. -/
def Good (p : Ptr) : Prop := p.addr = 0 ∨ h.Live p

/-- What can be reached through a pointer. -/
def cells (p : Ptr) : List α :=
  match h.block p.addr with
  | some b => if b.serial = p.serial then b.cells else []
  | none => []

def load (p : Ptr) (i : Nat) : Option α := (h.cells p)[i]?

/-- The block at a pointer's address gets new cells. -/
def put (p : Ptr) (cells : List α) : Blocks α where
  block := Function.update h.block p.addr ((h.block p.addr).map fun b => {b with cells := cells})
  next := h.next
  null := by
    by_cases hp : p.addr = 0
    · rw [hp, Function.update_self, h.null, Option.map_none]
    · rw [Function.update_of_ne (Ne.symm hp), h.null]

def store (p : Ptr) (i : Nat) (a : α) : Option (Blocks α) :=
  (Buffer.store (h.cells p) i a).map fun cells => h.put p cells

/-- A new block at `addr`, which the allocator chose; 0 if it found none. -/
def new (addr : Nat) (cells : List α) : Blocks α × Ptr :=
  if hzero : addr = 0 then (h, .null)
  else
    ({ block := Function.update h.block addr (some ⟨h.next, cells⟩)
       next := h.next + 1
       null := by rw [Function.update_of_ne (Ne.symm hzero), h.null] }, ⟨addr, h.next⟩)

def drop (p : Ptr) : Blocks α where
  block := Function.update h.block p.addr none
  next := h.next
  null := by
    by_cases hp : p.addr = 0
    · rw [hp, Function.update_self]
    · rw [Function.update_of_ne (Ne.symm hp), h.null]

def delete (p : Ptr) : Option (Blocks α) :=
  if p.addr = 0 then some h
  else if h.Live p then some (h.drop p)
  else none

/-- The loop `dst[i] = src[i]` over `n` indices from `i` on. -/
def copy (src dst : Ptr) (i : Nat) : Nat → Blocks α → Option (Blocks α)
  | 0, h => some h
  | n + 1, h => (h.load src i).bind fun a => (h.store dst i a).bind (copy src dst (i + 1) n)

section
variable {h} {p q : Ptr}

theorem put_block (cs : List α) : (h.put p cs).block =
    Function.update h.block p.addr ((h.block p.addr).map fun b => {b with cells := cs}) := rfl

theorem drop_block : (h.drop p).block = Function.update h.block p.addr none := rfl

theorem new_eq {addr : Nat} (hzero : addr ≠ 0) (cs : List α) :
    (h.new addr cs).2 = ⟨addr, h.next⟩ ∧
      (h.new addr cs).1.block = Function.update h.block addr (some ⟨h.next, cs⟩) := by
  rw [new, dif_neg hzero]
  exact ⟨rfl, rfl⟩

theorem Live.ne_zero (hp : h.Live p) : p.addr ≠ 0 := by
  intro hzero
  rw [Live, hzero, h.null] at hp
  cases hp

theorem Live.eq_of_addr (hp : h.Live p) (hq : h.Live q) (haddr : p.addr = q.addr) : p = q := by
  unfold Live at hp hq
  rw [haddr, hq] at hp
  cases p
  cases q
  cases haddr
  cases hp
  rfl

theorem live_of_cells (hne : h.cells p ≠ []) : h.Live p := by
  unfold cells at hne
  split at hne
  · rename_i b hb
    split at hne
    · rename_i hserial
      rw [Live, hb, Option.map_some, hserial]
    · exact absurd rfl hne
  · exact absurd rfl hne

/-- Nothing is reached through a pointer that is not live. -/
theorem cells_of_not_live (hp : ¬ h.Live p) : h.cells p = [] := by
  by_contra hne
  exact hp (live_of_cells hne)

theorem cells_null (hp : p.addr = 0) : h.cells p = [] :=
  cells_of_not_live fun hlive => hlive.ne_zero hp

theorem Live.block (hp : h.Live p) : h.block p.addr = some ⟨p.serial, h.cells p⟩ := by
  obtain ⟨b, hb, hserial⟩ := Option.map_eq_some_iff.mp hp
  rw [cells, hb, ← hserial]
  simp

theorem cells_of_block {cs : List α} (hb : h.block p.addr = some ⟨p.serial, cs⟩) : h.cells p = cs := by
  rw [cells, hb]
  simp

/-! ### Stores -/

theorem live_put (cs : List α) : (h.put p cs).Live q ↔ h.Live q := by
  unfold Live
  rw [put_block]
  by_cases haddr : q.addr = p.addr
  · rw [haddr, Function.update_self, Option.map_map]
    rfl
  · rw [Function.update_of_ne haddr]

theorem cells_put (hp : h.Live p) (cs : List α) : (h.put p cs).cells q = if q = p then cs else h.cells q := by
  split
  · rename_i hq
    subst hq
    apply cells_of_block
    rw [put_block, Function.update_self, hp.block, Option.map_some]
  · rename_i hq
    by_cases hlive : h.Live q
    · have haddr : q.addr ≠ p.addr := fun haddr => hq (hlive.eq_of_addr hp haddr)
      rw [cells, put_block, Function.update_of_ne haddr]
      rfl
    · rw [cells_of_not_live hlive, cells_of_not_live fun hput => hlive ((live_put cs).mp hput)]

theorem store_eq {i : Nat} (hi : i < (h.cells p).length) (a : α) :
    h.store p i a = some (h.put p ((h.cells p).set i a)) := by
  rw [store, Buffer.store_eq hi, Option.map_some]

theorem put_put (cs ds : List α) : (h.put p cs).put p ds = h.put p ds := by
  unfold put
  simp only [Function.update_self, Function.update_idem, Option.map_map]
  rfl

/-- Copying between two blocks is copying between two buffers. -/
theorem copy_eq {src dst : Ptr} (hdst : h.Live dst) (hne : src ≠ dst) {i n : Nat} {cs : List α}
    (hcopy : Buffer.copy (h.cells src) (h.cells dst) i n = some cs) :
    copy src dst i n h = some (h.put dst cs) := by
  induction n generalizing h i with
  | zero =>
    cases hcopy
    have hsame : h.put dst (h.cells dst) = h := by
      have : Function.update h.block dst.addr (some ⟨dst.serial, h.cells dst⟩) = h.block := by
        rw [← hdst.block, Function.update_eq_self]
      unfold put
      simp only [hdst.block, Option.map_some, this]
    rw [copy, hsame]
  | succ n ih =>
    obtain ⟨a, ha, hrest⟩ := Option.bind_eq_some_iff.mp hcopy
    obtain ⟨ds, hds, hrest⟩ := Option.bind_eq_some_iff.mp hrest
    have hstore : h.store dst i a = some (h.put dst ds) := by
      rw [store, hds, Option.map_some]
    have hput : (h.put dst ds).cells dst = ds := by rw [cells_put hdst, if_pos rfl]
    have hsrc : (h.put dst ds).cells src = h.cells src := by rw [cells_put hdst, if_neg hne]
    rw [copy, load, ha, Option.bind_some, hstore, Option.bind_some,
      ih ((live_put ds).mpr hdst) (by rw [hput, hsrc]; exact hrest), put_put]

/-! ### Allocation -/

section New
variable {addr : Nat} (hzero : addr ≠ 0) (cs : List α)
include hzero

theorem new_live : (h.new addr cs).1.Live (h.new addr cs).2 := by
  obtain ⟨hptr, hblock⟩ := h.new_eq hzero cs
  rw [Live, hptr, hblock, Function.update_self, Option.map_some]

theorem new_cells : (h.new addr cs).1.cells (h.new addr cs).2 = cs := by
  obtain ⟨hptr, hblock⟩ := h.new_eq hzero cs
  apply cells_of_block
  rw [hptr, hblock, Function.update_self]

/-- What was live stays live and keeps its cells, and is not the new block. -/
theorem Live.new (hfree : h.block addr = none) (hq : h.Live q) :
    (h.new addr cs).1.Live q ∧ (h.new addr cs).1.cells q = h.cells q ∧ q ≠ (h.new addr cs).2 := by
  obtain ⟨hptr, hblock⟩ := h.new_eq hzero cs
  have haddr : q.addr ≠ addr := by
    rintro rfl
    rw [hq.block] at hfree
    cases hfree
  refine ⟨?_, ?_, ?_⟩
  · rw [Live, hblock, Function.update_of_ne haddr]
    exact hq
  · rw [cells, hblock, Function.update_of_ne haddr]
    rfl
  · rw [hptr]
    exact fun heq => haddr (congrArg Ptr.addr heq)

theorem Good.new (hfree : h.block addr = none) (hq : h.Good q) :
    (h.new addr cs).1.Good q ∧ (h.new addr cs).1.cells q = h.cells q ∧ q ≠ (h.new addr cs).2 := by
  rcases hq with hnull | hlive
  · refine ⟨.inl hnull, ?_, ?_⟩
    · rw [cells_null hnull, cells_null hnull]
    · rw [(h.new_eq hzero cs).1]
      exact fun heq => hzero ((congrArg Ptr.addr heq).symm.trans hnull)
  · obtain ⟨hlive', hcells, hne⟩ := hlive.new hzero cs hfree
    exact ⟨.inr hlive', hcells, hne⟩

end New

/-! ### Deletion -/

theorem delete_null (hp : p.addr = 0) : h.delete p = some h := if_pos hp

theorem delete_live (hp : h.Live p) : h.delete p = some (h.drop p) := by
  rw [delete, if_neg hp.ne_zero, if_pos hp]

theorem Live.drop (hq : h.Live q) (hp : h.Live p) (hne : q ≠ p) :
    (h.drop p).Live q ∧ (h.drop p).cells q = h.cells q := by
  have haddr : q.addr ≠ p.addr := fun haddr => hne (hq.eq_of_addr hp haddr)
  unfold Live cells
  rw [drop_block, Function.update_of_ne haddr]
  exact ⟨hq, rfl⟩

theorem Good.drop (hq : h.Good q) (hp : h.Live p) (hne : q ≠ p) :
    (h.drop p).Good q ∧ (h.drop p).cells q = h.cells q := by
  rcases hq with hnull | hlive
  · exact ⟨.inl hnull, by rw [cells_null hnull, cells_null hnull]⟩
  · obtain ⟨hlive', hcells⟩ := hlive.drop hp hne
    exact ⟨.inr hlive', hcells⟩

theorem good_put (cs : List α) : (h.put p cs).Good q ↔ h.Good q :=
  or_congr_right (live_put cs)

/-- Deleting a pointer that may be kept leaves the other ones. -/
theorem Good.delete (hp : h.Good p) : ∃ h', h.delete p = some h' ∧
    ∀ q, h.Good q → (p.addr ≠ 0 → q ≠ p) → h'.Good q ∧ h'.cells q = h.cells q := by
  rcases hp with hnull | hlive
  · exact ⟨h, delete_null hnull, fun q hq _ => ⟨hq, rfl⟩⟩
  · exact ⟨_, delete_live hlive, fun q hq hne => hq.drop hlive (hne hlive.ne_zero)⟩

/-- Copying to the front of another block. -/
theorem copy_front {src dst : Ptr} {n : Nat} (hdst : h.Live dst) (hne : src ≠ dst)
    (hsrc : n ≤ (h.cells src).length) (hroom : n ≤ (h.cells dst).length) :
    ∃ h', copy src dst 0 n h = some h' ∧ (∀ q, h.Good q → h'.Good q) ∧
      (h'.cells dst).length = (h.cells dst).length ∧ (h'.cells dst).take n = (h.cells src).take n ∧
      ∀ q, q ≠ dst → h'.cells q = h.cells q := by
  have hlen : ((h.cells src).take n).length = n := by rw [List.length_take, Nat.min_eq_left hsrc]
  refine ⟨_, copy_eq hdst hne (Buffer.copy_front hsrc hroom), fun q => (good_put _).mpr, ?_, ?_,
    fun q hq => ?_⟩
  · rw [cells_put hdst, if_pos rfl, List.length_append, hlen, List.length_drop]
    omega
  · rw [cells_put hdst, if_pos rfl, List.take_left' hlen]
  · rw [cells_put hdst, if_neg hq]

end

end Blocks
end UntitledOS.Lib
