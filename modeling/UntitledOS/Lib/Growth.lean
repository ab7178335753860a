import Mathlib

/-! Capacities that double.

A container that grows from nothing to one element, and from then on to twice its
capacity, has room for `room n` elements when it holds `n`: the least power of two
that is enough. A container whose memory is kept apart from the capacity it believes
in has a `Shape`; a push finds room in both or grows. -/
namespace UntitledOS.Lib

/-- The next capacity. -/
def grown (capacity : Nat) : Nat := if capacity = 0 then 1 else capacity * 2

/-- The capacity that `n` pushes into nothing lead to. -/
def room (n : Nat) : Nat := if n = 0 then 0 else 2 ^ Nat.clog 2 n

theorem le_room (n : Nat) : n ≤ room n := by
  unfold room
  split
  · omega
  · exact Nat.le_pow_clog (by decide) n

theorem room_le {n k : Nat} (h : n ≤ 2 ^ k) : room n ≤ 2 ^ k := by
  unfold room
  split
  · exact Nat.zero_le _
  · exact Nat.pow_le_pow_right (by decide) (Nat.clog_le_of_le_pow h)

theorem room_succ_of_lt {n : Nat} (h : n < room n) : room (n + 1) = room n := by
  unfold room at *
  split at h
  · omega
  · rename_i hn
    have hsame : Nat.clog 2 n = Nat.clog 2 (n + 1) :=
      (Nat.clog_eq_clog_succ_iff (by decide)).mpr h.ne'
    rw [if_neg hn, if_neg (by omega), ← hsame]

/-- A full container grows to what one more element needs. -/
theorem grown_room {n : Nat} (h : n = room n) : grown n = room (n + 1) := by
  by_cases hn : n = 0
  · subst hn
    rfl
  · have hpow : 2 ^ Nat.clog 2 n = n := by
      rw [room, if_neg hn] at h
      exact h.symm
    have hle : room (n + 1) ≤ 2 ^ (Nat.clog 2 n + 1) := room_le (by omega)
    have hlt : 2 ^ Nat.clog 2 n < 2 ^ Nat.clog 2 (n + 1) :=
      Nat.pow_lt_pow_right (by decide) ((Nat.clog_lt_clog_succ_iff (by decide)).mpr hpow)
    rw [grown, if_neg hn]
    rw [room, if_neg (by omega)] at hle ⊢
    have hge : Nat.clog 2 n + 1 ≤ Nat.clog 2 (n + 1) :=
      (Nat.pow_lt_pow_iff_right (by decide)).mp hlt
    have := Nat.pow_le_pow_right (show 0 < 2 by decide) hge
    omega

/-! ### Shapes -/

/-- How many elements a container holds, how many it believes to have room for, and how
many its memory has room for. -/
structure Shape where
  size : Nat
  capacity : Nat
  memory : Nat

namespace Shape

/-- One element more, in memory that comes in blocks of at most `limit`. -/
def push (limit : Nat) (h : Shape) : Option Shape :=
  if h.size < h.capacity then
    if h.size < h.memory then some {h with size := h.size + 1} else none
  else if grown h.capacity ≤ limit then
    some ⟨h.size + 1, grown h.capacity, grown h.capacity⟩
  else none

/-- Several elements more. -/
def pushes (limit : Nat) : Nat → Shape → Option Shape
  | 0, h => some h
  | n + 1, h => (h.push limit).bind (pushes limit n)

/-- The elements are where the container believes them to be, in memory. -/
structure Valid (limit : Nat) (h : Shape) : Prop where
  capacity : h.size ≤ h.capacity
  memory : h.size ≤ h.memory
  limit : h.memory ≤ limit

/-- All the room it believes in is there. -/
structure Sound (limit : Nat) (h : Shape) : Prop where
  capacity : h.size ≤ h.capacity
  memory : h.capacity ≤ h.memory
  limit : h.memory ≤ limit

variable {limit : Nat} {h h' : Shape}

theorem Sound.valid (hs : h.Sound limit) : h.Valid limit :=
  ⟨hs.capacity, hs.capacity.trans hs.memory, hs.limit⟩

theorem lt_grown (capacity : Nat) : capacity < grown capacity := by
  unfold grown
  split <;> omega

/-- A push finds room, in the capacity and in memory, or the container grows. -/
theorem push_cases (hp : h.push limit = some h') :
    (h.size < h.capacity ∧ h.size < h.memory ∧ h' = {h with size := h.size + 1}) ∨
      (h.capacity ≤ h.size ∧ grown h.capacity ≤ limit ∧
        h' = ⟨h.size + 1, grown h.capacity, grown h.capacity⟩) := by
  unfold push at hp
  split at hp
  · split at hp
    · exact .inl ⟨‹_›, ‹_›, (Option.some.inj hp).symm⟩
    · cases hp
  · split at hp
    · exact .inr ⟨Nat.not_lt.mp ‹_›, ‹_›, (Option.some.inj hp).symm⟩
    · cases hp

theorem Valid.push (hv : h.Valid limit) (hp : h.push limit = some h') : h'.Valid limit := by
  obtain ⟨hcapacity, hmemory, hlimit⟩ := hv
  have := lt_grown h.capacity
  obtain ⟨_, _, rfl⟩ | ⟨_, _, rfl⟩ := push_cases hp
  · constructor <;> dsimp only <;> omega
  · constructor <;> dsimp only <;> omega

theorem Sound.push (hv : h.Sound limit) (hp : h.push limit = some h') : h'.Sound limit := by
  obtain ⟨hcapacity, hmemory, hlimit⟩ := hv
  have := lt_grown h.capacity
  obtain ⟨_, _, rfl⟩ | ⟨_, _, rfl⟩ := push_cases hp
  · constructor <;> dsimp only <;> omega
  · constructor <;> dsimp only <;> omega

theorem Sound.pushes {n : Nat} (hv : h.Sound limit) (hp : h.pushes limit n = some h') :
    h'.Sound limit := by
  induction n generalizing h with
  | zero =>
    cases hp
    exact hv
  | succ n ih =>
    obtain ⟨h₁, h₂, h₃⟩ := Option.bind_eq_some_iff.mp hp
    exact ih (hv.push h₂) h₃

theorem Valid.pushes {n : Nat} (hv : h.Valid limit) (hp : h.pushes limit n = some h') :
    h'.Valid limit := by
  induction n generalizing h with
  | zero =>
    cases hp
    exact hv
  | succ n ih =>
    obtain ⟨h₁, h₂, h₃⟩ := Option.bind_eq_some_iff.mp hp
    exact ih (hv.push h₂) h₃

/-- A few elements find room if the capacity is there as far as they use it, and growing
once more stays in a block. -/
theorem pushes_isSome {n : Nat} (hcapacity : h.size ≤ h.capacity)
    (hmemory : min (h.size + n) h.capacity ≤ h.memory)
    (hgrow : h.capacity < h.size + n → h.capacity * 2 ≤ limit) (hn : 4 * n ≤ limit) :
    ∃ h', h.pushes limit n = some h' := by
  induction n generalizing h with
  | zero => exact ⟨h, rfl⟩
  | succ n ih =>
    by_cases hlt : h.size < h.capacity
    · have hpush : h.push limit = some {h with size := h.size + 1} := by
        rw [push, if_pos hlt, if_pos (by omega)]
      rw [pushes, hpush, Option.bind_some]
      apply ih
      · exact hlt
      · show min (h.size + 1 + n) h.capacity ≤ h.memory
        omega
      · show h.capacity < h.size + 1 + n → h.capacity * 2 ≤ limit
        omega
      · omega
    · have hgrown : grown h.capacity ≤ limit := by
        unfold grown
        split <;> omega
      have hpush : h.push limit = some ⟨h.size + 1, grown h.capacity, grown h.capacity⟩ := by
        rw [push, if_neg hlt, if_pos hgrown]
      have hnext := lt_grown h.capacity
      rw [pushes, hpush, Option.bind_some]
      apply ih
      · show h.size + 1 ≤ grown h.capacity
        omega
      · exact Nat.min_le_right _ _
      · show grown h.capacity < h.size + 1 + n → grown h.capacity * 2 ≤ limit
        unfold grown
        split <;> omega
      · omega

/-- A container that grew by doubling, and never held more than `m` before. -/
def doubled (m size : Nat) : Shape := ⟨size, room (max m size), room (max m size)⟩

theorem doubled_sound {k m size : Nat} (hm : m ≤ 2 ^ k) (hsize : size ≤ 2 ^ k) :
    (doubled m size).Sound (2 ^ k) :=
  ⟨(Nat.le_max_right m size).trans (le_room _), le_refl _, room_le (Nat.max_le.mpr ⟨hm, hsize⟩)⟩

/-- It takes another element as long as the elements fit in a block. -/
theorem doubled_push {k m size : Nat} (hsize : size + 1 ≤ 2 ^ k) :
    (doubled m size).push (2 ^ k) = some (doubled m (size + 1)) := by
  have hle := le_room (max m size)
  by_cases hlt : size < room (max m size)
  · have hsame : room (max m (size + 1)) = room (max m size) := by
      rcases Nat.lt_or_ge size m with h | h
      · rw [Nat.max_eq_left h, Nat.max_eq_left (Nat.le_of_lt h)]
      · rw [Nat.max_eq_right (Nat.le_succ_of_le h), Nat.max_eq_right h] at *
        exact room_succ_of_lt hlt
    simp only [push, doubled, hlt, if_true, hsame]
  · have hmax : max m size = size := by omega
    have hfull : size = room size := by
      rw [hmax] at hlt hle
      omega
    have hnext : max m (size + 1) = size + 1 := by omega
    have hgrown : grown size = room (size + 1) := grown_room hfull
    have hfits : room (size + 1) ≤ 2 ^ k := room_le hsize
    simp only [push, doubled, hmax, hnext, ← hfull, lt_irrefl, if_false, hgrown, hfits, if_true]

end Shape

end UntitledOS.Lib
