import Mathlib

/-! Text in front of a cursor on an unbounded line of cells.

From a fixed start to the cursor the cells spell a text, and from the cursor to a mark they
are blank. Writing at the cursor and moving on extends the text, and blanking what is behind
the cursor and moving back takes its end off; both keep whatever mark there is. -/
namespace UntitledOS.Lib

variable {α : Type*} {blank : α} {start mark pos : Int} {cs ds : List α} {m m' : Int → α}

structure Text (blank : α) (start mark : Int) (cs : List α) (m : Int → α) (pos : Int) : Prop where
  pos_eq : pos = start + cs.length
  spells : ∀ (i : Nat) c, cs[i]? = some c → m (start + i) = c
  rest : ∀ i, pos ≤ i → i < mark → m i = blank

/-- Any cell up to the cursor is a mark that nothing was written behind. -/
theorem Text.remark (h : Text blank start mark cs m pos) {mark' : Int} (hmark : mark' ≤ pos) :
    Text blank start mark' cs m pos :=
  ⟨h.pos_eq, h.spells, fun _ hi hlt => absurd (lt_of_lt_of_le hlt hmark) (not_lt.mpr hi)⟩

theorem Text.write (h : Text blank start mark cs m pos) (c : α) :
    Text blank start mark (cs ++ [c]) (Function.update m pos c) (pos + 1) := by
  have hpos := h.pos_eq
  refine ⟨?_, fun i d hd => ?_, fun i hi hlt => ?_⟩
  · rw [List.length_append, List.length_singleton]
    push_cast
    omega
  · rcases lt_or_ge i cs.length with hi | hi
    · rw [List.getElem?_append_left hi] at hd
      rw [Function.update_of_ne (by omega)]
      exact h.spells i d hd
    · rw [List.getElem?_append_right hi, List.getElem?_singleton] at hd
      split at hd
      · have hlast : start + i = pos := by omega
        rw [hlast, Function.update_self]
        exact Option.some.inj hd
      · cases hd
  · rw [Function.update_of_ne (by omega)]
    exact h.rest i (by omega) hlt

theorem Text.erase (h : Text blank start mark (cs ++ ds) m pos)
    (hm : ∀ i, m' i = if pos - ds.length ≤ i ∧ i < pos then blank else m i) :
    Text blank start mark cs m' (pos - ds.length) := by
  have hpos := h.pos_eq
  rw [List.length_append] at hpos
  push_cast at hpos
  refine ⟨by omega, fun i c hc => ?_, fun i hi hlt => ?_⟩
  · have hi : i < cs.length := (List.getElem?_eq_some_iff.mp hc).1
    rw [hm, if_neg (by omega)]
    exact h.spells i c (by rw [List.getElem?_append_left hi, hc])
  · rw [hm]
    split
    · rfl
    · exact h.rest i (by omega) hlt

end UntitledOS.Lib
