import Mathlib

/-! Byte ranges and what they cover.

An `Extent` is a half-open range of natural numbers. `cover es x` counts the
extents of `es` that hold `x`; what an allocator does to its ranges (cutting one,
moving one to another list, adding a region) is addition on counts, whatever the
order of the lists. Disjointness and tiling are read off the counts at the end:
extents that never cover a point twice are pairwise disjoint (`disjoint_of_cover`),
and extents that cover what disjoint regions cover, point for point, tile them
(`tiles_of_cover`). -/
namespace UntitledOS.Lib

/-- The numbers from `lo` to just below `hi`. -/
structure Extent where
  lo : Nat
  hi : Nat
deriving DecidableEq

namespace Extent

def bytes (e : Extent) : Set Nat := Set.Ico e.lo e.hi

/-- `e` holds `x`. -/
def holds (e : Extent) (x : Nat) : Bool := e.lo ≤ x && x < e.hi

@[simp] theorem holds_iff {e : Extent} {x : Nat} : e.holds x = true ↔ x ∈ e.bytes := by
  simp [holds, bytes]

/-- How often the extents `es` cover `x`. -/
def cover (es : List Extent) (x : Nat) : Nat := es.countP (·.holds x)

@[simp] theorem cover_nil (x : Nat) : cover [] x = 0 := rfl

theorem cover_cons (e : Extent) (es : List Extent) (x : Nat) :
    cover (e :: es) x = cover [e] x + cover es x := by
  rw [cover, ← List.singleton_append, List.countP_append]
  rfl

theorem cover_append (es fs : List Extent) (x : Nat) : cover (es ++ fs) x = cover es x + cover fs x :=
  List.countP_append

theorem cover_single (e : Extent) (x : Nat) : cover [e] x = if e.lo ≤ x ∧ x < e.hi then 1 else 0 := by
  simp [cover, List.countP_singleton, holds]

/-- Cutting an extent in two. -/
theorem cover_cut {lo mid hi : Nat} (h₁ : lo ≤ mid) (h₂ : mid ≤ hi) (x : Nat) :
    cover [⟨lo, hi⟩] x = cover [⟨lo, mid⟩] x + cover [⟨mid, hi⟩] x := by
  simp only [cover_single]
  split_ifs <;> omega

theorem cover_pos {es : List Extent} {x : Nat} : 0 < cover es x ↔ ∃ e ∈ es, x ∈ e.bytes := by
  simp [cover, List.countP_pos_iff]

/-- Extents none of whose points is covered twice are pairwise disjoint. -/
theorem disjoint_of_cover {es : List Extent} (h : ∀ x, cover es x ≤ 1) :
    es.Pairwise fun e f => Disjoint e.bytes f.bytes := by
  induction es with
  | nil => exact .nil
  | cons e es ih =>
    refine List.pairwise_cons.mpr ⟨fun f hf => ?_, ih fun x => ?_⟩
    · rw [Set.disjoint_left]
      intro x he hx
      have hone : 0 < cover [e] x := cover_pos.mpr ⟨e, List.mem_cons_self .., he⟩
      have hother : 0 < cover es x := cover_pos.mpr ⟨f, hf, hx⟩
      have := cover_cons e es x
      have := h x
      omega
    · have := cover_cons e es x
      have := h x
      omega

/-- Counting class by class counts everything. -/
theorem sum_cover {α ι : Type*} [Fintype ι] [DecidableEq ι] (key : α → ι) (extent : α → Extent)
    (as : List α) (x : Nat) :
    ∑ i, cover ((as.filter (key · = i)).map extent) x = cover (as.map extent) x := by
  induction as with
  | nil => simp
  | cons a as ih =>
    have hclass : ∀ i, cover (((a :: as).filter (key · = i)).map extent) x =
        (if key a = i then cover [extent a] x else 0) + cover ((as.filter (key · = i)).map extent) x := by
      intro i
      by_cases hi : key a = i
      · rw [List.filter_cons_of_pos (by simpa using hi), List.map_cons, cover_cons, if_pos hi]
      · rw [List.filter_cons_of_neg (by simpa using hi), if_neg hi, Nat.zero_add]
    rw [Finset.sum_congr rfl fun i _ => hclass i, Finset.sum_add_distrib, Finset.sum_ite_eq, ih,
      if_pos (Finset.mem_univ _), List.map_cons, cover_cons (extent a) (as.map extent)]

/-- The `pieces` are disjoint and make up exactly the `regions`. -/
structure Tiles (pieces regions : List Extent) : Prop where
  disjoint : pieces.Pairwise fun e f => Disjoint e.bytes f.bytes
  union : ⋃ e ∈ pieces, e.bytes = ⋃ e ∈ regions, e.bytes

theorem tiles_of_cover {pieces regions : List Extent}
    (heq : ∀ x, cover pieces x = cover regions x) (hone : ∀ x, cover regions x ≤ 1) :
    Tiles pieces regions := by
  refine ⟨disjoint_of_cover fun x => (heq x).trans_le (hone x), ?_⟩
  ext x
  simp only [Set.mem_iUnion, exists_prop, ← cover_pos, heq]

end Extent

end UntitledOS.Lib
