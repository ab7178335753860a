import Mathlib

/-! Cells copied within one memory.

The cells are copied one after the other, in some order, and a cell is read only when its
turn comes. The copy is right when no cell is written before it is read: then every cell
has what its source held at the start (`move_moved`), and the others what they had
(`move_outside`). `scroll_grid` is the copy of a grid's rows to the rows above. -/
namespace UntitledOS.Lib

variable {ι κ α : Type*} [DecidableEq ι] {dst src : κ → ι}

/-- `m (dst k) = m (src k)`, for each `k` of a list. -/
def move (dst src : κ → ι) (m : ι → α) (ks : List κ) : ι → α :=
  ks.foldl (fun m k => Function.update m (dst k) (m (src k))) m

/-- `m (dst k) = a`, for each `k` of a list. -/
def fill (dst : κ → ι) (a : α) (m : ι → α) (ks : List κ) : ι → α :=
  ks.foldl (fun m k => Function.update m (dst k) a) m

theorem move_cons (m : ι → α) (k : κ) (ks : List κ) :
    move dst src m (k :: ks) = move dst src (Function.update m (dst k) (m (src k))) ks := rfl

theorem move_outside {ks : List κ} {i : ι} (h : ∀ k ∈ ks, i ≠ dst k) (m : ι → α) : move dst src m ks i = m i := by
  induction ks generalizing m with
  | nil => rfl
  | cons k ks ih =>
    rw [move_cons, ih fun l hl => h l (List.mem_cons_of_mem _ hl), Function.update_of_ne (h k (List.mem_cons_self ..))]

/-- No cell is written twice, and none before it is read. -/
theorem move_moved {ks : List κ} (hwrites : ks.Pairwise fun k l => dst k ≠ dst l)
    (hreads : ks.Pairwise fun k l => dst k ≠ src l) (m : ι → α) {k : κ} (hk : k ∈ ks) :
    move dst src m ks (dst k) = m (src k) := by
  induction ks generalizing m with
  | nil => exact absurd hk List.not_mem_nil
  | cons l ks ih =>
    obtain ⟨hwrite, hwrites⟩ := List.pairwise_cons.mp hwrites
    obtain ⟨hread, hreads⟩ := List.pairwise_cons.mp hreads
    rw [move_cons]
    rcases List.mem_cons.mp hk with rfl | hk
    · rw [move_outside hwrite, Function.update_self]
    · rw [ih hwrites hreads _ hk, Function.update_of_ne (hread k hk).symm]

theorem fill_apply (a : α) (m : ι → α) (ks : List κ) (i : ι) :
    fill dst a m ks i = if i ∈ ks.map dst then a else m i := by
  induction ks generalizing m with
  | nil => rfl
  | cons k ks ih =>
    have hstep : fill dst a m (k :: ks) i = fill dst a (Function.update m (dst k) a) ks i := rfl
    rw [hstep, ih, List.map_cons]
    by_cases hks : i ∈ ks.map dst
    · rw [if_pos hks, if_pos (List.mem_cons_of_mem _ hks)]
    · by_cases hk : i = dst k
      · rw [if_neg hks, if_pos (hk ▸ List.mem_cons_self ..), hk, Function.update_self]
      · rw [if_neg hks, if_neg (List.not_mem_cons_of_ne_of_not_mem hk hks), Function.update_of_ne hk]

/-! ### Grids -/

section Grid
variable {index : Nat → Nat → ι} {height width : Nat}

/-- The cells of rows and columns are different ones. -/
def Grid (index : Nat → Nat → ι) (height width : Nat) : Prop :=
  ∀ y x y' x', y < height → x < width → y' < height → x' < width → index y x = index y' x' → y = y' ∧ x = x'

/-- Row by row, and in a row from the left. -/
theorem pairwise_cells (m n : Nat) :
    (List.range m ×ˢ List.range n).Pairwise fun p q => p.1 < q.1 ∨ p.1 = q.1 ∧ p.2 < q.2 := by
  refine List.pairwise_flatMap.mpr ⟨fun y _ => ?_, ?_⟩
  · exact List.pairwise_map.mpr (List.pairwise_lt_range.imp fun h => Or.inr ⟨rfl, h⟩)
  · refine List.pairwise_lt_range.imp fun hlt p hp q hq => ?_
    obtain ⟨x, -, rfl⟩ := List.mem_map.mp hp
    obtain ⟨x', -, rfl⟩ := List.mem_map.mp hq
    exact Or.inl hlt

/-- Every row takes the place of the one above it, and the last one is filled. -/
theorem scroll_grid (hgrid : Grid index (height + 1) width) (a : α) (m : ι → α) {y x : Nat} (hy : y < height + 1)
    (hx : x < width) :
    fill (index height) a (move (fun p : Nat × Nat => index p.1 p.2) (fun p => index (p.1 + 1) p.2) m
        (List.range height ×ˢ List.range width)) (List.range width) (index y x) =
      if y < height then m (index (y + 1) x) else a := by
  have hcell {p : Nat × Nat} (hp : p ∈ List.range height ×ˢ List.range width) : p.1 < height ∧ p.2 < width :=
    ⟨List.mem_range.mp (List.mem_product.mp hp).1, List.mem_range.mp (List.mem_product.mp hp).2⟩
  have hlast : index y x ∈ (List.range width).map (index height) ↔ ¬y < height := by
    constructor
    · intro hmem hlt
      obtain ⟨x', hx', heq⟩ := List.mem_map.mp hmem
      have hrow := (hgrid height x' y x (by omega) (List.mem_range.mp hx') hy hx heq).1
      omega
    · intro hge
      rw [show y = height by omega]
      exact List.mem_map_of_mem (List.mem_range.mpr hx)
  rw [fill_apply]
  by_cases hlt : y < height
  · rw [if_neg fun hmem => hlast.mp hmem hlt, if_pos hlt]
    refine move_moved ?_ ?_ m (k := (y, x)) (List.mem_product.mpr ⟨List.mem_range.mpr hlt, List.mem_range.mpr hx⟩)
    all_goals
      refine (pairwise_cells height width).imp_of_mem fun {p q} hp hq hpq heq => ?_
      obtain ⟨hp, hp'⟩ := hcell hp
      obtain ⟨hq, hq'⟩ := hcell hq
    · have hsame := hgrid _ _ _ _ (by omega) hp' (by omega) hq' heq
      omega
    · have hsame := hgrid _ _ _ _ (by omega) hp' (by omega) hq' heq
      omega
  · rw [if_pos (hlast.mpr hlt), if_neg hlt]

end Grid

end UntitledOS.Lib
