import Mathlib

/-! Bit fields of a machine word.

A field is the bits from a position on, as many as its type has. It is read by a
shift and written through a mask. A field written reads as it was written
(`get_set`), and fields that do not meet it read as before (`get_set_disjoint`). -/
namespace UntitledOS.Lib.Fields

variable {m n : Nat}

/-- The `n` bits of `w` from bit `lo` on. -/
def get (lo n : Nat) (w : BitVec m) : BitVec n := (w >>> lo).setWidth n

/-- `w` with the bits from bit `lo` on replaced by `x`. -/
def set (lo : Nat) (x : BitVec n) (w : BitVec m) : BitVec m :=
  (w &&& ~~~((BitVec.allOnes n).setWidth m <<< lo)) ||| (x.setWidth m <<< lo)

theorem getLsbD_get (lo i : Nat) (w : BitVec m) :
    (get lo n w).getLsbD i = (decide (i < n) && w.getLsbD (lo + i)) := by
  simp [get]

theorem getLsbD_set (lo : Nat) (x : BitVec n) (w : BitVec m) {i : Nat} (hi : i < m) :
    (set lo x w).getLsbD i = if lo ≤ i ∧ i < lo + n then x.getLsbD (i - lo) else w.getLsbD i := by
  have hlow : i - lo < m := by omega
  simp only [set, BitVec.getLsbD_or, BitVec.getLsbD_and, BitVec.getLsbD_not, BitVec.getLsbD_shiftLeft,
    BitVec.getLsbD_setWidth, BitVec.getLsbD_allOnes, hi, hlow, decide_true, Bool.true_and]
  by_cases hlo : i < lo
  · rw [if_neg (by omega)]
    simp [hlo]
  · by_cases hn : i - lo < n
    · rw [if_pos (by omega)]
      simp [hlo, hn]
    · rw [if_neg (by omega), BitVec.getLsbD_of_ge x _ (by omega)]
      simp [hn]

/-- A field written reads as it was written. -/
theorem get_set {lo : Nat} (hfit : lo + n ≤ m) (x : BitVec n) (w : BitVec m) : get lo n (set lo x w) = x := by
  apply BitVec.eq_of_getLsbD_eq
  intro i hi
  rw [getLsbD_get, getLsbD_set lo x w (by omega), if_pos (by omega), decide_eq_true hi, Nat.add_sub_cancel_left]
  rfl

/-- Writing a field leaves the others alone. -/
theorem get_set_disjoint {lo lo' k : Nat} (hfit : lo' + k ≤ m) (hapart : lo' + k ≤ lo ∨ lo + n ≤ lo') (x : BitVec n)
    (w : BitVec m) : get lo' k (set lo x w) = get lo' k w := by
  apply BitVec.eq_of_getLsbD_eq
  intro i hi
  rw [getLsbD_get, getLsbD_get, getLsbD_set lo x w (by omega), if_neg (by omega)]

/-- The bytes of a word. -/
def byte (k : Nat) (w : BitVec m) : BitVec 8 := get (8 * k) 8 w

def setByte (k : Nat) (x : BitVec 8) (w : BitVec m) : BitVec m := set (8 * k) x w

theorem byte_setByte {j k : Nat} (hj : 8 * j + 8 ≤ m) (hk : 8 * k + 8 ≤ m) (x : BitVec 8) (w : BitVec m) :
    byte j (setByte k x w) = if j = k then x else byte j w := by
  split
  · rename_i h
    rw [h]
    exact get_set hk x w
  · exact get_set_disjoint hj (by omega) x w

end UntitledOS.Lib.Fields
