import Mathlib

/-! Numbers written in a base.

A numeral is a list of digits, most significant first. Every number has one without
leading zeros (`canonical_numeral`), which evaluates to it (`value_numeral`); a loop that
divides finds its digits one at a time, the last one first (`numeral_of_le`). -/
namespace UntitledOS.Lib
namespace Numeral

variable {b n : Nat}

/-- The number that digits stand for. -/
def value (b : Nat) (ds : List Nat) : Nat := ds.foldl (fun v d => v * b + d) 0

/-- Digits, at least one, and no zero in front of another. -/
structure Canonical (b : Nat) (ds : List Nat) : Prop where
  nonempty : ds ≠ []
  digits : ∀ d ∈ ds, d < b
  leading : ds.head? = some 0 → ds = [0]

/-- The digits of a number. Zero has one. -/
def numeral (b n : Nat) : List Nat := if n = 0 then [0] else (Nat.digits b n).reverse

theorem value_eq_ofDigits (ds : List Nat) : value b ds = Nat.ofDigits b ds.reverse := by
  induction ds using List.reverseRecOn with
  | nil => rfl
  | append_singleton ds d ih =>
    rw [List.reverse_append, List.reverse_singleton, List.singleton_append, Nat.ofDigits_cons, ← ih]
    simp only [value, List.foldl_append, List.foldl_cons, List.foldl_nil]
    ring

theorem value_numeral (b n : Nat) : value b (numeral b n) = n := by
  unfold numeral
  split
  · rename_i h
    rw [h, value, List.foldl_cons, List.foldl_nil, Nat.zero_mul]
  · rw [value_eq_ofDigits, List.reverse_reverse, Nat.ofDigits_digits]

theorem canonical_numeral (hb : 1 < b) (n : Nat) : Canonical b (numeral b n) := by
  unfold numeral
  split
  · have hdigits : ∀ d ∈ [0], d < b := by
      intro d hd
      rw [List.mem_singleton] at hd
      omega
    exact ⟨List.cons_ne_nil 0 [], hdigits, fun _ => rfl⟩
  · rename_i hn
    have hne : Nat.digits b n ≠ [] := Nat.digits_ne_nil_iff_ne_zero.mpr hn
    refine ⟨by simpa using hne, fun d hd => Nat.digits_lt_base hb (List.mem_reverse.mp hd), ?_⟩
    intro hzero
    rw [List.head?_reverse, List.getLast?_eq_getLast_of_ne_nil hne, Option.some.injEq] at hzero
    exact absurd hzero (Nat.getLast_digit_ne_zero b hn)

theorem numeral_of_lt (h : n < b) : numeral b n = [n] := by
  unfold numeral
  split
  · rename_i hn
    rw [hn]
  · rename_i hn
    rw [Nat.digits_of_lt b n hn h, List.reverse_singleton]

/-- The last digit, behind those of the rest. -/
theorem numeral_of_le (hb : 1 < b) (h : b ≤ n) : numeral b n = numeral b (n / b) ++ [n % b] := by
  have hn : n ≠ 0 := by omega
  have hrest : n / b ≠ 0 := (Nat.div_pos h (by omega)).ne'
  rw [numeral, numeral, if_neg hn, if_neg hrest, Nat.digits_def' hb (by omega), List.reverse_cons]

theorem length_numeral_le {k : Nat} (hb : 1 < b) (hk : 0 < k) (h : n < b ^ k) : (numeral b n).length ≤ k := by
  unfold numeral
  split
  · exact hk
  · rw [List.length_reverse]
    exact (Nat.digits_length_le_iff hb n).mpr h

/-- The same digits as `Nat.toDigits` prints. -/
theorem toDigits_eq (hb : 1 < b) (n : Nat) : Nat.toDigits b n = (numeral b n).map Nat.digitChar := by
  induction n using Nat.strong_induction_on with
  | h n ih =>
    by_cases h : n < b
    · rw [Nat.toDigits_of_lt_base h, numeral_of_lt h, List.map_singleton]
    · have hle : b ≤ n := Nat.not_lt.mp h
      rw [Nat.toDigits_of_base_le hb hle, ih (n / b) (Nat.div_lt_self (by omega) hb), numeral_of_le hb hle,
        List.map_append, List.map_singleton]

end Numeral
end UntitledOS.Lib
