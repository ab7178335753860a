import UntitledOS.Lib.Bitmap

/-! Twelve-bit numbers packed into bytes.

Entry `k` is twelve bits of the byte array, from bit `12 * k` on: one and a half bytes,
read through the sixteen-bit word at byte `k + k / 2` with a mask or a shift. Everything
is proved bit by bit (`entry_getLsbD`), so that entries which share a byte are told apart
like any others: linking an entry changes that entry alone (`entry_link`). -/
namespace UntitledOS.Lib
namespace Packed
open Bitmap

/-- Two bytes as a little-endian word. -/
def word (b₀ b₁ : BitVec 8) : BitVec 16 := b₁ ++ b₀

/-- The entry at `k`. -/
def entry (f : Nat → BitVec 8) (k : Nat) : BitVec 16 :=
  if k % 2 = 1 then word (f (k + k / 2)) (f (k + k / 2 + 1)) >>> 4
  else word (f (k + k / 2)) (f (k + k / 2 + 1)) &&& 0xFFF

/-- The word at `o`, or-ed with a mask. -/
def orWord (f : Nat → BitVec 8) (o : Nat) (mask : BitVec 16) (k : Nat) : BitVec 8 :=
  if k = o then f k ||| mask.setWidth 8
  else if k = o + 1 then f k ||| (mask >>> 8).setWidth 8
  else f k

/-- Entry `k`, or-ed with a number. -/
def link (f : Nat → BitVec 8) (k : Nat) (v : BitVec 16) : Nat → BitVec 8 :=
  orWord f (k + k / 2) (if k % 2 = 1 then v <<< 4 else v)

/-- Numbers packed into bytes. -/
def pack (e : Nat → BitVec 16) (o : Nat) : BitVec 8 :=
  ((e (2 * (o / 3) + 1)).setWidth 12 ++ (e (2 * (o / 3))).setWidth 12).extractLsb' (8 * (o % 3)) 8

variable {f g : Nat → BitVec 8}

theorem word_getElem (b₀ b₁ : BitVec 8) (i : Nat) (hi : i < 16) :
    (word b₀ b₁)[i] = if i < 8 then b₀.getLsbD i else b₁.getLsbD (i - 8) := by
  rw [← BitVec.getLsbD_eq_getElem, word, BitVec.getLsbD_append]

/-- The first byte of a word, and its second. -/
theorem word_low (b₀ b₁ : BitVec 8) : (word b₀ b₁).setWidth 8 = b₀ := by
  apply BitVec.eq_of_getLsbD_eq
  intro i hi
  interval_cases i <;> simp [word_getElem]

theorem word_high (b₀ b₁ : BitVec 8) : (word b₀ b₁ >>> 8).setWidth 8 = b₁ := by
  apply BitVec.eq_of_getLsbD_eq
  intro i hi
  interval_cases i <;> simp [word_getElem]

/-- A word is its two bytes. -/
theorem word_bytes (w : BitVec 16) : word (w.setWidth 8) ((w >>> 8).setWidth 8) = w := by
  apply BitVec.eq_of_getLsbD_eq
  intro i hi
  interval_cases i <;> simp [word_getElem]

theorem word_getLsbD {o i : Nat} (hi : i < 16) : (word (f o) (f (o + 1))).getLsbD i = bit f (8 * o + i) := by
  rw [word, BitVec.getLsbD_append, bit]
  by_cases hlow : i < 8
  · have hdiv : (8 * o + i) / 8 = o := by omega
    have hmod : (8 * o + i) % 8 = i := by omega
    rw [if_pos hlow, hdiv, hmod]
  · have hdiv : (8 * o + i) / 8 = o + 1 := by omega
    have hmod : (8 * o + i) % 8 = i - 8 := by omega
    rw [if_neg hlow, hdiv, hmod]

theorem entry_getLsbD (k i : Nat) : (entry f k).getLsbD i = (decide (i < 12) && bit f (12 * k + i)) := by
  unfold entry
  by_cases hi : i < 12
  · rw [decide_eq_true hi, Bool.true_and]
    split
    · rw [BitVec.getLsbD_ushiftRight, word_getLsbD (by omega)]
      congr 1
      omega
    · have hmask : (0xFFF : BitVec 16).getLsbD i = true := by
        interval_cases i <;> rfl
      rw [BitVec.getLsbD_and, word_getLsbD (by omega), hmask, Bool.and_true]
      congr 1
      omega
  · rw [decide_eq_false hi, Bool.false_and]
    split
    · rw [BitVec.getLsbD_ushiftRight]
      exact BitVec.getLsbD_of_ge _ _ (by omega)
    · have hmask : (0xFFF : BitVec 16).getLsbD i = false := by
        by_cases hlt : i < 16
        · interval_cases i <;> rfl
        · exact BitVec.getLsbD_of_ge _ _ (by omega)
      rw [BitVec.getLsbD_and, hmask, Bool.and_false]

/-- An entry has twelve bits. -/
theorem entry_lt (f : Nat → BitVec 8) (k : Nat) : entry f k < 0x1000 := by
  show (entry f k).toNat < 4096
  unfold entry
  split
  · have hlt := (word (f (k + k / 2)) (f (k + k / 2 + 1))).isLt
    rw [BitVec.toNat_ushiftRight, Nat.shiftRight_eq_div_pow]
    omega
  · rw [BitVec.toNat_and]
    exact Nat.lt_succ_of_le Nat.and_le_right

theorem word_toNat (b₀ b₁ : BitVec 8) : (word b₀ b₁).toNat = b₀.toNat + 256 * b₁.toNat := by
  have hlow := b₀.isLt
  rw [word, BitVec.toNat_append, Nat.shiftLeft_eq, ← Nat.shiftLeft_eq, ← Nat.shiftLeft_add_eq_or_of_lt hlow,
    Nat.shiftLeft_eq]
  omega

/-- An entry as a number: a byte and half of the next one. -/
theorem entry_toNat (k : Nat) : (entry f k).toNat =
    if k % 2 = 1 then (f (k + k / 2)).toNat / 16 + 16 * (f (k + k / 2 + 1)).toNat
    else (f (k + k / 2)).toNat + 256 * ((f (k + k / 2 + 1)).toNat % 16) := by
  have hlow := (f (k + k / 2)).isLt
  have hhigh := (f (k + k / 2 + 1)).isLt
  unfold entry
  split
  · rw [BitVec.toNat_ushiftRight, Nat.shiftRight_eq_div_pow, word_toNat]
    omega
  · have hmask : (0xFFF : BitVec 16).toNat = 2 ^ 12 - 1 := rfl
    rw [BitVec.toNat_and, hmask, Nat.and_two_pow_sub_one_eq_mod, word_toNat]
    omega

/-- An entry depends on its two bytes only. -/
theorem entry_congr {k : Nat} (h₀ : f (k + k / 2) = g (k + k / 2))
    (h₁ : f (k + k / 2 + 1) = g (k + k / 2 + 1)) : entry f k = entry g k := by
  rw [entry, entry, h₀, h₁]

/-! ### Linking -/

theorem bit_orWord (o : Nat) (mask : BitVec 16) (t : Nat) :
    bit (orWord f o mask) t = (bit f t || (decide (8 * o ≤ t) && mask.getLsbD (t - 8 * o))) := by
  have hmod : t % 8 < 8 := Nat.mod_lt t (by decide)
  unfold bit orWord
  by_cases h₀ : t / 8 = o
  · have hle : 8 * o ≤ t := by omega
    have hpos : t - 8 * o = t % 8 := by omega
    rw [if_pos h₀, BitVec.getLsbD_or, BitVec.getLsbD_setWidth, decide_eq_true hmod, decide_eq_true hle, hpos]
  · rw [if_neg h₀]
    by_cases h₁ : t / 8 = o + 1
    · have hle : 8 * o ≤ t := by omega
      have hpos : t - 8 * o = 8 + t % 8 := by omega
      rw [if_pos h₁, BitVec.getLsbD_or, BitVec.getLsbD_setWidth, BitVec.getLsbD_ushiftRight,
        decide_eq_true hmod, decide_eq_true hle, hpos]
    · rw [if_neg h₁]
      by_cases hle : 8 * o ≤ t
      · rw [BitVec.getLsbD_of_ge mask _ (by omega), Bool.and_false, Bool.or_false]
      · rw [decide_eq_false hle, Bool.false_and, Bool.or_false]

theorem getLsbD_small {v : BitVec 16} (hv : v < 0x1000) {i : Nat} (hi : 12 ≤ i) : v.getLsbD i = false := by
  have hlt : v.toNat < 2 ^ 12 := hv
  exact Nat.testBit_lt_two_pow (hlt.trans_le (Nat.pow_le_pow_right (by decide) hi))

theorem bit_link (k : Nat) {v : BitVec 16} (hv : v < 0x1000) (t : Nat) :
    bit (link f k v) t = (bit f t || (decide (12 * k ≤ t) && v.getLsbD (t - 12 * k))) := by
  rw [link, bit_orWord]
  congr 1
  split
  · by_cases hle : 12 * k ≤ t
    · -- the shift makes up for the half byte in front of an odd entry
      have hpos : t - 8 * (k + k / 2) = 4 + (t - 12 * k) := by omega
      rw [hpos, decide_eq_true hle, decide_eq_true (by omega), BitVec.getLsbD_shiftLeft]
      by_cases hlt : 4 + (t - 12 * k) < 16
      · rw [decide_eq_true hlt, decide_eq_false (by omega), Nat.add_sub_cancel_left]
        rfl
      · rw [decide_eq_false hlt, getLsbD_small hv (i := t - 12 * k) (by omega)]
        rfl
    · rw [decide_eq_false hle, Bool.false_and, BitVec.getLsbD_shiftLeft]
      by_cases hfour : t - 8 * (k + k / 2) < 4
      · rw [decide_eq_true hfour, Bool.not_true, Bool.and_false, Bool.false_and, Bool.and_false]
      · omega
  · have hpos : 8 * (k + k / 2) = 12 * k := by omega
    rw [hpos]

/-- Linking an entry changes no other one. -/
theorem entry_link {v : BitVec 16} (hv : v < 0x1000) (k m : Nat) :
    entry (link f k v) m = if m = k then entry f m ||| v else entry f m := by
  apply BitVec.eq_of_getLsbD_eq
  intro i hi
  rw [entry_getLsbD, bit_link k hv]
  by_cases hm : m = k
  · rw [if_pos hm, BitVec.getLsbD_or, entry_getLsbD, hm, decide_eq_true (Nat.le_add_right _ _),
      Nat.add_sub_cancel_left]
    by_cases hlt : i < 12
    · rw [decide_eq_true hlt]
      rfl
    · rw [decide_eq_false hlt, getLsbD_small hv (by omega)]
      rfl
  · rw [if_neg hm, entry_getLsbD]
    by_cases hlt : i < 12
    · have hnot : (decide (12 * k ≤ 12 * m + i) && v.getLsbD (12 * m + i - 12 * k)) = false := by
        rcases Nat.lt_or_ge m k with h | h
        · rw [decide_eq_false (by omega), Bool.false_and]
        · rw [getLsbD_small hv (by omega), Bool.and_false]
      rw [hnot, Bool.or_false]
    · rw [decide_eq_false hlt, Bool.false_and, Bool.false_and]

/-! ### Packing -/

/-- What was packed is read back. -/
theorem entry_pack {e : Nat → BitVec 16} {k : Nat} (hk : e k < 0x1000) : entry (pack e) k = e k := by
  apply BitVec.eq_of_getLsbD_eq
  intro i hi
  rw [entry_getLsbD]
  by_cases hlt : i < 12
  · have hdiv : (12 * k + i) / 8 / 3 = k / 2 := by omega
    have hpos : 8 * ((12 * k + i) / 8 % 3) + (12 * k + i) % 8 = 12 * (k % 2) + i := by omega
    rw [decide_eq_true hlt, Bool.true_and, bit, pack, hdiv, BitVec.getLsbD_extractLsb', hpos,
      decide_eq_true (Nat.mod_lt _ (by decide)), Bool.true_and, BitVec.getLsbD_append]
    rcases Nat.mod_two_eq_zero_or_one k with hpar | hpar
    · have hk : 2 * (k / 2) = k := by omega
      rw [hpar, if_pos (by omega), BitVec.getLsbD_setWidth, decide_eq_true (by omega), hk]
      simp
    · have hk : 2 * (k / 2) + 1 = k := by omega
      rw [hpar, if_neg (by omega), BitVec.getLsbD_setWidth, decide_eq_true (by omega), hk]
      simp
  · rw [decide_eq_false hlt, getLsbD_small hk (by omega)]
    rfl

end Packed
end UntitledOS.Lib
