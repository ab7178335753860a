import Mathlib

/-! Sets of numbers packed into words.

A map of `w`-bit words is a set of numbers: `k` is bit `k % w` of word `k / w`.
Setting and clearing a bit are the masks one writes with a shift, and change that
bit alone. `firstClear` scans word by word, skipping the full ones, and finds the
least number missing from the words scanned; `firstTested` goes on until a test of the
number missing has an answer. `count` is what a counter kept next to the map should say. -/
namespace UntitledOS.Lib
namespace Bitmap

variable {w : Nat}

/-- The bit at `j` of a word, tested with a mask. -/
theorem mask_eq_zero {j : Nat} (hj : j < w) (x : BitVec w) :
    x &&& 1#w <<< j = 0#w ↔ x.getLsbD j = false := by
  rw [← BitVec.twoPow_eq, BitVec.and_twoPow]
  cases hx : x.getLsbD j
  · simp
  · simp only [if_true]
    constructor
    · intro h
      have := congrArg (·.getLsbD j) h
      simp [hj] at this
    · nofun

/-- `k` is in the set. -/
def bit (map : Nat → BitVec w) (k : Nat) : Bool := (map (k / w)).getLsbD (k % w)

def set (map : Nat → BitVec w) (k : Nat) : Nat → BitVec w :=
  Function.update map (k / w) (map (k / w) ||| 1#w <<< (k % w))

def unset (map : Nat → BitVec w) (k : Nat) : Nat → BitVec w :=
  Function.update map (k / w) (map (k / w) &&& ~~~(1#w <<< (k % w)))

/-- Numbers in one word are told apart by their bit. -/
theorem eq_of_word {j k : Nat} (hword : j / w = k / w) : j = k ↔ j % w = k % w := by
  constructor
  · rintro rfl
    rfl
  · intro hbit
    rw [← Nat.div_add_mod j w, ← Nat.div_add_mod k w, hword, hbit]

theorem getLsbD_mask (hw : 0 < w) (j k : Nat) :
    (1#w <<< (k % w)).getLsbD (j % w) = decide (j % w = k % w) := by
  rw [← BitVec.twoPow_eq, BitVec.getLsbD_twoPow]
  simp [Nat.mod_lt _ hw, eq_comm]

@[simp] theorem bit_set (hw : 0 < w) (map : Nat → BitVec w) (k j : Nat) :
    bit (set map k) j = (decide (j = k) || bit map j) := by
  unfold bit set
  by_cases hword : j / w = k / w
  · rw [hword, Function.update_self, BitVec.getLsbD_or, getLsbD_mask hw, Bool.or_comm,
      decide_eq_decide.mpr (eq_of_word hword)]
  · have hne : j ≠ k := fun h => hword (by rw [h])
    rw [Function.update_of_ne hword, decide_eq_false hne, Bool.false_or]

@[simp] theorem bit_unset (hw : 0 < w) (map : Nat → BitVec w) (k j : Nat) :
    bit (unset map k) j = (!decide (j = k) && bit map j) := by
  unfold bit unset
  by_cases hword : j / w = k / w
  · have hlt := Nat.mod_lt j hw
    rw [hword, Function.update_self, BitVec.getLsbD_and, BitVec.getLsbD_not, getLsbD_mask hw,
      Bool.and_comm, decide_eq_decide.mpr (eq_of_word hword), decide_eq_true hlt, Bool.true_and]
  · have hne : j ≠ k := fun h => hword (by rw [h])
    rw [Function.update_of_ne hword, decide_eq_false hne, Bool.not_false, Bool.true_and]

theorem bit_word {map : Nat → BitVec w} {i j : Nat} (hj : j < w) : bit map (i * w + j) = (map i).getLsbD j := by
  rw [bit, Nat.mul_comm, Nat.mul_add_div (by omega), Nat.div_eq_of_lt hj, Nat.mul_add_mod,
    Nat.mod_eq_of_lt hj, Nat.add_zero]

/-! ### The first clear bit -/

/-- The first clear bit of a word that is not full. -/
def clearIn (word : BitVec w) : Option Nat :=
  if word ≠ BitVec.allOnes w then (List.range w).find? fun j => word &&& 1#w <<< j = 0#w else none

/-- The first clear bit of the first `n` words. -/
def firstClear (map : Nat → BitVec w) (n : Nat) : Option Nat :=
  (List.range n).findSome? fun i => (clearIn (map i)).map fun j => i * w + j

theorem clearIn_spec (word : BitVec w) :
    match clearIn word with
    | some j => j < w ∧ word.getLsbD j = false ∧ ∀ i < j, word.getLsbD i = true
    | none => ∀ j < w, word.getLsbD j = true := by
  unfold clearIn
  by_cases hfull : word = BitVec.allOnes w
  · rw [if_neg (not_not.mpr hfull)]
    intro j hj
    rw [hfull, BitVec.getLsbD_allOnes, decide_eq_true hj]
  · rw [if_pos hfull]
    cases hfind : (List.range w).find? fun j => word &&& 1#w <<< j = 0#w with
    | some j =>
      obtain ⟨hclear, hj, hbefore⟩ := List.find?_range_eq_some.mp hfind
      have hlt := List.mem_range.mp hj
      refine ⟨hlt, (mask_eq_zero hlt word).mp (by simpa using hclear), fun i hi => ?_⟩
      have := hbefore i hi
      rw [Bool.not_eq_true', decide_eq_false_iff_not, mask_eq_zero (hi.trans hlt)] at this
      simpa using this
    | none =>
      intro j hj
      have := List.find?_eq_none.mp hfind j (List.mem_range.mpr hj)
      rw [decide_eq_true_eq, mask_eq_zero hj] at this
      simpa using this

/-- The search is right: what it finds is the least number missing, and it fails only
when none is. The induction is on the words scanned. -/
theorem firstClear_spec (map : Nat → BitVec w) (n : Nat) :
    match firstClear map n with
    | some k => k < n * w ∧ bit map k = false ∧ ∀ j < k, bit map j = true
    | none => ∀ k < n * w, bit map k = true := by
  induction n with
  | zero =>
    intro k hk
    omega
  | succ n ih =>
    have hstep : firstClear map (n + 1) =
        (firstClear map n).or ((clearIn (map n)).map fun j => n * w + j) := by
      rw [firstClear, List.range_succ, List.findSome?_append, List.findSome?_singleton]
      rfl
    have hword : ∀ j < w, bit map (n * w + j) = (map n).getLsbD j := fun j hj => bit_word hj
    rw [Nat.succ_mul, hstep]
    cases hfirst : firstClear map n with
    | some k =>
      rw [hfirst] at ih
      exact ⟨by have := ih.1; omega, ih.2⟩
    | none =>
      rw [hfirst] at ih
      have hclear := clearIn_spec (map n)
      cases hc : clearIn (map n) with
      | some j =>
        rw [hc] at hclear
        obtain ⟨hj, hbit, hbefore⟩ := hclear
        refine ⟨Nat.add_lt_add_left hj _, (hword j hj).trans hbit, fun k hk => ?_⟩
        by_cases hlow : k < n * w
        · exact ih k hlow
        · have hin : k - n * w < j := by
            dsimp only at hk
            omega
          have := hword (k - n * w) (by omega)
          rw [Nat.add_sub_cancel' (by omega)] at this
          rw [this, hbefore _ hin]
      | none =>
        rw [hc] at hclear
        intro k hk
        by_cases hlow : k < n * w
        · exact ih k hlow
        · have := hword (k - n * w) (by omega)
          rw [Nat.add_sub_cancel' (by omega)] at this
          rw [this, hclear _ (by omega)]

/-! ### Testing every clear bit -/

section Tested
variable {β : Type*} (map : Nat → BitVec w) (test : Nat → Option β)

/-- The first answer that `test` gives for a number missing below `n`. -/
def firstTested (n : Nat) : Option β :=
  (List.range n).findSome? fun k => if bit map k then none else test k

theorem firstTested_some {n : Nat} {b : β} : firstTested map test n = some b ↔
    ∃ k < n, bit map k = false ∧ test k = some b ∧ ∀ j < k, bit map j = false → test j = none := by
  have hnone : ∀ k, (if bit map k then none else test k) = none ↔ (bit map k = false → test k = none) := by
    intro k
    cases bit map k <;> simp
  have hsome : ∀ k, (if bit map k then none else test k) = some b ↔ bit map k = false ∧ test k = some b := by
    intro k
    cases bit map k <;> simp
  induction n with
  | zero => simp [firstTested]
  | succ n ih =>
    rw [firstTested, List.range_succ, List.findSome?_append, List.findSome?_singleton, Option.or_eq_some_iff,
      List.findSome?_eq_none_iff, hsome]
    refine (or_congr_left ih).trans ?_
    constructor
    · rintro (⟨k, hk, hfound⟩ | ⟨hbefore, hclear, htest⟩)
      · exact ⟨k, hk.trans (Nat.lt_succ_self n), hfound⟩
      · exact ⟨n, Nat.lt_succ_self n, hclear, htest, fun j hj => (hnone j).mp (hbefore j (List.mem_range.mpr hj))⟩
    · rintro ⟨k, hk, hclear, htest, hbefore⟩
      rcases Nat.lt_succ_iff_lt_or_eq.mp hk with hlt | rfl
      · exact .inl ⟨k, hlt, hclear, htest, hbefore⟩
      · exact .inr ⟨fun j hj => (hnone j).mpr (hbefore j (List.mem_range.mp hj)), hclear, htest⟩

theorem firstTested_none {n : Nat} : firstTested map test n = none ↔
    ∀ k < n, bit map k = false → test k = none := by
  rw [firstTested, List.findSome?_eq_none_iff]
  simp

/-- Going through the words, skipping the full ones, and testing every bit that a mask
shows clear, is going through the numbers missing. -/
theorem firstTested_words (n : Nat) :
    ((List.range n).findSome? fun i => if map i ≠ BitVec.allOnes w then
      (List.range w).findSome? fun j => if map i &&& 1#w <<< j = 0#w then test (i * w + j) else none
    else none) = firstTested map test (n * w) := by
  have hword : ∀ i, (if map i ≠ BitVec.allOnes w then
      (List.range w).findSome? fun j => if map i &&& 1#w <<< j = 0#w then test (i * w + j) else none
      else none) = (List.range w).findSome? fun j => if bit map (i * w + j) then none else test (i * w + j) := by
    intro i
    by_cases hfull : map i = BitVec.allOnes w
    · rw [if_neg (not_not.mpr hfull), eq_comm, List.findSome?_eq_none_iff]
      intro j hj
      rw [bit_word (List.mem_range.mp hj), hfull, BitVec.getLsbD_allOnes,
        decide_eq_true (List.mem_range.mp hj), if_pos rfl]
    · rw [if_pos hfull, ← List.head?_filterMap, ← List.head?_filterMap]
      refine congrArg List.head? (List.filterMap_congr fun j hj => ?_)
      have hj := List.mem_range.mp hj
      rw [bit_word hj]
      cases hbit : (map i).getLsbD j with
      | false => rw [if_pos ((mask_eq_zero hj _).mpr hbit)]; rfl
      | true => rw [if_neg fun h => by simp [(mask_eq_zero hj _).mp h] at hbit]; rfl
  simp only [hword]
  induction n with
  | zero => simp [firstTested]
  | succ n ih =>
    rw [List.range_succ, List.findSome?_append, List.findSome?_singleton, ih, Nat.succ_mul, firstTested,
      firstTested, List.range_add, List.findSome?_append, List.findSome?_map]
    rfl
end Tested

/-! ### All clear bits -/

/-- The numbers below `n` that are missing, in order. -/
def clears (map : Nat → BitVec w) (n : Nat) : List Nat := (List.range n).filter fun k => !bit map k

theorem mem_clears {map : Nat → BitVec w} {n k : Nat} : k ∈ clears map n ↔ k < n ∧ bit map k = false := by
  simp [clears]

theorem clears_nodup (map : Nat → BitVec w) (n : Nat) : (clears map n).Nodup :=
  List.nodup_range.filter _

/-- The search finds the first of them. -/
theorem firstClear_eq (map : Nat → BitVec w) (n : Nat) : firstClear map n = (clears map (n * w)).head? := by
  have hspec := firstClear_spec map n
  have hfind : (clears map (n * w)).head? = (List.range (n * w)).find? fun k => !bit map k :=
    List.head?_filter
  rw [hfind]
  cases hfirst : firstClear map n with
  | some k =>
    rw [hfirst] at hspec
    obtain ⟨hk, hclear, hbefore⟩ := hspec
    symm
    rw [List.find?_range_eq_some]
    simp only [List.mem_range]
    refine ⟨?_, hk, fun j hj => ?_⟩
    · rw [hclear]
      rfl
    · rw [hbefore j hj]
      rfl
  | none =>
    rw [hfirst] at hspec
    symm
    rw [List.find?_eq_none]
    intro k hk
    rw [hspec k (List.mem_range.mp hk)]
    decide

/-- Putting in the first of them leaves the others. -/
theorem clears_set (hw : 0 < w) {map : Nat → BitVec w} {n k : Nat} {rest : List Nat}
    (h : clears map n = k :: rest) : clears (set map k) n = rest := by
  have hnodup := clears_nodup map n
  rw [h, List.nodup_cons] at hnodup
  have hsplit : clears (set map k) n = (clears map n).filter fun j => !decide (j = k) := by
    rw [clears, clears, List.filter_filter]
    apply List.filter_congr
    intro j _
    rw [bit_set hw, Bool.not_or]
  rw [hsplit, h, List.filter_cons_of_neg (by simp)]
  apply List.filter_eq_self.mpr
  intro j hj
  have hne : j ≠ k := by
    rintro rfl
    exact hnodup.1 hj
  simp [hne]

/-! ### Counting -/

/-- How many numbers below `n` are in the set. -/
def count (map : Nat → BitVec w) (n : Nat) : Nat := Nat.count (fun k => bit map k = true) n

theorem count_le (map : Nat → BitVec w) (n : Nat) : count map n ≤ n :=
  Nat.count_le _

theorem count_congr {map map' : Nat → BitVec w} {n : Nat} (h : ∀ k < n, bit map k = bit map' k) :
    count map n = count map' n := by
  induction n with
  | zero => rfl
  | succ n ih =>
    have hlow := ih fun k hk => h k (hk.trans (Nat.lt_succ_self n))
    unfold count at hlow ⊢
    rw [Nat.count_succ, Nat.count_succ, hlow, h n (Nat.lt_succ_self n)]

theorem count_full {map : Nat → BitVec w} {n : Nat} (h : ∀ k < n, bit map k = true) :
    count map n = n :=
  Nat.count_of_forall fun {k} hk => h k hk

/-- What is in the set and what is missing make all of it. -/
theorem count_add_clear {map : Nat → BitVec w} {p : Nat → Prop} [DecidablePred p] {n : Nat}
    (h : ∀ k < n, p k ↔ bit map k = false) : count map n + Nat.count p n = n := by
  induction n with
  | zero => rfl
  | succ n ih =>
    have hlow := ih fun k hk => h k (hk.trans (Nat.lt_succ_self n))
    have hlast := h n (Nat.lt_succ_self n)
    unfold count at hlow ⊢
    rw [Nat.count_succ, Nat.count_succ]
    by_cases hbit : bit map n = false
    · rw [if_pos (hlast.mpr hbit), if_neg (by simp [hbit])]
      omega
    · rw [if_neg fun hp => hbit (hlast.mp hp), if_pos (by simpa using hbit)]
      omega

/-- Putting in a number that was missing. -/
theorem count_set (hw : 0 < w) {map : Nat → BitVec w} {k n : Nat} (hclear : bit map k = false)
    (hk : k < n) : count (set map k) n = count map n + 1 := by
  induction n with
  | zero => exact absurd hk (Nat.not_lt_zero k)
  | succ n ih =>
    rcases Nat.lt_succ_iff_lt_or_eq.mp hk with hlt | rfl
    · have hlow := ih hlt
      have hne : n ≠ k := by omega
      unfold count at hlow ⊢
      rw [Nat.count_succ, Nat.count_succ, hlow, bit_set hw, decide_eq_false hne, Bool.false_or]
      omega
    · have hlow : count (set map k) k = count map k := by
        refine count_congr fun j hj => ?_
        rw [bit_set hw, decide_eq_false hj.ne, Bool.false_or]
      unfold count at hlow ⊢
      rw [Nat.count_succ, Nat.count_succ, hlow, bit_set hw]
      simp [hclear]

/-- Taking out a number that was there. -/
theorem count_unset (hw : 0 < w) {map : Nat → BitVec w} {k n : Nat} (hset : bit map k = true)
    (hk : k < n) : count (unset map k) n + 1 = count map n := by
  have hback : count (set (unset map k) k) n = count map n := by
    refine count_congr fun j _ => ?_
    rw [bit_set hw, bit_unset hw]
    by_cases hj : j = k
    · simp [hj, hset]
    · simp [hj]
  rw [← hback, count_set hw (by simp [bit_unset hw]) hk]

end Bitmap
end UntitledOS.Lib
