import UntitledOS.Y.StringPairs

/-! Programs over strings, and what they mean.

A program is a list of calls on numbered variables. `step` carries a call out on the
model of the class; `Call.apply` says what the call is for, on variables that hold
lists of characters. A new object gets a variable that the call does not read. -/
namespace UntitledOS.Y
open Lib

/-- `operator<<` is `append` of a character and `+=` of a string is `append` of a string.
The characters of a C string are those in front of its terminator; `after` is the memory
behind a character that `+=` takes the address of. -/
inductive Call where
  | default (x : Nat)
  | ofCStr (x : Nat) (str : List u8)
  | copy (x y : Nat)
  | assign (x y : Nat)
  | appendChar (x : Nat) (value : u8)
  | append (x y : Nat)
  | reserve (x : Nat) (capacity : u32)
  | pop_back (x : Nat)
  | clear (x : Nat)
  | toUpper (r x : Nat)
  | split (r x : Nat) (delim : u8)
  | c_str (x : Nat)
  | addChar (x : Nat) (value : u8) (after : List u8)
  | addInt (x : Nat) (n : u32)
  | plus (r x y : Nat)
  | eq (x y : Nat)

/-- A call, and what its allocations find in memory. -/
structure Event where
  call : Call
  fresh : Nat → Nat → u8

/-- Variables `r`, `r + 1` and so on get new values. -/
def updateFrom {α : Type*} (r : Nat) : List α → (Nat → α) → Nat → α
  | [], v => v
  | a :: as, v => updateFrom (r + 1) as (Function.update v r a)

/-- A call on a string alone, which changes it. -/
def Vars.change (x : Nat) (f : String → Option String) (v : Vars) : Option Vars :=
  (f (v x)).map fun s => v.set x s

/-- No variable holds anything yet. -/
def Vars.start : Vars := fun _ => .default

def step (v : Vars) (e : Event) : Option Vars :=
  match e.call with
  | .default x => some (v.set x .default)
  | .ofCStr x str => (String.ofCStr (e.fresh 0) str).map fun s => v.set x s
  | .copy x y => v.copy (e.fresh 0) x y
  | .assign x y => v.assign (e.fresh 0) x y
  | .appendChar x value => v.change x (·.append (e.fresh 0) value)
  | .append x y => v.append e.fresh x y
  | .reserve x capacity => v.change x (·.reserve (e.fresh 0) capacity.toNat)
  | .pop_back x => v.change x (·.pop_back)
  | .clear x => v.change x (·.clear)
  | .toUpper r x => ((v x).toUpper e.fresh).map fun s => v.set r s
  | .split r x delim => ((v x).split e.fresh delim).map fun ss => updateFrom r ss v
  | .c_str x => v.change x (·.c_str)
  | .addChar x value after => v.addChar e.fresh x value after
  | .addInt x n => v.change x (·.addInt e.fresh n)
  | .plus r x y => v.plus e.fresh r x y
  | .eq x y => (v.eq x y).map fun _ => v

/-- A sum is a new object, neither of its operands. -/
def Call.Proper : Call → Prop
  | .plus r x y => r ≠ x ∧ r ≠ y
  | _ => True

instance (c : Call) : Decidable c.Proper := by
  cases c <;> unfold Call.Proper <;> infer_instance

/-! ### Lists of characters -/

/-- What the variables of a program are meant to hold. -/
abbrev Texts := Nat → List u8

/-- A number in decimal. -/
def decimal (n : u32) : List u8 := (toString n.toInt).toList.map fun c => BitVec.ofNat 8 c.toNat

/-- What a call is for. -/
def Call.apply (t : Texts) : Call → Texts
  | .default x => Function.update t x []
  | .ofCStr x str => Function.update t x str
  | .copy x y => Function.update t x (t y)
  | .assign x y => Function.update t x (t y)
  | .appendChar x value => Function.update t x (t x ++ [value])
  | .append x y => Function.update t x (t x ++ t y)
  | .reserve _ _ => t
  | .pop_back x => Function.update t x (t x).dropLast
  | .clear x => Function.update t x []
  | .toUpper r x => Function.update t r ((t x).map String.upper)
  | .split r x delim => updateFrom r (String.tokens delim (t x)) t
  | .c_str _ => t
  | .addChar x value _ => Function.update t x (t x ++ [value])
  | .addInt x n => Function.update t x (t x ++ decimal n)
  | .plus r x y => Function.update t r (t x ++ t y)
  | .eq _ _ => t

/-! ### `itoa` -/

theorem digitChar_eq {d : Nat} (h : d < 10) :
    BitVec.ofNat 8 d.digitChar.toNat = BitVec.ofInt 8 ((d : Int) + 48) := by
  interval_cases d <;> rfl

/-- The digits come out last one first. -/
theorem digits_eq (fuel : Nat) {n : Nat} (h : n < 10 ^ fuel) (hfuel : 0 < fuel) :
    String.digits fuel n = ((Nat.toDigits 10 n).map fun c => BitVec.ofNat 8 c.toNat).reverse := by
  induction fuel generalizing n with
  | zero => exact absurd hfuel (lt_irrefl 0)
  | succ fuel ih =>
    have hmod : (n : Int).tmod 10 = ((n % 10 : Nat) : Int) := by
      rw [Int.tmod_eq_emod_of_nonneg (Int.natCast_nonneg n)]
      rfl
    have hdiv : (n : Int).tdiv 10 = ((n / 10 : Nat) : Int) := by
      rw [Int.tdiv_eq_ediv_of_nonneg (Int.natCast_nonneg n)]
      rfl
    rw [String.digits, hmod, hdiv, ← digitChar_eq (Nat.mod_lt n (by decide))]
    by_cases hlt : n < 10
    · rw [if_neg (by omega), Nat.toDigits_of_lt_base hlt, Nat.mod_eq_of_lt hlt]
      rfl
    · have hsmall : n / 10 < 10 ^ fuel := by
        rw [Nat.div_lt_iff_lt_mul (by decide), ← pow_succ]
        exact h
      have hpos : 0 < fuel := by
        rcases Nat.eq_zero_or_pos fuel with rfl | hpos
        · omega
        · exact hpos
      rw [if_pos (by omega), ih hsmall hpos, Nat.toDigits_of_base_le (by decide) (Nat.not_lt.mp hlt),
        List.map_append, List.reverse_append]
      rfl

/-- `itoa` writes a number in decimal, except the least `int`. -/
theorem itoa_eq {n : u32} (hn : n ≠ 0x80000000) : String.itoa n = decimal n := by
  have hlo := n.le_toInt
  have hhi := n.toInt_lt
  have hneg : n.toInt ≠ -2147483648 := by
    intro h
    apply hn
    rw [← BitVec.ofInt_toInt (x := n), h]
    rfl
  simp only [String.itoa, decimal]
  rw [Int.toString_eq_repr, Int.repr_eq_if]
  split
  · rename_i hsign
    obtain ⟨m, hm⟩ : ∃ m : Nat, -n.toInt = m := Int.eq_ofNat_of_zero_le (by omega)
    have hcast : (-n).toInt = (m : Int) := by
      rw [BitVec.toInt_neg, Int.bmod_eq_of_le (by omega) (by omega), hm]
    rw [if_neg (by omega), hcast, hm, digits_eq 10 (by omega) (by decide), List.reverse_append,
      List.reverse_reverse, String.toList_append, List.map_append, Int.toNat_natCast, Nat.toList_repr]
    rfl
  · obtain ⟨m, hm⟩ : ∃ m : Nat, n.toInt = m := Int.eq_ofNat_of_zero_le (by omega)
    rw [if_pos (by omega), hm, digits_eq 10 (by omega) (by decide), List.append_nil,
      List.reverse_reverse, Int.toNat_natCast, Nat.toList_repr]

/-- No number takes more than eleven characters. -/
theorem itoa_length (n : u32) : (String.itoa n).length ≤ 11 := by
  have hdigits : ∀ fuel (m : Int), (String.digits fuel m).length ≤ fuel := by
    intro fuel
    induction fuel with
    | zero => exact fun m => le_refl 0
    | succ fuel ih =>
      intro m
      rw [String.digits, List.length_cons]
      split
      · exact Nat.succ_le_succ (ih _)
      · exact Nat.succ_le_succ (Nat.zero_le _)
  unfold String.itoa
  rw [List.length_reverse, List.length_append]
  have hsign : (if n.toInt < 0 then [(0x2d : u8)] else []).length ≤ 1 := by
    split <;> simp
  exact Nat.add_le_add (hdigits 10 _) hsign

end UntitledOS.Y
