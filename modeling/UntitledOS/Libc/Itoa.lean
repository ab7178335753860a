import UntitledOS.Lib.Numeral
import UntitledOS.Y.StringCalls

/-! The conversions of `itoa.cpp`, into memory.

A buffer is what lies behind the pointer; a store behind its end has no result, and neither
has a loop that does not stop. Both conversions find the last digit first and turn the
text round in place. `itoa` writes what `String` appends (`itoa_text`), which is exact but
for the least `int`; `__itoa` takes its number without sign. -/
-- the source calls one of them `__itoa`
set_option linter.style.nameCheck false

namespace UntitledOS.Libc
open Lib
open Numeral (Canonical numeral value)
open Y (String)

/-- The characters in front of the terminator, counted. -/
def strlen : List u8 → Option Nat
  | [] => none
  | c :: str => if c = 0 then some 0 else (strlen str).map (· + 1)

/-- `j` starts at `strlen(s) - 1`, the last of the characters. -/
def reverse (s : List u8) : Option (List u8) := (strlen s).bind (Buffer.reverse s 0)

/-- `do { str[i++] = n % 10 + '0'; } while ((n /= 10) > 0);`, for ten turns at most. -/
def itoaLoop : Nat → Int → Nat → List u8 → Option (Nat × List u8)
  | 0, _, _, _ => none
  | fuel + 1, n, i, str => (Buffer.store str i (BitVec.ofInt 8 (n.tmod 10 + 48))).bind fun str =>
    if n.tdiv 10 > 0 then itoaLoop fuel (n.tdiv 10) (i + 1) str else some (i + 1, str)

/-- Negation wraps: that of the least `int`, which the language leaves undefined, gives itself. -/
def itoa (n : u32) (str : List u8) : Option (List u8) :=
  let m := if n.toInt < 0 then (-n).toInt else n.toInt
  (itoaLoop 10 m 0 str).bind fun r =>
    (if n.toInt < 0 then (Buffer.store r.2 r.1 0x2d).map fun str => (r.1 + 1, str) else some r).bind fun r =>
      (Buffer.store r.2 r.1 0).bind reverse

def bchars : List u8 := [
  0x30, 0x31, 0x32, 0x33, 0x34, 0x35, 0x36, 0x37, 0x38, 0x39, 0x41, 0x42, 0x43, 0x44, 0x45, 0x46]

/-- `while (i != 0)`. The `int` is divided without sign, since the base has none. -/
def __itoaLoop (base : u32) : Nat → u32 → Nat → List u8 → Option (Nat × List u8)
  | 0, _, _, _ => none
  | fuel + 1, i, pos, buf =>
    if i = 0 then some (pos, buf)
    else if base = 0 then none
    else bchars[(i % base).toNat]?.bind fun c => (Buffer.store buf pos c).bind fun buf =>
      __itoaLoop base fuel (i / base) (pos + 1) buf

/-- At most 32 digits, and a turn that sees there are no more. -/
def __itoa (i base : u32) (buf : List u8) : Option (List u8) :=
  if i = 0 ∨ base > 16 then (Buffer.store buf 0 0x30).bind fun buf => Buffer.store buf 1 0
  else (__itoaLoop base 33 i 0 buf).bind fun r => (Buffer.store r.2 r.1 0).bind reverse

/-! ### Strings in memory -/

theorem strlen_eq (str : List u8) : strlen str = (Buffer.cString str).map List.length := by
  induction str with
  | nil => rfl
  | cons c str ih =>
    rw [strlen, Buffer.cString_cons]
    split
    · rfl
    · rw [ih, Option.map_map, Option.map_map]
      rfl

theorem reverse_text {cs : List u8} (h : 0 ∉ cs) (rest : List u8) :
    reverse (cs ++ 0 :: rest) = some (cs.reverse ++ 0 :: rest) := by
  rw [reverse, strlen_eq, Buffer.cString_append h, Option.map_some, Option.bind_some]
  exact Buffer.reverse_eq [] cs (0 :: rest)

/-- Characters, last one first, a terminator behind them, and all of it turned round. -/
theorem stored_reverse {cs str : List u8} (h : 0 ∉ cs) (hlen : cs.length < str.length) :
    (Buffer.storeAll str 0 (cs.reverse ++ [0])).bind reverse = some (cs ++ 0 :: str.drop (cs.length + 1)) := by
  have hstore : Buffer.storeAll str 0 (cs.reverse ++ [0]) = some (cs.reverse ++ 0 :: str.drop (cs.length + 1)) := by
    rw [Buffer.storeAll_eq (by simp; omega)]
    simp
  rw [hstore, Option.bind_some, reverse_text (by simpa using h), List.reverse_reverse]

/-! ### Decimal -/

/-- The character of a decimal digit. -/
def digitText (d : Nat) : u8 := BitVec.ofNat 8 (d + 48)

theorem digits_ne_zero (fuel : Nat) (n : Int) : 0 ∉ String.digits fuel n := by
  induction fuel generalizing n with
  | zero => exact List.not_mem_nil
  | succ fuel ih =>
    have hlo : -10 < n.tmod 10 := Int.lt_tmod_of_pos n (by decide)
    have hhi : n.tmod 10 < 10 := Int.tmod_lt_of_pos n (by decide)
    have hchar : BitVec.ofInt 8 (n.tmod 10 + 48) ≠ 0 := by
      intro h
      have hzero := congrArg BitVec.toInt h
      rw [BitVec.toInt_ofInt, Int.bmod_eq_of_le (by omega) (by omega)] at hzero
      change n.tmod 10 + 48 = 0 at hzero
      omega
    rw [String.digits, List.mem_cons, not_or]
    refine ⟨hchar.symm, ?_⟩
    split
    · exact ih _
    · exact List.not_mem_nil

theorem itoa_ne_zero (n : u32) : 0 ∉ String.itoa n := by
  rw [String.itoa, List.mem_reverse, List.mem_append, not_or]
  refine ⟨digits_ne_zero _ _, ?_⟩
  split <;> decide

/-- The loop stores its digits one behind the other. -/
theorem itoaLoop_eq (fuel : Nat) {n : Int} {i : Nat} {str : List u8} (hn : n < 10 ^ fuel) (hfuel : 0 < fuel)
    (hstr : i + (String.digits fuel n).length ≤ str.length) :
    itoaLoop fuel n i str =
      (Buffer.storeAll str i (String.digits fuel n)).map fun str => (i + (String.digits fuel n).length, str) := by
  induction fuel generalizing n i str with
  | zero => exact absurd hfuel (lt_irrefl 0)
  | succ fuel ih =>
    rw [String.digits, List.length_cons] at hstr ⊢
    rw [itoaLoop, Buffer.storeAll, Buffer.store_eq (by omega), Option.bind_some, Option.bind_some]
    split
    · rename_i hmore
      rw [if_pos hmore] at hstr
      have hparts := Int.mul_tdiv_add_tmod n 10
      have hrest : -10 < n.tmod 10 := Int.lt_tmod_of_pos n (by decide)
      have hdiv : n.tdiv 10 = n / 10 := Int.tdiv_eq_ediv_of_nonneg (by omega)
      have hsmall : n.tdiv 10 < 10 ^ fuel := by
        rw [hdiv]
        rw [pow_succ] at hn
        omega
      have hpos : 0 < fuel := by
        by_contra hzero
        rw [show fuel = 0 by omega, pow_zero] at hsmall
        omega
      rw [ih hsmall hpos (by rw [List.length_set]; omega)]
      congr 1
      funext str
      rw [Nat.add_assoc, Nat.add_comm 1]
    · rfl

/-- The characters of `String`'s conversion, written into memory. -/
theorem itoa_text (n : u32) {str : List u8} (h : (String.itoa n).length < str.length) :
    itoa n str = some (String.itoa n ++ 0 :: str.drop ((String.itoa n).length + 1)) := by
  rw [← stored_reverse (itoa_ne_zero n) h]
  simp only [String.itoa, itoa, List.length_reverse, List.length_append] at h ⊢
  have hsmall : (if n.toInt < 0 then (-n).toInt else n.toInt) < 10 ^ 10 := by
    have hpos := n.toInt_lt
    have hneg := (-n).toInt_lt
    split <;> omega
  rw [itoaLoop_eq 10 hsmall (by decide) (by omega), List.reverse_reverse, List.append_assoc,
    Buffer.storeAll_append, Option.bind_map, Option.bind_assoc]
  congr 1
  funext str
  by_cases hsign : n.toInt < 0
  · simp [hsign, Buffer.storeAll, Option.bind_map, Option.bind_assoc]
  · simp [hsign, Buffer.storeAll]

/-- The text of a number: a `-` if it is negative, and its digits. -/
def Decimal (n : Int) (text : List u8) : Prop :=
  ∃ ds, Canonical 10 ds ∧ value 10 ds = n.natAbs ∧ text = (if n < 0 then [0x2d] else []) ++ ds.map digitText

def readDigit (c : u8) : Option Nat := if 0x30 ≤ c ∧ c ≤ 0x39 then some (c.toNat - 48) else none

/-- Digits read, at least one. -/
def readDigits (cs : List u8) : Option Nat := if cs = [] then none else (cs.mapM readDigit).map (value 10)

/-- A number read, with its sign. -/
def readInt : List u8 → Option Int
  | [] => none
  | c :: cs =>
    if c = 0x2d then (readDigits cs).map fun m : Nat => -(m : Int)
    else (readDigits (c :: cs)).map fun m : Nat => (m : Int)

theorem readDigit_digitText {d : Nat} (h : d < 10) : readDigit (digitText d) = some d := by
  revert d
  decide

/-- Neither the sign nor the terminator is a digit. -/
theorem digitText_ne {d : Nat} (h : d < 10) : digitText d ≠ 0x2d ∧ digitText d ≠ 0 := by
  revert d
  decide

theorem digitText_digitChar {d : Nat} (h : d < 10) : BitVec.ofNat 8 d.digitChar.toNat = digitText d := by
  revert d
  decide

theorem readDigits_digitText {ds : List Nat} (h : Canonical 10 ds) :
    readDigits (ds.map digitText) = some (value 10 ds) := by
  have hread : ∀ ds : List Nat, (∀ d ∈ ds, d < 10) → (ds.map digitText).mapM readDigit = some ds := by
    intro ds hds
    induction ds with
    | nil => rfl
    | cons d ds ih =>
      rw [List.map_cons, List.mapM_cons, readDigit_digitText (hds d (List.mem_cons_self ..)),
        ih fun d hd => hds d (List.mem_cons_of_mem _ hd)]
      rfl
  rw [readDigits, if_neg (by simpa using h.nonempty), hread ds h.digits, Option.map_some]

theorem Decimal.readInt {n : Int} {text : List u8} (h : Decimal n text) : readInt text = some n := by
  obtain ⟨ds, hds, hvalue, rfl⟩ := h
  have hread := readDigits_digitText hds
  by_cases hsign : n < 0
  · rw [if_pos hsign, List.singleton_append, Libc.readInt, if_pos rfl, hread, hvalue, Option.map_some]
    congr 1
    omega
  · rw [if_neg hsign, List.nil_append]
    cases ds with
    | nil => exact absurd rfl hds.nonempty
    | cons d ds =>
      have hchar : digitText d ≠ 0x2d := (digitText_ne (hds.digits d (List.mem_cons_self ..))).1
      rw [List.map_cons] at hread ⊢
      rw [Libc.readInt, if_neg hchar, hread, hvalue, Option.map_some]
      congr 1
      omega

theorem Decimal.ne_zero {n : Int} {text : List u8} (h : Decimal n text) : 0 ∉ text := by
  obtain ⟨ds, hds, -, rfl⟩ := h
  have hdigits : 0 ∉ ds.map digitText := by
    intro hzero
    obtain ⟨d, hd, heq⟩ := List.mem_map.mp hzero
    exact (digitText_ne (hds.digits d hd)).2 heq
  rw [List.mem_append, not_or]
  refine ⟨?_, hdigits⟩
  split <;> decide

/-- But for the least `int`, the text is the number's. -/
theorem decimal_itoa {n : u32} (hn : n ≠ 0x80000000) : Decimal n.toInt (String.itoa n) := by
  refine ⟨numeral 10 n.toInt.natAbs, Numeral.canonical_numeral (by decide) _, Numeral.value_numeral .., ?_⟩
  have hchars (m : Nat) : (Nat.toDigits 10 m).map (fun c => BitVec.ofNat 8 c.toNat) = (numeral 10 m).map digitText := by
    rw [Numeral.toDigits_eq (by decide), List.map_map]
    exact List.map_congr_left fun d hd =>
      digitText_digitChar ((Numeral.canonical_numeral (by decide) m).digits d hd)
  rw [Y.itoa_eq hn, Y.decimal, Int.toString_eq_repr, Int.repr_eq_if]
  split
  · rw [if_neg (by omega), Nat.toList_repr, hchars, List.nil_append]
    congr 2
    omega
  · rw [if_pos (by omega), String.toList_append, Nat.toList_repr, List.map_append, hchars]
    congr 3
    omega

/-- The string that `itoa` leaves. -/
theorem itoa_cString (n : u32) {str : List u8} (h : 12 ≤ str.length) :
    (itoa n str).bind Buffer.cString = some (String.itoa n) := by
  have hlen := Y.itoa_length n
  rw [itoa_text n (by omega), Option.bind_some, Buffer.cString_append (itoa_ne_zero n)]

/-- What `itoa` is for: the text of a number, which reads back as the number, and which it
writes for no other (the text of the least `int` depends on its negation). -/
def Exact (n : u32) : Prop :=
  ∃ text, Decimal n.toInt text ∧ text.length + 1 ≤ 12 ∧ readInt text = some n.toInt ∧
    (∀ str : List u8, text.length < str.length → itoa n str = some (text ++ 0 :: str.drop (text.length + 1))) ∧
    ∀ m ≠ n, m ≠ 0x80000000 → ∀ str : List u8, 12 ≤ str.length → (itoa m str).bind Buffer.cString ≠ some text

theorem Exact.readInt_itoa {n : u32} (h : Exact n) : readInt (String.itoa n) = some n.toInt := by
  obtain ⟨text, htext, hlen, hread, hwrites, -⟩ := h
  have hstr : text.length < (List.replicate 12 (0 : u8)).length := by
    rw [List.length_replicate]
    omega
  have hcString : (itoa n (List.replicate 12 0)).bind Buffer.cString = some (String.itoa n) :=
    itoa_cString n (by rw [List.length_replicate])
  rw [hwrites _ hstr, Option.bind_some, Buffer.cString_append htext.ne_zero, Option.some.injEq] at hcString
  rw [← hcString, hread]

theorem readInt_least : readInt (String.itoa 0x80000000) = none := by decide

/-- **Decimal conversion is exact, but for the least `int`.** -/
theorem exact_iff (n : u32) : Exact n ↔ n ≠ 0x80000000 := by
  constructor
  · rintro h rfl
    have hread := h.readInt_itoa
    rw [readInt_least] at hread
    exact absurd hread (by simp)
  · intro hn
    have htext := decimal_itoa hn
    refine ⟨String.itoa n, htext, Nat.succ_le_succ (Y.itoa_length n), htext.readInt, fun str => itoa_text n, ?_⟩
    intro m hm hleast str hstr heq
    rw [itoa_cString m hstr, Option.some.injEq] at heq
    have hread := (decimal_itoa hleast).readInt
    rw [heq, htext.readInt, Option.some.injEq] at hread
    exact hm (BitVec.eq_of_toInt_eq hread.symm)

/-- Where negation wraps, `n % 10` of the least `int` is -8, eight characters in front of `0`, and
the loop stops. -/
theorem least_not_exact :
    itoa 0x80000000 (List.replicate 12 0) = some ([0x2d, 0x28] ++ List.replicate 10 0) ∧ ¬Exact 0x80000000 := by
  refine ⟨by decide, fun h => ?_⟩
  have hread := h.readInt_itoa
  rw [readInt_least] at hread
  exact absurd hread (by simp)

/-! ### Other bases -/

/-- The characters of digits. -/
def chars (ds : List Nat) : List u8 := ds.map fun d => bchars.getD d 0

theorem getElem?_bchars {d : Nat} (h : d < 16) : bchars[d]? = some (bchars.getD d 0) := by
  revert d
  decide

theorem bchars_ne_zero {d : Nat} (h : d < 16) : bchars.getD d 0 ≠ 0 := by
  revert d
  decide

theorem chars_ne_zero {ds : List Nat} (h : ∀ d ∈ ds, d < 16) : 0 ∉ chars ds := by
  intro hzero
  obtain ⟨d, hd, heq⟩ := List.mem_map.mp hzero
  exact bchars_ne_zero (h d hd) heq

theorem chars_append_singleton (ds : List Nat) (d : Nat) :
    (chars (ds ++ [d])).reverse = bchars.getD d 0 :: (chars ds).reverse := by
  rw [chars, List.map_append, List.map_singleton, List.reverse_append, List.reverse_singleton,
    List.singleton_append, chars]

section Base
variable {base : u32}

/-- The loop stores the digits of what is left, the last one first, and stops behind the first one. -/
theorem __itoaLoop_eq (hlo : 2 ≤ base) (hhi : base ≤ 16) (fuel : Nat) {i : u32} {pos : Nat} {buf : List u8}
    (hi : i ≠ 0) (hfuel : i.toNat < base.toNat ^ fuel)
    (hbuf : pos + (numeral base.toNat i.toNat).length ≤ buf.length) :
    __itoaLoop base (fuel + 1) i pos buf =
      (Buffer.storeAll buf pos (chars (numeral base.toNat i.toNat)).reverse).map fun buf =>
        (pos + (numeral base.toNat i.toNat).length, buf) := by
  have hbase : 1 < base.toNat := hlo
  have hpos : i.toNat ≠ 0 := fun h => hi (BitVec.eq_of_toNat_eq h)
  induction fuel generalizing i pos buf with
  | zero =>
    rw [pow_zero] at hfuel
    omega
  | succ fuel ih =>
    have hdigit : (i % base).toNat < 16 := by
      rw [BitVec.toNat_umod]
      exact lt_of_lt_of_le (Nat.mod_lt _ (by omega)) hhi
    have hzero : base ≠ 0 := by
      rintro rfl
      exact absurd hlo (by decide)
    have hroom : pos < buf.length := by
      have := List.length_pos_iff.mpr (Numeral.canonical_numeral hbase i.toNat).nonempty
      omega
    rw [__itoaLoop, if_neg hi, if_neg hzero, getElem?_bchars hdigit, Option.bind_some, Buffer.store_eq hroom,
      Option.bind_some, BitVec.toNat_umod]
    by_cases hlt : i.toNat < base.toNat
    · have hrest : i / base = 0 := by
        apply BitVec.eq_of_toNat_eq
        rw [BitVec.toNat_udiv, Nat.div_eq_of_lt hlt]
        rfl
      rw [hrest, __itoaLoop, if_pos rfl, Numeral.numeral_of_lt hlt, Nat.mod_eq_of_lt hlt]
      simp [chars, Buffer.storeAll, Buffer.store_eq hroom]
    · have hle : base.toNat ≤ i.toNat := Nat.not_lt.mp hlt
      have hdiv : (i / base).toNat = i.toNat / base.toNat := BitVec.toNat_udiv ..
      have hmore : (i / base).toNat ≠ 0 := by
        rw [hdiv]
        exact (Nat.div_pos hle (by omega)).ne'
      have hsmall : (i / base).toNat < base.toNat ^ fuel := by
        rw [hdiv, Nat.div_lt_iff_lt_mul (by omega), ← pow_succ]
        exact hfuel
      rw [Numeral.numeral_of_le hbase hle, List.length_append, List.length_singleton] at hbuf ⊢
      rw [← hdiv] at hbuf ⊢
      rw [ih (fun h => hmore (by rw [h]; rfl)) hsmall (by rw [List.length_set]; omega) hmore, chars_append_singleton,
        Buffer.storeAll, Buffer.store_eq hroom, Option.bind_some]
      congr 1
      funext buf
      rw [Nat.add_assoc, Nat.add_comm 1]

theorem numeral_ne_zero (hlo : 2 ≤ base) (hhi : base ≤ 16) (i : u32) : 0 ∉ chars (numeral base.toNat i.toNat) :=
  chars_ne_zero fun d hd => lt_of_lt_of_le ((Numeral.canonical_numeral hlo _).digits d hd) hhi

/-- The digits, the terminator, and what lies behind them as before. -/
theorem __itoa_text (i : u32) (hlo : 2 ≤ base) (hhi : base ≤ 16) {buf : List u8}
    (hbuf : (numeral base.toNat i.toNat).length < buf.length) :
    __itoa i base buf =
      some (chars (numeral base.toNat i.toNat) ++ 0 :: buf.drop ((numeral base.toNat i.toNat).length + 1)) := by
  have hbase : 1 < base.toNat := hlo
  by_cases hi : i = 0
  · subst hi
    have hzero : numeral base.toNat (0 : u32).toNat = [0] := if_pos rfl
    have hroom : 0 + ([0x30, 0] : List u8).length ≤ buf.length := by
      rw [hzero] at hbuf
      exact hbuf
    have hstore := Buffer.storeAll_eq hroom
    rw [__itoa, if_pos (Or.inl rfl), hzero]
    simpa [Buffer.storeAll, chars, bchars] using hstore
  · have hsmall : i.toNat < base.toNat ^ 32 := lt_of_lt_of_le i.isLt (Nat.pow_le_pow_left hbase 32)
    have hsigned : ¬(i = 0 ∨ base > 16) := by
      rintro (h | h)
      · exact hi h
      · exact absurd hhi (BitVec.not_le.mpr h)
    have hlen : (chars (numeral base.toNat i.toNat)).length = (numeral base.toNat i.toNat).length := List.length_map ..
    have hstored := stored_reverse (numeral_ne_zero hlo hhi i) (hlen ▸ hbuf)
    rw [hlen] at hstored
    rw [← hstored, __itoa, if_neg hsigned, __itoaLoop_eq hlo hhi 32 hi hsmall (by omega), Option.bind_map,
      Buffer.storeAll_append, Option.bind_assoc]
    congr 1
    funext buf
    simp [Buffer.storeAll, hlen]

/-- **Based conversion is exact**: the digits of the number without sign, and nothing else written
but the terminator. -/
theorem __itoa_exact (i : u32) (hlo : 2 ≤ base) (hhi : base ≤ 16) :
    ∃ ds, Canonical base.toNat ds ∧ value base.toNat ds = i.toNat ∧ ds.length + 1 ≤ 33 ∧
      ∀ buf : List u8, ds.length < buf.length →
        __itoa i base buf = some (chars ds ++ 0 :: buf.drop (ds.length + 1)) := by
  have hbase : 1 < base.toNat := hlo
  have hsmall : i.toNat < base.toNat ^ 32 := lt_of_lt_of_le i.isLt (Nat.pow_le_pow_left hbase 32)
  have hlen := Numeral.length_numeral_le hbase (by decide) hsmall
  exact ⟨numeral base.toNat i.toNat, Numeral.canonical_numeral hbase _, Numeral.value_numeral .., Nat.succ_le_succ hlen,
    fun buf hbuf => __itoa_text i hlo hhi hbuf⟩

theorem __itoa_exact_hex :
    ∃ ds, Canonical 16 ds ∧ value 16 ds = 0xffffff85 ∧ ds.length + 1 ≤ 33 ∧
      ∀ buf : List u8, ds.length < buf.length →
        __itoa (-123) 16 buf = some (chars ds ++ 0 :: buf.drop (ds.length + 1)) :=
  __itoa_exact (-123) (show (2 : u32) ≤ 16 by decide) (show (16 : u32) ≤ 16 by decide)

end Base

end UntitledOS.Libc
