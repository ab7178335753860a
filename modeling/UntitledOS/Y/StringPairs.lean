import UntitledOS.Y.StringSpec

/-! What the operations on two strings do.

Copying, assigning and appending read their argument through `c_str`, so the argument
comes out `terminated`, and everything depends on whether the two variables are one.
Appending a string to itself reads the characters it has just overwritten with the
terminator: the result is the string twice only where that changes nothing
(`append_self`). -/
namespace UntitledOS.Y
open Lib

/-- A string of `n` characters finds room: in a new buffer, or in the old one if the
capacity is more than enough. -/
def String.CanAppend (n : Nat) (s : String) : Prop :=
  if s.m_size + n ≥ s.m_capacity then s.m_size + n ≤ 4096 else s.m_size + n ≤ s.buffer.length

instance (n : Nat) (s : String) : Decidable (s.CanAppend n) := by
  unfold String.CanAppend
  infer_instance

/-- The shape that appending `n` characters leads to, with `m` counted again for the
capacity. -/
def String.appended (n m : Nat) (s : String) : Shape :=
  ⟨s.m_size + n, s.m_size + n + m, if s.m_size + n ≥ s.m_capacity then s.m_size + n else s.buffer.length⟩

namespace Vars

section Set
variable (v : Vars) {x y : Nat} (s t : String)

@[simp] theorem set_self : v.set x s x = s := Function.update_self ..

theorem set_ne (h : y ≠ x) : v.set x s y = v y := Function.update_of_ne h ..

theorem set_set : (v.set x s).set x t = v.set x t := Function.update_idem ..

theorem set_comm (h : x ≠ y) : (v.set x s).set y t = (v.set y t).set x s :=
  Function.update_comm h ..

/-- The last writes to two variables are what counts. -/
theorem set_again (h : x ≠ y) (s' t' : String) :
    (((v.set y t').set x s').set y t).set x s = (v.set y t).set x s := by
  rw [set_comm _ _ _ h, set_set, set_set]

theorem set_eq_self : v.set x (v x) = v := Function.update_eq_self ..

end Set

variable {v : Vars} {x y : Nat}

/-! ### Copying and assigning -/

theorem copy_eq (fresh : Nat → u8) (x : Nat) (hlt : (v y).m_size < (v y).buffer.length)
    (hpage : (v y).buffer.length ≤ 4096) :
    v.copy fresh x y = some ((v.set y (v y).terminated).set x (.ofChars (v y).value)) := by
  rw [copy, String.copyOf_eq fresh hlt hpage]
  rfl

theorem assign_eq (fresh : Nat → u8) (hxy : x ≠ y) (hlt : (v y).m_size < (v y).buffer.length)
    (hpage : (v y).buffer.length ≤ 4096) :
    v.assign fresh x y = some ((v.set y (v y).terminated).set x (.ofChars (v y).value)) := by
  have hnew := newChars_length fresh (show (v y).m_size + 1 ≤ 4096 by omega)
  have hlen := String.value_length (Nat.le_of_lt hlt)
  have hvalue : (v y).terminated.buffer.take (v y).m_size = (v y).value := (v y).terminated_value
  have hbuffer : (v y).terminated.buffer.length = (v y).buffer.length := List.length_set
  have hterm : Buffer.store ((v y).value ++ (newChars fresh ((v y).m_size + 1)).drop (v y).m_size)
      (v y).value.length 0 = some ((v y).value ++ [0]) :=
    String.terminate (by rw [List.length_drop]; omega)
  rw [hlen] at hterm
  simp only [assign]
  rw [set_ne _ _ hxy.symm, String.c_str_eq hlt, Option.bind_some, set_self, set_ne _ _ hxy, set_self,
    Buffer.copy_front (by omega) (by dsimp only; omega), hvalue, Option.bind_some, hterm,
    Option.map_some, String.ofChars, hlen, set_comm _ _ _ hxy, set_set]

/-- Assigning a string to itself keeps its size, and nothing else. -/
theorem assign_self (fresh : Nat → u8) (h : (v x).m_size + 1 ≤ 4096) :
    ∃ s : String, v.assign fresh x x = some (v.set x s) ∧
      s.shape = ⟨(v x).m_size, (v x).m_size, (v x).m_size + 1⟩ := by
  have hnew := newChars_length fresh h
  have hlen : ((newChars fresh ((v x).m_size + 1)).set (v x).m_size 0).length = (v x).m_size + 1 := by
    rw [List.length_set, hnew]
  have hstr : String.c_str ⟨newChars fresh ((v x).m_size + 1), (v x).m_capacity, (v x).m_size⟩ =
      some ⟨(newChars fresh ((v x).m_size + 1)).set (v x).m_size 0, (v x).m_capacity, (v x).m_size⟩ :=
    String.c_str_eq (by rw [hnew]; exact Nat.lt_succ_self _)
  simp only [assign, set_self]
  rw [hstr, Option.bind_some, Buffer.copy_front (by rw [hlen]; omega) (by rw [hlen]; omega),
    Option.bind_some, Buffer.store_eq (by simp [hnew]), Option.map_some, set_set, set_set]
  exact ⟨_, rfl, by simp [String.shape, hnew]⟩

/-! ### Appending another string -/

/-- The loop of `append`, from another string. -/
theorem appendFrom_spec (fresh : Nat → Nat → u8) (hxy : x ≠ y) (n : Nat) {i : Nat} {v : Vars}
    (hy : 0 < n → (v y).m_size < (v y).buffer.length) (hpage : (v y).buffer.length ≤ 4096)
    (hread : i + n ≤ (v y).m_size) (hroom : (v x).m_size + i + n ≤ (v x).buffer.length) :
    ∃ s t : String, appendFrom fresh x y i n v = some ((v.set y t).set x s) ∧
      t.value = (v y).value ∧ t.shape = (v y).shape ∧ s.shape = (v x).shape ∧
      s.buffer.take ((v x).m_size + i + n) =
        (v x).buffer.take ((v x).m_size + i) ++ ((v y).value.drop i).take n := by
  induction n generalizing i v with
  | zero =>
    refine ⟨v x, v y, ?_, rfl, rfl, rfl, by simp⟩
    rw [appendFrom, set_eq_self, set_eq_self]
  | succ n ih =>
    have hlt := hy (Nat.succ_pos n)
    have hlen := String.value_length (Nat.le_of_lt hlt)
    have hi : i < (v y).value.length := by omega
    have hchar : (String.ofChars (v y).value).buffer[i]? = some (v y).value[i] := by
      rw [String.ofChars, List.getElem?_append_left hi, List.getElem?_eq_getElem hi]
    obtain ⟨hsize, _, hbuffer⟩ := Shape.mk.inj (v y).terminated_shape
    -- the state after one turn
    let s₁ : String := {v x with buffer := (v x).buffer.set ((v x).m_size + i) (v y).value[i]}
    let v₁ : Vars := (v.set y (v y).terminated).set x s₁
    have hx₁ : v₁ x = s₁ := set_self ..
    have hy₁ : v₁ y = (v y).terminated := by
      rw [show v₁ y = _ from set_ne _ _ hxy.symm, set_self]
    have hs₁ : s₁.buffer.length = (v x).buffer.length := List.length_set
    obtain ⟨s, t, heq, htvalue, htshape, hsshape, htake⟩ := ih (i := i + 1) (v := v₁)
      (by rw [hy₁]; omega) (by rw [hy₁]; omega) (by rw [hy₁]; omega)
      (by rw [hx₁, hs₁]; show (v x).m_size + _ + _ ≤ _; omega)
    rw [hx₁, hy₁] at htake
    rw [hy₁, String.terminated_value] at htvalue
    rw [hy₁, String.terminated_shape] at htshape
    rw [hx₁] at hsshape
    refine ⟨s, t, ?_, htvalue, htshape, ?_, ?_⟩
    · rw [appendFrom, String.copyOf_eq _ hlt hpage, Option.bind_some, hchar, Option.bind_some,
        set_ne _ _ hxy, Buffer.store_eq (by omega), Option.bind_some]
      show appendFrom fresh x y (i + 1) n v₁ = _
      rw [heq, set_again _ _ _ hxy]
    · rw [hsshape]
      simp [String.shape, s₁]
    · have hstep : s₁.buffer.take ((v x).m_size + (i + 1)) =
          (v x).buffer.take ((v x).m_size + i) ++ [(v y).value[i]] := by
        show ((v x).buffer.set ((v x).m_size + i) (v y).value[i]).take ((v x).m_size + i + 1) = _
        rw [List.take_succ_eq_append_getElem (by simp; omega), List.getElem_set_self,
          List.take_set_of_le (le_refl _)]
      have hsum : (v x).m_size + i + (n + 1) = s₁.m_size + (i + 1) + n := by
        show _ = (v x).m_size + (i + 1) + n
        omega
      rw [hsum, htake, show s₁.m_size = (v x).m_size from rfl, hstep, String.terminated_value,
        List.drop_eq_getElem_cons hi, List.take_succ_cons, List.append_assoc]
      rfl

/-- The buffer `append` works in: the old one, or one reserved for exactly the result. -/
theorem appendBuffer (fresh : Nat → u8) {s : String} {len : Nat} (hv : s.shape.Valid 4096)
    (hroom : s.CanAppend len) :
    ∃ s', (if s.m_size + len ≥ s.m_capacity then s.reserve fresh (s.m_size + len) else some s) = some s' ∧
      s'.value = s.value ∧ s'.m_size = s.m_size ∧
      s'.buffer.length = (if s.m_size + len ≥ s.m_capacity then s.m_size + len else s.buffer.length) ∧
      s.m_size + len ≤ s'.buffer.length ∧ s'.buffer.length ≤ 4096 := by
  unfold String.CanAppend at hroom
  split at hroom
  · rename_i hfull
    obtain ⟨s', hs', hvalue, hshape⟩ :=
      s.reserve_spec fresh (n := s.m_size + len) hv.memory (Nat.le_add_right _ _) (.inl hroom)
    rw [if_pos hroom] at hshape
    obtain ⟨hsize, _, hlength⟩ := Shape.mk.inj hshape
    exact ⟨s', by rw [if_pos hfull]; exact hs', hvalue, hsize, by rw [if_pos hfull, hlength],
      by omega, by omega⟩
  · rename_i hfree
    exact ⟨s, if_neg hfree, rfl, rfl, by rw [if_neg hfree], hroom, hv.limit⟩

theorem reserve_set {c : Prop} [Decidable c] {q : Option String} {r : String}
    (hr : (if c then q else some (v x)) = some r) :
    (if c then q.map fun s => v.set x s else some v) = some (v.set x r) := by
  split at hr
  · rename_i hc
    rw [if_pos hc, hr]
    rfl
  · rename_i hc
    rw [if_neg hc, ← Option.some.inj hr, set_eq_self]

/-- `append` of another string. -/
theorem append_spec (fresh : Nat → Nat → u8) (hxy : x ≠ y) (hx : (v x).shape.Valid 4096)
    (hy : (v y).shape.Valid 4096) (hterm : 0 < (v y).m_size → (v y).m_size < (v y).buffer.length)
    (hroom : (v x).CanAppend (v y).m_size) :
    ∃ s t : String, v.append fresh x y = some ((v.set y t).set x s) ∧
      t.value = (v y).value ∧ t.shape = (v y).shape ∧ s.value = (v x).value ++ (v y).value ∧
      s.shape = (v x).appended (v y).m_size (v y).m_size := by
  obtain ⟨r, hr, hvalue, hsize, hlength, hfits, -⟩ := appendBuffer (fresh (v y).m_size) hx hroom
  have hstart := reserve_set hr
  have hyr : v.set x r y = v y := set_ne _ _ hxy.symm
  have hxr : v.set x r x = r := set_self ..
  have hlen := String.value_length hy.memory
  obtain ⟨s, t, heq, htvalue, htshape, hsshape, htake⟩ := appendFrom_spec fresh hxy (v y).m_size
    (i := 0) (v := v.set x r) (by rw [hyr]; exact hterm) (by rw [hyr]; exact hy.limit)
    (by rw [hyr]; omega) (by rw [hxr]; omega)
  rw [hxr, hyr, hsize] at htake
  rw [hyr] at htvalue htshape
  rw [hxr] at hsshape
  obtain ⟨hssize, _, hslength⟩ := Shape.mk.inj hsshape
  obtain ⟨htsize, _, _⟩ := Shape.mk.inj htshape
  refine ⟨⟨s.buffer, (v x).m_size + (v y).m_size + (v y).m_size, (v x).m_size + (v y).m_size⟩, t, ?_,
    htvalue, htshape, ?_, ?_⟩
  · simp only [append]
    rw [hstart, Option.bind_some, heq, Option.map_some, set_self, set_ne _ _ hxy.symm, set_self,
      set_self, set_ne _ _ hxy.symm, set_ne _ _ hxy.symm, set_self, hssize, hsize, htsize, set_set,
      set_set, set_comm _ _ _ hxy, set_set]
  · show s.buffer.take ((v x).m_size + (v y).m_size) = _
    simp only [Nat.add_zero, List.drop_zero] at htake
    rw [htake, List.take_of_length_le (Nat.le_of_eq hlen), ← hvalue, ← hsize]
    rfl
  · rw [String.shape, hslength, hlength]
    rfl

/-! ### Appending a string to itself -/

/-- What is behind the characters `cs` after the first `i` turns of appending them to
themselves. -/
def echo (cs : List u8) (i : Nat) : List u8 := if i = 1 then cs.take 1 else ((0 : u8) :: cs.tail).take i

/-- One turn writes the terminator over the first character, and adds the next. -/
theorem echo_succ {cs : List u8} {i : Nat} (hi : i < cs.length) :
    echo cs (i + 1) = (echo cs i).set 0 0 ++ [cs[i]] := by
  obtain ⟨c, cs, rfl⟩ := List.exists_cons_of_length_pos (Nat.zero_lt_of_lt hi)
  match i with
  | 0 => rfl
  | 1 =>
    have h : 0 < cs.length := Nat.lt_of_succ_lt_succ hi
    simp [echo, List.take_one, List.head?_eq_getElem?, List.getElem?_eq_getElem h]
  | i + 2 =>
    have h : i + 1 < cs.length := Nat.lt_of_succ_lt_succ hi
    rw [echo, echo, if_neg (by omega), if_neg (by omega)]
    show 0 :: cs.take (i + 1 + 1) = 0 :: (cs.take (i + 1) ++ [cs[i + 1]])
    rw [List.take_succ_eq_append_getElem h]

/-- Nothing is lost of one character, nor of a terminator. -/
theorem echo_eq {cs : List u8} (h : cs.length ≤ 1 ∨ cs[0]? = some 0) : echo cs cs.length = cs := by
  match cs with
  | [] => rfl
  | [c] => rfl
  | c :: d :: cs =>
    have hc : c = 0 := by
      rcases h with h | h
      · simp at h
      · exact Option.some.inj h
    rw [hc, echo, if_neg (by simp), List.tail_cons, List.take_of_length_le (by simp)]

/-- The loop of `append`, on the string itself. -/
theorem appendFrom_self (fresh : Nat → Nat → u8) (cs : List u8) (m : Nat) {i : Nat} {v : Vars}
    (hsize : (v x).m_size = cs.length) (hpage : (v x).buffer.length ≤ 4096)
    (hroom : cs.length + cs.length ≤ (v x).buffer.length) (hturns : i + m = cs.length)
    (hbuffer : (v x).buffer.take (cs.length + i) = cs ++ echo cs i) :
    ∃ s : String, appendFrom fresh x x i m v = some (v.set x s) ∧ s.shape = (v x).shape ∧
      s.buffer.take (cs.length + cs.length) = cs ++ echo cs cs.length := by
  induction m generalizing i v with
  | zero =>
    obtain rfl : i = cs.length := hturns
    exact ⟨v x, by rw [appendFrom, set_eq_self], rfl, hbuffer⟩
  | succ m ih =>
    have hi : i < cs.length := by omega
    have hvalue : (v x).value = cs := by
      have := congrArg (List.take cs.length) hbuffer
      rwa [List.take_take, Nat.min_eq_left (Nat.le_add_right _ _), List.take_left, ← hsize] at this
    have hchar : (String.ofChars cs).buffer[i]? = some cs[i] := by
      rw [String.ofChars, List.getElem?_append_left hi, List.getElem?_eq_getElem hi]
    -- the string after one turn
    let s₁ : String :=
      ⟨((v x).buffer.set cs.length 0).set (cs.length + i) cs[i], (v x).m_capacity, cs.length⟩
    have hx₁ : v.set x s₁ x = s₁ := set_self ..
    have hs₁ : s₁.buffer.length = (v x).buffer.length := by simp [s₁]
    have hnext : s₁.buffer.take (cs.length + (i + 1)) = cs ++ echo cs (i + 1) := by
      have hlt : cs.length + i < (((v x).buffer.set cs.length 0).set (cs.length + i) cs[i]).length := by
        rw [List.length_set, List.length_set]
        omega
      show (((v x).buffer.set cs.length 0).set (cs.length + i) cs[i]).take (cs.length + i + 1) = _
      rw [List.take_succ_eq_append_getElem hlt, List.getElem_set_self, List.take_set_of_le (le_refl _),
        List.take_set, hbuffer, List.set_append_right _ _ (le_refl _), Nat.sub_self, echo_succ hi,
        List.append_assoc]
    obtain ⟨s, heq, hshape, htake⟩ := ih (i := i + 1) (v := v.set x s₁) (by rw [hx₁])
      (by rw [hx₁, hs₁]; exact hpage) (by rw [hx₁, hs₁]; exact hroom) (by omega)
      (by rw [hx₁]; exact hnext)
    refine ⟨s, ?_, ?_, htake⟩
    · rw [appendFrom, String.copyOf_eq _ (by omega) hpage, Option.bind_some, hvalue, hchar,
        Option.bind_some, set_self, String.terminated, hsize,
        Buffer.store_eq (by rw [List.length_set]; omega), Option.bind_some, set_set]
      rw [set_set] at heq
      exact heq
    · rw [hshape, hx₁, String.shape, String.shape, hs₁, hsize]

/-- A string appended to itself is not what was asked for: the terminator takes the place
of the first character, unless there is only one. -/
theorem append_self_spec (fresh : Nat → Nat → u8) (hx : (v x).shape.Valid 4096)
    (hroom : (v x).CanAppend (v x).m_size) :
    ∃ s : String, v.append fresh x x = some (v.set x s) ∧
      s.value = (v x).value ++ echo (v x).value (v x).m_size ∧
      s.shape = (v x).appended (v x).m_size ((v x).m_size + (v x).m_size) := by
  have hlen := String.value_length hx.memory
  obtain ⟨r, hr, hvalue, hsize, hlength, hfits, hpage⟩ := appendBuffer (fresh (v x).m_size) hx hroom
  have hstart := reserve_set hr
  have hfront : r.buffer.take ((v x).m_size + 0) = (v x).value ++ echo (v x).value 0 := by
    rw [← hvalue, ← hsize]
    exact (List.append_nil _).symm
  obtain ⟨s, heq, hshape, htake⟩ := appendFrom_self (x := x) fresh (v x).value (v x).m_size
    (i := 0) (v := v.set x r) (by rw [set_self]; omega) (by rw [set_self]; exact hpage)
    (by rw [set_self]; omega) (by omega) (by rw [set_self, hlen]; exact hfront)
  rw [hlen] at htake
  rw [set_self] at hshape
  obtain ⟨hssize, _, hslength⟩ := Shape.mk.inj hshape
  refine ⟨⟨s.buffer, (v x).m_size + (v x).m_size + ((v x).m_size + (v x).m_size),
    (v x).m_size + (v x).m_size⟩, ?_, htake, ?_⟩
  · simp only [append]
    rw [hstart, Option.bind_some, heq, Option.map_some, set_set, set_self, set_set, set_self, set_set,
      hssize, hsize]
  · rw [String.shape, hslength, hlength]
    rfl

/-! ### Characters as strings, sums and comparisons -/

/-- `+=` of a character appends a whole C string: it, and what follows it in memory. -/
theorem addChar_spec (fresh : Nat → Nat → u8) {value : u8} {after str : List u8}
    (hx : (v x).shape.Valid 4096) (hstr : Buffer.cString (value :: after) = some str)
    (hpage : str.length + 1 ≤ 4096)
    (hroom : (v x).CanAppend str.length) :
    ∃ s : String, v.addChar fresh x value after = some (v.set x s) ∧ s.value = (v x).value ++ str ∧
      s.shape = (v x).appended str.length str.length := by
  have htemp := String.ofChars_sound hpage
  have hlt : (String.ofChars str).m_size < (String.ofChars str).buffer.length := by
    simp [String.ofChars]
  obtain ⟨s, t, heq, -, -, hvalue, hshape⟩ :=
    append_spec (v := fun k => if k = 0 then v x else String.ofChars str) fresh
      (show (0 : Nat) ≠ 1 by decide) hx htemp.valid (fun _ => hlt) hroom
  refine ⟨s, ?_, ?_, hshape⟩
  · simp only [addChar]
    rw [hstr, Option.bind_some, String.ofCStr_eq _ hpage, Option.bind_some, heq, Option.map_some,
      set_self]
  · rw [hvalue]
    show (v x).value ++ (String.ofChars str).value = _
    rw [String.ofChars_value]

/-- `+` makes its result from the C string in the left operand's buffer. -/
theorem plus_spec (fresh : Nat → Nat → u8) {r : Nat} {str : List u8} (hr : r ≠ y)
    (hx : (v x).shape.Valid 4096) (hy : (v y).shape.Valid 4096)
    (hstr : Buffer.cString (v x).buffer = some str)
    (hterm : 0 < (v y).m_size → (v y).m_size < (v y).buffer.length)
    (hroom : str.length + (v y).m_size ≤ 4096) :
    ∃ s t : String, v.plus fresh r x y = some ((v.set y t).set r s) ∧ t.value = (v y).value ∧
      t.shape = (v y).shape ∧ s.value = str ++ (v y).value ∧
      s.shape = ⟨str.length + (v y).m_size, str.length + (v y).m_size + (v y).m_size,
        str.length + (v y).m_size⟩ := by
  obtain ⟨-, rest, hbuffer⟩ := Buffer.cString_some hstr
  have hpage : str.length + 1 ≤ 4096 := by
    have hlimit : (v x).buffer.length ≤ 4096 := hx.limit
    rw [hbuffer, List.length_append, List.length_cons] at hlimit
    omega
  have htemp := String.ofChars_sound hpage
  have hry : v.set r (.ofChars str) y = v y := set_ne _ _ hr.symm
  have hrr : v.set r (.ofChars str) r = .ofChars str := set_self ..
  have hfull : (String.ofChars str).m_size + (v y).m_size ≥ (String.ofChars str).m_capacity :=
    Nat.le_add_right _ _
  obtain ⟨s, t, heq, htvalue, htshape, hvalue, hshape⟩ :=
    append_spec (v := v.set r (.ofChars str)) fresh hr (by rw [hrr]; exact htemp.valid)
      (by rw [hry]; exact hy) (by rw [hry]; exact hterm)
      (by rw [hrr, hry, String.CanAppend, if_pos hfull]; exact hroom)
  rw [hry] at htvalue htshape
  rw [hrr, hry, String.ofChars_value] at hvalue
  rw [hrr, hry, String.appended, if_pos hfull] at hshape
  refine ⟨s, t, ?_, htvalue, htshape, hvalue, hshape⟩
  rw [plus, hstr, Option.bind_some, String.ofCStr_eq _ hpage, Option.bind_some, heq,
    set_comm _ _ _ hr, set_set]

theorem eqFrom_spec (n : Nat) {i : Nat} (hx : i + n ≤ (v x).buffer.length)
    (hy : i + n ≤ (v y).buffer.length) :
    v.eqFrom x y i n = some (decide (((v x).buffer.drop i).take n = ((v y).buffer.drop i).take n)) := by
  induction n generalizing i with
  | zero => simp [eqFrom]
  | succ n ih =>
    have hix : i < (v x).buffer.length := by omega
    have hiy : i < (v y).buffer.length := by omega
    rw [eqFrom, List.getElem?_eq_getElem hiy, Option.bind_some, List.getElem?_eq_getElem hix,
      Option.bind_some, ih (by omega) (by omega), List.drop_eq_getElem_cons hix,
      List.drop_eq_getElem_cons hiy, List.take_succ_cons, List.take_succ_cons]
    split
    · rename_i hne
      rw [decide_eq_false]
      rintro h
      exact hne (List.cons.inj h).1.symm
    · rename_i heq
      rw [not_not.mp heq]
      simp

/-- `==` compares the values. -/
theorem eq_spec (hx : (v x).shape.Valid 4096) (hy : (v y).shape.Valid 4096) :
    v.eq x y = some (decide ((v x).value = (v y).value)) := by
  have hxmem : (v x).m_size ≤ (v x).buffer.length := hx.memory
  have hymem : (v y).m_size ≤ (v y).buffer.length := hy.memory
  rw [eq]
  split
  · rename_i hne
    rw [decide_eq_false]
    intro h
    have := congrArg List.length h
    rw [String.value_length hxmem, String.value_length hymem] at this
    exact hne this.symm
  · rename_i heq
    rw [not_not] at heq
    rw [eqFrom_spec _ (by omega) (by omega), List.drop_zero, List.drop_zero, String.value,
      String.value, heq]

end Vars

end UntitledOS.Y
