import UntitledOS.Y.StringCalls
import UntitledOS.Lib.Run

/-! Runs of programs over strings.

A call can go wrong in three ways. It can reach outside a buffer (`InBounds` says when it
does not): a terminator is written behind the last character whether or not the buffer
goes on there, and a buffer of more than a page is null. It can leave a capacity that its
buffer does not have (`Lasting`): appending a string counts its length twice. And it can
leave other characters than it should (`Exact`): a string appended to itself, a character
taken for a string. Calls that are in bounds keep the size below capacity and buffer
(`step_result`), and so every run of them stays inside its buffers as long as capacities
last (`strings_stay_inside`), and holds the intended characters as long as it is exact
(`strings_refine_lists`). -/
namespace UntitledOS.Y
open Lib

/-! ### Conditions -/

/-- `n` characters find room one after the other: in the buffer as far as the capacity
goes, and then in a new one, which must not exceed a page. -/
def String.CanPush (n : Nat) (s : String) : Prop :=
  min (s.m_size + n) s.m_capacity ≤ s.buffer.length ∧ (s.m_capacity < s.m_size + n → s.m_capacity ≤ 2048)

/-- There is a byte for the terminator. -/
def String.CanTerminate (s : String) : Prop := s.m_size < s.buffer.length

/-- The capacity `append` sets is there, when `n` characters are appended and then `m`
counted again. -/
def String.KeepsCapacity (n m : Nat) (s : String) : Prop :=
  n = 0 ∨ s.m_size + n < s.m_capacity ∧ s.m_size + n + m ≤ s.buffer.length

/-- Every access of the call is inside a buffer. -/
def InBounds (v : Vars) : Call → Prop
  | .default _ => True
  | .ofCStr _ str => str.length + 1 ≤ 4096
  | .copy _ y => (v y).CanTerminate
  | .assign x y => if x = y then (v y).m_size + 1 ≤ 4096 else (v y).CanTerminate
  | .appendChar x _ => (v x).CanPush 1
  | .append x y => (x ≠ y → 0 < (v y).m_size → (v y).CanTerminate) ∧ (v x).CanAppend (v y).m_size
  | .reserve x capacity => (v x).m_size ≤ capacity.toNat ∧ (capacity.toNat ≤ 4096 ∨ (v x).m_size = 0)
  | .pop_back _ => True
  | .clear x => (v x).m_capacity ≤ (v x).buffer.length
  | .toUpper _ _ => True
  | .split _ x delim => String.TokensFit 0 (String.tokens delim (v x).value) ∧
      (String.tokens delim (v x).value).length ≤ 256
  | .c_str x => (v x).CanTerminate
  | .addChar x value after => ∃ str ∈ Buffer.cString (value :: after),
      str.length + 1 ≤ 4096 ∧ (v x).CanAppend str.length
  | .addInt x n => (v x).CanPush (String.itoa n).length
  | .plus _ x y => ∃ str ∈ Buffer.cString (v x).buffer,
      (0 < (v y).m_size → (v y).CanTerminate) ∧ str.length + (v y).m_size ≤ 4096
  | .eq _ _ => True

/-- The call leaves no capacity that its buffer does not have. -/
def Lasting (v : Vars) : Call → Prop
  | .append x y =>
    (v x).KeepsCapacity (v y).m_size (if x = y then (v x).m_size + (v y).m_size else (v y).m_size)
  | .reserve _ capacity => capacity.toNat ≤ 4096
  | .addChar x value after => ∀ str ∈ Buffer.cString (value :: after),
      (v x).KeepsCapacity str.length str.length
  | .plus _ _ y => (v y).m_size = 0
  | _ => True

/-- The call leaves the characters it should. -/
def Exact (v : Vars) : Call → Prop
  | .assign x y => x = y → (v y).m_size = 0
  | .append x y => x = y → (v x).m_size ≤ 1 ∨ (v x).buffer[0]? = some 0
  | .addChar _ value after => value ≠ 0 ∧ after.head? = some 0
  | .addInt _ n => n ≠ 0x80000000
  | .plus _ x _ => Buffer.cString (v x).buffer = some (v x).value
  | _ => True

section Decidable
variable (v : Vars) (c : Call)

instance (n : Nat) (s : String) : Decidable (s.CanPush n) :=
  inferInstanceAs (Decidable (_ ∧ _))

instance (s : String) : Decidable s.CanTerminate :=
  inferInstanceAs (Decidable (s.m_size < s.buffer.length))

instance (n m : Nat) (s : String) : Decidable (s.KeepsCapacity n m) :=
  inferInstanceAs (Decidable (_ ∨ _))

instance : Decidable (InBounds v c) :=
  match c with
  | .default _ | .pop_back _ | .toUpper .. | .eq .. => inferInstanceAs (Decidable True)
  | .ofCStr .. | .clear _ => inferInstanceAs (Decidable (_ ≤ _))
  | .copy .. | .c_str _ => inferInstanceAs (Decidable (String.CanTerminate _))
  | .assign x y => inferInstanceAs (Decidable (if x = y then (v y).m_size + 1 ≤ 4096 else (v y).CanTerminate))
  | .appendChar .. | .addInt .. => inferInstanceAs (Decidable (String.CanPush _ _))
  | .append .. => inferInstanceAs (Decidable ((_ → _ → _) ∧ _))
  | .reserve .. | .split .. => inferInstanceAs (Decidable (_ ∧ _))
  | .addChar .. | .plus .. => inferInstanceAs (Decidable (∃ str ∈ Buffer.cString _, _))

instance : Decidable (Lasting v c) :=
  match c with
  | .append .. => inferInstanceAs (Decidable (String.KeepsCapacity _ _ _))
  | .reserve .. => inferInstanceAs (Decidable (_ ≤ _))
  | .addChar .. => inferInstanceAs (Decidable (∀ str ∈ Buffer.cString _, _))
  | .plus .. => inferInstanceAs (Decidable (_ = _))
  | .default _ | .ofCStr .. | .copy .. | .assign .. | .appendChar .. | .pop_back _ | .clear _
  | .toUpper .. | .split .. | .c_str _ | .addInt .. | .eq .. => inferInstanceAs (Decidable True)

instance : Decidable (Exact v c) :=
  match c with
  | .assign .. | .append .. => inferInstanceAs (Decidable (_ = _ → _))
  | .addChar .. => inferInstanceAs (Decidable (_ ∧ _))
  | .addInt .. => inferInstanceAs (Decidable (_ ≠ _))
  | .plus .. => inferInstanceAs (Decidable (_ = _))
  | .default _ | .ofCStr .. | .copy .. | .appendChar .. | .reserve .. | .pop_back _ | .clear _
  | .toUpper .. | .split .. | .c_str _ | .eq .. => inferInstanceAs (Decidable True)

/-- Not the least `int` in decimal. -/
def Call.Printable : Call → Prop
  | .addInt _ n => n ≠ 0x80000000
  | _ => True

instance : Decidable c.Printable :=
  match c with
  | .addInt .. => inferInstanceAs (Decidable (_ ≠ _))
  | .default _ | .ofCStr .. | .copy .. | .assign .. | .appendChar .. | .append .. | .reserve ..
  | .pop_back _ | .clear _ | .toUpper .. | .split .. | .c_str _ | .addChar .. | .plus .. | .eq .. =>
    inferInstanceAs (Decidable True)

end Decidable

/-! ### Invariants -/

namespace Vars

/-- Every string has its characters in its buffer. -/
def Valid (v : Vars) : Prop := ∀ x, (v x).shape.Valid 4096

/-- Every string has all the room it believes to have. -/
def Sound (v : Vars) : Prop := ∀ x, (v x).shape.Sound 4096

/-- What the variables hold. -/
def texts (v : Vars) : Texts := fun x => (v x).value

variable {v : Vars}

theorem Sound.valid (h : v.Sound) : v.Valid := fun x => (h x).valid

theorem start_sound : start.Sound := fun _ => ⟨le_refl 0, le_refl 0, Nat.zero_le _⟩

theorem all_set {P : String → Prop} {s : String} (x : Nat) (hs : P s) (h : ∀ z, P (v z)) (z : Nat) :
    P (v.set x s z) := by
  by_cases hz : z = x
  · rw [hz, set_self]
    exact hs
  · rw [set_ne _ _ hz]
    exact h z

theorem texts_set (x : Nat) (s : String) : (v.set x s).texts = Function.update v.texts x s.value := by
  funext z
  by_cases hz : z = x
  · subst hz
    rw [texts, set_self, Function.update_self]
  · rw [texts, set_ne _ _ hz, Function.update_of_ne hz]
    rfl

/-- A variable whose string was read through `c_str`, or not at all. -/
theorem texts_set_same {y : Nat} {t : String} (h : t.value = (v y).value) : (v.set y t).texts = v.texts := by
  rw [texts_set, h]
  exact Function.update_eq_self y v.texts

end Vars

/-- What a step leaves behind. -/
structure Result (v : Vars) (c : Call) (v' : Vars) : Prop where
  valid : v'.Valid
  sound : v.Sound → Lasting v c → v'.Sound
  texts : Exact v c → v'.texts = c.apply v.texts

section Step
variable {v : Vars} {c : Call}

/-- One variable has changed. -/
theorem Result.of_set {x : Nat} {s : String} (hv : v.Valid) (hvalid : s.shape.Valid 4096)
    (hsound : v.Sound → Lasting v c → s.shape.Sound 4096)
    (htexts : Exact v c → c.apply v.texts = Function.update v.texts x s.value) :
    Result v c (v.set x s) := by
  refine ⟨fun z => ?_, fun hs hl z => ?_, fun he => ?_⟩
  · exact Vars.all_set (P := fun s => s.shape.Valid 4096) x hvalid hv z
  · exact Vars.all_set (P := fun s => s.shape.Sound 4096) x (hsound hs hl) hs z
  · rw [Vars.texts_set, htexts he]

/-- One variable has changed, and another one was read. -/
theorem Result.of_pair {x y : Nat} {s t : String} (hv : v.Valid) (hvalue : t.value = (v y).value)
    (hshape : t.shape = (v y).shape) (hvalid : s.shape.Valid 4096)
    (hsound : v.Sound → Lasting v c → s.shape.Sound 4096)
    (htexts : Exact v c → c.apply v.texts = Function.update v.texts x s.value) :
    Result v c ((v.set y t).set x s) := by
  have hvalid' : (v.set y t).Valid :=
    Vars.all_set (P := fun s => s.shape.Valid 4096) y (by rw [hshape]; exact hv y) hv
  refine ⟨fun z => ?_, fun hs hl z => ?_, fun he => ?_⟩
  · exact Vars.all_set (P := fun s => s.shape.Valid 4096) x hvalid hvalid' z
  · have hsound' : (v.set y t).Sound :=
      Vars.all_set (P := fun s => s.shape.Sound 4096) y (by rw [hshape]; exact hs y) hs
    exact Vars.all_set (P := fun s => s.shape.Sound 4096) x (hsound hs hl) hsound' z
  · rw [Vars.texts_set, Vars.texts_set_same hvalue, htexts he]

/-- Characters pushed one by one. -/
theorem String.CanPush.pushes {s : String} {n : Nat} (hv : s.shape.Valid 4096) (h : s.CanPush n)
    (hn : n ≤ 11) : ∃ h', s.shape.pushes 4096 n = some h' := by
  refine Shape.pushes_isSome hv.capacity h.1 (fun hover => ?_) (by omega)
  have : s.m_capacity ≤ 2048 := h.2 hover
  show s.m_capacity * 2 ≤ 4096
  omega

section Append
variable {s : String} {n : Nat} (m : Nat)

theorem String.CanAppend.valid (hv : s.shape.Valid 4096) (h : s.CanAppend n) :
    (s.appended n m).Valid 4096 := by
  have hlimit : s.buffer.length ≤ 4096 := hv.limit
  unfold String.CanAppend at h
  unfold String.appended
  split at h
  · rename_i hfull
    rw [if_pos hfull]
    exact ⟨Nat.le_add_right _ _, le_refl _, h⟩
  · rename_i hfree
    rw [if_neg hfree]
    exact ⟨Nat.le_add_right _ _, h, hlimit⟩

theorem String.KeepsCapacity.sound (hs : s.shape.Sound 4096) (hk : s.KeepsCapacity n m)
    (hm : n = 0 → m = 0) : (s.appended n m).Sound 4096 := by
  have hcapacity : s.m_size ≤ s.m_capacity := hs.capacity
  have hmemory : s.m_capacity ≤ s.buffer.length := hs.memory
  have hlimit : s.buffer.length ≤ 4096 := hs.limit
  unfold String.appended
  rcases hk with rfl | ⟨hfree, hfits⟩
  · rw [hm rfl]
    constructor <;> dsimp only
    · exact le_refl _
    · split <;> omega
    · split <;> omega
  · rw [if_neg (by omega)]
    exact ⟨Nat.le_add_right _ _, hfits, hlimit⟩

end Append

theorem append_result (fresh : Nat → Nat → u8) (hv : v.Valid) {x y : Nat} (hb : InBounds v (.append x y)) :
    ∃ v', step v ⟨.append x y, fresh⟩ = some v' ∧ Result v (.append x y) v' := by
  obtain ⟨hterm, hroom⟩ := hb
  have hvalid := hroom.valid (m := if x = y then (v x).m_size + (v y).m_size else (v y).m_size) (hv x)
  by_cases hxy : x = y
  · subst hxy
    rw [if_pos rfl] at hvalid
    obtain ⟨s, hs, hvalue, hshape⟩ := Vars.append_self_spec fresh (hv x) hroom
    refine ⟨_, hs, .of_set hv (by rw [hshape]; exact hvalid) (fun hsound hl => ?_) fun he => ?_⟩
    · rw [hshape]
      simp only [Lasting, if_true] at hl
      exact hl.sound _ (hsound x) fun hzero => by rw [hzero]
    · have hlen := String.value_length (hv x).memory
      have hsame : Vars.echo (v x).value (v x).m_size = (v x).value := by
        rw [← hlen]
        apply Vars.echo_eq
        rw [hlen]
        by_cases hone : (v x).m_size ≤ 1
        · exact .inl hone
        · rw [String.value, List.getElem?_take_of_lt (by omega)]
          exact .inr ((he rfl).resolve_left hone)
      rw [hvalue, hsame]
      rfl
  · rw [if_neg hxy] at hvalid
    obtain ⟨s, t, hs, htvalue, htshape, hvalue, hshape⟩ :=
      Vars.append_spec fresh hxy (hv x) (hv y) (hterm hxy) hroom
    refine ⟨_, hs, .of_pair hv htvalue htshape (by rw [hshape]; exact hvalid) (fun hsound hl => ?_)
      fun _ => ?_⟩
    · rw [hshape]
      simp only [Lasting, hxy, if_false] at hl
      exact hl.sound _ (hsound x) id
    · rw [hvalue]
      rfl

theorem addChar_result (fresh : Nat → Nat → u8) (hv : v.Valid) {x : Nat} {value : u8} {after : List u8}
    (hb : InBounds v (.addChar x value after)) :
    ∃ v', step v ⟨.addChar x value after, fresh⟩ = some v' ∧ Result v (.addChar x value after) v' := by
  obtain ⟨str, hstr, hpage, hroom⟩ := hb
  obtain ⟨s, hs, hvalue, hshape⟩ := Vars.addChar_spec fresh (hv x) hstr hpage hroom
  refine ⟨_, hs, .of_set hv ?_ (fun hsound hl => ?_) fun he => ?_⟩
  · rw [hshape]
    exact hroom.valid _ (hv x)
  · rw [hshape]
    exact (hl str hstr).sound _ (hsound x) id
  · obtain ⟨hne, hnext⟩ := he
    have hone : str = [value] := by
      obtain ⟨rest, rfl⟩ := List.head?_eq_some_iff.mp hnext
      have hcstring : Buffer.cString ([value] ++ 0 :: rest) = some [value] :=
        Buffer.cString_append (by simpa using Ne.symm hne)
      exact Option.some.inj (hstr.symm.trans hcstring)
    rw [hvalue, hone]
    rfl

theorem plus_result (fresh : Nat → Nat → u8) (hv : v.Valid) {r x y : Nat} (hr : r ≠ y)
    (hb : InBounds v (.plus r x y)) :
    ∃ v', step v ⟨.plus r x y, fresh⟩ = some v' ∧ Result v (.plus r x y) v' := by
  obtain ⟨str, hstr, hterm, hroom⟩ := hb
  obtain ⟨s, t, hs, htvalue, htshape, hvalue, hshape⟩ :=
    Vars.plus_spec fresh hr (hv x) (hv y) hstr hterm hroom
  refine ⟨_, hs, .of_pair hv htvalue htshape ?_ (fun hsound hl => ?_) fun he => ?_⟩
  · rw [hshape]
    exact ⟨Nat.le_add_right _ _, le_refl _, hroom⟩
  · have hzero : (v y).m_size = 0 := hl
    rw [hzero] at hroom hshape
    rw [hshape]
    exact ⟨Nat.le_add_right _ _, le_refl _, hroom⟩
  · have hsame : str = (v x).value := Option.some.inj (hstr.symm.trans he)
    rw [hvalue, hsame]
    rfl

theorem Vars.all_updateFrom {P : String → Prop} {ss : List String} {r : Nat} {v : Vars}
    (hs : ∀ s ∈ ss, P s) (h : ∀ z, P (v z)) (z : Nat) : P (updateFrom r ss v z) := by
  induction ss generalizing r v with
  | nil => exact h z
  | cons s ss ih =>
    exact ih (fun t ht => hs t (List.mem_cons_of_mem _ ht))
      (all_set r (hs s (List.mem_cons_self ..)) h)

theorem Vars.texts_updateFrom {ss : List String} {r : Nat} {v : Vars} :
    texts (updateFrom r ss v) = updateFrom r (ss.map String.value) v.texts := by
  induction ss generalizing r v with
  | nil => rfl
  | cons s ss ih =>
    rw [updateFrom, ih, List.map_cons, updateFrom]
    exact congrArg _ (texts_set r s)

theorem split_result (fresh : Nat → Nat → u8) (hv : v.Valid) {r x : Nat} {delim : u8}
    (hb : InBounds v (.split r x delim)) :
    ∃ v', step v ⟨.split r x delim, fresh⟩ = some v' ∧ Result v (.split r x delim) v' := by
  obtain ⟨hfit, hcount⟩ := hb
  obtain ⟨hs, hsmall⟩ := String.split_spec fresh delim (hv x).memory (hv x).limit hfit hcount
  have hsound : ∀ s ∈ (String.tokens delim (v x).value).map String.ofChars, s.shape.Sound 4096 := by
    intro s hs
    obtain ⟨t, ht, rfl⟩ := List.mem_map.mp hs
    exact String.ofChars_sound (hsmall t ht)
  refine ⟨updateFrom r ((String.tokens delim (v x).value).map String.ofChars) v, ?_, ?_⟩
  · simp only [step]
    rw [hs, Option.map_some]
  · refine ⟨fun z => ?_, fun h _ z => ?_, fun _ => ?_⟩
    · exact Vars.all_updateFrom (P := fun s => s.shape.Valid 4096) (fun s hs => (hsound s hs).valid) hv z
    · exact Vars.all_updateFrom (P := fun s => s.shape.Sound 4096) hsound h z
    · have hvalues : ((String.tokens delim (v x).value).map String.ofChars).map String.value =
          String.tokens delim (v x).value := by
        rw [List.map_map]
        exact List.map_id'' String.ofChars_value _
      rw [Vars.texts_updateFrom, hvalues]
      rfl

/-- A call on one string, by its effect on the value and the shape. -/
theorem change_result {f : String → Option String} {x : Nat} {s : String} (hv : v.Valid)
    (hs : f (v x) = some s) (hvalid : s.shape.Valid 4096)
    (hsound : v.Sound → Lasting v c → s.shape.Sound 4096)
    (htexts : Exact v c → c.apply v.texts = Function.update v.texts x s.value) :
    ∃ v', v.change x f = some v' ∧ Result v c v' :=
  ⟨_, by rw [Vars.change, hs]; rfl, .of_set hv hvalid hsound htexts⟩

/-- Copying and assigning leave the characters in a buffer of their own. -/
theorem copied_result (hv : v.Valid) {x y : Nat} (hb : (v y).CanTerminate)
    (hcall : c.apply v.texts = Function.update v.texts x (v y).value) :
    Result v c ((v.set y (v y).terminated).set x (.ofChars (v y).value)) := by
  have hlimit : (v y).buffer.length ≤ 4096 := (hv y).limit
  have hsound : (String.ofChars (v y).value).shape.Sound 4096 := by
    apply String.ofChars_sound
    rw [String.value_length (hv y).memory]
    exact (Nat.succ_le_of_lt hb).trans hlimit
  refine .of_pair hv (v y).terminated_value (v y).terminated_shape hsound.valid (fun _ _ => hsound)
    fun _ => ?_
  rw [String.ofChars_value, hcall]

theorem assign_result (fresh : Nat → Nat → u8) (hv : v.Valid) {x y : Nat} (hb : InBounds v (.assign x y)) :
    ∃ v', step v ⟨.assign x y, fresh⟩ = some v' ∧ Result v (.assign x y) v' := by
  by_cases hxy : x = y
  · subst hxy
    have hpage : (v x).m_size + 1 ≤ 4096 := (if_pos rfl).mp hb
    obtain ⟨s, hs, hshape⟩ := Vars.assign_self (fresh 0) hpage
    have hsound : s.shape.Sound 4096 := by
      rw [hshape]
      exact ⟨le_refl _, Nat.le_succ _, hpage⟩
    refine ⟨_, hs, .of_set hv hsound.valid (fun _ _ => hsound) fun he => ?_⟩
    have hzero : (v x).m_size = 0 := he rfl
    have hsize : s.m_size = 0 := (Shape.mk.inj hshape).1.trans hzero
    show Function.update v.texts x (v x).value = _
    rw [String.value, String.value, hzero, hsize]
    rfl
  · have hterm : (v y).CanTerminate := (if_neg hxy).mp hb
    exact ⟨_, Vars.assign_eq (fresh 0) hxy hterm (hv y).limit, copied_result hv hterm rfl⟩

theorem appendChar_result (fresh : Nat → Nat → u8) (hv : v.Valid) {x : Nat} {value : u8}
    (hb : (v x).CanPush 1) :
    ∃ v', step v ⟨.appendChar x value, fresh⟩ = some v' ∧ Result v (.appendChar x value) v' := by
  obtain ⟨h, hpushes⟩ := hb.pushes (hv x) (by decide)
  obtain ⟨h, hpush, -⟩ := Option.bind_eq_some_iff.mp hpushes
  obtain ⟨s, hs, hvalue, rfl⟩ := (v x).append_spec (fresh 0) (hv x) hpush value
  refine change_result hv hs ((hv x).push hpush) (fun hsound _ => (hsound x).push hpush) fun _ => ?_
  rw [hvalue]
  rfl

theorem addInt_result (fresh : Nat → Nat → u8) (hv : v.Valid) {x : Nat} {n : u32}
    (hb : (v x).CanPush (String.itoa n).length) :
    ∃ v', step v ⟨.addInt x n, fresh⟩ = some v' ∧ Result v (.addInt x n) v' := by
  obtain ⟨h, hpushes⟩ := hb.pushes (hv x) (itoa_length n)
  obtain ⟨s, hs, hvalue, rfl⟩ := (v x).appendEach_spec fresh (String.itoa n) 0 (hv x) hpushes
  refine change_result hv hs ((hv x).pushes hpushes) (fun hsound _ => (hsound x).pushes hpushes)
    fun he => ?_
  rw [hvalue, itoa_eq he]
  rfl

theorem reserve_result (fresh : Nat → Nat → u8) (hv : v.Valid) {x : Nat} {capacity : u32}
    (hb : InBounds v (.reserve x capacity)) :
    ∃ v', step v ⟨.reserve x capacity, fresh⟩ = some v' ∧ Result v (.reserve x capacity) v' := by
  obtain ⟨hsize, hpage⟩ := hb
  obtain ⟨s, hs, hvalue, hshape⟩ := (v x).reserve_spec (fresh 0) (hv x).memory hsize hpage
  refine change_result hv hs ?_ (fun _ hl => ?_) fun _ => ?_
  · rw [hshape]
    refine ⟨hsize, ?_, ?_⟩ <;> dsimp only <;> split <;> omega
  · have hsmall : capacity.toNat ≤ 4096 := hl
    rw [hshape, if_pos hsmall]
    exact ⟨hsize, le_refl _, hsmall⟩
  · rw [hvalue]
    exact (Function.update_eq_self x v.texts).symm

/-- A call in bounds has a result, and what it leaves is as it should be. -/
theorem step_result (fresh : Nat → Nat → u8) (hv : v.Valid) (hp : c.Proper) (hb : InBounds v c) :
    ∃ v', step v ⟨c, fresh⟩ = some v' ∧ Result v c v' := by
  cases c with
  | default x =>
    have hempty : (String.default).shape.Sound 4096 := ⟨le_refl 0, le_refl 0, Nat.zero_le _⟩
    exact ⟨_, rfl, .of_set hv hempty.valid (fun _ _ => hempty) fun _ => rfl⟩
  | ofCStr x str =>
    have hsound := String.ofChars_sound hb
    refine ⟨v.set x (.ofChars str), ?_, .of_set hv hsound.valid (fun _ _ => hsound) fun _ => ?_⟩
    · simp only [step]
      rw [String.ofCStr_eq _ hb, Option.map_some]
    · rw [String.ofChars_value]
      rfl
  | copy x y => exact ⟨_, Vars.copy_eq (fresh 0) x hb (hv y).limit, copied_result hv hb rfl⟩
  | assign x y => exact assign_result fresh hv hb
  | appendChar x value => exact appendChar_result fresh hv hb
  | append x y => exact append_result fresh hv hb
  | reserve x capacity => exact reserve_result fresh hv hb
  | pop_back x =>
    obtain ⟨s, hs, hvalue, hshape⟩ := String.pop_back_spec (hv x)
    obtain ⟨hcapacity, hmemory, hlimit⟩ := hv x
    refine change_result hv hs ?_ (fun hsound _ => ?_) fun _ => ?_
    · rw [hshape]
      exact ⟨(Nat.sub_le _ _).trans hcapacity, (Nat.sub_le _ _).trans hmemory, hlimit⟩
    · rw [hshape]
      exact ⟨(Nat.sub_le _ _).trans hcapacity, (hsound x).memory, hlimit⟩
    · rw [hvalue]
      rfl
  | clear x =>
    obtain ⟨s, hs, hvalue, hshape⟩ := String.clear_spec hb
    have hsound : s.shape.Sound 4096 := by
      rw [hshape]
      exact ⟨Nat.zero_le _, hb, (hv x).limit⟩
    refine change_result hv hs hsound.valid (fun _ _ => hsound) fun _ => ?_
    rw [hvalue]
    rfl
  | toUpper r x =>
    obtain ⟨s, hs, hvalue, hsound⟩ := String.toUpper_spec fresh (hv x)
    refine ⟨v.set r s, ?_, .of_set hv hsound.valid (fun _ _ => hsound) fun _ => ?_⟩
    · simp only [step]
      rw [hs, Option.map_some]
    · rw [hvalue]
      rfl
  | split r x delim => exact split_result fresh hv hb
  | c_str x =>
    refine change_result hv (String.c_str_eq hb) ?_ (fun hsound _ => ?_) fun _ => ?_
    · rw [String.terminated_shape]
      exact hv x
    · rw [String.terminated_shape]
      exact hsound x
    · rw [String.terminated_value]
      exact (Function.update_eq_self x v.texts).symm
  | addChar x value after => exact addChar_result fresh hv hb
  | addInt x n => exact addInt_result fresh hv hb
  | plus r x y => exact plus_result fresh hv hp.2 hb
  | eq x y =>
    refine ⟨v, ?_, hv, fun hsound _ => hsound, fun _ => rfl⟩
    simp only [step]
    rw [Vars.eq_spec (hv x) (hv y), Option.map_some]

end Step

/-! ### Runs -/

/-- In every run of calls in bounds whose capacities last, every string has the room it
believes to have, and every further call in bounds stays inside its buffers. -/
theorem strings_stay_inside {v : Vars} {es : List Event}
    (h : Run step (fun v e => e.call.Proper ∧ InBounds v e.call ∧ Lasting v e.call) .start es v) :
    v.Sound ∧ ∀ e : Event, e.call.Proper → InBounds v e.call → (step v e).isSome := by
  have hsound : v.Sound := by
    apply h.invariant Vars.Sound _ Vars.start_sound
    rintro v e v' hv ⟨hp, hb, hl⟩ hstep
    obtain ⟨v'', hs, hresult⟩ := step_result e.fresh hv.valid hp hb
    rw [Option.some.inj (hstep.symm.trans hs)]
    exact hresult.sound hv hl
  refine ⟨hsound, fun e hp hb => ?_⟩
  obtain ⟨v', hs, -⟩ := step_result e.fresh hsound.valid hp hb
  exact Option.isSome_iff_exists.mpr ⟨v', hs⟩

/-- Some calls that stay inside. -/
def someCalls : List Event :=
  [⟨.ofCStr 0 [0x61, 0x62], fun _ _ => 0x55⟩, ⟨.appendChar 0 0x63, fun _ _ => 0x55⟩,
    ⟨.copy 1 0, fun _ _ => 0x55⟩, ⟨.reserve 0 20, fun _ _ => 0x55⟩, ⟨.append 0 1, fun _ _ => 0x55⟩,
    ⟨.addInt 1 0xffffffd6, fun _ _ => 0x55⟩, ⟨.addChar 0 0x64 [0], fun _ _ => 0x55⟩,
    ⟨.split 2 0 0x20, fun _ _ => 0x55⟩, ⟨.clear 0, fun _ _ => 0x55⟩]

theorem strings_stay_inside_some : ∃ v,
    Run step (fun v e => e.call.Proper ∧ InBounds v e.call ∧ Lasting v e.call) .start someCalls v ∧
      v.Sound ∧ ∀ e : Event, e.call.Proper → InBounds v e.call → (step v e).isSome := by
  have hrun : (follow step (fun v e => e.call.Proper ∧ InBounds v e.call ∧ Lasting v e.call) .start
      someCalls).isSome := by decide +kernel
  obtain ⟨v, hv⟩ := Option.isSome_iff_exists.mp hrun
  have h := run_iff_follow.mpr hv
  exact ⟨v, h, strings_stay_inside h⟩

/-- A character appended to nothing fills its buffer, and `c_str` writes behind it. -/
theorem string_overflows : ¬ ∀ es v, Run step (fun _ e => e.call.Proper) .start es v →
    v.Sound ∧ ∀ e : Event, e.call.Proper → (step v e).isSome := by
  intro hall
  let es : List Event := [⟨.appendChar 0 0x61, fun _ _ => 0⟩]
  have hrun : (follow step (fun _ e => e.call.Proper) .start es).isSome := by decide +kernel
  have hstuck : ∀ v ∈ follow step (fun _ e => e.call.Proper) .start es,
      (step v ⟨.c_str 0, fun _ _ => 0⟩).isSome = false := by decide +kernel
  obtain ⟨v, hv⟩ := Option.isSome_iff_exists.mp hrun
  obtain ⟨-, hsome⟩ := hall es v (run_iff_follow.mpr hv)
  have hnone := hstuck v hv
  rw [hsome ⟨.c_str 0, fun _ _ => 0⟩ trivial] at hnone
  exact Bool.noConfusion hnone

/-- In every run of exact calls in bounds, the strings hold what lists of characters would,
and compare as they would. -/
theorem strings_refine_lists {v : Vars} {es : List Event}
    (h : Run step (fun v e => e.call.Proper ∧ InBounds v e.call ∧ Exact v e.call) .start es v) :
    v.texts = es.foldl (fun t e => e.call.apply t) (fun _ => []) ∧
      (∀ x, (v x).m_size = (v.texts x).length) ∧
      (∀ x y, v.eq x y = some (decide (v.texts x = v.texts y))) ∧
      ∀ e : Event, e.call.Proper → InBounds v e.call → (step v e).isSome := by
  have hrun : v.Valid ∧ v.texts = es.foldl (fun t e => e.call.apply t) (fun _ => []) := by
    apply h.simulates (fun t e => e.call.apply t) (fun v t => v.Valid ∧ v.texts = t) _
      ⟨Vars.start_sound.valid, rfl⟩
    rintro v e v' _ ⟨hv, rfl⟩ ⟨hp, hb, he⟩ hstep
    obtain ⟨v'', hs, hresult⟩ := step_result e.fresh hv hp hb
    rw [Option.some.inj (hstep.symm.trans hs)]
    exact ⟨hresult.valid, hresult.texts he⟩
  obtain ⟨hvalid, htexts⟩ := hrun
  refine ⟨htexts, fun x => (String.value_length (hvalid x).memory).symm,
    fun x y => Vars.eq_spec (hvalid x) (hvalid y), fun e hp hb => ?_⟩
  obtain ⟨v', hs, -⟩ := step_result e.fresh hvalid hp hb
  exact Option.isSome_iff_exists.mpr ⟨v', hs⟩

theorem strings_refine_lists_some : ∃ v,
    Run step (fun v e => e.call.Proper ∧ InBounds v e.call ∧ Exact v e.call) .start someCalls v ∧
      v.texts = someCalls.foldl (fun t e => e.call.apply t) (fun _ => []) ∧
      (∀ x, (v x).m_size = (v.texts x).length) ∧
      (∀ x y, v.eq x y = some (decide (v.texts x = v.texts y))) ∧
      ∀ e : Event, e.call.Proper → InBounds v e.call → (step v e).isSome := by
  have hrun : (follow step (fun v e => e.call.Proper ∧ InBounds v e.call ∧ Exact v e.call) .start
      someCalls).isSome := by decide +kernel
  obtain ⟨v, hv⟩ := Option.isSome_iff_exists.mp hrun
  have h := run_iff_follow.mpr hv
  exact ⟨v, h, strings_refine_lists h⟩

/-- Two characters appended to themselves leave a terminator among four. -/
theorem string_not_a_list : ¬ ∀ es v, Run step (fun _ e => e.call.Proper ∧ e.call.Printable) .start es v →
    v.texts = es.foldl (fun t e => e.call.apply t) (fun _ => []) := by
  intro hall
  let es : List Event := [⟨.ofCStr 0 [0x61, 0x62], fun _ _ => 0⟩, ⟨.append 0 0, fun _ _ => 0⟩]
  have hrun : (follow step (fun _ e => e.call.Proper ∧ e.call.Printable) .start es).isSome := by
    decide +kernel
  have hvalue : ∀ v ∈ follow step (fun _ e => e.call.Proper ∧ e.call.Printable) .start es,
      (v 0).value = [0x61, 0x62, 0, 0x62] := by decide +kernel
  obtain ⟨v, hv⟩ := Option.isSome_iff_exists.mp hrun
  have htexts := congrFun (hall es v (run_iff_follow.mpr hv)) 0
  have hmeant : es.foldl (fun t e => e.call.apply t) (fun _ => []) 0 = [0x61, 0x62, 0x61, 0x62] := rfl
  rw [hmeant] at htexts
  have hlist := htexts.symm.trans (hvalue v hv)
  revert hlist
  decide

end UntitledOS.Y
