import Mathlib

/-! Buffers of a fixed length.

A buffer is a list; a load or a store outside of it has no result. Loops that fill a
buffer element by element, from a list or from another buffer, either stay inside
and then replace one stretch of it (`storeAll_eq`, `copy_eq`), or have no result.
C strings are read out of a buffer up to the first zero, which has to be there. -/
namespace UntitledOS.Lib
namespace Buffer

variable {α : Type*}

def store (b : List α) (k : Nat) (a : α) : Option (List α) :=
  if k < b.length then some (b.set k a) else none

/-- The loop that stores `as` at `k` and after. -/
def storeAll (b : List α) (k : Nat) : List α → Option (List α)
  | [] => some b
  | a :: as => (store b k a).bind fun b => storeAll b (k + 1) as

/-- The loop `dst[i] = src[i]` over `n` indices from `i` on. -/
def copy (src dst : List α) (i : Nat) : Nat → Option (List α)
  | 0 => some dst
  | n + 1 => src[i]?.bind fun a => (store dst i a).bind fun dst => copy src dst (i + 1) n

theorem store_eq {b : List α} {k : Nat} (h : k < b.length) (a : α) : store b k a = some (b.set k a) :=
  if_pos h

/-- A stretch of a buffer replaced, element by element. -/
theorem set_stretch {b : List α} {k : Nat} (h : k < b.length) (a : α) (as : List α) :
    (b.set k a).take (k + 1) ++ as ++ (b.set k a).drop (k + 1 + as.length) =
      b.take k ++ (a :: as) ++ b.drop (k + (a :: as).length) := by
  have htake : (b.set k a).take (k + 1) = b.take k ++ [a] := by
    rw [List.take_succ_eq_append_getElem (by simpa using h), List.getElem_set_self,
      List.take_set_of_le (le_refl k)]
  have hdrop : (b.set k a).drop (k + 1 + as.length) = b.drop (k + (as.length + 1)) := by
    rw [List.drop_set_of_lt (by omega)]
    congr 1
    omega
  rw [htake, hdrop, List.length_cons]
  simp

theorem storeAll_eq {as b : List α} {k : Nat} (h : k + as.length ≤ b.length) :
    storeAll b k as = some (b.take k ++ as ++ b.drop (k + as.length)) := by
  induction as generalizing b k with
  | nil => simp [storeAll]
  | cons a as ih =>
    rw [List.length_cons] at h
    rw [storeAll, store_eq (by omega), Option.bind_some,
      ih (by rw [List.length_set]; omega), set_stretch (by omega)]

theorem storeAll_append (b : List α) (k : Nat) (as cs : List α) :
    storeAll b k (as ++ cs) = (storeAll b k as).bind fun b => storeAll b (k + as.length) cs := by
  induction as generalizing b k with
  | nil => rfl
  | cons a as ih =>
    simp only [List.cons_append, storeAll, ih, Option.bind_assoc, List.length_cons, Nat.add_assoc, Nat.add_comm 1]

theorem copy_eq {src dst : List α} {i n : Nat} (hsrc : i + n ≤ src.length)
    (hdst : i + n ≤ dst.length) :
    copy src dst i n = some (dst.take i ++ (src.drop i).take n ++ dst.drop (i + n)) := by
  induction n generalizing dst i with
  | zero => simp [copy]
  | succ n ih =>
    have hi : i < src.length := by omega
    have hlen : ((src.drop (i + 1)).take n).length = n := by
      rw [List.length_take, List.length_drop]
      omega
    have hnext := set_stretch (show i < dst.length by omega) src[i] ((src.drop (i + 1)).take n)
    rw [List.length_cons, hlen] at hnext
    rw [copy, List.getElem?_eq_getElem hi, Option.bind_some, store_eq (by omega), Option.bind_some,
      ih (by omega) (by rw [List.length_set]; omega), hnext, List.drop_eq_getElem_cons hi,
      List.take_succ_cons]

/-- Copying the whole of what is wanted to the front. -/
theorem copy_front {src dst : List α} {n : Nat} (hsrc : n ≤ src.length) (hdst : n ≤ dst.length) :
    copy src dst 0 n = some (src.take n ++ dst.drop n) := by
  rw [copy_eq (by omega) (by omega)]
  simp

/-! ### Turning round in place -/

/-- Two elements exchanged. -/
def swap (b : List α) (i j : Nat) : Option (List α) :=
  b[i]?.bind fun c => b[j]?.bind fun d => (store b i d).bind fun b => store b j c

/-- The loop over `n` elements from `i` on, which exchanges the outer two and goes inwards. -/
def reverse (b : List α) (i : Nat) : Nat → Option (List α)
  | n + 2 => (swap b i (i + n + 1)).bind fun b => reverse b (i + 1) n
  | _ => some b

theorem swap_eq (a d : α) (pre as post : List α) :
    swap (pre ++ a :: (as ++ d :: post)) pre.length (pre.length + as.length + 1) =
      some (pre ++ d :: (as ++ a :: post)) := by
  have hinner : pre.length + as.length + 1 - pre.length = as.length + 1 := by omega
  have hfirst : (pre ++ a :: (as ++ d :: post))[pre.length]? = some a := by
    rw [List.getElem?_append_right (le_refl _), Nat.sub_self, List.getElem?_cons_zero]
  have hlast : (pre ++ a :: (as ++ d :: post))[pre.length + as.length + 1]? = some d := by
    rw [List.getElem?_append_right (by omega), hinner, List.getElem?_cons_succ,
      List.getElem?_append_right (le_refl _), Nat.sub_self, List.getElem?_cons_zero]
  rw [swap, hfirst, hlast, Option.bind_some, Option.bind_some, store_eq (by simp), Option.bind_some,
    store_eq (by simp; omega), List.set_append_right _ _ (le_refl _), Nat.sub_self, List.set_cons_zero,
    List.set_append_right _ _ (by omega), hinner, List.set_cons_succ, List.set_append_right _ _ (le_refl _),
    Nat.sub_self, List.set_cons_zero]

theorem reverse_eq (pre as post : List α) :
    reverse (pre ++ (as ++ post)) pre.length as.length = some (pre ++ (as.reverse ++ post)) := by
  induction as using List.bidirectionalRec generalizing pre post with
  | nil => rfl
  | singleton a => rfl
  | cons_append a as d ih =>
    -- the outer two are exchanged, and then they belong to what lies around the rest
    have hlen : (a :: (as ++ [d])).length = as.length + 2 := by simp
    have hstep := ih (pre ++ [d]) (a :: post)
    rw [List.length_append, List.length_singleton] at hstep
    have hsplit : pre ++ (a :: (as ++ [d]) ++ post) = pre ++ a :: (as ++ d :: post) := by simp
    have hnext : pre ++ d :: (as ++ a :: post) = pre ++ [d] ++ (as ++ a :: post) := by simp
    rw [hlen, reverse, hsplit, swap_eq, Option.bind_some, hnext, hstep]
    simp

/-! ### C strings -/

variable [DecidableEq α] [Zero α]

/-- The string that starts a buffer, if it ends inside. -/
def cString (b : List α) : Option (List α) :=
  if (0 : α) ∈ b then some (b.takeWhile (· ≠ 0)) else none

theorem cString_append {cs rest : List α} (h : (0 : α) ∉ cs) :
    cString (cs ++ 0 :: rest) = some cs := by
  have hmem : (0 : α) ∈ cs ++ 0 :: rest := List.mem_append_right _ (List.mem_cons_self ..)
  have hall : ∀ c ∈ cs, decide (c ≠ 0) = true := by
    intro c hc
    rw [decide_eq_true_iff]
    rintro rfl
    exact h hc
  rw [cString, if_pos hmem, List.takeWhile_append_of_pos hall,
    List.takeWhile_cons_of_neg (by simp), List.append_nil]

theorem cString_cons (a : α) (b : List α) :
    cString (a :: b) = if a = 0 then some [] else (cString b).map (a :: ·) := by
  unfold cString
  by_cases ha : a = 0
  · rw [if_pos (by rw [ha]; exact List.mem_cons_self ..), if_pos ha,
      List.takeWhile_cons_of_neg (by simpa using ha)]
  · have hmem : (0 : α) ∈ a :: b ↔ (0 : α) ∈ b := by
      rw [List.mem_cons, or_iff_right (Ne.symm ha)]
    rw [if_neg ha, List.takeWhile_cons_of_pos (by simpa using ha)]
    simp only [hmem]
    split <;> rfl

/-- A zero ends the string, if another one does not do so before. -/
theorem cString_zero (cs rest : List α) : cString (cs ++ 0 :: rest) = some (cs.takeWhile (· ≠ 0)) := by
  induction cs with
  | nil => rw [List.nil_append, cString_cons, if_pos rfl, List.takeWhile_nil]
  | cons c cs ih =>
    rw [List.cons_append, cString_cons, ih, List.takeWhile_cons]
    by_cases hc : c = 0 <;> simp [hc]

/-- What a C string read is: no zero in it, and one behind it. -/
theorem cString_some {b cs : List α} (h : cString b = some cs) :
    (0 : α) ∉ cs ∧ ∃ rest, b = cs ++ 0 :: rest := by
  induction b generalizing cs with
  | nil => exact absurd h (by simp [cString])
  | cons a b ih =>
    rw [cString_cons] at h
    split at h
    · rename_i ha
      obtain rfl := Option.some.inj h
      exact ⟨List.not_mem_nil, b, by rw [ha]; rfl⟩
    · rename_i ha
      obtain ⟨ds, hds, rfl⟩ := Option.map_eq_some_iff.mp h
      obtain ⟨hzero, rest, rfl⟩ := ih hds
      exact ⟨by simp [Ne.symm ha, hzero], rest, rfl⟩

end Buffer
end UntitledOS.Lib
