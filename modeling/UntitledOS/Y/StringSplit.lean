import UntitledOS.Y.StringSpec

/-! `split`, in both directions.

`split_spec` has the tokens for strings whose tokens fit the buffer they are collected in.
Here is the converse: the terminator of a token that fills the buffer goes behind it, and
the vector cannot grow beyond 256 strings (`Splitting.push_back_none`). So `split` is exact
on these strings and on no others (`split_exact`). -/
namespace UntitledOS.Y
open Lib

namespace String

/-! ### Tokens -/

section Tokens
variable {delim : u8}

/-- Tokens are not empty and free of the delimiter, and the rest is delimiters. -/
theorem tokens_runs (delim : u8) (cs : List u8) :
    (∀ t ∈ tokens delim cs, t ≠ [] ∧ delim ∉ t) ∧ (tokens delim cs).flatten = cs.filter (· ≠ delim) := by
  induction hn : cs.length using Nat.strong_induction_on generalizing cs with
  | _ n ih =>
    have hrun : ∀ cur : List u8, delim ∉ cur →
        (∀ t ∈ tokens delim cur, t ≠ [] ∧ delim ∉ t) ∧ (tokens delim cur).flatten = cur.filter (· ≠ delim) := by
      intro cur hfree
      have hall : cur.filter (· ≠ delim) = cur := by
        rw [List.filter_eq_self]
        intro c hc
        rw [decide_eq_true_iff]
        rintro rfl
        exact hfree hc
      rw [tokens_run hfree, hall]
      split
      · rename_i hnil
        exact ⟨fun t ht => (List.not_mem_nil ht).elim, hnil.symm⟩
      · rename_i hne
        refine ⟨fun t ht => ?_, List.append_nil _⟩
        obtain rfl := List.mem_singleton.mp ht
        exact ⟨hne, hfree⟩
    by_cases hmem : delim ∈ cs
    · obtain ⟨cur, rest, rfl, hfree⟩ := List.eq_append_cons_of_mem hmem
      obtain ⟨hcur, hcur'⟩ := hrun cur hfree
      obtain ⟨hrest, hrest'⟩ := ih rest.length (by rw [← hn, List.length_append, List.length_cons]; omega) rest rfl
      rw [tokens_delim hfree, List.flatten_append, hcur', hrest', List.filter_append, List.filter_cons]
      refine ⟨fun t ht => ?_, by simp⟩
      exact (List.mem_append.mp ht).elim (hcur t) (hrest t)
    · exact hrun cs hmem

end Tokens

/-! ### What does not fit -/

section Split
variable {delim : u8} {ts : List (List u8)} {m : Nat} {cur : List u8} {r : Pieces × String}

/-- A token that fills its buffer, or one more than 256. -/
theorem Splitting.push_back_none (h : Splitting delim ts m cur r) (fresh : Nat → u8) (hcount : ts.length ≤ 256)
    (hfit : ¬(cur.length < room (max m cur.length) ∧ ts.length + 1 ≤ 256)) : r.1.push_back fresh r.2 = none := by
  obtain ⟨hsize, _, hlength⟩ := Shape.mk.inj h.shape
  have hlen : r.1.items.length = ts.length := by rw [h.items, List.length_map]
  by_cases hfull : ts.length + 1 ≤ 256
  · have hterminator : r.2.c_str = none := by
      rw [c_str, Buffer.store, if_neg (by omega)]
      rfl
    have hcopy : copyOf fresh r.2 = none := by
      rw [copyOf, hterminator]
      rfl
    rw [Pieces.push_back, hcopy]
    simp only [Option.map_none, Option.bind_fun_none]
  · have hroom : room ts.length = 256 := by
      have hle := le_room ts.length
      have hpage := room_le (k := 8) hcount
      omega
    rw [Pieces.push_back, hlen, h.capacity, hroom, if_pos (by omega), Pieces.reserve, if_neg (by decide)]
    rfl

/-- The loop of `split` gets to its end only with tokens that fit. -/
theorem splitFrom_fits (fresh : Nat → Nat → u8) (this : String) (n : Nat) {i : Nat} {r' : Pieces × String}
    (h : Splitting delim ts m cur r) (hin : i + n ≤ this.buffer.length) (hpage : i + n ≤ 4096)
    (hcur : cur.length ≤ i) (hcount : ts.length ≤ 256) (hr : splitFrom fresh delim this i n r = some r') :
    ∃ ts' m' cur', Splitting delim ts' m' cur' r' ∧ ts'.length ≤ 256 ∧
      ts' ++ tokens delim cur' = ts ++ tokens delim (cur ++ (this.buffer.drop i).take n) ∧
      (TokensFit m' (tokens delim cur') → TokensFit m (tokens delim (cur ++ (this.buffer.drop i).take n))) := by
  induction n generalizing i ts m cur r with
  | zero =>
    obtain rfl := Option.some.inj hr
    rw [List.take_zero, List.append_nil]
    exact ⟨ts, m, cur, h, hcount, rfl, id⟩
  | succ n ih =>
    have hi : i < this.buffer.length := by omega
    have hrest : (this.buffer.drop i).take (n + 1) = this.buffer[i] :: (this.buffer.drop (i + 1)).take n := by
      rw [List.drop_eq_getElem_cons hi, List.take_succ_cons]
    rw [hrest]
    rw [splitFrom, List.getElem?_eq_getElem hi, Option.bind_some] at hr
    generalize this.buffer[i] = c at *
    obtain ⟨hsize, _, _⟩ := Shape.mk.inj h.shape
    by_cases hc : c = delim
    · subst hc
      rw [if_pos rfl] at hr
      rw [tokens_delim h.free, tokens_run h.free]
      by_cases hnil : cur = []
      · -- nothing was collected
        subst hnil
        rw [if_neg (by rw [hsize]; exact lt_irrefl 0), Option.bind_some] at hr
        obtain ⟨ts', m', cur', hsplit, hle, htokens, hfits⟩ := ih h (by omega) (by omega) (Nat.zero_le _) hcount hr
        rw [if_pos rfl, List.nil_append]
        exact ⟨ts', m', cur', hsplit, hle, htokens, hfits⟩
      · have hpos : r.2.m_size > 0 := by
          rw [hsize]
          exact List.length_pos_iff.mpr hnil
        rw [if_pos hpos] at hr
        rw [if_neg hnil, List.singleton_append]
        by_cases hfit : cur.length < room (max m cur.length) ∧ ts.length + 1 ≤ 256
        · obtain ⟨r₁, hended, hnext⟩ := h.ended (fresh i) hfit.1 (by omega) hfit.2
          rw [hended, Option.bind_some] at hr
          obtain ⟨ts', m', cur', hsplit, hle, htokens, hfits⟩ := ih hnext (by omega) (by omega) (Nat.zero_le _)
            (by rw [List.length_append]; exact hfit.2) hr
          refine ⟨ts', m', cur', hsplit, hle, ?_, fun h => ⟨hfit.1, hfits h⟩⟩
          rw [htokens, List.append_assoc]
          rfl
        · rw [h.push_back_none (fresh i) hcount hfit] at hr
          cases hr
    · obtain ⟨r₁, hchar, hnext⟩ := h.char (fresh i) hc (by omega)
      have hassoc : cur ++ c :: (this.buffer.drop (i + 1)).take n =
          (cur ++ [c]) ++ (this.buffer.drop (i + 1)).take n := by simp
      rw [if_neg hc, hchar, Option.bind_some] at hr
      rw [hassoc]
      exact ih hnext (by omega) (by omega) (by rw [List.length_append, List.length_singleton]; omega) hcount hr

theorem split_fits (fresh : Nat → Nat → u8) (delim : u8) {s : String} (hmem : s.m_size ≤ s.buffer.length)
    (hlimit : s.buffer.length ≤ 4096) {pieces : List String} (hs : s.split fresh delim = some pieces) :
    TokensFit 0 (tokens delim s.value) ∧ (tokens delim s.value).length ≤ 256 := by
  obtain ⟨r, hr, hlast⟩ := Option.bind_eq_some_iff.mp hs
  obtain ⟨ts, m, cur, hsplit, hle, htokens, hfits⟩ := splitFrom_fits fresh s s.m_size Splitting.start (by omega)
    (by omega) (Nat.zero_le _) (Nat.zero_le _) hr
  have hall : tokens delim s.value = ts ++ tokens delim cur := htokens.symm
  obtain ⟨hsize, _, _⟩ := Shape.mk.inj hsplit.shape
  have hrun := tokens_run hsplit.free
  by_cases hnil : cur = []
  · rw [if_pos hnil] at hrun
    rw [hrun] at hfits hall
    refine ⟨hfits trivial, ?_⟩
    rw [hall, List.append_nil]
    exact hle
  · have hpos : r.2.m_size > 0 := by
      rw [hsize]
      exact List.length_pos_iff.mpr hnil
    rw [if_neg hnil] at hrun
    rw [hrun] at hfits hall
    rw [if_pos hpos] at hlast
    by_cases hfit : cur.length < room (max m cur.length) ∧ ts.length + 1 ≤ 256
    · refine ⟨hfits ⟨hfit.1, trivial⟩, ?_⟩
      rw [hall, List.length_append]
      exact hfit.2
    · rw [hsplit.push_back_none _ hle hfit] at hlast
      cases hlast

end Split

/-! ### Exactness -/

/-- The pieces are the longest runs of other characters, none empty, none with the delimiter in it,
and joined they are the string without its delimiters. -/
def SplitsExactly (fresh : Nat → Nat → u8) (delim : u8) (s : String) : Prop :=
  ∃ pieces, s.split fresh delim = some pieces ∧ pieces.map value = tokens delim s.value ∧
    (∀ p ∈ pieces, p.value ≠ [] ∧ delim ∉ p.value) ∧ (pieces.map value).flatten = s.value.filter (· ≠ delim)

/-- **`split` is exact if and only if** every token is shorter than the buffer it is collected in and
there are at most 256. -/
theorem split_exact (fresh : Nat → Nat → u8) (delim : u8) {s : String} (hmem : s.m_size ≤ s.buffer.length)
    (hlimit : s.buffer.length ≤ 4096) :
    SplitsExactly fresh delim s ↔ TokensFit 0 (tokens delim s.value) ∧ (tokens delim s.value).length ≤ 256 := by
  constructor
  · rintro ⟨pieces, hs, -⟩
    exact split_fits fresh delim hmem hlimit hs
  · rintro ⟨hfit, hcount⟩
    obtain ⟨hs, -⟩ := split_spec fresh delim hmem hlimit hfit hcount
    obtain ⟨hruns, hflatten⟩ := tokens_runs delim s.value
    have hvalues : ((tokens delim s.value).map ofChars).map value = tokens delim s.value := by
      rw [List.map_map]
      exact List.map_id'' ofChars_value _
    refine ⟨_, hs, hvalues, fun p hp => ?_, by rw [hvalues, hflatten]⟩
    obtain ⟨t, ht, rfl⟩ := List.mem_map.mp hp
    rw [ofChars_value]
    exact hruns t ht

/-- `cat dog` at the space: three characters in four bytes each time. -/
theorem split_exact_words :
    SplitsExactly (fun _ _ => 0) 0x20 (ofChars [0x63, 0x61, 0x74, 0x20, 0x64, 0x6f, 0x67]) :=
  (split_exact (fun _ _ => 0) 0x20 (by decide) (by decide)).mpr ⟨by decide, by decide⟩

/-- A letter, and thirty-two characters that fill what they are collected in: a cell of the kernel's
heap, whose next cell holds the letter by then. -/
theorem cell_not_split : ¬ ∀ (fresh : Nat → Nat → u8) (delim : u8) (s : String), s.m_size ≤ s.buffer.length →
    s.buffer.length ≤ 4096 → SplitsExactly fresh delim s := by
  intro h
  obtain ⟨pieces, hs, -⟩ :=
    h (fun _ _ => 0) 0x20 (ofChars (0x61 :: 0x20 :: List.replicate 32 0x62)) (by decide) (by decide)
  have hfits := (split_fits _ _ (by decide) (by decide) hs).1
  exact absurd hfits (by decide +kernel)

end String

end UntitledOS.Y
