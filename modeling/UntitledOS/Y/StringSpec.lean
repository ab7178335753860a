import UntitledOS.Y.String
import UntitledOS.Lib.Growth

/-! What the operations of `String` do.

The value of a string is the characters below its size. An operation has a result when
every access it makes lies in the bytes its buffer was allocated with, and then the
result's value and shape are given here, operation by operation: whatever follows about
runs is read off these. A copy is the characters with a terminator behind them
(`ofChars`); reading a string through `c_str` writes that terminator into the original
(`terminated`), which changes neither its value nor its shape. -/
namespace UntitledOS.Y
open Lib

theorem doubled_sound {m size : Nat} (hm : m ≤ 4096) (hsize : size ≤ 4096) :
    (Shape.doubled m size).Sound 4096 :=
  Shape.doubled_sound (k := 12) hm hsize

theorem doubled_push {m size : Nat} (hsize : size + 1 ≤ 4096) :
    (Shape.doubled m size).push 4096 = some (.doubled m (size + 1)) :=
  Shape.doubled_push (k := 12) hsize

theorem newChars_length (fresh : Nat → u8) {n : Nat} (h : n ≤ 4096) : (newChars fresh n).length = n := by
  rw [newChars, if_pos h, List.length_map, List.length_range]

namespace String

/-- The characters of a string. -/
def value (s : String) : List u8 := s.buffer.take s.m_size

def shape (s : String) : Shape := ⟨s.m_size, s.m_capacity, s.buffer.length⟩

/-- A string made from characters, in a buffer of its own. -/
def ofChars (cs : List u8) : String := ⟨cs ++ [0], cs.length, cs.length⟩

/-- A string after its terminator was written. -/
def terminated (s : String) : String := {s with buffer := s.buffer.set s.m_size 0}

@[simp] theorem terminated_value (s : String) : s.terminated.value = s.value :=
  List.take_set_of_le (le_refl s.m_size)

@[simp] theorem terminated_shape (s : String) : s.terminated.shape = s.shape := by
  simp [shape, terminated]

@[simp] theorem ofChars_value (cs : List u8) : (ofChars cs).value = cs :=
  List.take_left

@[simp] theorem ofChars_shape (cs : List u8) :
    (ofChars cs).shape = ⟨cs.length, cs.length, cs.length + 1⟩ := by
  simp [shape, ofChars]

theorem value_length {s : String} (h : s.m_size ≤ s.buffer.length) : s.value.length = s.m_size := by
  rw [value, List.length_take, Nat.min_eq_left h]

theorem ofChars_sound {cs : List u8} (h : cs.length + 1 ≤ 4096) : (ofChars cs).shape.Sound 4096 := by
  rw [ofChars_shape]
  exact ⟨le_refl _, Nat.le_succ _, h⟩

/-! ### Copies -/

section Copies
variable {s : String} (fresh : Nat → u8)

theorem c_str_eq (h : s.m_size < s.buffer.length) : s.c_str = some s.terminated := by
  rw [c_str, Buffer.store_eq h]
  rfl

/-- Characters stored at the front of a new buffer, and the terminator behind them. -/
theorem terminate {cs rest : List u8} (h : rest.length = 1) :
    Buffer.store (cs ++ rest) cs.length 0 = some (cs ++ [0]) := by
  obtain ⟨c, rfl⟩ := List.length_eq_one_iff.mp h
  rw [Buffer.store_eq (by simp), List.set_append_right _ _ (le_refl _), Nat.sub_self, List.set_cons_zero]

theorem ofCStr_eq {str : List u8} (h : str.length + 1 ≤ 4096) :
    ofCStr fresh str = some (ofChars str) := by
  have hnew := newChars_length fresh h
  rw [ofCStr, Buffer.storeAll_eq (by omega), Option.bind_some, List.take_zero, List.nil_append,
    Nat.zero_add, terminate (by rw [List.length_drop]; omega)]
  rfl

/-- What copying, assigning and `split` do with a string: the copy is its characters. -/
theorem copyOf_eq (h : s.m_size < s.buffer.length) (hpage : s.buffer.length ≤ 4096) :
    copyOf fresh s = some (ofChars s.value, s.terminated) := by
  have hnew := newChars_length fresh (show s.m_size + 1 ≤ 4096 by omega)
  have hlen := value_length (Nat.le_of_lt h)
  have hvalue : s.terminated.buffer.take s.m_size = s.value := s.terminated_value
  have hsize : s.terminated.m_size = s.m_size := rfl
  have hbuffer : s.terminated.buffer.length = s.buffer.length := List.length_set
  rw [copyOf, c_str_eq h, Option.bind_some, hsize, Buffer.copy_front (by omega) (by omega),
    Option.bind_some, hvalue]
  have hterm : Buffer.store (s.value ++ (newChars fresh (s.m_size + 1)).drop s.m_size) s.value.length 0 =
      some (s.value ++ [0]) := terminate (by rw [List.length_drop]; omega)
  rw [hlen] at hterm
  rw [hterm, Option.map_some, ofChars, hlen]

end Copies

/-! ### One character -/

section Chars
variable {s : String} (fresh : Nat → u8)

/-- `reserve` keeps the characters, if the new buffer has room for them. -/
theorem reserve_spec {n : Nat} (hsize : s.m_size ≤ s.buffer.length) (hroom : s.m_size ≤ n)
    (hpage : n ≤ 4096 ∨ s.m_size = 0) :
    ∃ s', s.reserve fresh n = some s' ∧ s'.value = s.value ∧
      s'.shape = ⟨s.m_size, n, if n ≤ 4096 then n else 0⟩ := by
  have hnew : (newChars fresh n).length = if n ≤ 4096 then n else 0 := by
    split
    · exact newChars_length fresh ‹_›
    · rw [newChars, if_neg ‹_›]
      rfl
  have hin : s.m_size ≤ (newChars fresh n).length := by
    rw [hnew]
    split <;> omega
  have hlen := value_length hsize
  refine ⟨_, by rw [reserve, Buffer.copy_front hsize hin]; rfl, ?_, ?_⟩
  · show (s.value ++ _).take s.m_size = s.value
    rw [← hlen, List.take_left]
  · simp only [shape, List.length_append, List.length_take, List.length_drop, hnew]
    congr 1
    split <;> omega

/-- `append` of a character is a push. -/
theorem append_spec {h : Shape} (hv : s.shape.Valid 4096) (hp : s.shape.push 4096 = some h) (c : u8) :
    ∃ s', s.append fresh c = some s' ∧ s'.value = s.value ++ [c] ∧ s'.shape = h := by
  -- the buffer the character goes to
  obtain ⟨r, hr, hvalue, hshape, hlt, rfl⟩ : ∃ r, (if s.m_size ≥ s.m_capacity then
      s.reserve fresh (if s.m_capacity = 0 then 1 else s.m_capacity * 2) else some s) = some r ∧
      r.value = s.value ∧ r.m_size = s.m_size ∧ r.m_size < r.buffer.length ∧
      h = ⟨s.m_size + 1, r.m_capacity, r.buffer.length⟩ := by
    obtain ⟨hlt, hmem, rfl⟩ | ⟨hfull, hpage, rfl⟩ := Shape.push_cases hp
    · exact ⟨s, if_neg (Nat.not_le.mpr hlt), rfl, rfl, hmem, rfl⟩
    · have hroom : s.m_size < grown s.m_capacity := by
        have := hv.capacity
        exact this.trans_lt (Shape.lt_grown _)
      obtain ⟨r, hr, hvalue, hshape⟩ := s.reserve_spec fresh hv.memory hroom.le (.inl hpage)
      have hpos : (if grown s.m_capacity ≤ 4096 then grown s.m_capacity else 0) = grown s.m_capacity :=
        if_pos hpage
      rw [hpos] at hshape
      obtain ⟨hsize, hcapacity, hlength⟩ := Shape.mk.inj hshape
      refine ⟨r, ?_, hvalue, hsize, by omega, ?_⟩
      · rw [if_pos (show s.m_size ≥ s.m_capacity from hfull)]
        exact hr
      · rw [hcapacity, hlength]
        rfl
  refine ⟨{r with buffer := r.buffer.set r.m_size c, m_size := r.m_size + 1}, ?_, ?_, ?_⟩
  · rw [append, hr, Option.bind_some, Buffer.store_eq hlt]
    rfl
  · show (r.buffer.set r.m_size c).take (r.m_size + 1) = _
    rw [List.take_succ_eq_append_getElem (by simpa using hlt), List.getElem_set_self,
      List.take_set_of_le (le_refl _), ← hvalue]
    rfl
  · simp only [shape, List.length_set, hshape]

/-- Characters appended one by one are pushes. -/
theorem appendEach_spec (fresh : Nat → Nat → u8) (cs : List u8) {s : String} {h : Shape} (i : Nat)
    (hv : s.shape.Valid 4096) (hp : s.shape.pushes 4096 cs.length = some h) :
    ∃ s', s.appendEach fresh i cs = some s' ∧ s'.value = s.value ++ cs ∧ s'.shape = h := by
  induction cs generalizing s i with
  | nil =>
    cases hp
    exact ⟨s, rfl, (List.append_nil _).symm, rfl⟩
  | cons c cs ih =>
    obtain ⟨h₁, hone, hrest⟩ := Option.bind_eq_some_iff.mp hp
    obtain ⟨s₁, hs₁, hvalue₁, rfl⟩ := s.append_spec (fresh i) hv hone c
    obtain ⟨s₂, hs₂, hvalue₂, hshape₂⟩ := ih (i + 1) (hv.push hone) hrest
    refine ⟨s₂, ?_, ?_, hshape₂⟩
    · rw [appendEach, hs₁, Option.bind_some, hs₂]
    · rw [hvalue₂, hvalue₁, List.append_assoc]
      rfl

/-- `pop_back` takes the last character off. -/
theorem pop_back_spec (hv : s.shape.Valid 4096) :
    ∃ s', s.pop_back = some s' ∧ s'.value = s.value.dropLast ∧
      s'.shape = ⟨s.m_size - 1, s.m_capacity, s.buffer.length⟩ := by
  have hmem : s.m_size ≤ s.buffer.length := hv.memory
  unfold pop_back
  split
  · rename_i hpos
    refine ⟨_, by rw [Buffer.store_eq (by omega)]; rfl, ?_, ?_⟩
    · show (s.buffer.set (s.m_size - 1) 0).take (s.m_size - 1) = _
      rw [List.take_set_of_le (le_refl _), value, List.dropLast_eq_take, List.take_take,
        List.length_take, Nat.min_eq_left hmem, Nat.min_eq_left (Nat.sub_le _ _)]
    · simp [shape]
  · have hzero : s.m_size = 0 := by omega
    refine ⟨s, rfl, ?_, ?_⟩
    · rw [value, hzero]
      rfl
    · rw [shape, hzero]

/-- `clear` writes the whole capacity. -/
theorem clear_spec (h : s.m_capacity ≤ s.buffer.length) :
    ∃ s', s.clear = some s' ∧ s'.value = [] ∧ s'.shape = ⟨0, s.m_capacity, s.buffer.length⟩ := by
  refine ⟨_, by rw [clear, Buffer.storeAll_eq (by simpa using h)]; rfl, rfl, ?_⟩
  simp only [shape, List.take_zero, List.nil_append, List.length_append, List.length_replicate,
    List.length_drop, Nat.zero_add]
  congr 1
  omega

end Chars

/-! ### `toUpper` -/

theorem toUpperFrom_spec (fresh : Nat → Nat → u8) (s : String) (n : Nat) {i : Nat} {r : String}
    (hin : i + n ≤ s.buffer.length) (hpage : i + n ≤ 4096) (hr : r.shape = .doubled 0 i) :
    ∃ r', toUpperFrom fresh s i n r = some r' ∧
      r'.value = r.value ++ ((s.buffer.drop i).take n).map upper ∧ r'.shape = .doubled 0 (i + n) := by
  induction n generalizing i r with
  | zero => exact ⟨r, rfl, by simp, hr⟩
  | succ n ih =>
    have hi : i < s.buffer.length := by omega
    have hvalid : r.shape.Valid 4096 := by
      rw [hr]
      exact (doubled_sound (Nat.zero_le _) (by omega)).valid
    have hpush : r.shape.push 4096 = some (.doubled 0 (i + 1)) := by
      rw [hr]
      exact doubled_push (by omega)
    obtain ⟨r₁, hr₁, hvalue₁, hshape₁⟩ := r.append_spec (fresh i) hvalid hpush (upper s.buffer[i])
    obtain ⟨r₂, hr₂, hvalue₂, hshape₂⟩ := ih (by omega) (by omega) hshape₁
    refine ⟨r₂, ?_, ?_, ?_⟩
    · rw [toUpperFrom, List.getElem?_eq_getElem hi, Option.bind_some, hr₁, Option.bind_some, hr₂]
    · rw [hvalue₂, hvalue₁, List.drop_eq_getElem_cons hi, List.take_succ_cons, List.map_cons,
        List.append_assoc]
      rfl
    · rw [hshape₂]
      congr 1
      omega

/-- `toUpper` always has a result. -/
theorem toUpper_spec (fresh : Nat → Nat → u8) {s : String} (hv : s.shape.Valid 4096) :
    ∃ r, s.toUpper fresh = some r ∧ r.value = s.value.map upper ∧ r.shape.Sound 4096 := by
  have hsize : s.m_size ≤ s.buffer.length := hv.memory
  have hpage : s.m_size ≤ 4096 := hsize.trans hv.limit
  obtain ⟨r, hr, hvalue, hshape⟩ :=
    toUpperFrom_spec fresh s s.m_size (i := 0) (r := default) (by omega) (by omega) rfl
  refine ⟨r, hr, ?_, ?_⟩
  · rw [hvalue]
    rfl
  · rw [hshape, Nat.zero_add]
    exact doubled_sound (Nat.zero_le _) hpage

/-! ### `split` -/

/-- The longest runs of characters other than `delim`. -/
def tokens (delim : u8) (cs : List u8) : List (List u8) := (cs.splitOn delim).filter (· ≠ [])

/-- Every token is shorter than the buffer it is collected in, which has grown for the
longest token so far, of `m` characters before the first. -/
def TokensFit : Nat → List (List u8) → Prop
  | _, [] => True
  | m, t :: ts => t.length < room (max m t.length) ∧ TokensFit (max m t.length) ts

instance decidableTokensFit : ∀ (m : Nat) (ts : List (List u8)), Decidable (TokensFit m ts)
  | _, [] => inferInstanceAs (Decidable True)
  | m, t :: ts =>
    have := decidableTokensFit (max m t.length) ts
    inferInstanceAs (Decidable (t.length < room (max m t.length) ∧ TokensFit (max m t.length) ts))

theorem tokens_run {delim : u8} {cur : List u8} (h : delim ∉ cur) :
    tokens delim cur = if cur = [] then [] else [cur] := by
  have hfree : ∀ c ∈ cur, (c == delim) = false := by
    intro c hc
    rw [beq_eq_false_iff_ne]
    rintro rfl
    exact h hc
  rw [tokens, List.splitOn_eq_splitOnP, List.splitOnP_eq_singleton hfree]
  split
  · rename_i hnil
    simp [hnil]
  · rename_i hne
    simp [hne]

theorem tokens_delim {delim : u8} {cur : List u8} (h : delim ∉ cur) (cs : List u8) :
    tokens delim (cur ++ delim :: cs) = tokens delim cur ++ tokens delim cs := by
  have hfree : ∀ c ∈ cur, (c == delim) = false := by
    intro c hc
    rw [beq_eq_false_iff_ne]
    rintro rfl
    exact h hc
  rw [tokens_run h, tokens, List.splitOn_eq_splitOnP,
    List.splitOnP_append_cons_of_forall_mem hfree _ (by simp), List.filter_cons, tokens,
    List.splitOn_eq_splitOnP]
  by_cases hcur : cur = [] <;> simp [hcur]

theorem mapM_self {α : Type*} {f : α → Option α} {l : List α} (h : ∀ a ∈ l, f a = some a) :
    l.mapM f = some l := by
  induction l with
  | nil => rfl
  | cons a l ih =>
    rw [List.mapM_cons, h a (List.mem_cons_self ..), ih fun b hb => h b (List.mem_cons_of_mem _ hb)]
    rfl

/-- Where `split` is: the tokens `ts` are in the vector, and the run `cur` is in a string
that has grown for at most `m` characters before. -/
structure Splitting (delim : u8) (ts : List (List u8)) (m : Nat) (cur : List u8)
    (r : Pieces × String) : Prop where
  items : r.1.items = ts.map ofChars
  capacity : r.1.m_capacity = room ts.length
  small : ∀ t ∈ ts, t.length + 1 ≤ 4096
  value : r.2.value = cur
  shape : r.2.shape = .doubled m cur.length
  free : delim ∉ cur
  grown : m ≤ 4096

section Split
variable {delim : u8} {ts : List (List u8)} {m : Nat} {cur : List u8} {r : Pieces × String}

theorem Splitting.start : Splitting delim [] 0 [] (⟨0, []⟩, default) :=
  ⟨rfl, rfl, fun _ ht => absurd ht List.not_mem_nil, rfl, rfl, List.not_mem_nil, Nat.zero_le _⟩

/-- A token goes into the vector: there is room for its terminator, and for 256 tokens. -/
theorem Splitting.push_back (h : Splitting delim ts m cur r) (fresh : Nat → u8)
    (hroom : cur.length < room (max m cur.length)) (hcur : cur.length ≤ 4096)
    (hcount : ts.length + 1 ≤ 256) :
    r.1.push_back fresh r.2 =
      some (⟨room (ts.length + 1), (ts ++ [cur]).map ofChars⟩, r.2.terminated) := by
  obtain ⟨hsize, _, hlength⟩ := Shape.mk.inj h.shape
  have hpage : room (max m cur.length) ≤ 4096 :=
    room_le (k := 12) (Nat.max_le.mpr ⟨h.grown, hcur⟩)
  have hcopy : copyOf fresh r.2 = some (ofChars cur, r.2.terminated) := by
    rw [copyOf_eq fresh (by omega) (by omega), h.value]
  have hcopies : r.1.items.mapM (fun s => (copyOf fresh s).map Prod.fst) = some r.1.items := by
    refine mapM_self fun s hs => ?_
    rw [h.items] at hs
    obtain ⟨t, ht, rfl⟩ := List.mem_map.mp hs
    obtain ⟨hs, _, hl⟩ := Shape.mk.inj (ofChars_shape t)
    have := h.small t ht
    rw [copyOf_eq fresh (by omega) (by omega), ofChars_value]
    rfl
  have hlen : r.1.items.length = ts.length := by rw [h.items, List.length_map]
  have hle := le_room ts.length
  have hgrow : (if r.1.items.length ≥ r.1.m_capacity then
      r.1.reserve fresh (if r.1.m_capacity = 0 then 1 else r.1.m_capacity * 2) else some r.1) =
        some ⟨room (ts.length + 1), r.1.items⟩ := by
    rw [hlen, h.capacity]
    split
    · have hfull : ts.length = room ts.length := by omega
      have hnext : (if room ts.length = 0 then 1 else room ts.length * 2) = room (ts.length + 1) := by
        rw [← hfull]
        exact grown_room hfull
      have hfits : room (ts.length + 1) ≤ 256 := room_le (k := 8) hcount
      rw [hnext, Pieces.reserve, if_pos (by omega), hcopies]
      rfl
    · rename_i hlt
      rw [room_succ_of_lt (by omega), ← h.capacity]
  rw [Pieces.push_back, hgrow, Option.bind_some, hcopy, Option.map_some, h.items, List.map_append]
  rfl

/-- At a delimiter, the run collected becomes a token. -/
theorem Splitting.ended (h : Splitting delim ts m cur r) (fresh : Nat → u8)
    (hroom : cur.length < room (max m cur.length)) (hcur : cur.length + 1 ≤ 4096) (hcount : ts.length + 1 ≤ 256) :
    ∃ r', (r.1.push_back fresh r.2).bind (fun r => r.2.clear.map fun s => (r.1, s)) = some r' ∧
      Splitting delim (ts ++ [cur]) (max m cur.length) [] r' := by
  obtain ⟨_, hcap, hlen⟩ := Shape.mk.inj (r.2.terminated_shape.trans h.shape)
  obtain ⟨s, hs, hvalue, hshape⟩ := clear_spec (s := r.2.terminated) (by omega)
  refine ⟨_, by rw [h.push_back fresh hroom (by omega) hcount, Option.bind_some, hs, Option.map_some], ?_⟩
  refine ⟨rfl, by rw [List.length_append]; rfl, fun t ht => ?_, hvalue, ?_, List.not_mem_nil,
    Nat.max_le.mpr ⟨h.grown, by omega⟩⟩
  · rcases List.mem_append.mp ht with ht | ht
    · exact h.small t ht
    · rwa [List.mem_singleton.mp ht]
  · rw [hshape, hcap, hlen, Shape.doubled, List.length_nil, Nat.max_eq_left (Nat.zero_le _)]

/-- Any other character is collected. -/
theorem Splitting.char (h : Splitting delim ts m cur r) (fresh : Nat → u8) {c : u8} (hc : c ≠ delim)
    (hcur : cur.length + 1 ≤ 4096) :
    ∃ r', (r.2.append fresh c).map (fun s => (r.1, s)) = some r' ∧ Splitting delim ts m (cur ++ [c]) r' := by
  have hvalid : r.2.shape.Valid 4096 := by
    rw [h.shape]
    exact (doubled_sound h.grown (by omega)).valid
  have hpush : r.2.shape.push 4096 = some (.doubled m (cur.length + 1)) := by
    rw [h.shape]
    exact doubled_push hcur
  obtain ⟨s, hs, hvalue, hshape⟩ := r.2.append_spec fresh hvalid hpush c
  refine ⟨(r.1, s), by rw [hs, Option.map_some], h.items, h.capacity, h.small, by rw [hvalue, h.value], ?_, ?_, h.grown⟩
  · rw [hshape, List.length_append]
    rfl
  · rw [List.mem_append, List.mem_singleton, not_or]
    exact ⟨h.free, Ne.symm hc⟩

/-- The loop of `split`, as far as it has come. -/
theorem splitFrom_spec (fresh : Nat → Nat → u8) (this : String) (n : Nat) {i : Nat}
    (h : Splitting delim ts m cur r) (hin : i + n ≤ this.buffer.length) (hpage : i + n ≤ 4096)
    (hcur : cur.length ≤ i)
    (hfit : TokensFit m (tokens delim (cur ++ (this.buffer.drop i).take n)))
    (hcount : ts.length + (tokens delim (cur ++ (this.buffer.drop i).take n)).length ≤ 256) :
    ∃ r' ts' m' cur', splitFrom fresh delim this i n r = some r' ∧
      Splitting delim ts' m' cur' r' ∧ cur'.length ≤ i + n ∧
      ts' ++ tokens delim cur' = ts ++ tokens delim (cur ++ (this.buffer.drop i).take n) ∧
      TokensFit m' (tokens delim cur') := by
  induction n generalizing i ts m cur r with
  | zero =>
    rw [List.take_zero, List.append_nil] at hfit ⊢
    exact ⟨r, ts, m, cur, rfl, h, hcur, rfl, hfit⟩
  | succ n ih =>
    have hi : i < this.buffer.length := by omega
    have hrest : (this.buffer.drop i).take (n + 1) =
        this.buffer[i] :: (this.buffer.drop (i + 1)).take n := by
      rw [List.drop_eq_getElem_cons hi, List.take_succ_cons]
    rw [hrest] at hfit hcount ⊢
    rw [splitFrom, List.getElem?_eq_getElem hi, Option.bind_some]
    generalize this.buffer[i] = c at *
    obtain ⟨hsize, _, _⟩ := Shape.mk.inj h.shape
    by_cases hc : c = delim
    · subst hc
      rw [tokens_delim h.free] at hfit hcount ⊢
      rw [if_pos rfl]
      by_cases hnil : cur = []
      · -- nothing was collected
        subst hnil
        rw [tokens_run h.free, if_pos rfl, List.nil_append] at hfit hcount ⊢
        rw [if_neg (by rw [hsize]; exact lt_irrefl 0), Option.bind_some]
        obtain ⟨r', ts', m', cur', hr', hsplit, hlen', htokens, hfit'⟩ :=
          ih h (by omega) (by omega) (Nat.zero_le _) hfit hcount
        exact ⟨r', ts', m', cur', hr', hsplit, by omega, htokens, hfit'⟩
      · rw [tokens_run h.free, if_neg hnil] at hfit hcount ⊢
        rw [List.length_append, List.length_singleton] at hcount
        obtain ⟨hroom, hfit⟩ := hfit
        have hpos : r.2.m_size > 0 := by
          rw [hsize]
          exact List.length_pos_iff.mpr hnil
        obtain ⟨r₁, hended, hnext⟩ := h.ended (fresh i) hroom (by omega) (by omega)
        rw [if_pos hpos, hended, Option.bind_some]
        obtain ⟨r', ts', m', cur', hr', hsplit, hlen', htokens, hfit'⟩ :=
          ih hnext (by omega) (by omega) (Nat.zero_le _) hfit
            (by rw [List.length_append, List.length_singleton, List.nil_append]; omega)
        exact ⟨r', ts', m', cur', hr', hsplit, by omega, by rw [htokens]; simp, hfit'⟩
    · obtain ⟨r₁, hchar, hnext⟩ := h.char (fresh i) hc (by omega)
      have hassoc : cur ++ c :: (this.buffer.drop (i + 1)).take n =
          (cur ++ [c]) ++ (this.buffer.drop (i + 1)).take n := by simp
      rw [hassoc] at hfit hcount ⊢
      rw [if_neg hc, hchar, Option.bind_some]
      obtain ⟨r', ts', m', cur', hr', hsplit, hlen', htokens, hfit'⟩ :=
        ih hnext (by omega) (by omega)
          (by rw [List.length_append, List.length_singleton]; omega) hfit hcount
      exact ⟨r', ts', m', cur', hr', hsplit, by omega, htokens, hfit'⟩

/-- `split` gives the tokens, if each fits its buffer and there are at most 256. -/
theorem split_spec (fresh : Nat → Nat → u8) (delim : u8) {s : String} (hmem : s.m_size ≤ s.buffer.length)
    (hlimit : s.buffer.length ≤ 4096)
    (hfit : TokensFit 0 (tokens delim s.value)) (hcount : (tokens delim s.value).length ≤ 256) :
    s.split fresh delim = some ((tokens delim s.value).map ofChars) ∧
      ∀ t ∈ tokens delim s.value, t.length + 1 ≤ 4096 := by
  have hpage : s.m_size ≤ 4096 := hmem.trans hlimit
  obtain ⟨r, ts, m, cur, hr, hsplit, hcur, htokens, hfit'⟩ :=
    splitFrom_spec fresh s s.m_size (i := 0) Splitting.start (by omega) (by omega) (Nat.zero_le _)
      hfit (by rw [List.length_nil, Nat.zero_add]; exact hcount)
  obtain ⟨hsize, _, _⟩ := Shape.mk.inj hsplit.shape
  have hall : tokens delim s.value = ts ++ tokens delim cur := htokens.symm
  rw [hall] at hcount ⊢
  rw [split, hr, Option.bind_some]
  rw [tokens_run hsplit.free] at hfit' hcount ⊢
  by_cases hnil : cur = []
  · subst hnil
    rw [if_neg (by rw [hsize]; exact lt_irrefl 0), if_pos rfl, List.append_nil, hsplit.items]
    exact ⟨rfl, hsplit.small⟩
  · rw [if_neg hnil] at hfit' hcount ⊢
    rw [List.length_append, List.length_singleton] at hcount
    have hpos : r.2.m_size > 0 := by
      rw [hsize]
      exact List.length_pos_iff.mpr hnil
    have hroom := hfit'.1
    have hle : room (max m cur.length) ≤ 4096 :=
      room_le (k := 12) (Nat.max_le.mpr ⟨hsplit.grown, by omega⟩)
    rw [if_pos hpos, hsplit.push_back (fresh s.m_size) hroom (by omega) hcount]
    refine ⟨rfl, fun t ht => ?_⟩
    rcases List.mem_append.mp ht with ht | ht
    · exact hsplit.small t ht
    · rw [List.mem_singleton.mp ht]
      omega

end Split

end String

end UntitledOS.Y
