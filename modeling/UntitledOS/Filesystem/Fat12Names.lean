import UntitledOS.Filesystem.Fat12Write

/-! Names in the entries of a directory.

A name is turned into the eleven bytes of an entry by index, and back by splitting at
spaces. The two agree for names whose extension fills its three bytes, whatever the base:
without padding between them, base and extension come back as one word, and that word is
turned into the same bytes (`ShortName.dosName_listed`). With padding they come back as two,
and what the memory holds behind the dot gets between them: any of it, and the name is not
turned into the same bytes (`ShortName.terminated_of_dosName`). A name with another extension has
its dot among the eleven bytes, and needs eight characters at least (`dosName_undotted`):
with fewer, the loop reads on behind the name. -/
namespace UntitledOS.Filesystem
open Lib Y

namespace FAT12

/-! ### Names with another extension -/

theorem upper_dot {c : u8} : String.upper c = 0x2e ↔ c = 0x2e := by
  unfold String.upper
  split
  · constructor <;> intro hc <;> bv_omega
  · rfl

/-- The first loop when it does not stop: there have to be as many characters. -/
theorem dosBase_copy {upper todo : List u8} (done dosName : List u8) (hupper : upper = done ++ todo) {n : Nat}
    (hno : ∀ i : Nat, i < done.length + n → upper[i]? = some 0x2e → (i : Int) ≠ upper.length - 4)
    (hlen : done.length + n ≤ dosName.length) :
    dosBase upper done.length n dosName =
      if n ≤ todo.length then some (dosName.take done.length ++ todo.take n ++ dosName.drop (done.length + n))
      else none := by
  induction n generalizing done todo dosName with
  | zero => simp [dosBase]
  | succ n ih =>
    cases todo with
    | nil =>
      rw [dosBase, hupper, List.append_nil, List.getElem?_eq_none (le_refl _)]
      rfl
    | cons c todo =>
      have hnext : upper[done.length]? = some c := by simp [hupper]
      have hgo : ¬(c = 0x2e ∧ ((done.length : Nat) : Int) = upper.length - 4) := by
        rintro ⟨rfl, hend⟩
        exact hno done.length (by omega) hnext hend
      have hlen' : (done ++ [c]).length = done.length + 1 := by rw [List.length_append, List.length_singleton]
      have hrest := ih (done ++ [c]) (dosName.set done.length c) (show upper = done ++ [c] ++ todo by simp [hupper])
        (fun i hi => hno i (by omega)) (by rw [List.length_set]; omega)
      rw [hlen'] at hrest
      rw [dosBase, hnext, Option.bind_some, if_neg hgo, hrest]
      by_cases hn : n ≤ todo.length
      · have hset := Buffer.set_stretch (b := dosName) (k := done.length) (by omega) c (todo.take n)
        rw [List.length_cons, List.length_take, Nat.min_eq_left hn] at hset
        rw [if_pos hn, if_pos (by simpa using hn), hset, List.take_succ_cons]
      · rw [if_neg hn, if_neg (by simpa using hn)]

/-- Without a dot in front of the last three characters, the first eight and the last three
are taken as they are. -/
theorem dosName_undotted {name : List u8}
    (hno : ∀ i : Nat, i < 8 → name[i]? = some 0x2e → (i : Int) ≠ name.length - 4) :
    dosName name = if 8 ≤ name.length then
      some ((name.map String.upper).take 8 ++ (name.map String.upper).drop (name.length - 3)) else none := by
  generalize hupper : name.map String.upper = upper
  have hlen : upper.length = name.length := by rw [← hupper, List.length_map]
  have hno' : ∀ i : Nat, i < ([] : List u8).length + 8 → upper[i]? = some 0x2e → (i : Int) ≠ upper.length - 4 := by
    intro i hi hdot
    rw [← hupper, List.getElem?_map, Option.map_eq_some_iff] at hdot
    obtain ⟨c, hc, hc'⟩ := hdot
    rw [hlen]
    exact hno i (by simpa using hi) (hc.trans (congrArg some (upper_dot.mp hc')))
  have hfirst := dosBase_copy [] (List.replicate 11 0x20) (List.nil_append upper).symm hno' (by simp)
  simp only [List.length_nil, List.take_zero, List.nil_append, Nat.zero_add, List.drop_replicate, hlen] at hfirst
  rw [dosName, hupper]
  simp only [hfirst]
  by_cases h : 8 ≤ name.length
  · have hext : (upper.drop (name.length - 3)).length = 3 := by
      rw [List.length_drop]
      omega
    have htake : (upper.take 8).length = 8 := by
      rw [List.length_take]
      omega
    rw [if_pos h, if_pos h, Option.bind_some,
      dosExtension_eq (upper.take (name.length - 3)) _ (List.take_append_drop _ _).symm hext (by simp [htake]),
      List.take_left' htake]
  · rw [if_neg h, if_neg h, Option.bind_none]

/-! ### Splitting what is padded -/

theorem tokens_spaces (n : Nat) (cs : List u8) :
    String.tokens 0x20 (List.replicate n 0x20 ++ cs) = String.tokens 0x20 cs := by
  induction n with
  | zero => rfl
  | succ n ih =>
    have hnil := String.tokens_delim (show (0x20 : u8) ∉ [] from List.not_mem_nil) (List.replicate n 0x20 ++ cs)
    rw [String.tokens_run List.not_mem_nil, if_pos rfl, List.nil_append, List.nil_append] at hnil
    rw [List.replicate_succ, List.cons_append, hnil, ih]

/-- A word, spaces behind it, and more. -/
theorem tokens_word {cur : List u8} (h : 0x20 ∉ cur) (hne : cur ≠ []) (n : Nat) (cs : List u8) :
    String.tokens 0x20 (cur ++ (List.replicate (n + 1) 0x20 ++ cs)) = cur :: String.tokens 0x20 cs := by
  rw [List.replicate_succ, List.cons_append, String.tokens_delim h, String.tokens_run h, if_neg hne, tokens_spaces]
  rfl

theorem tokens_last {cur : List u8} (h : 0x20 ∉ cur) (n : Nat) :
    String.tokens 0x20 (cur ++ List.replicate n 0x20) = if cur = [] then [] else [cur] := by
  cases n with
  | zero => rw [List.replicate_zero, List.append_nil, String.tokens_run h]
  | succ n =>
    by_cases hne : cur = []
    · have hspaces := tokens_spaces (n + 1) []
      rw [List.append_nil, String.tokens_run List.not_mem_nil] at hspaces
      rw [hne, List.nil_append, hspaces]
    · have hword := tokens_word h hne n []
      rw [List.append_nil, String.tokens_run List.not_mem_nil, if_pos rfl] at hword
      rw [hword, if_neg hne]

theorem tokens_ne_nil {c : u8} (hc : c ≠ 0x20) (cs : List u8) : String.tokens 0x20 (c :: cs) ≠ [] := by
  by_cases hmem : 0x20 ∈ c :: cs
  · obtain ⟨done, rest, hsplit, hfree⟩ := List.eq_append_cons_of_mem hmem
    have hne : done ≠ [] := by
      rintro rfl
      exact hc (List.cons.inj hsplit).1
    rw [hsplit, String.tokens_delim hfree, String.tokens_run hfree, if_neg hne]
    exact List.cons_ne_nil _ _
  · rw [String.tokens_run hmem, if_neg (List.cons_ne_nil c cs)]
    exact List.cons_ne_nil _ _

/-- A base and an extension in the eleven bytes of an entry. -/
def padded (base ext : List u8) : List u8 :=
  base ++ List.replicate (8 - base.length) 0x20 ++ (ext ++ List.replicate (3 - ext.length) 0x20)

/-- A character of a name in an entry. -/
def NameChar (c : u8) : Prop := c ≠ 0 ∧ c ≠ 0x20 ∧ c ≠ 0x2e ∧ String.upper c = c

/-- A name of up to eight characters, with an extension of up to three. -/
structure ShortName (base ext : List u8) : Prop where
  pos : 0 < base.length
  le : base.length ≤ 8
  ext_le : ext.length ≤ 3
  chars : ∀ c ∈ base ++ ext, NameChar c

section ShortName
variable {base ext : List u8}

theorem ShortName.free (h : ShortName base ext) : 0x20 ∉ base ∧ 0x20 ∉ ext :=
  ⟨fun hc => (h.chars _ (List.mem_append_left _ hc)).2.1 rfl,
    fun hc => (h.chars _ (List.mem_append_right _ hc)).2.1 rfl⟩

theorem ShortName.length (h : ShortName base ext) : (padded base ext).length = 11 := by
  have hbase := h.le
  have hext := h.ext_le
  simp only [padded, List.length_append, List.length_replicate]
  omega

theorem ShortName.nonzero (h : ShortName base ext) : 0 ∉ padded base ext := by
  simp only [padded, List.mem_append, List.mem_replicate, not_or]
  refine ⟨⟨fun hc => (h.chars _ (List.mem_append_left _ hc)).1 rfl, by simp⟩,
    fun hc => (h.chars _ (List.mem_append_right _ hc)).1 rfl, by simp⟩

/-- The C string ends where the characters do. -/
def Terminated (beyond : List u8) : Prop := beyond.headD 0 = 0

instance decidableTerminated (beyond : List u8) : Decidable (Terminated beyond) :=
  inferInstanceAs (Decidable (_ = _))

theorem terminated_iff {beyond : List u8} : Terminated beyond ↔ beyond.takeWhile (· ≠ 0) = [] := by
  cases beyond <;> simp [Terminated]

theorem plus_terminated {beyond : List u8} (h : Terminated beyond) (string str : List u8) :
    plus beyond string str = string ++ str := by
  rw [plus, terminated_iff.mp h, List.append_nil]

/-- What an entry without attributes is listed as. -/
def listedName (beyond base ext : List u8) : List u8 :=
  if base.length < 8 ∧ ext ≠ [] then plus beyond (base ++ [0x2e]) ext else base ++ ext

theorem ShortName.tokens (h : ShortName base ext) :
    String.tokens 0x20 (padded base ext) =
      if base.length < 8 then base :: (if ext = [] then [] else [ext]) else [base ++ ext] := by
  obtain ⟨hbase, hext⟩ := h.free
  have hne : base ≠ [] := List.ne_nil_of_length_pos h.pos
  have hlength := h.le
  split
  · have hpad : 8 - base.length = 8 - base.length - 1 + 1 := by omega
    rw [padded, List.append_assoc, hpad, tokens_word hbase hne, tokens_last hext]
  · have hpad : 8 - base.length = 0 := by omega
    have hboth : 0x20 ∉ base ++ ext := by
      rw [List.mem_append, not_or]
      exact ⟨hbase, hext⟩
    rw [padded, hpad, List.replicate_zero, List.append_nil, ← List.append_assoc, tokens_last hboth,
      if_neg fun h => hne (List.append_eq_nil_iff.mp h).1]

/-- The name listed is looked up as the eleven bytes it was made of, if the extension fills
its three and nothing got between. -/
theorem ShortName.dosName_listed (h : ShortName base ext) (hext : ext.length = 3) {beyond : List u8}
    (hends : base.length < 8 → Terminated beyond) : dosName (listedName beyond base ext) = some (padded base ext) := by
  have hbase : base.map String.upper = base :=
    (List.map_congr_left fun c hc => (h.chars c (List.mem_append_left _ hc)).2.2.2).trans (List.map_id' _)
  have hmap : ext.map String.upper = ext :=
    (List.map_congr_left fun c hc => (h.chars c (List.mem_append_right _ hc)).2.2.2).trans (List.map_id' _)
  have hle := h.le
  have hpad : padded base ext = base ++ List.replicate (8 - base.length) 0x20 ++ ext := by
    rw [padded, hext, Nat.sub_self, List.replicate_zero, List.append_nil]
  by_cases hlt : base.length < 8
  · have hne : ext ≠ [] := List.ne_nil_of_length_pos (by omega)
    rw [listedName, if_pos ⟨hlt, hne⟩, plus_terminated (hends hlt), List.append_assoc, List.singleton_append,
      dosName_eq hle hext, hbase, hmap, hpad]
  · have h8 : base.length = 8 := by omega
    have hno : ∀ i : Nat, i < 8 → (base ++ ext)[i]? = some 0x2e → (i : Int) ≠ (base ++ ext).length - 4 := by
      intro i hi hdot
      rw [List.getElem?_append_left (by omega)] at hdot
      exact absurd rfl (h.chars _ (List.mem_append_left _ (List.mem_of_getElem? hdot))).2.2.1
    have hlen : (base ++ ext).length = 11 := by rw [List.length_append, h8, hext]
    have hboth : (base ++ ext).map String.upper = base ++ ext := by rw [List.map_append, hbase, hmap]
    rw [listedName, if_neg fun h => hlt h.1, dosName_undotted hno, if_pos (by omega), hlen, hboth,
      List.take_left' h8, List.drop_left' h8, hpad, h8, Nat.sub_self, List.replicate_zero, List.append_nil]

theorem dosBase_length {upper dosName dn : List u8} {i n : Nat} (h : dosBase upper i n dosName = some dn) :
    dn.length = dosName.length := by
  induction n generalizing i dosName with
  | zero => rw [← Option.some.inj h]
  | succ n ih =>
    obtain ⟨c, -, h⟩ := Option.bind_eq_some_iff.mp h
    split at h
    · rw [← Option.some.inj h]
    · rw [ih h, List.length_set]

/-- The last byte looked up is the last character of the name. -/
theorem dosName_last {name dn : List u8} (h : dosName name = some dn) :
    dn.length = 11 ∧ dn[10]? = (name.map String.upper).getLast? := by
  obtain ⟨dn₀, hbase, h⟩ := Option.bind_eq_some_iff.mp h
  have hlen := dosBase_length hbase
  rw [List.length_replicate] at hlen
  obtain ⟨c₀, hc₀, h⟩ := Option.bind_eq_some_iff.mp h
  obtain ⟨c₁, -, h⟩ := Option.bind_eq_some_iff.mp h
  obtain ⟨c₂, -, h⟩ := Option.bind_eq_some_iff.mp h
  obtain rfl := Option.some.inj h
  simp only [List.length_set]
  refine ⟨hlen, ?_⟩
  split at hc₀
  · rw [Nat.sub_zero, ← List.getLast?_eq_getElem?] at hc₀
    rw [hc₀, List.getElem?_set_ne (by omega), List.getElem?_set_ne (by omega), List.getElem?_set_self (by omega)]
  · cases hc₀

/-- And a byte of the base is the character of the name at its place, if the loop gets there. -/
theorem dosBase_copied {upper dosName dn : List u8} {i n p : Nat} {c : u8} (h : dosBase upper i n dosName = some dn)
    (hc : upper[p]? = some c) (hp : p < dosName.length)
    (hno : ∀ j : Nat, j ≤ p → upper[j]? = some 0x2e → (j : Int) ≠ upper.length - 4) :
    (p < i → dn[p]? = dosName[p]?) ∧ (i ≤ p → p < i + n → dn[p]? = some c) := by
  induction n generalizing i dosName with
  | zero =>
    rw [← Option.some.inj h]
    exact ⟨fun _ => rfl, fun hle hlt => by omega⟩
  | succ n ih =>
    obtain ⟨c', hc', h⟩ := Option.bind_eq_some_iff.mp h
    split at h
    · rename_i hstop
      rw [← Option.some.inj h]
      exact ⟨fun _ => rfl, fun hle _ => absurd hstop.2 (hno i hle (hstop.1 ▸ hc'))⟩
    · obtain ⟨hbefore, hfrom⟩ := ih h (by rw [List.length_set]; exact hp)
      refine ⟨fun hlt => ?_, fun hle hlt => ?_⟩
      · rw [hbefore (by omega), List.getElem?_set_ne (by omega)]
      · rcases Nat.eq_or_lt_of_le hle with rfl | hlt'
        · rw [hbefore (Nat.lt_succ_self _), List.getElem?_set_self hp, ← hc, hc']
        · exact hfrom hlt' (by omega)

theorem dosName_copied {name dn : List u8} (h : dosName name = some dn) {p : Nat} (hp : p < 8) {c : u8}
    (hc : (name.map String.upper)[p]? = some c)
    (hno : ∀ j : Nat, j ≤ p → (name.map String.upper)[j]? = some 0x2e → (j : Int) ≠ name.length - 4) :
    dn[p]? = some c := by
  obtain ⟨dn₀, hbase, h⟩ := Option.bind_eq_some_iff.mp h
  obtain ⟨c₀, -, h⟩ := Option.bind_eq_some_iff.mp h
  obtain ⟨c₁, -, h⟩ := Option.bind_eq_some_iff.mp h
  obtain ⟨c₂, -, h⟩ := Option.bind_eq_some_iff.mp h
  obtain rfl := Option.some.inj h
  have hcopied := dosBase_copied hbase hc (by rw [List.length_replicate]; omega)
    (fun j hj hdot => by rw [List.length_map]; exact hno j hj hdot)
  rw [List.getElem?_set_ne (by omega), List.getElem?_set_ne (by omega), List.getElem?_set_ne (by omega)]
  exact hcopied.2 (Nat.zero_le _) (by omega)

/-- If it is looked up so, nothing got between base and extension: the dot would be one of the
eleven bytes. -/
theorem ShortName.terminated_of_dosName (h : ShortName base ext) (hext : ext.length = 3) {beyond : List u8}
    (hlt : base.length < 8) (hdn : dosName (listedName beyond base ext) = some (padded base ext)) :
    Terminated beyond := by
  have hne : ext ≠ [] := List.ne_nil_of_length_pos (by omega)
  rw [listedName, if_pos ⟨hlt, hne⟩, plus] at hdn
  rw [terminated_iff]
  generalize beyond.takeWhile (· ≠ 0) = stray at hdn
  by_contra hstray
  have hpos : 0 < stray.length := List.length_pos_iff.mpr hstray
  have hat : ((base ++ [0x2e] ++ stray ++ ext).map String.upper)[base.length]? = some 0x2e := by
    rw [List.append_assoc, List.append_assoc, List.getElem?_map, List.getElem?_append_right (le_refl _), Nat.sub_self]
    rfl
  have hno : ∀ j : Nat, j ≤ base.length → ((base ++ [0x2e] ++ stray ++ ext).map String.upper)[j]? = some 0x2e →
      (j : Int) ≠ (base ++ [0x2e] ++ stray ++ ext).length - 4 := by
    intro j hj hdot
    rw [List.getElem?_map, Option.map_eq_some_iff] at hdot
    obtain ⟨c, hc, hupper⟩ := hdot
    have hj : j = base.length := by
      by_contra hbefore
      rw [List.append_assoc, List.append_assoc, List.getElem?_append_left (by omega)] at hc
      exact (h.chars c (List.mem_append_left _ (List.mem_of_getElem? hc))).2.2.1 (upper_dot.mp hupper)
    simp only [List.length_append, List.length_singleton, hext]
    omega
  have hspace : (padded base ext)[base.length]? = some 0x20 := by
    rw [padded, List.append_assoc, List.getElem?_append_right (le_refl _), Nat.sub_self,
      List.getElem?_append_left (by rw [List.length_replicate]; omega), List.getElem?_replicate, if_pos (by omega)]
  have hdot := dosName_copied hdn hlt hat hno
  rw [hspace] at hdot
  exact absurd (Option.some.inj hdot) (by decide)

theorem ShortName.listed_last (h : ShortName base ext) (beyond : List u8) :
    ∃ c, (listedName beyond base ext).getLast? = some c ∧ NameChar c := by
  have hsuffix : ∃ l r : List u8, listedName beyond base ext = l ++ r ∧ r ≠ [] ∧ r ⊆ base ++ ext := by
    rw [listedName]
    split
    · rename_i hsplit
      exact ⟨base ++ [0x2e] ++ beyond.takeWhile (· ≠ 0), ext, rfl, hsplit.2, List.subset_append_right _ _⟩
    · exact ⟨[], base ++ ext, rfl, fun hnil => List.ne_nil_of_length_pos h.pos (List.append_eq_nil_iff.mp hnil).1,
        List.Subset.refl _⟩
  obtain ⟨l, r, heq, hne, hsub⟩ := hsuffix
  refine ⟨r.getLast hne, ?_, h.chars _ (hsub (List.getLast_mem hne))⟩
  rw [heq, List.getLast?_append_of_ne_nil _ hne, List.getLast?_eq_getLast_of_ne_nil hne]

/-- The eighth byte of an entry is a space, unless the base fills its eight bytes. -/
theorem ShortName.padded_eighth (h : ShortName base ext) : (padded base ext)[7]? = some 0x20 ↔ base.length < 8 := by
  by_cases hlt : base.length < 8
  · refine iff_of_true ?_ hlt
    rw [padded, List.append_assoc, List.getElem?_append_right (by omega),
      List.getElem?_append_left (by rw [List.length_replicate]; omega), List.getElem?_replicate, if_pos (by omega)]
  · refine iff_of_false (fun hspace => ?_) hlt
    rw [padded, List.append_assoc, List.getElem?_append_left (by omega)] at hspace
    exact h.free.1 (List.mem_of_getElem? hspace)

/-- The last byte of an entry is a space, unless the extension fills its three bytes. -/
theorem ShortName.padded_last (h : ShortName base ext) : (padded base ext)[10]? ≠ some 0x20 ↔ ext.length = 3 := by
  have hle := h.le
  have hext := h.ext_le
  have hlen : (base ++ List.replicate (8 - base.length) (0x20 : u8)).length = 8 := by
    rw [List.length_append, List.length_replicate]
    omega
  have hlast : (padded base ext)[10]? = (ext ++ List.replicate (3 - ext.length) 0x20)[2]? := by
    rw [padded, List.getElem?_append_right (by omega), hlen]
  rw [hlast]
  by_cases h3 : ext.length = 3
  · refine iff_of_true (fun hspace => ?_) h3
    rw [List.getElem?_append_left (by omega)] at hspace
    exact h.free.2 (List.mem_of_getElem? hspace)
  · refine iff_of_false (not_not.mpr ?_) h3
    rw [List.getElem?_append_right (by omega), List.getElem?_replicate, if_pos (by omega)]

end ShortName

/-! ### Typed names -/

/-- A name as it is typed: without an extension there is no dot. -/
def typed (base ext : List u8) : List u8 := base ++ if ext = [] then [] else 0x2e :: ext

/-- What is typed makes an 8.3 name, in small letters or capitals. -/
structure TypedName (base ext : List u8) : Prop where
  pos : 0 < base.length
  le : base.length ≤ 8
  ext_le : ext.length ≤ 3
  chars : ∀ c ∈ base ++ ext, c ≠ 0 ∧ c ≠ 0x20 ∧ c ≠ 0x2e

theorem upper_upper (c : u8) : String.upper (String.upper c) = String.upper c := by
  by_cases hsmall : 0x61 ≤ c ∧ c ≤ 0x7a
  · have hcapital : ¬(0x61 ≤ c - (0x61 - 0x41) ∧ c - (0x61 - 0x41) ≤ 0x7a) := by bv_omega
    rw [String.upper, String.upper, if_pos hsmall, if_neg hcapital]
  · rw [String.upper, String.upper, if_neg hsmall, if_neg hsmall]

theorem upper_space {c : u8} : String.upper c = 0x20 ↔ c = 0x20 := by
  unfold String.upper
  split
  · constructor <;> intro hc <;> bv_omega
  · rfl

section TypedName
variable {base ext : List u8}

/-- The capitals of a typed name are those of an entry. -/
theorem TypedName.upper (h : TypedName base ext) : ShortName (base.map String.upper) (ext.map String.upper) := by
  refine ⟨by rw [List.length_map]; exact h.pos, by rw [List.length_map]; exact h.le,
    by rw [List.length_map]; exact h.ext_le, ?_⟩
  intro c hc
  rw [← List.map_append] at hc
  obtain ⟨k, hk, rfl⟩ := List.mem_map.mp hc
  obtain ⟨hzero, hspace, hdot⟩ := h.chars k hk
  exact ⟨upper_ne hzero, mt upper_space.mp hspace, mt upper_dot.mp hdot, upper_upper k⟩

theorem typed_length (base ext : List u8) :
    (typed base ext).length = base.length + if ext = [] then 0 else ext.length + 1 := by
  rw [typed, List.length_append]
  split <;> rfl

/-- Unless the extension has three characters, there is no dot in front of the last three. -/
theorem TypedName.undotted (h : TypedName base ext) (hext : ext.length ≠ 3) (i : Nat)
    (hdot : (typed base ext)[i]? = some 0x2e) : (i : Int) ≠ (typed base ext).length - 4 := by
  have hbase : (0x2e : u8) ∉ base := fun hc => (h.chars _ (List.mem_append_left _ hc)).2.2 rfl
  have hexts : (0x2e : u8) ∉ ext := fun hc => (h.chars _ (List.mem_append_right _ hc)).2.2 rfl
  rw [typed_length]
  by_cases hnil : ext = []
  · rw [typed, if_pos hnil, List.append_nil] at hdot
    exact absurd (List.mem_of_getElem? hdot) hbase
  · rw [typed, if_neg hnil] at hdot
    rw [if_neg hnil]
    have hi : i = base.length := by
      rcases Nat.lt_trichotomy i base.length with hlt | heq | hgt
      · rw [List.getElem?_append_left hlt] at hdot
        exact absurd (List.mem_of_getElem? hdot) hbase
      · exact heq
      · obtain ⟨k, hk⟩ : ∃ k, i - base.length = k + 1 := ⟨i - base.length - 1, by omega⟩
        rw [List.getElem?_append_right (by omega), hk, List.getElem?_cons_succ] at hdot
        exact absurd (List.mem_of_getElem? hdot) hexts
    omega

theorem TypedName.chars_upper (h : TypedName base ext) :
    ∀ c ∈ (typed base ext).map String.upper, c ≠ 0 ∧ c ≠ 0x20 := by
  intro c hc
  obtain ⟨k, hk, rfl⟩ := List.mem_map.mp hc
  have hchar : k ∈ base ++ ext ∨ k = 0x2e := by
    rw [typed] at hk
    split at hk
    · rw [List.append_nil] at hk
      exact .inl (List.mem_append_left _ hk)
    · rw [List.mem_append, List.mem_cons] at hk
      rw [List.mem_append]
      tauto
  rcases hchar with hchar | rfl
  · obtain ⟨hzero, hspace, -⟩ := h.chars k hchar
    exact ⟨upper_ne hzero, mt upper_space.mp hspace⟩
  · decide

end TypedName

end FAT12

end UntitledOS.Filesystem
