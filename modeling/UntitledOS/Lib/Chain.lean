import Mathlib

/-! Singly linked lists in a store.

The nodes are anything with a `next` pointer and a null. `Chain null next p ps`
says that following `next` from `p` visits exactly `ps`, in order, and then
reaches null: a list that ends, whatever else the store holds. `seek` is the loop
that walks a list looking for a node, with fuel; on a chain the fuel is only its
length (`Chain.seek`). A `Family` is several lists in one store that share no
node: pushing a node that is on none of them, letting a list go on behind one of
its nodes and putting a list of such nodes in the place of another keep it so. -/
namespace UntitledOS.Lib

variable {P : Type*} {null : P} {next next' : P → P}

inductive Chain (null : P) (next : P → P) : P → List P → Prop where
  | nil : Chain null next null []
  | cons {p : P} {ps : List P} : p ≠ null → Chain null next (next p) ps →
      Chain null next p (p :: ps)

/-- `while (p != null) { if (hit p) break; p = next p; }`: the node found, none at
the end of the list, and no answer when the fuel runs out on the way. -/
def seek [DecidableEq P] (null : P) (next : P → P) (hit : P → Bool) : Nat → P → Option (Option P)
  | 0, p => if p = null then some none else none
  | fuel + 1, p =>
    if p = null then some none
    else if hit p then some (some p)
    else seek null next hit fuel (next p)

namespace Chain

theorem head_eq {p f : P} {ps : List P} (h : Chain null next p (f :: ps)) : p = f := by
  cases h
  rfl

theorem head_ne {p f : P} {ps : List P} (h : Chain null next p (f :: ps)) : f ≠ null := by
  cases h
  assumption

theorem tail {p f : P} {ps : List P} (h : Chain null next p (f :: ps)) :
    Chain null next (next f) ps := by
  cases h
  assumption

theorem eq_nil_iff {p : P} {ps : List P} (h : Chain null next p ps) : ps = [] ↔ p = null := by
  cases h with
  | nil => simp
  | cons hp _ => simp [hp]

theorem ne_null {p : P} {ps : List P} (h : Chain null next p ps) : ∀ q ∈ ps, q ≠ null := by
  induction h with
  | nil => intro q hq; cases hq
  | cons hp _ ih =>
    intro q hq
    rcases List.mem_cons.mp hq with rfl | hq
    · exact hp
    · exact ih q hq

/-- There is one chain from a node. -/
theorem unique {p : P} {ps qs : List P} (h : Chain null next p ps) (h' : Chain null next p qs) : ps = qs := by
  induction h generalizing qs with
  | nil => exact (h'.eq_nil_iff.mpr rfl).symm
  | cons hp _ ih =>
    cases h' with
    | nil => exact absurd rfl hp
    | cons _ h' => rw [ih h']

/-- A chain depends only on the links of its own nodes. -/
theorem congr {p : P} {ps : List P} (h : Chain null next p ps)
    (heq : ∀ q ∈ ps, next' q = next q) : Chain null next' p ps := by
  induction h with
  | nil => exact .nil
  | @cons p ps hp _ ih =>
    have hnext : next' p = next p := heq p (List.mem_cons_self ..)
    refine .cons hp ?_
    rw [hnext]
    exact ih fun q hq => heq q (List.mem_cons_of_mem _ hq)

/-- What follows a node of a chain. -/
theorem after {p f : P} {pre post : List P} (h : Chain null next p (pre ++ f :: post)) :
    Chain null next (next f) post := by
  induction pre generalizing p with
  | nil => exact h.tail
  | cons q pre ih => exact ih h.tail

/-- Linking a node in front of a chain whose own links stay as they are. -/
theorem push {p q : P} {ps : List P} (h : Chain null next p ps) (hq : q ≠ null)
    (hlink : next' q = p) (heq : ∀ r ∈ ps, next' r = next r) : Chain null next' q (q :: ps) := by
  refine .cons hq ?_
  rw [hlink]
  exact h.congr heq

/-- With fuel for its length, the loop finds the first node of the chain that hits. -/
theorem seek [DecidableEq P] {p : P} {ps : List P} (h : Chain null next p ps) (hit : P → Bool) {fuel : Nat}
    (hfuel : ps.length ≤ fuel) : Lib.seek null next hit fuel p = some (ps.find? hit) := by
  induction h generalizing fuel with
  | nil => cases fuel <;> simp [Lib.seek]
  | @cons p ps hp _ ih =>
    cases fuel with
    | zero => simp at hfuel
    | succ fuel =>
      have hrest := ih (show ps.length ≤ fuel by simpa using hfuel)
      cases hh : hit p <;> simp [Lib.seek, hp, hh, hrest]

end Chain

/-! ### Lists that share no node -/

variable {C : Type*}

/-- A family of lists in one store, each a chain, no node on two of them or twice
on one. -/
structure Family (null : P) (next : P → P) (head : C → P) (L : C → List P) : Prop where
  chain : ∀ c, Chain null next (head c) (L c)
  nodup : ∀ c, (L c).Nodup
  apart : ∀ c d, c ≠ d → (L c).Disjoint (L d)

namespace Family

variable {head : C → P} {L : C → List P}

theorem empty (next : P → P) : Family null next (fun _ : C => null) (fun _ => []) :=
  ⟨fun _ => .nil, fun _ => List.nodup_nil, fun _ _ _ => List.disjoint_nil_left _⟩

/-- A node on one list of the family is on no other. -/
theorem place_unique (h : Family null next head L) {c d : C} {f : P} (hc : f ∈ L c) (hd : f ∈ L d) :
    c = d := by
  by_contra hne
  exact h.apart c d hne hc hd

variable [DecidableEq C]

/-- A node on no list goes to the front of one. -/
theorem push [DecidableEq P] (h : Family null next head L) {f : P} (c : C) (hf : f ≠ null) (hnew : ∀ d, f ∉ L d) :
    Family null (Function.update next f (head c)) (Function.update head c f)
      (Function.update L c (f :: L c)) := by
  have hkeep : ∀ d, ∀ q ∈ L d, Function.update next f (head c) q = next q := by
    intro d q hq
    have hne : q ≠ f := by
      rintro rfl
      exact hnew d hq
    exact Function.update_of_ne hne _ _
  refine ⟨fun d => ?_, fun d => ?_, fun d e hne => ?_⟩
  · by_cases hd : d = c
    · subst hd
      simp only [Function.update_self]
      exact (h.chain d).push hf (Function.update_self ..) (hkeep d)
    · simp only [Function.update_of_ne hd]
      exact (h.chain d).congr (hkeep d)
  · by_cases hd : d = c
    · subst hd
      simp only [Function.update_self]
      exact List.nodup_cons.mpr ⟨hnew d, h.nodup d⟩
    · simp only [Function.update_of_ne hd]
      exact h.nodup d
  · by_cases hd : d = c
    · subst hd
      simp only [Function.update_self, Function.update_of_ne hne.symm, List.disjoint_cons_left]
      exact ⟨hnew e, h.apart d e hne⟩
    · by_cases he : e = c
      · subst he
        simp only [Function.update_self, Function.update_of_ne hd, List.disjoint_cons_right]
        exact ⟨hnew d, h.apart d e hne⟩
      · simp only [Function.update_of_ne hd, Function.update_of_ne he]
        exact h.apart d e hne

/-- A new list, of nodes on none of the lists, in the place of one of them. -/
theorem replace (h : Family null next head L) {c : C} {p : P} {ps : List P}
    (hchain : Chain null next' p ps) (hnodup : ps.Nodup) (hnew : ∀ d, (L d).Disjoint ps)
    (heq : ∀ d, ∀ q ∈ L d, next' q = next q) :
    Family null next' (Function.update head c p) (Function.update L c ps) := by
  have hold : ∀ d, d ≠ c → Function.update L c ps d = L d := fun d hd => Function.update_of_ne hd _ _
  refine ⟨fun d => ?_, fun d => ?_, fun d e hne => ?_⟩
  · by_cases hd : d = c
    · rw [hd, Function.update_self, Function.update_self]
      exact hchain
    · rw [hold d hd, Function.update_of_ne hd]
      exact (h.chain d).congr (heq d)
  · by_cases hd : d = c
    · rw [hd, Function.update_self]
      exact hnodup
    · rw [hold d hd]
      exact h.nodup d
  · by_cases hd : d = c
    · rw [hd, Function.update_self, hold e (hd ▸ hne.symm)]
      exact (hnew e).symm
    · by_cases he : e = c
      · rw [he, Function.update_self, hold d hd]
        exact hnew d
      · rw [hold d hd, hold e he]
        exact h.apart d e hne

/-- Letting a list go on at what follows one of its nodes. The node itself is on no
list any more, and neither is anything that was in front of it. -/
theorem cut (h : Family null next head L) {c : C} {pre post : List P} {f : P}
    (hc : L c = pre ++ f :: post) :
    Family null next (Function.update head c (next f)) (Function.update L c post) ∧
      ∀ d, f ∉ Function.update L c post d := by
  have hnodup : (pre ++ f :: post).Nodup := hc ▸ h.nodup c
  have hpost : post.Nodup ∧ f ∉ post := by
    have := List.nodup_cons.mp (hnodup.sublist (List.sublist_append_right pre (f :: post)))
    exact ⟨this.2, this.1⟩
  have hsub : ∀ q ∈ post, q ∈ L c := by
    intro q hq
    rw [hc]
    exact List.mem_append_right _ (List.mem_cons_of_mem _ hq)
  refine ⟨⟨fun d => ?_, fun d => ?_, fun d e hne => ?_⟩, fun d => ?_⟩
  · by_cases hd : d = c
    · subst hd
      simp only [Function.update_self]
      exact (hc ▸ h.chain d).after
    · simp only [Function.update_of_ne hd]
      exact h.chain d
  · by_cases hd : d = c
    · subst hd
      simpa only [Function.update_self] using hpost.1
    · simpa only [Function.update_of_ne hd] using h.nodup d
  · by_cases hd : d = c
    · subst hd
      simp only [Function.update_self, Function.update_of_ne hne.symm]
      exact fun q hq => h.apart d e hne (hsub q hq)
    · by_cases he : e = c
      · subst he
        simp only [Function.update_self, Function.update_of_ne hd]
        exact fun q hq hq' => h.apart d e hne hq (hsub q hq')
      · simpa only [Function.update_of_ne hd, Function.update_of_ne he] using h.apart d e hne
  · by_cases hd : d = c
    · subst hd
      simpa only [Function.update_self] using hpost.2
    · simp only [Function.update_of_ne hd]
      have hmem : f ∈ L c := by
        rw [hc]
        exact List.mem_append_right _ (List.mem_cons_self ..)
      exact fun hf => h.apart c d (Ne.symm hd) hmem hf

end Family

end UntitledOS.Lib
