import Mathlib

/-! Runs of a state machine under a rule.

A machine is a partial step function: an event either takes a state to the next
one or has no outcome. A *rule* says which events a state admits; `Run` is a
finite history whose every event was admitted by the state it met and had an
outcome. Whatever a rule asks, an invariant its steps keep holds at the end of
every run (`Run.invariant`), and so at every state on the way (`Run.append`). -/
namespace UntitledOS.Lib

variable {S E : Type*}

/-- The history `es` takes `s` to `t`, every event admitted where it happened. -/
inductive Run (step : S → E → Option S) (Rule : S → E → Prop) : S → List E → S → Prop where
  | nil (s : S) : Run step Rule s [] s
  | cons {s t u : S} {e : E} {es : List E} :
      Rule s e → step s e = some t → Run step Rule t es u → Run step Rule s (e :: es) u

variable {step : S → E → Option S} {Rule : S → E → Prop}

/-- What every admitted step keeps, every run keeps. -/
theorem Run.invariant (I : S → Prop) (hstep : ∀ s e t, I s → Rule s e → step s e = some t → I t)
    {s t : S} {es : List E} (h : Run step Rule s es t) (hs : I s) : I t := by
  induction h with
  | nil => exact hs
  | cons hr he _ ih => exact ih (hstep _ _ _ hs hr he)

/-- What relates every admitted step to one step of an abstract machine, relates every run
to the abstract machine's. -/
theorem Run.simulates {A : Type*} (f : A → E → A) (R : S → A → Prop)
    (hstep : ∀ s e t a, R s a → Rule s e → step s e = some t → R t (f a e)) {s t : S} {a : A} {es : List E}
    (h : Run step Rule s es t) (hs : R s a) : R t (es.foldl f a) := by
  induction h generalizing a with
  | nil => exact hs
  | cons hr he _ ih => exact ih (hstep _ _ _ _ hs hr he)

theorem Run.append {s t u : S} {a b : List E} (ha : Run step Rule s a t) (hb : Run step Rule t b u) :
    Run step Rule s (a ++ b) u := by
  induction ha with
  | nil => exact hb
  | cons hr he _ ih => exact .cons hr he (ih hb)

/-- A weaker rule admits the same run. -/
theorem Run.weaken {Rule' : S → E → Prop} (hrule : ∀ s e, Rule s e → Rule' s e) {s t : S} {es : List E}
    (h : Run step Rule s es t) : Run step Rule' s es t := by
  induction h with
  | nil => exact .nil _
  | cons hr he _ ih => exact .cons (hrule _ _ hr) he ih

/-- Where every event has an outcome, and keeps an invariant exactly if it is admitted: a
history is admitted exactly if the invariant holds all the way. -/
theorem run_iff_prefixes {f : S → E → S} {I : S → Prop} {es : List E} {s : S}
    (hstep : ∀ s, ∀ e ∈ es, I s → (I (f s e) ↔ Rule s e)) (hs : I s) :
    (∃ t, Run (fun s e => some (f s e)) Rule s es t) ↔ ∀ p, p <+: es → I (p.foldl f s) := by
  induction es generalizing s with
  | nil =>
    refine iff_of_true ⟨s, .nil s⟩ fun p hp => ?_
    rw [List.prefix_nil.mp hp]
    exact hs
  | cons e es ih =>
    have hfirst := hstep s e (List.mem_cons_self ..) hs
    have ih {s : S} (hs : I s) := ih (fun s e he => hstep s e (List.mem_cons_of_mem _ he)) hs
    constructor
    · intro ⟨t, hrun⟩ p hp
      cases hrun with
      | cons hr he hrun =>
        obtain rfl := Option.some.inj he
        cases p with
        | nil => exact hs
        | cons a p =>
          obtain ⟨rfl, hrest⟩ := List.cons_prefix_cons.mp hp
          exact (ih (hfirst.mpr hr)).mp ⟨t, hrun⟩ p hrest
    · intro h
      have hnext : I (f s e) := h [e] (List.cons_prefix_cons.mpr ⟨rfl, List.nil_prefix⟩)
      obtain ⟨t, hrun⟩ := (ih hnext).mpr fun p hp => h (e :: p) (List.cons_prefix_cons.mpr ⟨rfl, hp⟩)
      exact ⟨t, .cons (hfirst.mp hnext) rfl hrun⟩

/-- Following a history, as long as the rule admits its events. -/
def follow (step : S → E → Option S) (Rule : S → E → Prop) [∀ s e, Decidable (Rule s e)] :
    S → List E → Option S
  | s, [] => some s
  | s, e :: es => if Rule s e then (step s e).bind fun t => follow step Rule t es else none

/-- A run is a history that can be followed. -/
theorem run_iff_follow [∀ s e, Decidable (Rule s e)] {s t : S} {es : List E} :
    Run step Rule s es t ↔ follow step Rule s es = some t := by
  constructor
  · intro h
    induction h with
    | nil => rfl
    | cons hr he _ ih => rw [follow, if_pos hr, he, Option.bind_some, ih]
  · intro h
    induction es generalizing s with
    | nil =>
      cases h
      exact .nil _
    | cons e es ih =>
      rw [follow] at h
      split at h
      · obtain ⟨u, hu, ht⟩ := Option.bind_eq_some_iff.mp h
        exact .cons ‹_› hu (ih ht)
      · cases h

end UntitledOS.Lib
