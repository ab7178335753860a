import Mathlib

/-! Programs that make requests, and what answers them.

A program asks, and goes on with the answer; what it does in between is a function. It runs
over anything that serves its requests (`Prog.run`). A program whose requests are all
admitted (`Prog.Admits`) runs alike over two servers that answer admitted requests alike
(`Prog.simulates`), which is how a program that is known over a simple server is known over
a real one. -/
namespace UntitledOS.Lib

/-- A program with requests `Q`, of which `q` is answered in `R q`. -/
inductive Prog (Q : Type) (R : Q → Type) (α : Type) where
  | done (a : α)
  | fail
  | call (q : Q) (k : R q → Prog Q R α)

namespace Prog

variable {Q : Type} {R : Q → Type} {α β S T : Type}

def bind : Prog Q R α → (α → Prog Q R β) → Prog Q R β
  | done a, f => f a
  | fail, _ => fail
  | call q k, f => call q fun r => (k r).bind f

instance : Monad (Prog Q R) where
  pure := done
  bind := bind

/-- One request. -/
def ask (q : Q) : Prog Q R (R q) := call q done

/-- The program over a server: its result, and the server afterwards. -/
def run (serve : (q : Q) → S → Option (R q × S)) : Prog Q R α → S → Option (α × S)
  | done a, s => some (a, s)
  | fail, _ => none
  | call q k, s => (serve q s).bind fun r => (k r.1).run serve r.2

/-- Every request is admitted where it is made. -/
def Admits (serve : (q : Q) → S → Option (R q × S)) (Rule : Q → S → Prop) : Prog Q R α → S → Prop
  | done _, _ => True
  | fail, _ => True
  | call q k, s => Rule q s ∧ ∀ r s', serve q s = some (r, s') → (k r).Admits serve Rule s'

section Running
variable {serve : (q : Q) → S → Option (R q × S)} {Rule : Q → S → Prop}

@[simp] theorem run_pure (a : α) (s : S) : (pure a : Prog Q R α).run serve s = some (a, s) := rfl

@[simp] theorem run_fail (s : S) : (fail : Prog Q R α).run serve s = none := rfl

theorem run_ask (q : Q) (s : S) : (ask q : Prog Q R (R q)).run serve s = serve q s := by
  rw [ask, run]
  cases serve q s <;> rfl

theorem run_bind (p : Prog Q R α) (f : α → Prog Q R β) (s : S) :
    (p >>= f).run serve s = (p.run serve s).bind fun r => (f r.1).run serve r.2 := by
  show (p.bind f).run serve s = _
  induction p generalizing s with
  | done a => rfl
  | fail => rfl
  | call q k ih =>
    rw [bind, run, run, Option.bind_assoc]
    exact congrArg (serve q s).bind (funext fun r => ih r.1 r.2)

/-- What is admitted of a program and what follows it. -/
theorem Admits.bind {p : Prog Q R α} {f : α → Prog Q R β} {s : S} (h : p.Admits serve Rule s)
    (hf : ∀ a s', p.run serve s = some (a, s') → (f a).Admits serve Rule s') : (p >>= f).Admits serve Rule s := by
  show (p.bind f).Admits serve Rule s
  induction p generalizing s with
  | done a => exact hf a s rfl
  | fail => trivial
  | call q k ih =>
    refine ⟨h.1, fun r s' hserve => ih r (h.2 r s' hserve) fun a s'' hrun => hf a s'' ?_⟩
    rw [run, hserve, Option.bind_some]
    exact hrun

end Running

section Simulation
variable {serve : (q : Q) → S → Option (R q × S)} {serve' : (q : Q) → T → Option (R q × T)} {Rule : Q → S → Prop}
  {Rule' : Q → T → Prop} {Rel : S → T → Prop}

/-- Two servers that answer admitted requests alike give a program the same result. -/
theorem simulates (hstep : ∀ q s t, Rel s t → Rule q s → Rule' q t →
      ∃ r s' t', serve q s = some (r, s') ∧ serve' q t = some (r, t') ∧ Rel s' t')
    (p : Prog Q R α) {s : S} {t : T} (hrel : Rel s t) (h : p.Admits serve Rule s) (h' : p.Admits serve' Rule' t)
    {a : α} {s' : S} (hrun : p.run serve s = some (a, s')) :
    ∃ t', p.run serve' t = some (a, t') ∧ Rel s' t' := by
  induction p generalizing s t with
  | done b =>
    obtain ⟨rfl, rfl⟩ := Prod.mk.inj (Option.some.inj hrun)
    exact ⟨t, rfl, hrel⟩
  | fail => cases hrun
  | call q k ih =>
    obtain ⟨r, s₁, t₁, hserve, hserve', hrel₁⟩ := hstep q s t hrel h.1 h'.1
    rw [run, hserve, Option.bind_some] at hrun
    obtain ⟨t', ht', hrel'⟩ := ih r hrel₁ (h.2 r s₁ hserve) (h'.2 r t₁ hserve') hrun
    exact ⟨t', by rw [run, hserve', Option.bind_some]; exact ht', hrel'⟩

theorem admits_any {p : Prog Q R α} {s : S} : p.Admits serve (fun _ _ => True) s := by
  induction p generalizing s with
  | done a => trivial
  | fail => trivial
  | call q k ih => exact ⟨trivial, fun r _ _ => ih r⟩

/-- What one server admits the other does, if related states go on to related states. -/
theorem Admits.transfer (hstep : ∀ q s t, Rel s t → Rule q s →
      Rule' q t ∧ ∀ r t', serve' q t = some (r, t') → ∃ s', serve q s = some (r, s') ∧ Rel s' t')
    {p : Prog Q R α} {s : S} {t : T} (hrel : Rel s t) (h : p.Admits serve Rule s) : p.Admits serve' Rule' t := by
  induction p generalizing s t with
  | done a => trivial
  | fail => trivial
  | call q k ih =>
    obtain ⟨hrule, hnext⟩ := hstep q s t hrel h.1
    refine ⟨hrule, fun r t' hserve' => ?_⟩
    obtain ⟨s', hserve, hrel'⟩ := hnext r t' hserve'
    exact ih r hrel' (h.2 r s' hserve)

end Simulation

end Prog

end UntitledOS.Lib
