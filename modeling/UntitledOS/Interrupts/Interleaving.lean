import UntitledOS.Interrupts.Idt

/-! Device interrupts at any points of a program's run.

A program is a step on the processor that reads no words but its own. Interrupts may come
between any two of its steps, when they are on; if no handler writes the program's words
or its stack, the program runs as it would alone. -/
namespace UntitledOS.Interrupts

open UntitledOS.Lib.I386

structure Program where
  step : Cpu → Cpu
  /-- Where it is when it is interrupted. -/
  inside : Cpu → Prop
  /-- The words it reads, and the words of its stack. -/
  own : Cpu → Word → Prop
  inside_mem : ∀ c m, inside c → inside {c with mem := m}
  own_mem : ∀ c m, own {c with mem := m} = own c
  inside_step : ∀ c, inside c → inside (step c)
  /-- What a step does, but to words that are not the program's, is up to its own words. -/
  step_own : ∀ c m, inside c → (∀ a, own c a → m a = c.mem a) →
    ∃ m', step {c with mem := m} = {step c with mem := m'} ∧ ∀ a, own (step c) a → m' a = (step c).mem a

/-- A step of the program or a device's interrupt. -/
inductive Event where
  | step
  | irq (k : Fin 16)

section

variable (image : Image) (tss : Tss) (idt : Idt) (program : Program)

/-- While interrupts are off, a device's has to wait. -/
def happen (c : Cpu) : Event → Option Cpu
  | .step => some (program.step c)
  | .irq k =>
    if c.eflags &&& 0x200 = 0 then some c else deliver image tss (isrInstall image idt) (32 + k) none c

/-- The program without interrupts. -/
def alone (c : Cpu) : Event → Cpu
  | .step => program.step c
  | .irq _ => c

/-- The handlers return, and they and the interrupt itself leave the program its words. -/
structure Undisturbed : Prop where
  returns : ∀ c (k : Fin 16), program.inside c →
    Returns (image.calls image.irqHandler) (handled image tss (32 + k) none c)
  frame : ∀ c a i, program.inside c → program.own c a → 0 < i → i ≤ 22 → a ≠ slot (enterBase tss KERNEL_CS c) i
  handler : ∀ c (k : Fin 16) a, program.inside c → program.own c a →
    (image.calls image.irqHandler (handled image tss (32 + k) none c)).mem a = (handled image tss (32 + k) none c).mem a

/-- The same but for words that are not the program's. -/
def Agrees (c c' : Cpu) : Prop := ∃ m, c' = {c with mem := m} ∧ ∀ a, program.own c a → m a = c.mem a

variable {image tss idt program}

theorem Agrees.step {c c' : Cpu} (h : Agrees program c c') (hin : program.inside c) :
    Agrees program (program.step c) (program.step c') := by
  obtain ⟨m, rfl, hown⟩ := h
  exact program.step_own c m hin hown

theorem handlerOf_irq (image : Image) (k : Fin 16) : image.handlerOf (32 + k) = image.irqHandler := if_neg (by omega)

theorem codesOf_irq (k : Fin 16) : codesOf (32 + k) none = [BitVec.ofNat 32 (32 + k), codeOf (32 + k) none] := by
  refine codesOf_eq (by omega) (by omega) ⟨(nomatch ·), fun h => ?_⟩
  simp only [processorCodes, List.mem_cons, List.not_mem_nil, or_false] at h
  omega

theorem Agrees.irq (hquiet : Undisturbed image tss program) {c c' : Cpu} (h : Agrees program c c')
    (hin : program.inside c) (k : Fin 16) :
    ∃ c'', deliver image tss (isrInstall image idt) (32 + k) none c' = some c'' ∧ Agrees program c c'' := by
  obtain ⟨m, rfl, hown⟩ := h
  have hin' := program.inside_mem c m hin
  have hreturns := hquiet.returns _ k hin'
  rw [← handlerOf_irq image k] at hreturns
  refine ⟨_, deliver_returns idt (by omega) (codesOf_irq k) hreturns, _, rfl, fun a ha => ?_⟩
  have ha' : program.own {c with mem := m} a := by rwa [program.own_mem]
  rw [handlerOf_irq, hquiet.handler _ k a hin' ha',
    handled_rest (codesOf_irq k) fun i hpos hi => hquiet.frame _ a i hin' ha' hpos hi]
  exact hown a ha

theorem Agrees.happen (hquiet : Undisturbed image tss program) {c c' : Cpu} (h : Agrees program c c')
    (hin : program.inside c) (e : Event) :
    ∃ c'', happen image tss idt program c' e = some c'' ∧ Agrees program (alone program c e) c'' := by
  cases e with
  | step => exact ⟨_, rfl, h.step hin⟩
  | irq k =>
    by_cases hoff : c'.eflags &&& 0x200 = 0
    · exact ⟨c', if_pos hoff, h⟩
    · obtain ⟨c'', hdeliver, hagrees⟩ := h.irq hquiet hin k
      exact ⟨c'', (if_neg hoff).trans hdeliver, hagrees⟩

/-- However a device's interrupts fall between the steps of a program, the program has the
registers and the words of its own that it has without them. -/
theorem interrupts_invisible (image : Image) (tss : Tss) (idt : Idt) (program : Program)
    (hquiet : Undisturbed image tss program) (es : List Event) (c : Cpu) (hin : program.inside c) :
    ∃ c', es.foldlM (happen image tss idt program) c = some c' ∧
      Agrees program (es.foldl (alone program) c) c' := by
  suffices h : ∀ c₁, Agrees program c c₁ → ∃ c', es.foldlM (happen image tss idt program) c₁ = some c' ∧
      Agrees program (es.foldl (alone program) c) c' from
    h c ⟨c.mem, rfl, fun _ _ => rfl⟩
  induction es generalizing c with
  | nil => exact fun c₁ h => ⟨c₁, rfl, h⟩
  | cons e es ih =>
    intro c₁ h
    obtain ⟨c₂, hhappen, hagrees⟩ := h.happen hquiet hin e
    have hin₂ : program.inside (alone program c e) := by
      cases e with
      | step => exact program.inside_step c hin
      | irq k => exact hin
    obtain ⟨c', hrun, hend⟩ := ih _ hin₂ c₂ hagrees
    exact ⟨c', by rw [List.foldlM_cons, hhappen]; exact hrun, hend⟩

end

/-- Adds the word at 0x100 to `eax` over and over. -/
def addUp : Program where
  step c := c.setReg .eax (c.reg .eax + c.mem 0x100)
  inside c := c.cs = KERNEL_CS ∧ c.reg .esp = 0x7000
  own _ a := a = 0x100
  inside_mem _ _ h := h
  own_mem _ _ := rfl
  inside_step _ h := ⟨h.1, h.2⟩
  step_own c m _ hown := ⟨m, by simp only [Cpu.setReg, hown _ rfl], hown⟩

theorem addUp_undisturbed : Undisturbed countingImage ⟨0x8000, 0x10⟩ addUp where
  returns c k hin := by
    obtain ⟨e, -, -, -, hsees⟩ := handled_sees countingImage ⟨0x8000, 0x10⟩ c
      (by rw [codesOf_irq k]; exact Nat.le_succ 2 : (codesOf (32 + k) none).length ≤ 3)
    have hlevel : level c.cs = level KERNEL_CS := by rw [hin.1]
    have hesp := hsees.esp
    rw [codesOf_irq k, enterWords, enterTail, if_pos hlevel, enterBase, if_pos hlevel, hin.2] at hesp
    have hapart : ∀ i < 20, slot 0x7000 19 + BitVec.ofNat 32 (4 * (i + 2)) ≠ 0x9000 := by decide
    exact counting_returns fun i hi => hesp ▸ hapart i hi
  frame c a i hin ha hpos hi := by
    have hlevel : level c.cs = level KERNEL_CS := by rw [hin.1]
    have hapart : ∀ i < 23, 0 < i → (0x100 : Word) ≠ slot 0x7000 i := by decide
    rw [enterBase, if_pos hlevel, hin.2, ha]
    exact hapart i (by omega) hpos
  handler c k a hin ha := by
    have hkeep : ∀ c : Cpu, (countingImage.calls countingImage.irqHandler c).mem 0x100 = c.mem 0x100 := fun c => by
      simp [countingImage]
    rw [ha]
    exact hkeep _

/-- Three timer interrupts among the steps. -/
theorem interrupts_invisible_timer :
    let es := [.irq 0, .step, .irq 0, .step, .irq 0]
    ∃ c', es.foldlM (happen countingImage ⟨0x8000, 0x10⟩ (fun _ => .to 0) addUp) someContext = some c' ∧
      Agrees addUp (es.foldl (alone addUp) someContext) c' :=
  interrupts_invisible countingImage ⟨0x8000, 0x10⟩ (fun _ => .to 0) addUp addUp_undisturbed
    [.irq 0, .step, .irq 0, .step, .irq 0] someContext ⟨rfl, rfl⟩

end UntitledOS.Interrupts
