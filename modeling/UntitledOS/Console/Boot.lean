import UntitledOS.Console.History

/-! Keyboard interrupts while the kernel boots.

`kernel_main` enables interrupts and then constructs the timer, the keyboard, the clock and
the console, prints and asks for a command. Its steps are the stores of the constructors, in
their order: an object has its base class's functions before its own, the handler is installed
by `IRQHandler`'s constructor, and the console registers with the keyboard in
`KeyboardListener`'s, before any member of its own. A keyboard interrupt comes between any two
steps (`Event.irq`) and is served to its end, as the gates do; steps of the timer and the
clock that a keyboard interrupt cannot tell are `elsewhere`.

A call through the keyboard's pointer is safe if the pointer was set and what it points to is
constructed. `interrupts_safe`: no matter how many interrupts come, all calls are safe exactly
as long as none comes between the step that gives the keyboard its own functions and the last
one of the console's constructor; and what runs from there is the system of `VirtualConsole`. -/
namespace UntitledOS.Console.Boot
open Lib

inductive Device where
  | pit
  | keyboard
  | rtc
deriving DecidableEq

/-- The functions an object has. -/
inductive Table where
  | none
  | base
  | own
deriving DecidableEq

/-- What `listeners` holds: what was there before, or what was registered. -/
inductive Pointer where
  | stray
  | vConsole
deriving DecidableEq

inductive Step where
  | table (d : Device) (t : Table)
  | setInterruptHandler (n : Nat) (d : Device)
  | shifted
  | capsLock
  | keyboardDevice
  | cli
  | sti
  | elsewhere
  | listenerTable (t : Table)
  | registerListener
  | row
  | column
  | inputStr
  | previousCommands
  | commandIndex
  | clear (p : Nat × Nat)
  | putchar (c : u8)
  | newCommand
deriving DecidableEq

/-- `IRQHandler::IRQHandler`. -/
def irqHandler (n : Nat) (d : Device) : List Step := [.table d .base, .setInterruptHandler n d]

def pit : List Step := irqHandler 0 .pit ++ [.table .pit .own, .elsewhere]

def keyboardDevice : List Step :=
  irqHandler 1 .keyboard ++ [.table .keyboard .own, .shifted, .capsLock, .keyboardDevice]

def rtc : List Step :=
  irqHandler 8 .rtc ++ [.table .rtc .own, .cli, .elsewhere, .sti, .cli, .elsewhere, .sti, .elsewhere]

def keyboardListener : List Step := [.listenerTable .base, .registerListener]

def virtualConsole : List Step :=
  keyboardListener ++ [.listenerTable .own, .row, .column, .inputStr, .previousCommands, .commandIndex, .elsewhere] ++
    (List.range 80 ×ˢ List.range 25).map .clear

def constructors : List Step := pit ++ keyboardDevice ++ rtc ++ virtualConsole

def greeting (text : List u8) : List Step := text.map .putchar ++ [.newCommand]

/-- `kernel_main` behind `sti`, with the text it prints. -/
def kernel_main (text : List u8) : List Step := constructors ++ greeting text

/-- A step of the console's constructor. -/
def Step.constructs : Step → Bool
  | .listenerTable _ => true
  | .registerListener => true
  | .row => true
  | .column => true
  | .inputStr => true
  | .previousCommands => true
  | .commandIndex => true
  | .clear _ => true
  | _ => false

structure Machine where
  rest : List Step
  enabled : Bool
  interruptHandlers : Nat → Option Device
  table : Device → Table
  keyboardDevice : Bool
  keyboard : KeyboardDevice
  listeners : Pointer
  listener : Table
  console : VirtualConsole
  calls : List (Pointer × Bool)

namespace Machine

def exec (s : Machine) : Step → Machine
  | .table d t => {s with table := Function.update s.table d t}
  | .setInterruptHandler n d => {s with interruptHandlers := Function.update s.interruptHandlers n (some d)}
  | .shifted => {s with keyboard := {s.keyboard with shifted := false}}
  | .capsLock => {s with keyboard := {s.keyboard with capsLock := false}}
  | .keyboardDevice => {s with keyboardDevice := true}
  | .cli => {s with enabled := false}
  | .sti => {s with enabled := true}
  | .elsewhere => s
  | .listenerTable t => {s with listener := t}
  | .registerListener => if s.keyboardDevice then {s with listeners := .vConsole} else s
  | .row => {s with console := {s.console with row := 0}}
  | .column => {s with console := {s.console with column := 0}}
  | .inputStr => {s with console := {s.console with inputStr := []}}
  | .previousCommands => {s with console := {s.console with previousCommands := []}}
  | .commandIndex => {s with console := {s.console with commandIndex := 0}}
  | .clear p => {s with console := s.console.store (p.1 + p.2 * VGA_WIDTH) blank}
  | .putchar c => {s with console := s.console.putchar c}
  | .newCommand => {s with console := s.console.newCommand}

/-- The console's constructor has ended. -/
def constructed (s : Machine) : Bool := s.rest.all fun p => !p.constructs

/-- `KeyboardDevice::handleIRQ`. Where a stray pointer leads is not known. -/
def handleIRQ (raw : u8) (a : Surroundings) (s : Machine) : Option Machine :=
  let s := {s with
    keyboard := s.keyboard.handleIRQ raw
    calls := (s.listeners, s.constructed) :: s.calls}
  if s.listeners = .vConsole ∧ s.listener = .own then
    (s.console.keyStateChanged a s.keyboard raw (raw &&& 0x80 = 0)).map fun console => {s with console := console}
  else some s

/-- `irqHandler` for the keyboard's interrupt. -/
def serve (raw : u8) (a : Surroundings) (s : Machine) : Option Machine :=
  if s.interruptHandlers 1 = some .keyboard ∧ s.table .keyboard = .own then s.handleIRQ raw a else some s

end Machine

inductive Event where
  | next
  | irq (raw : u8) (a : Surroundings)

namespace Machine

def step (s : Machine) : Event → Option Machine
  | .next =>
    match s.rest with
    | [] => none
    | p :: rest => some ({s with rest := rest}.exec p)
  | .irq raw a => if s.enabled then s.serve raw a else none

/-- Interrupts enabled, and whatever the memory holds. -/
def start (text : List u8) (keyboard : KeyboardDevice) (console : VirtualConsole) : Machine where
  rest := kernel_main text
  enabled := true
  interruptHandlers := fun _ => none
  table := fun _ => .none
  keyboardDevice := false
  keyboard := keyboard
  listeners := .stray
  listener := .none
  console := {console with stores := [], cursors := [], lookups := [], scrolls := 0}
  calls := []

/-- Every call went through a registered pointer, to a constructed listener. -/
def Safe (s : Machine) : Prop := ∀ c ∈ s.calls, c = (.vConsole, true)

/-- No keyboard interrupt in between: the keyboard does not have its own functions yet, or the
console is constructed. -/
def Quiet (s : Machine) : Event → Prop
  | .next => True
  | .irq _ _ => .table .keyboard .own ∈ s.rest ∨ s.constructed

instance (s : Machine) : ∀ e, Decidable (s.Quiet e)
  | .next => isTrue trivial
  | .irq _ _ => inferInstanceAs (Decidable (_ ∨ _))

/-! ### Steps of the program -/

variable {s t : Machine}

/-- What no step of a list changes, the list does not change. -/
theorem foldl_exec {β : Type*} (f : Machine → β) {ps : List Step} (h : ∀ p ∈ ps, ∀ s, f (exec s p) = f s)
    (s : Machine) : f (ps.foldl exec s) = f s := by
  induction ps generalizing s with
  | nil => rfl
  | cons p ps ih =>
    obtain ⟨hp, hps⟩ := List.forall_mem_cons.mp h
    exact (ih hps _).trans (hp s)

theorem exec_calls (s : Machine) (p : Step) : (s.exec p).calls = s.calls := by
  cases p with
  | registerListener =>
    rw [exec]
    split <;> rfl
  | _ => rfl

theorem exec_rest (s : Machine) (p : Step) (rest : List Step) :
    exec {s with rest := rest} p = {s.exec p with rest := rest} := by
  cases p with
  | registerListener =>
    simp only [exec]
    split <;> rfl
  | _ => rfl

/-- The keyboard gets its own functions in one step. -/
theorem exec_table {p : Step} (hp : p ≠ .table .keyboard .own) (h : s.table .keyboard ≠ .own) :
    (s.exec p).table .keyboard ≠ .own := by
  cases p with
  | table d stage =>
    by_cases hd : Device.keyboard = d
    · have hown : stage ≠ .own := fun hown => hp (by rw [hown, hd])
      simpa [exec, hd] using hown
    · simpa [exec, Function.update_of_ne hd] using h
  | registerListener =>
    rw [exec]
    split <;> exact h
  | _ => exact h

theorem foldl_table {ps : List Step} (hps : .table .keyboard .own ∉ ps) (h : s.table .keyboard ≠ .own) :
    (ps.foldl exec s).table .keyboard ≠ .own := by
  induction ps generalizing s with
  | nil => exact h
  | cons p ps ih =>
    rw [List.mem_cons, not_or] at hps
    exact ih hps.2 (exec_table (Ne.symm hps.1) h)

theorem foldl_clear (ps : List (Nat × Nat)) (s : Machine) :
    (ps.map .clear).foldl exec s =
      {s with console := ps.foldl (fun s p => s.store (p.1 + p.2 * VGA_WIDTH) blank) s.console} := by
  induction ps generalizing s with
  | nil => rfl
  | cons p ps ih => exact ih _

/-! ### Where the program stands -/

/-- The steps in front of the one that gives the keyboard its own functions. -/
def before : List Step := pit ++ irqHandler 1 .keyboard

def after : List Step := [.shifted, .capsLock, .keyboardDevice] ++ rtc ++ virtualConsole

theorem constructors_eq : constructors = before ++ .table .keyboard .own :: after := by
  simp [constructors, before, after, Boot.keyboardDevice]

theorem own_not_mem_before : .table .keyboard .own ∉ before := by
  decide

theorem own_not_mem_after : .table .keyboard .own ∉ after := by
  simp [after, rtc, irqHandler, virtualConsole, keyboardListener]

theorem own_not_mem_greeting (text : List u8) : .table .keyboard .own ∉ greeting text := by
  simp [greeting]

/-- The last of the constructors' steps clears the last cell. -/
theorem constructors_getLast : constructors.getLast? = some (.clear (79, 24)) := by
  decide +kernel

/-- The constructors, some of them done: the keyboard has its own functions, or is still to
get them. -/
theorem split_constructors {done todo : List Step} (h : constructors = done ++ todo) :
    (.table .keyboard .own ∈ todo ∧ .table .keyboard .own ∉ done) ∨
    .table .keyboard .own ∉ todo ∧ ∃ more, done = before ++ .table .keyboard .own :: more ∧ after = more ++ todo := by
  rw [constructors_eq, List.append_eq_append_iff] at h
  rcases h with ⟨more, hdone, htodo⟩ | ⟨more, hdone, htodo⟩
  · cases more with
    | nil =>
      left
      rw [List.append_nil] at hdone
      rw [List.nil_append] at htodo
      exact ⟨htodo ▸ List.mem_cons_self .., hdone ▸ own_not_mem_before⟩
    | cons p more =>
      right
      rw [List.cons_append, List.cons.injEq] at htodo
      obtain ⟨rfl, hafter⟩ := htodo
      have hnot := own_not_mem_after
      rw [hafter, List.mem_append, not_or] at hnot
      exact ⟨hnot.2, more, hdone, hafter⟩
  · left
    have hnot := own_not_mem_before
    rw [hdone, List.mem_append, not_or] at hnot
    exact ⟨htodo ▸ List.mem_append_right _ (List.mem_cons_self ..), hnot.1⟩

/-- A step behind that one leaves it, and the handler installed, alone. -/
theorem exec_after {p : Step} (hp : p ∈ after) (s : Machine) :
    ((s.exec p).interruptHandlers 1, (s.exec p).table .keyboard) = (s.interruptHandlers 1, s.table .keyboard) := by
  cases p with
  | table d stage =>
    have hd : Device.keyboard ≠ d := by
      rintro rfl
      simp [after, rtc, irqHandler, virtualConsole, keyboardListener] at hp
    simp [exec, Function.update_of_ne hd]
  | setInterruptHandler n d =>
    have hn : 1 ≠ n := by
      rintro rfl
      simp [after, rtc, irqHandler, virtualConsole, keyboardListener] at hp
    simp [exec, Function.update_of_ne hn]
  | registerListener =>
    rw [exec]
    split <;> rfl
  | _ => rfl

/-- The machine with some of its constructors done, and no call so far. -/
def Booting (init : Machine) (text : List u8) (s : Machine) : Prop :=
  ∃ done todo, constructors = done ++ todo ∧ todo ≠ [] ∧
    s = {done.foldl exec init with rest := todo ++ greeting text}

/-- A step that prints. -/
def Prints (p : Step) : Prop := (∃ c, p = .putchar c) ∨ p = .newCommand

/-- The machine with its constructors done: the system of the console, at the end of a run. -/
structure Booted (video : Int → u16) (s : Machine) : Prop where
  rest : ∀ p ∈ s.rest, Prints p
  installed : s.interruptHandlers 1 = some .keyboard ∧ s.table .keyboard = .own
  registered : s.listeners = .vConsole ∧ s.listener = .own
  safe : s.Safe
  reached : ∃ es, Run System.step (fun _ _ => True) (System.boot ⟨false, false⟩ video) es ⟨s.keyboard, s.console⟩

section Booting
variable {text : List u8} {keyboard : KeyboardDevice} {console : VirtualConsole}

theorem Booting.safe (h : Booting (start text keyboard console) text s) : s.Safe := by
  obtain ⟨done, todo, -, -, rfl⟩ := h
  have hcalls : (done.foldl exec (start text keyboard console)).calls = [] :=
    foldl_exec (·.calls) (fun p _ s => exec_calls s p) _
  show ∀ c ∈ (done.foldl exec (start text keyboard console)).calls, c = (.vConsole, true)
  rw [hcalls]
  exact nofun

/-- An interrupt that comes early enough finds no functions of the keyboard. -/
theorem Booting.early (h : Booting (start text keyboard console) text s)
    (hearly : .table .keyboard .own ∈ s.rest) (raw : u8) (a : Surroundings) : s.serve raw a = some s := by
  obtain ⟨done, todo, hsplit, -, rfl⟩ := h
  rcases split_constructors hsplit with ⟨-, hdone⟩ | ⟨htodo, -⟩
  · have htable := foldl_table hdone (s := start text keyboard console) (by simp [start])
    exact if_neg fun hserved => htable hserved.2
  · rcases List.mem_append.mp hearly with hmem | hmem
    · exact absurd hmem htodo
    · exact absurd hmem (own_not_mem_greeting text)

theorem Booting.unconstructed {init : Machine} (h : Booting init text s) : s.constructed = false := by
  obtain ⟨done, todo, hsplit, hne, rfl⟩ := h
  have hlast := constructors_getLast
  rw [hsplit, List.getLast?_append_of_ne_nil _ hne] at hlast
  have hmem := List.mem_append_left (greeting text) (List.mem_of_getLast? hlast)
  exact List.all_eq_false.mpr ⟨_, hmem, by decide⟩

/-- And one that comes later calls through whatever is in the pointer. -/
theorem Booting.late (h : Booting (start text keyboard console) text s)
    (hlate : .table .keyboard .own ∉ s.rest) : s.interruptHandlers 1 = some .keyboard ∧ s.table .keyboard = .own := by
  obtain ⟨done, todo, hsplit, -, rfl⟩ := h
  rcases split_constructors hsplit with ⟨htodo, -⟩ | ⟨-, more, rfl, hafter⟩
  · exact absurd (List.mem_append_left _ htodo) hlate
  · have hwired := foldl_exec (fun s => (s.interruptHandlers 1, s.table .keyboard))
      (fun p (hp : p ∈ more) => exec_after (hafter ▸ List.mem_append_left _ hp))
      ((before ++ [Step.table .keyboard .own]).foldl exec (start text keyboard console))
    rw [← List.foldl_append, List.append_assoc, List.singleton_append] at hwired
    exact Prod.mk.inj hwired

/-- The steps in front of the cells cleared. -/
def front : List Step :=
  pit ++ Boot.keyboardDevice ++ rtc ++ (keyboardListener ++
    [.listenerTable .own, .row, .column, .inputStr, .previousCommands, .commandIndex, .elsewhere])

theorem foldl_constructors (text : List u8) (keyboard : KeyboardDevice) (console : VirtualConsole) :
    constructors.foldl exec (start text keyboard console) =
      {front.foldl exec (start text keyboard console) with console := .new console.vgaBuffer} := by
  have hfront : constructors = front ++ (List.range 80 ×ˢ List.range 25).map .clear := by
    rw [constructors, virtualConsole, front, ← List.append_assoc]
  have hconsole : (front.foldl exec (start text keyboard console)).console =
      ⟨console.vgaBuffer, 0, 0, [], [], 0, [], [], [], 0⟩ := rfl
  rw [hfront, List.foldl_append, foldl_clear, hconsole, VirtualConsole.new]

/-- The constructors leave the console that `VirtualConsole` starts with. -/
theorem booted (text : List u8) (keyboard : KeyboardDevice) (console : VirtualConsole) :
    Booted console.vgaBuffer {constructors.foldl exec (start text keyboard console) with rest := greeting text} := by
  have hkeyboard : (front.foldl exec (start text keyboard console)).keyboard = ⟨false, false⟩ := rfl
  rw [foldl_constructors]
  refine ⟨fun p hp => ?_, ⟨rfl, rfl⟩, ⟨rfl, rfl⟩, nofun, [], ?_⟩
  · rcases List.mem_append.mp hp with hp | hp
    · obtain ⟨c, -, rfl⟩ := List.mem_map.mp hp
      exact .inl ⟨c, rfl⟩
    · exact .inr (List.mem_singleton.mp hp)
  · rw [System.boot]
    generalize VirtualConsole.new console.vgaBuffer = c
    rw [hkeyboard]
    exact .nil _

/-- A step of the program while it boots. -/
theorem Booting.next (h : Booting (start text keyboard console) text s) (ht : s.step .next = some t) :
    Booting (start text keyboard console) text t ∨ Booted console.vgaBuffer t := by
  obtain ⟨done, todo, hsplit, hne, rfl⟩ := h
  cases todo with
  | nil => exact absurd rfl hne
  | cons p todo =>
    obtain rfl := Option.some.inj ht
    have hdone : exec {done.foldl exec (start text keyboard console) with rest := todo ++ greeting text} p =
        {(done ++ [p]).foldl exec (start text keyboard console) with rest := todo ++ greeting text} := by
      rw [exec_rest, List.foldl_append]
      rfl
    rw [← List.singleton_append, ← List.append_assoc] at hsplit
    cases todo with
    | nil =>
      right
      rw [List.append_nil] at hsplit
      have h := booted text keyboard console
      rw [hsplit] at h
      exact hdone ▸ h
    | cons q todo => exact .inl ⟨done ++ [p], q :: todo, hsplit, List.cons_ne_nil _ _, hdone⟩

end Booting

/-! ### Behind the constructors -/

section Booted
variable {video : Int → u16}

theorem Booted.constructed (h : Booted video s) : s.constructed = true := by
  refine List.all_eq_true.mpr fun p hp => ?_
  rcases h.rest p hp with ⟨c, rfl⟩ | rfl <;> rfl

/-- A step of the system is one more of its run. -/
theorem Booted.more (h : Booted video s) {e : Console.Event} {u : System}
    (hu : System.step ⟨s.keyboard, s.console⟩ e = some u) :
    ∃ es, Run System.step (fun _ _ => True) (System.boot ⟨false, false⟩ video) es u := by
  obtain ⟨es, hes⟩ := h.reached
  exact ⟨_, hes.append (.cons trivial hu (.nil _))⟩

theorem Booted.step (h : Booted video s) {e : Event} (ht : s.step e = some t) : Booted video t := by
  cases e with
  | next =>
    rw [Machine.step] at ht
    cases hrest : s.rest with
    | nil =>
      rw [hrest] at ht
      cases ht
    | cons p rest =>
      rw [hrest] at ht
      have hprints := h.rest
      rw [hrest] at hprints
      obtain ⟨hp, hbehind⟩ := List.forall_mem_cons.mp hprints
      obtain rfl := Option.some.inj ht
      rcases hp with ⟨c, rfl⟩ | rfl
      · exact ⟨hbehind, h.installed, h.registered, h.safe, h.more (e := .putchar c) rfl⟩
      · exact ⟨hbehind, h.installed, h.registered, h.safe, h.more (e := .newCommand) rfl⟩
  | irq raw a =>
    rw [Machine.step] at ht
    split at ht
    · rw [serve, if_pos h.installed, handleIRQ, if_pos h.registered] at ht
      obtain ⟨console, hconsole, rfl⟩ := Option.map_eq_some_iff.mp ht
      refine ⟨h.rest, h.installed, h.registered, ?_, h.more (e := .irq raw a) ?_⟩
      · refine List.forall_mem_cons.mpr ⟨?_, h.safe⟩
        rw [h.registered.1, h.constructed]
      · exact Option.map_eq_some_iff.mpr ⟨console, hconsole, rfl⟩
    · cases ht

end Booted

/-! ### Runs -/

/-- What holds behind every history without interrupts in between. -/
def Sound (text : List u8) (keyboard : KeyboardDevice) (console : VirtualConsole) (s : Machine) : Prop :=
  Booting (start text keyboard console) text s ∨ Booted console.vgaBuffer s

section Sound
variable {text : List u8} {keyboard : KeyboardDevice} {console : VirtualConsole}

theorem Sound.safe (h : Sound text keyboard console s) : s.Safe := h.elim Booting.safe Booted.safe

/-- An interrupt in between is a call to a listener that is not constructed. -/
theorem Booting.stray (h : Booting (start text keyboard console) text s)
    (hlate : .table .keyboard .own ∉ s.rest) {raw : u8} {a : Surroundings} (ht : s.serve raw a = some t) :
    ¬t.Safe := by
  have hcalls : (s.listeners, false) ∈ t.calls := by
    rw [serve, if_pos (h.late hlate), handleIRQ, h.unconstructed] at ht
    split at ht
    · obtain ⟨c, -, rfl⟩ := Option.map_eq_some_iff.mp ht
      exact List.mem_cons_self ..
    · obtain rfl := Option.some.inj ht
      exact List.mem_cons_self ..
  exact fun hsafe => Bool.false_ne_true (Prod.mk.inj (hsafe _ hcalls)).2

theorem Sound.step (h : Sound text keyboard console s) {e : Event} (ht : s.step e = some t) :
    (s.Quiet e → Sound text keyboard console t) ∧ (t.Safe ↔ s.Quiet e) := by
  rcases h with h | h
  · cases e with
    | next =>
      have hnext : Sound text keyboard console t := h.next ht
      exact ⟨fun _ => hnext, iff_of_true hnext.safe trivial⟩
    | irq raw a =>
      rw [Machine.step] at ht
      split at ht
      · by_cases hearly : .table .keyboard .own ∈ s.rest
        · rw [h.early hearly] at ht
          obtain rfl := Option.some.inj ht
          exact ⟨fun _ => .inl h, iff_of_true h.safe (.inl hearly)⟩
        · have hloud : ¬s.Quiet (.irq raw a) := by
            rintro (hquiet | hquiet)
            · exact hearly hquiet
            · rw [h.unconstructed] at hquiet
              cases hquiet
          exact ⟨fun hquiet => absurd hquiet hloud, iff_of_false (h.stray hearly ht) hloud⟩
      · cases ht
  · have hstep : Sound text keyboard console t := .inr (h.step ht)
    refine ⟨fun _ => hstep, iff_of_true hstep.safe ?_⟩
    cases e with
    | next => trivial
    | irq raw a => exact .inr h.constructed

/-- **Keyboard interrupts are safe exactly as long as none comes between the keyboard's own
functions and the end of the console's constructor**, and behind it the machine is the system
of the console. -/
theorem interrupts_safe (text : List u8) (keyboard : KeyboardDevice) (console : VirtualConsole) {es : List Event}
    (hrun : Run step Quiet (start text keyboard console) es s) :
    s.Safe ∧ (∀ e t, s.step e = some t → (t.Safe ↔ s.Quiet e)) ∧
    (s.constructed → ∃ es, Run System.step (fun _ _ => True) (System.boot ⟨false, false⟩ console.vgaBuffer) es
      ⟨s.keyboard, s.console⟩) := by
  have hstart : Sound text keyboard console (start text keyboard console) := by
    left
    exact ⟨[], constructors, rfl, by simp [constructors, pit, irqHandler], rfl⟩
  have h := hrun.invariant (Sound text keyboard console) (fun _ _ _ h hrule ht => (h.step ht).1 hrule) hstart
  refine ⟨h.safe, fun e t ht => (h.step ht).2, fun hconstructed => ?_⟩
  rcases h with h | h
  · rw [h.unconstructed] at hconstructed
    cases hconstructed
  · exact h.reached

end Sound

/-- A memory of zeros. -/
def zeros : VirtualConsole := ⟨fun _ => 0, 0, 0, [], [], 0, [], [], [], 0⟩

/-- An interrupt before the timer, and one when the keyboard's handler is installed but does
nothing yet. -/
theorem interrupts_safe_early :
    ∃ s, follow step Quiet (start [] ⟨false, false⟩ zeros)
        (.irq 0x1E silent :: List.replicate 6 .next ++ [.irq 0x9E silent]) = some s ∧
      s.interruptHandlers 1 = some .keyboard ∧ s.Safe := by
  have hfollow : (follow step Quiet (start [] ⟨false, false⟩ zeros)
      (.irq 0x1E silent :: List.replicate 6 .next ++ [.irq 0x9E silent])).map (fun s => s.interruptHandlers 1) =
        some (some .keyboard) := by
    decide +kernel
  obtain ⟨s, hs, hinstalled⟩ := Option.map_eq_some_iff.mp hfollow
  exact ⟨s, hs, hinstalled, (interrupts_safe [] ⟨false, false⟩ zeros (run_iff_follow.mpr hs)).1⟩

/-- An interrupt comes as soon as the keyboard has its own functions, before `listeners` was
ever set. -/
theorem stray_listener_called :
    ∃ s, Run step (fun _ _ => True) (start [] ⟨false, false⟩ zeros)
        (List.replicate 7 .next ++ [.irq 0x1E silent]) s ∧
      s.calls = [(.stray, false)] ∧ ¬s.Safe := by
  have hfollow : (follow step (fun _ _ => True) (start [] ⟨false, false⟩ zeros)
      (List.replicate 7 .next ++ [.irq 0x1E silent])).map calls = some [(.stray, false)] := by
    decide +kernel
  obtain ⟨s, hs, hcalls⟩ := Option.map_eq_some_iff.mp hfollow
  refine ⟨s, run_iff_follow.mpr hs, hcalls, fun h => ?_⟩
  have hcall := h (.stray, false) (by rw [hcalls]; exact List.mem_singleton_self _)
  cases hcall

end Machine

end UntitledOS.Console.Boot
