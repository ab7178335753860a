import UntitledOS.Lib.Pic
import UntitledOS.Types

/-! The interrupts of devices, `CPU.cpp` and `IRQHandler.cpp`, over the two controllers. -/
namespace UntitledOS.Interrupts

open UntitledOS.Lib.Pic

/-- What `isrInstall` writes to the controllers' ports. -/
def remap : List (u16 × u8) :=
  [(0x20, 0x11), (0xA0, 0x11), (0x21, 0x20), (0xA1, 0x28), (0x21, 0x04), (0xA1, 0x02), (0x21, 0x01), (0xA1, 0x01),
    (0x21, 0x0), (0xA1, 0x0)]

/-- The controllers, the table of handlers, and the handlers run, the last one first: each
with its place in the table, and none where the table has a null pointer. -/
structure Board (H : Type) where
  pics : Pair
  interruptHandlers : Fin 15 → Option H
  handled : List (Nat × Option H)

variable {H : Type}

/-- Outside the table there is no outcome. -/
def setInterruptHandler (n : u8) (handler : H) (b : Board H) : Option (Board H) :=
  if h : 32 ≤ n.toNat ∧ n.toNat - 32 < 15 then
    some {b with interruptHandlers := Function.update b.interruptHandlers ⟨n.toNat - 32, h.2⟩ (some handler)}
  else none

def irqHandler (int_no : u32) (b : Board H) : Option (Board H) :=
  let pics := if 40 ≤ int_no then b.pics.out 0xA0 0x20 else b.pics
  let pics := pics.out 0x20 0x20
  if h : 32 ≤ int_no.toNat ∧ int_no.toNat - 32 < 15 then
    some {b with pics := pics,
                 handled := (int_no.toNat - 32, b.interruptHandlers ⟨int_no.toNat - 32, h.2⟩) :: b.handled}
  else none

/-- A device raises its line, a driver takes one over, or the processor takes an interrupt,
if there is one; its handler then runs to the end. -/
inductive IrqEvent (H : Type) where
  | raise (k : Nat)
  | setInterruptHandler (n : u8) (handler : H)
  | accept

def irqStep (b : Board H) : IrqEvent H → Option (Board H)
  | .raise k => some {b with pics := b.pics.raise k}
  | .setInterruptHandler n handler => setInterruptHandler n handler b
  | .accept =>
    match b.pics.ack with
    | none => some b
    | some (vector, pics) => irqHandler (vector.setWidth 32) {b with pics := pics}

/-- Lines of devices: the second controller has line 2. -/
def IsLine (k : Nat) : Prop := k < 16 ∧ k ≠ 2

/-! ### Setting up -/

/-- While `isrInstall` writes to the controllers, devices go on. -/
inductive SetUp where
  | out (port : u16) (v : u8)
  | raise (k : Nat)

def SetUp.write : SetUp → Option (u16 × u8)
  | .out port v => some (port, v)
  | .raise _ => none

def setUp (p : Pair) : SetUp → Pair
  | .out port v => p.out port v
  | .raise k => p.raise k

theorem settings_setUp (p : Pair) (es : List SetUp) :
    (es.foldl setUp p).settings =
      ((es.filterMap SetUp.write).foldl (fun p w => (p.out w.1 w.2).settings) p.settings) := by
  induction es generalizing p with
  | nil => rfl
  | cons e es ih =>
    cases e with
    | out port v => exact (ih (p.out port v)).trans (by rw [Pair.settings_out]; rfl)
    | raise k => exact (ih (p.raise k)).trans (by rw [Pair.settings_raise]; rfl)

/-- The settings of the kernel. -/
def kernelSettings : Pair where
  master := ⟨0, 0, 0, 0x20, 0x04, 0x01, .mask, false, true⟩
  slave := ⟨0, 0, 0, 0x28, 0x02, 0x01, .mask, false, true⟩

theorem remap_settings (p : Pair) :
    remap.foldl (fun p w => (p.out w.1 w.2).settings) p.settings = kernelSettings := by
  rfl

theorem open_of_settings {base cascade : u8} {c : Chip}
    (h : c.settings = ⟨0, 0, 0, base, cascade, 0x01, .mask, false, true⟩) : c.Open base cascade where
  masked := congrArg Chip.masked h
  inService := congrArg Chip.inService h
  base := congrArg Chip.base h
  cascade := congrArg Chip.cascade h
  mode := (congrArg (fun c => c.mode.getLsbD 1) h).trans (by decide : (0x01 : u8).getLsbD 1 = false)
  stage := congrArg Chip.stage h

theorem wire_setUp {p : Pair} (hp : p.master.requested.getLsbD 2 = false) {es : List SetUp}
    (hlines : ∀ k, .raise k ∈ es → IsLine k) : (es.foldl setUp p).master.requested.getLsbD 2 = false := by
  induction es generalizing p with
  | nil => exact hp
  | cons e es ih =>
    refine ih ?_ fun k hk => hlines k (List.mem_cons_of_mem _ hk)
    cases e with
    | out port v => exact Pair.wire_out hp port v
    | raise k => exact Pair.wire_raise hp (hlines k (List.mem_cons_self ..)).2

/-- Whatever the controllers were at, `isrInstall` opens them. -/
theorem setUp_open {p : Pair} (hp : p.master.requested.getLsbD 2 = false) {es : List SetUp}
    (hwrites : es.filterMap SetUp.write = remap) (hlines : ∀ k, .raise k ∈ es → IsLine k) :
    (es.foldl setUp p).Open 0x20 0x28 := by
  have hsettings := settings_setUp p es
  rw [hwrites, remap_settings] at hsettings
  have hwire := wire_setUp hp hlines
  exact ⟨open_of_settings (congrArg Pair.master hsettings), open_of_settings (congrArg Pair.slave hsettings), hwire⟩

/-! ### Serving -/

/-- The lines asked for, the table and the handlers run. -/
structure Queue (H : Type) where
  pending : Nat → Bool
  interruptHandlers : Fin 15 → Option H
  handled : List (Nat × Option H)

/-- What the table has for a line; it has no place for line 15. -/
def handlerOf (handlers : Fin 15 → Option H) (k : Nat) : Option H := if h : k < 15 then handlers ⟨k, h⟩ else none

def Queue.served (k : Nat) (q : Queue H) : Queue H :=
  {q with pending := fun j => q.pending j && decide (j ≠ k),
          handled := (k, handlerOf q.interruptHandlers k) :: q.handled}

def Queue.serve (k : Nat) (q : Queue H) : Option (Queue H) := if k < 15 then some (q.served k) else none

/-- The line first in order is served. -/
def queueStep (q : Queue H) : IrqEvent H → Option (Queue H)
  | .raise k => some {q with pending := fun j => q.pending j || decide (j = k)}
  | .setInterruptHandler n handler =>
    if h : 32 ≤ n.toNat ∧ n.toNat - 32 < 15 then
      some {q with interruptHandlers := Function.update q.interruptHandlers ⟨n.toNat - 32, h.2⟩ (some handler)}
    else none
  | .accept => (next q.pending).elim (some q) q.serve

/-- A board that serves a queue: no line is in service, so none waits behind another. -/
structure Serves (b : Board H) (q : Queue H) : Prop where
  ready : b.pics.Open 0x20 0x28
  pending : ∀ k < 16, b.pics.pending k = q.pending k
  handlers : b.interruptHandlers = q.interruptHandlers
  handled : b.handled = q.handled

variable {b : Board H} {q : Queue H}

theorem next_some {pending : Nat → Bool} {k : Nat} (h : next pending = some k) : IsLine k ∧ pending k = true := by
  have hlines : ∀ k ∈ priority, k < 16 ∧ k ≠ 2 := by decide
  exact ⟨hlines k (List.mem_of_find?_eq_some h), List.find?_some h⟩

theorem Serves.next (h : Serves b q) : next b.pics.pending = next q.pending := by
  have hlines : ∀ k ∈ priority, k < 16 := by decide
  exact List.find?_congr fun k hk => h.pending k (hlines k hk)

theorem int_no_eq {k : Nat} (hk : k < 16) :
    ((Pair.number 0x20 0x28 k).setWidth 32 : u32) = BitVec.ofNat 32 (32 + k) := by
  revert k
  decide

/-- The ends `irqHandler` sends are those of the line. -/
theorem ends_eq {k : Nat} (hk : k < 16) (p : Pair) :
    (if (40 : u32) ≤ BitVec.ofNat 32 (32 + k) then p.out 0xA0 0x20 else p).out 0x20 0x20 = p.ended k := by
  have hle : (40 : u32) ≤ BitVec.ofNat 32 (32 + k) ↔ 8 ≤ k := by
    revert k
    decide
  rw [Pair.ended]
  by_cases h : 8 ≤ k
  · rw [if_pos h, if_pos (hle.mpr h)]
    rfl
  · rw [if_neg h, if_neg fun h' => h (hle.mp h')]
    rfl

theorem Serves.serve (h : Serves b q) {k : Nat} (hk : k < 16) :
    Option.Rel Serves (irqHandler (BitVec.ofNat 32 (32 + k)) {b with pics := b.pics.serve k}) (q.serve k) := by
  have hno : (BitVec.ofNat 32 (32 + k)).toNat = 32 + k := by
    rw [BitVec.toNat_ofNat]
    omega
  obtain ⟨hopen, hpending⟩ := h.ready.serve_ended hk
  rw [← ends_eq hk] at hopen hpending
  simp only [irqHandler, Queue.serve, hno, Nat.add_sub_cancel_left]
  by_cases hplace : k < 15
  · rw [dif_pos ⟨Nat.le_add_right .., hplace⟩, if_pos hplace]
    refine .some ⟨hopen, fun j hj => ?_, h.handlers, ?_⟩
    · rw [hpending j hj, h.pending j hj]
      rfl
    · rw [h.handlers, h.handled, Queue.served, handlerOf, dif_pos hplace]
  · rw [dif_neg fun h => hplace h.2, if_neg hplace]
    exact .none

theorem Serves.step (h : Serves b q) {e : IrqEvent H} (hline : ∀ k, e = .raise k → IsLine k) :
    Option.Rel Serves (irqStep b e) (queueStep q e) := by
  cases e with
  | raise k =>
    obtain ⟨hk, hwire⟩ := hline k rfl
    obtain ⟨hopen, hpending⟩ := h.ready.raise hk hwire
    refine .some ⟨hopen, fun j hj => ?_, h.handlers, h.handled⟩
    rw [hpending j hj, h.pending j hj]
  | setInterruptHandler n handler =>
    simp only [irqStep, queueStep, setInterruptHandler]
    split
    · exact .some ⟨h.ready, h.pending, by rw [h.handlers], h.handled⟩
    · exact .none
  | accept =>
    have hack := h.ready.ack
    rw [h.next] at hack
    simp only [irqStep, queueStep, hack]
    cases hnext : Lib.Pic.next q.pending with
    | none => exact .some h
    | some k =>
      have hk := (next_some hnext).1.1
      simp only [Option.map_some, int_no_eq hk]
      exact h.serve hk

theorem Serves.run (h : Serves b q) {es : List (IrqEvent H)} (hlines : ∀ k, .raise k ∈ es → IsLine k) :
    Option.Rel Serves (es.foldlM irqStep b) (es.foldlM queueStep q) := by
  induction es generalizing b q with
  | nil => exact .some h
  | cons e es ih =>
    rw [List.foldlM_cons, List.foldlM_cons]
    have hstep := h.step fun k hk => hlines k (hk ▸ List.mem_cons_self ..)
    generalize irqStep b e = b' at hstep
    generalize queueStep q e = q' at hstep
    cases hstep with
    | none => exact .none
    | some h => exact ih h fun k hk => hlines k (List.mem_cons_of_mem _ hk)

/-- What the kernel starts with. -/
def started (p : Pair) (setup : List SetUp) (handlers : Fin 15 → Option H) : Board H :=
  ⟨setup.foldl setUp p, handlers, []⟩

def Board.queue (b : Board H) : Queue H := ⟨b.pics.pending, b.interruptHandlers, b.handled⟩

theorem started_serves {p : Pair} (hp : p.master.requested.getLsbD 2 = false) {setup : List SetUp}
    (hwrites : setup.filterMap SetUp.write = remap) (hsetup : ∀ k, .raise k ∈ setup → IsLine k)
    (handlers : Fin 15 → Option H) : Serves (started p setup handlers) (started p setup handlers).queue :=
  ⟨setUp_open hp hwrites hsetup, fun _ _ => rfl, rfl, rfl⟩

/-- Whatever the controllers were at, and whatever devices do while they are set up: from
then on interrupts are served one by one and in the order of their lines, each by the
handler in the table. The run breaks off only at an interrupt of line 15, which the table
does not have. -/
theorem irqs_served {p : Pair} (hp : p.master.requested.getLsbD 2 = false) {setup : List SetUp}
    (hwrites : setup.filterMap SetUp.write = remap) (hsetup : ∀ k, .raise k ∈ setup → IsLine k)
    (handlers : Fin 15 → Option H) {es : List (IrqEvent H)} (hlines : ∀ k, .raise k ∈ es → IsLine k) :
    Option.Rel Serves (es.foldlM irqStep (started p setup handlers))
      (es.foldlM queueStep (started p setup handlers).queue) :=
  (started_serves hp hwrites hsetup handlers).run hlines

/-- Controllers a firmware has left at something else. -/
def somePics : Pair where
  master := ⟨0xFB, 0, 1, 8, 0, 0, .mode, true, true⟩
  slave := ⟨0, 0, 0, 0x70, 0, 0, .mask, true, true⟩

/-- The set-up, with the keyboard before it and the clock of the day after it. -/
def someSetUp : List SetUp := .raise 1 :: remap.map (fun w => .out w.1 w.2) ++ [.raise 8]

theorem irqs_served_five :
    let es : List (IrqEvent String) := [.setInterruptHandler 32 "clock", .setInterruptHandler 33 "keyboard",
      .raise 0, .raise 1, .accept, .raise 14, .accept, .accept]
    Option.Rel Serves (es.foldlM irqStep (started somePics someSetUp fun _ => none))
      (es.foldlM queueStep (started somePics someSetUp fun _ => none).queue) :=
  irqs_served (by decide) (by decide) (by simp [someSetUp, remap, IsLine]) _ (by simp [IsLine])

/-! ### Nothing is forgotten -/

/-- The lines asked for, in their order. -/
def Queue.lines (q : Queue H) : List Nat := priority.filter q.pending

theorem next_eq_head (q : Queue H) : next q.pending = q.lines.head? := List.head?_filter.symm

theorem idle (n : Nat) (hlines : q.lines = []) : (List.replicate n .accept).foldlM queueStep q = some q := by
  have hnext : queueStep q .accept = some q := by
    rw [queueStep, next_eq_head, hlines]
    rfl
  induction n with
  | zero => rfl
  | succ n ih => rw [List.replicate_succ, List.foldlM_cons, hnext, Option.bind_eq_bind, Option.bind_some, ih]

theorem accept_first {k : Nat} {ks : List Nat} (hlines : q.lines = k :: ks) (hlast : q.pending 15 = false) :
    queueStep q .accept = some (q.served k) ∧ (q.served k).lines = ks := by
  have hnext : next q.pending = some k := by rw [next_eq_head, hlines, List.head?_cons]
  obtain ⟨⟨hk, -⟩, hset⟩ := next_some hnext
  have hplace : k < 15 := by
    refine Nat.lt_of_le_of_ne (Nat.le_of_lt_succ hk) fun h => ?_
    rw [h, hlast] at hset
    cases hset
  have hnodup : (k :: ks).Nodup := hlines ▸ List.Nodup.filter _ (by decide)
  refine ⟨?_, ?_⟩
  · rw [queueStep, hnext, Option.elim, Queue.serve, if_pos hplace]
  · have hfilter : (q.served k).lines = q.lines.filter fun j => decide (j ≠ k) := by
      rw [Queue.lines, Queue.lines, List.filter_filter]
      exact congrArg (List.filter · priority) (funext fun j => Bool.and_comm _ _)
    rw [hfilter, hlines, List.filter_cons_of_neg (by simp)]
    refine List.filter_eq_self.mpr fun j hj => decide_eq_true fun h => ?_
    exact (List.nodup_cons.mp hnodup).1 (h ▸ hj)

/-- As many interrupts as there are lines asked for serve them all. -/
theorem drain (n : Nat) (hn : q.lines.length ≤ n) (hlast : q.pending 15 = false) :
    ∃ q', (List.replicate n .accept).foldlM queueStep q = some q' ∧ q'.lines = [] ∧
      q'.handled = (q.lines.map fun k => (k, handlerOf q.interruptHandlers k)).reverse ++ q.handled := by
  generalize hlines : q.lines = ks at hn
  induction ks generalizing q n with
  | nil => exact ⟨q, idle n hlines, hlines, rfl⟩
  | cons k ks ih =>
    obtain ⟨n, rfl⟩ := Nat.exists_eq_succ_of_ne_zero (Nat.ne_of_gt (Nat.lt_of_lt_of_le (Nat.succ_pos _) hn))
    obtain ⟨hstep, hrest⟩ := accept_first hlines hlast
    have hlast' : (q.served k).pending 15 = false := by simp only [Queue.served, hlast, Bool.false_and]
    obtain ⟨q', hrun, hnone, hhandled⟩ := ih n hlast' hrest (Nat.le_of_succ_le_succ hn)
    refine ⟨q', ?_, hnone, ?_⟩
    · rw [List.replicate_succ, List.foldlM_cons, hstep, Option.bind_eq_bind, Option.bind_some, hrun]
    · rw [hhandled, List.map_cons, List.reverse_cons, List.append_assoc]
      rfl

theorem Serves.lines (h : Serves b q) : priority.filter b.pics.pending = q.lines := by
  have hlines : ∀ k ∈ priority, k < 16 := by decide
  exact List.filter_congr fun k hk => h.pending k (hlines k hk)

/-- No interrupt is forgotten: at any point of a run, fifteen interrupts later every line
that was asked for has been served once, in the order of the lines, unless it is line 15. -/
theorem irqs_drained {p : Pair} (hp : p.master.requested.getLsbD 2 = false) {setup : List SetUp}
    (hwrites : setup.filterMap SetUp.write = remap) (hsetup : ∀ k, .raise k ∈ setup → IsLine k)
    (handlers : Fin 15 → Option H) {es : List (IrqEvent H)} (hlines : ∀ k, .raise k ∈ es → IsLine k) {b : Board H}
    (hrun : es.foldlM irqStep (started p setup handlers) = some b) (hlast : b.pics.pending 15 = false) :
    ∃ b', (List.replicate 15 .accept).foldlM irqStep b = some b' ∧ priority.filter b'.pics.pending = [] ∧
      b'.handled = ((priority.filter b.pics.pending).map fun k => (k, handlerOf b.interruptHandlers k)).reverse ++
        b.handled := by
  have hrel := (started_serves hp hwrites hsetup handlers).run hlines
  rw [hrun] at hrel
  generalize es.foldlM queueStep _ = o at hrel
  cases hrel with
  | @some _ q hserves =>
    rw [hserves.pending 15 (by decide)] at hlast
    obtain ⟨q', hdrain, hnone, hhandled⟩ := drain 15 (List.length_filter_le q.pending priority) hlast
    have hrel : Option.Rel Serves ((List.replicate 15 .accept).foldlM irqStep b) _ := hserves.run (by simp)
    rw [hdrain] at hrel
    generalize (List.replicate 15 .accept).foldlM irqStep b = o at hrel ⊢
    cases hrel with
    | @some b' _ hserves' =>
      exact ⟨b', rfl, hserves'.lines.trans hnone, by
        rw [hserves'.handled, hhandled, hserves.lines, hserves.handlers, hserves.handled]⟩

theorem irqs_drained_two :
    let b : Board String := ⟨((someSetUp.foldl setUp somePics).raise 0).raise 9, fun _ => some "handler", []⟩
    ∃ b', (List.replicate 15 .accept).foldlM irqStep b = some b' ∧ priority.filter b'.pics.pending = [] ∧
      b'.handled = ((priority.filter b.pics.pending).map fun k => (k, handlerOf b.interruptHandlers k)).reverse ++ [] :=
  irqs_drained (by decide) (by decide) (by simp [someSetUp, remap, IsLine]) (fun _ => some "handler")
    (by simp [IsLine] : ∀ k, .raise k ∈ ([.raise 0, .raise 9] : List (IrqEvent String)) → IsLine k) rfl (by decide)

end UntitledOS.Interrupts
