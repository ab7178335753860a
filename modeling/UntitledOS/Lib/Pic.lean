import Mathlib

/-! The two interrupt controllers of the PC.

Eight lines come together in a controller, and the second one's output is line 2 of the
first. A line that is raised is requested until the processor takes it; from then on it is
in service, and blocks itself and those below it, until the controller is told that the
interrupt has ended. A controller is set up by a first word to its command port and three
or fewer to its data port, among them the number of its first interrupt. -/
namespace UntitledOS.Lib.Pic

abbrev Byte := BitVec 8

/-- What the next word at the data port is. -/
inductive Stage where
  | mask
  | base
  | cascade
  | mode
deriving DecidableEq

structure Chip where
  requested : Byte
  masked : Byte
  inService : Byte
  base : Byte
  cascade : Byte
  mode : Byte
  stage : Stage
  single : Bool
  needsMode : Bool

def bit (i : Nat) : Byte := 1#8 <<< i

/-- The line of the highest priority. -/
def lowest (lines : Byte) : Option Nat := (List.range 8).find? fun i => lines.getLsbD i

namespace Chip

/-- The line to be served next: not masked, and above those in service. -/
def request (c : Chip) : Option Nat :=
  (lowest (c.requested &&& ~~~c.masked)).filter fun i => (lowest c.inService).all fun j => i < j

/-- The processor has taken line `i`. -/
def serve (i : Nat) (c : Chip) : Chip :=
  {c with requested := c.requested &&& ~~~bit i,
          inService := if c.mode.getLsbD 1 then c.inService else c.inService ||| bit i}

def ended (c : Chip) : Chip :=
  {c with inService := (lowest c.inService).elim c.inService fun i => c.inService &&& ~~~bit i}

/-- A word at the command port starts the set-up or ends an interrupt; there are others. -/
def command (v : Byte) (c : Chip) : Chip :=
  if v.getLsbD 4 then
    {c with requested := 0, masked := 0, inService := 0, mode := 0, stage := .base,
            single := v.getLsbD 1, needsMode := v.getLsbD 0}
  else if v = 0x20 then c.ended
  else c

def afterCascade (c : Chip) : Stage := if c.needsMode then .mode else .mask

def data (v : Byte) (c : Chip) : Chip :=
  match c.stage with
  | .mask => {c with masked := v}
  | .base => {c with base := v &&& 0xF8, stage := if c.single then c.afterCascade else .cascade}
  | .cascade => {c with cascade := v, stage := c.afterCascade}
  | .mode => {c with mode := v, stage := .mask}

end Chip

structure Pair where
  master : Chip
  slave : Chip

namespace Pair

def out (port : BitVec 16) (v : Byte) (p : Pair) : Pair :=
  if port = 0x20 then {p with master := p.master.command v}
  else if port = 0x21 then {p with master := p.master.data v}
  else if port = 0xA0 then {p with slave := p.slave.command v}
  else if port = 0xA1 then {p with slave := p.slave.data v}
  else p

/-- Line `k` of the sixteen. -/
def raise (k : Nat) (p : Pair) : Pair :=
  if k < 8 then {p with master := {p.master with requested := p.master.requested ||| bit k}}
  else {p with slave := {p.slave with requested := p.slave.requested ||| bit (k - 8)}}

/-- The first controller with the second one's output on its line. -/
def wired (p : Pair) : Chip :=
  if p.slave.request.isSome then {p.master with requested := p.master.requested ||| bit 2} else p.master

/-- The processor asks for an interrupt and gets its number. -/
def ack (p : Pair) : Option (Byte × Pair) :=
  p.wired.request.map fun i =>
    if i = 2 ∧ p.master.cascade.getLsbD 2 ∧ p.slave.cascade = 2 then
      match p.slave.request with
      | some j => (p.slave.base + BitVec.ofNat 8 j, {master := p.master.serve 2, slave := p.slave.serve j})
      | none => (p.slave.base + 7, {p with master := p.master.serve 2})
    else (p.master.base + BitVec.ofNat 8 i, {p with master := p.master.serve i})

/-- Line `k` has been raised and not been taken. -/
def pending (p : Pair) (k : Nat) : Bool :=
  if k < 8 then p.master.requested.getLsbD k else p.slave.requested.getLsbD (k - 8)

end Pair

/-! ### Controllers with nothing in service -/

/-- Set up as far as it matters, nothing masked and nothing in service. -/
structure Chip.Open (base cascade : Byte) (c : Chip) : Prop where
  masked : c.masked = 0
  inService : c.inService = 0
  base : c.base = base
  cascade : c.cascade = cascade
  mode : c.mode.getLsbD 1 = false
  stage : c.stage = .mask

namespace Chip

variable {b x : Byte} {c : Chip}

theorem Open.request (h : Open b x c) : c.request = lowest c.requested := by
  have hnone : lowest 0 = none := by decide
  have hall : ~~~(0 : Byte) = BitVec.allOnes 8 := by decide
  rw [Chip.request, h.masked, h.inService, hnone, hall, BitVec.and_allOnes]
  cases lowest c.requested <;> rfl

/-- Serving a line and ending it leaves nothing in service. -/
theorem Open.serve_ended (h : Open b x c) {i : Nat} (hi : i < 8) :
    Open b x (c.serve i).ended ∧ (c.serve i).ended.requested = c.requested &&& ~~~bit i := by
  have hlowest : ∀ i < 8, lowest (bit i) = some i := by decide
  have hserve : (c.serve i).inService = bit i := by
    rw [serve, h.mode, h.inService]
    exact BitVec.zero_or
  refine ⟨⟨h.masked, ?_, h.base, h.cascade, h.mode, h.stage⟩, rfl⟩
  rw [ended, hserve, hlowest i hi]
  exact BitVec.and_not_self _

end Chip

/-- The order in which lines are served. -/
def priority : List Nat := [0, 1, 8, 9, 10, 11, 12, 13, 14, 15, 3, 4, 5, 6, 7]

/-- The line served next. -/
def next (pending : Nat → Bool) : Option Nat := priority.find? pending

namespace Pair

variable {b b' : Byte} {p : Pair}

/-- Both controllers are open and wired, and line 2 is the other controller's only. -/
structure Open (b b' : Byte) (p : Pair) : Prop where
  master : p.master.Open b 0x04
  slave : p.slave.Open b' 0x02
  wire : p.master.requested.getLsbD 2 = false

/-- The end of an interrupt of line `k`, at both controllers if it came through both. -/
def ended (k : Nat) (p : Pair) : Pair :=
  let slaveEnded := if 8 ≤ k then {p with slave := p.slave.ended} else p
  {slaveEnded with master := slaveEnded.master.ended}

/-- The lines of a controller in their order. -/
theorem lowest_eq (w : Byte) : lowest w =
    ([0, 1].find? w.getLsbD).or (([2].find? w.getLsbD).or ([3, 4, 5, 6, 7].find? w.getLsbD)) := by
  rw [← List.find?_append, ← List.find?_append]
  rfl

theorem find_slave (p : Pair) : [8, 9, 10, 11, 12, 13, 14, 15].find? p.pending =
    (lowest p.slave.requested).map (8 + ·) := by
  have hmap : [8, 9, 10, 11, 12, 13, 14, 15] = (List.range 8).map (8 + ·) := by decide
  rw [hmap, List.find?_map, lowest]
  congr 2
  funext i
  simp [pending]

theorem find_master (p : Pair) (ks : List Nat) (hks : ∀ k ∈ ks, k < 8) :
    ks.find? p.pending = ks.find? p.master.requested.getLsbD :=
  List.find?_congr fun k hk => if_pos (hks k hk)

/-- The second controller's lines come in the place of line 2. -/
theorem next_eq (p : Pair) : next p.pending =
    ([0, 1].find? p.master.requested.getLsbD).or (((lowest p.slave.requested).map (8 + ·)).or
      ([3, 4, 5, 6, 7].find? p.master.requested.getLsbD)) := by
  rw [← find_slave, ← find_master p [0, 1] (by decide), ← find_master p [3, 4, 5, 6, 7] (by decide),
    ← List.find?_append, ← List.find?_append]
  rfl

/-- The number of line `k`. -/
def number (b b' : Byte) (k : Nat) : Byte := if k < 8 then b + BitVec.ofNat 8 k else b' + BitVec.ofNat 8 (k - 8)

/-- Line `k` taken, at both controllers if it comes through both. -/
def serve (k : Nat) (p : Pair) : Pair :=
  if k < 8 then {p with master := p.master.serve k}
  else {master := p.master.serve 2, slave := p.slave.serve (k - 8)}

theorem lowest_some {w : Byte} {i : Nat} (h : lowest w = some i) : i < 8 ∧ w.getLsbD i = true :=
  ⟨List.mem_range.mp (List.mem_of_find?_eq_some h), List.find?_some h⟩

theorem Open.wired (h : Open b b' p) : p.wired.Open b 0x04 := by
  obtain ⟨hmaster, -, -⟩ := h
  rw [Pair.wired]
  split
  · exact ⟨hmaster.masked, hmaster.inService, hmaster.base, hmaster.cascade, hmaster.mode, hmaster.stage⟩
  · exact hmaster

/-- The processor gets the line that is first in order, by its number. -/
theorem Open.ack (h : Open b b' p) : p.ack = (next p.pending).map fun k => (number b b' k, p.serve k) := by
  have hslave := h.slave.request
  -- a line of the first controller other than the second one's
  have hmaster : ∀ i, i < 8 → i ≠ 2 →
      (if i = 2 ∧ p.master.cascade.getLsbD 2 ∧ p.slave.cascade = 2 then
        match p.slave.request with
        | some j => (p.slave.base + BitVec.ofNat 8 j, {master := p.master.serve 2, slave := p.slave.serve j})
        | none => (p.slave.base + 7, {p with master := p.master.serve 2})
      else (p.master.base + BitVec.ofNat 8 i, {p with master := p.master.serve i})) = (number b b' i, p.serve i) := by
    intro i hi hne
    rw [if_neg fun hc => hne hc.1, number, if_pos hi, Pair.serve, if_pos hi, h.master.base]
  have hwire : [2].find? p.master.requested.getLsbD = none := List.find?_eq_none.mpr (by simpa using h.wire)
  rw [Pair.ack, h.wired.request, next_eq]
  cases hlowest : lowest p.slave.requested with
  | none =>
    have hrequested : p.wired.requested = p.master.requested := by
      rw [Pair.wired, hslave, hlowest]
      rfl
    rw [hrequested, Option.map_none, ← hwire, ← lowest_eq]
    refine Option.map_congr fun i hi => ?_
    obtain ⟨hlt, hset⟩ := lowest_some hi
    refine hmaster i hlt fun heq => ?_
    rw [heq, h.wire] at hset
    cases hset
  | some j =>
    have hrequested : p.wired.requested = p.master.requested ||| bit 2 := by
      rw [Pair.wired, hslave, hlowest]
      rfl
    have hfront : [0, 1].find? (p.master.requested ||| bit 2).getLsbD = [0, 1].find? p.master.requested.getLsbD :=
      List.find?_congr (by simp [bit])
    have htwo : [2].find? (p.master.requested ||| bit 2).getLsbD = some 2 := by simp [bit]
    rw [hrequested, lowest_eq, hfront, htwo]
    cases hfind : [0, 1].find? p.master.requested.getLsbD with
    | some i =>
      have hmem := List.mem_of_find?_eq_some hfind
      refine congrArg some (hmaster i ?_ ?_) <;> rcases List.mem_pair.mp hmem with rfl | rfl <;> decide
    | none =>
      have hcascade : p.master.cascade.getLsbD 2 = true := by
        rw [h.master.cascade]
        decide
      simp [hcascade, h.slave.cascade, hslave, hlowest, number, Pair.serve, h.slave.base]

theorem getLsbD_clear (w : Byte) {j k : Nat} (hj : j < 8) (hk : k < 8) :
    (w &&& ~~~bit k).getLsbD j = (w.getLsbD j && decide (j ≠ k)) := by
  have hbit : ∀ j < 8, ∀ k < 8, (~~~bit k).getLsbD j = decide (j ≠ k) := by decide
  rw [BitVec.getLsbD_and, hbit j hj k hk]

/-- A line that was taken and has ended is the only one that is not as before. -/
theorem Open.serve_ended (h : Open b b' p) {k : Nat} (hk : k < 16) :
    ((p.serve k).ended k).Open b b' ∧
      ∀ j < 16, ((p.serve k).ended k).pending j = (p.pending j && decide (j ≠ k)) := by
  by_cases hfirst : k < 8
  · obtain ⟨hopen, hrequested⟩ := h.master.serve_ended hfirst
    have heq : (p.serve k).ended k = {p with master := (p.master.serve k).ended} := by
      rw [Pair.serve, if_pos hfirst, ended, if_neg (by omega)]
    rw [heq]
    refine ⟨⟨hopen, h.slave, ?_⟩, fun j hj => ?_⟩
    · rw [hrequested, getLsbD_clear _ (by omega) hfirst, h.wire, Bool.false_and]
    · simp only [pending]
      split
      · rw [hrequested, getLsbD_clear _ ‹_› hfirst]
      · rw [decide_eq_true (by omega : j ≠ k), Bool.and_true]
  · obtain ⟨hopen, hrequested⟩ := h.master.serve_ended (i := 2) (by omega)
    obtain ⟨hopen', hrequested'⟩ := h.slave.serve_ended (i := k - 8) (by omega)
    have heq : (p.serve k).ended k = {master := (p.master.serve 2).ended, slave := (p.slave.serve (k - 8)).ended} := by
      rw [Pair.serve, if_neg hfirst, ended, if_pos (by omega)]
    rw [heq]
    refine ⟨⟨hopen, hopen', ?_⟩, fun j hj => ?_⟩
    · rw [hrequested, getLsbD_clear _ (by omega) (by omega), h.wire, Bool.false_and]
    · simp only [pending]
      split
      · rw [hrequested, getLsbD_clear _ ‹_› (by omega)]
        by_cases hj2 : j = 2
        · rw [hj2, h.wire, Bool.false_and, Bool.false_and]
        · rw [decide_eq_true hj2, decide_eq_true (by omega : j ≠ k)]
      · rw [hrequested', getLsbD_clear _ (by omega) (by omega)]
        congr 2
        exact propext (by omega)

/-- Raising a line asks for it and nothing else. -/
theorem Open.raise (h : Open b b' p) {k : Nat} (hk : k < 16) (hwire : k ≠ 2) :
    (p.raise k).Open b b' ∧ ∀ j < 16, (p.raise k).pending j = (p.pending j || decide (j = k)) := by
  have hbit : ∀ j < 8, ∀ k < 8, (bit k).getLsbD j = decide (j = k) := by decide
  obtain ⟨hmaster, hslave, hline⟩ := h
  by_cases hfirst : k < 8
  · rw [Pair.raise, if_pos hfirst]
    refine ⟨⟨⟨hmaster.masked, hmaster.inService, hmaster.base, hmaster.cascade, hmaster.mode, hmaster.stage⟩,
      hslave, ?_⟩, fun j hj => ?_⟩
    · rw [BitVec.getLsbD_or, hline, hbit 2 (by omega) k hfirst, Bool.false_or, decide_eq_false hwire.symm]
    · simp only [pending]
      split
      · rw [BitVec.getLsbD_or, hbit j ‹_› k hfirst]
      · rw [decide_eq_false (by omega : ¬j = k), Bool.or_false]
  · rw [Pair.raise, if_neg hfirst]
    refine ⟨⟨hmaster,
      ⟨hslave.masked, hslave.inService, hslave.base, hslave.cascade, hslave.mode, hslave.stage⟩, hline⟩, fun j hj => ?_⟩
    simp only [pending]
    split
    · rw [decide_eq_false (by omega : ¬j = k), Bool.or_false]
    · rw [BitVec.getLsbD_or, hbit (j - 8) (by omega) (k - 8) (by omega)]
      congr 2
      exact propext (by omega)

end Pair

/-! ### Set-up -/

/-- A controller but for what is requested. -/
def Chip.settings (c : Chip) : Chip := {c with requested := 0}

theorem Chip.settings_command (c : Chip) (v : Byte) : (c.command v).settings = (c.settings.command v).settings := by
  rw [command, command]
  split
  · rfl
  · split <;> rfl

theorem Chip.settings_data (c : Chip) (v : Byte) : (c.data v).settings = (c.settings.data v).settings := by
  have hstage : c.settings.stage = c.stage := rfl
  rw [data, data, hstage]
  cases c.stage <;> rfl

namespace Pair

def settings (p : Pair) : Pair := {master := p.master.settings, slave := p.slave.settings}

theorem settings_raise (p : Pair) (k : Nat) : (p.raise k).settings = p.settings := by
  rw [Pair.raise]
  split <;> rfl

/-- What a word does to the settings is up to the settings. -/
theorem settings_out (p : Pair) (port : BitVec 16) (v : Byte) :
    (p.out port v).settings = (p.settings.out port v).settings := by
  rw [Pair.out, Pair.out]
  split
  · exact congrArg (Pair.mk · _) (p.master.settings_command v)
  split
  · exact congrArg (Pair.mk · _) (p.master.settings_data v)
  split
  · exact congrArg (Pair.mk _) (p.slave.settings_command v)
  split
  · exact congrArg (Pair.mk _) (p.slave.settings_data v)
  · rfl

/-- A line not raised stays as it was, or is asked for no more. -/
theorem wire_out {p : Pair} (h : p.master.requested.getLsbD 2 = false) (port : BitVec 16) (v : Byte) :
    (p.out port v).master.requested.getLsbD 2 = false := by
  rw [Pair.out]
  split
  · simp only [Chip.command]
    split
    · exact (by decide : (0 : Byte).getLsbD 2 = false)
    · split <;> exact h
  split
  · simp only [Chip.data]
    split <;> exact h
  split
  · exact h
  split <;> exact h

theorem wire_raise {p : Pair} (h : p.master.requested.getLsbD 2 = false) {k : Nat} (hk : k ≠ 2) :
    (p.raise k).master.requested.getLsbD 2 = false := by
  have hbit : ∀ k < 8, k ≠ 2 → (bit k).getLsbD 2 = false := by decide
  rw [Pair.raise]
  split
  · rw [BitVec.getLsbD_or, h, hbit k ‹_› hk, Bool.or_false]
  · exact h

end Pair

end UntitledOS.Lib.Pic
