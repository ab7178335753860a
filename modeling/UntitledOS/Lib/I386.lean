import Mathlib

/-! The 32-bit machine, as interrupt stubs use it.

Instructions act on the registers and on memory through the stack pointer, a word of
four bytes at a time; the words a stub touches are those below the stack pointer it
starts from, and memory is kept by the addresses of words. A function that is called is
what it does from its entry to its return (`calls`).

`Pushed base mem depth words c` says where the stack has got to: from `base` on the
words `words` were pushed, the last one first, and memory is `mem` but for the `depth`
words below `base`. Pushing and popping are then steps on lists. -/
namespace UntitledOS.Lib.I386

abbrev Word := BitVec 32

inductive Reg where
  | eax | ecx | edx | ebx | esp | ebp | esi | edi
deriving DecidableEq

inductive Seg where
  | ds | es | fs | gs
deriving DecidableEq

structure Cpu where
  reg : Reg → Word
  seg : Seg → BitVec 16
  cs : BitVec 16
  ss : BitVec 16
  eip : Word
  eflags : Word
  mem : Word → Word

namespace Cpu

def setReg (r : Reg) (x : Word) (c : Cpu) : Cpu := {c with reg := Function.update c.reg r x}

def setSeg (s : Seg) (x : BitVec 16) (c : Cpu) : Cpu := {c with seg := Function.update c.seg s x}

def push (x : Word) (c : Cpu) : Cpu :=
  {c with reg := Function.update c.reg .esp (c.reg .esp - 4), mem := Function.update c.mem (c.reg .esp - 4) x}

/-- The word on top of the stack. -/
def top (c : Cpu) : Word := c.mem (c.reg .esp)

def drop (c : Cpu) : Cpu := c.setReg .esp (c.reg .esp + 4)

/-- Registers pushed one after the other. -/
def pushRegs (c₀ : Cpu) (rs : List Reg) (c : Cpu) : Cpu := rs.foldl (fun c r => c.push (c₀.reg r)) c

/-- A register popped as `popa` does it: the stack pointer's word goes nowhere. -/
def restore (r : Reg) (c : Cpu) : Cpu := if r = .esp then c.drop else c.drop.setReg r c.top

def popRegs (rs : List Reg) (c : Cpu) : Cpu := rs.foldl (fun c r => c.restore r) c

end Cpu

inductive Instr where
  | cli
  | pushByte (b : BitVec 8)
  | pushReg (r : Reg)
  | popReg (r : Reg)
  | pushSeg (s : Seg)
  | popSeg (s : Seg)
  | pusha
  | popa
  | movLow (r : Reg) (x : BitVec 16)
  | movSeg (s : Seg) (r : Reg)
  | movReg (r from_ : Reg)
  | movImm (r : Reg) (x : Word)
  | call (r : Reg)
  | addByte (r : Reg) (x : BitVec 8)
  | iret

/-- The order of `pusha`; `popa` pops in the opposite order. -/
def allRegs : List Reg := [.eax, .ecx, .edx, .ebx, .esp, .ebp, .esi, .edi]

/-- The privilege level of a code segment. -/
def level (cs : BitVec 16) : BitVec 16 := cs &&& 3

/-- The return from an interrupt. A return to another level takes the stack along. -/
def iret (c : Cpu) : Cpu :=
  let eip := c.top
  let c := c.drop
  let cs := c.top.setWidth 16
  let c := c.drop
  let eflags := c.top
  let c := c.drop
  let returned := {c with eip := eip, cs := cs, eflags := eflags}
  if level cs = level c.cs then returned
  else
    let esp := c.top
    let ss := c.drop.top.setWidth 16
    {returned.setReg .esp esp with ss := ss}

def exec (calls : Word → Cpu → Cpu) : Instr → Cpu → Cpu
  | .cli, c => {c with eflags := c.eflags &&& ~~~0x200}
  | .pushByte b, c => c.push (b.signExtend 32)
  | .pushReg r, c => c.push (c.reg r)
  | .popReg r, c => c.drop.setReg r c.top
  | .pushSeg s, c => c.push ((c.seg s).setWidth 32)
  | .popSeg s, c => c.drop.setSeg s (c.top.setWidth 16)
  | .pusha, c => Cpu.pushRegs c allRegs c
  | .popa, c => c.popRegs allRegs.reverse
  | .movLow r x, c => c.setReg r (c.reg r &&& 0xFFFF0000 ||| x.setWidth 32)
  | .movSeg s r, c => c.setSeg s ((c.reg r).setWidth 16)
  | .movReg r from_, c => c.setReg r (c.reg from_)
  | .movImm r x, c => c.setReg r x
  | .call r, c => calls (c.reg r) (c.push c.eip)
  | .addByte r x, c => c.setReg r (c.reg r + x.signExtend 32)
  | .iret, c => iret c

def run (calls : Word → Cpu → Cpu) (is : List Instr) (c : Cpu) : Cpu := is.foldl (fun c i => exec calls i c) c

theorem run_append (calls : Word → Cpu → Cpu) (is js : List Instr) (c : Cpu) :
    run calls (is ++ js) c = run calls js (run calls is c) := List.foldl_append ..

/-- Where the stack goes on a change of level. -/
structure Tss where
  esp0 : Word
  ss0 : BitVec 16

/-- A change of level goes to the other stack and says where the first one was. -/
def switch (tss : Tss) (selector : BitVec 16) (c : Cpu) : Cpu :=
  if level c.cs = level selector then c
  else (({c with ss := tss.ss0}.setReg .esp tss.esp0).push (c.ss.setWidth 32)).push (c.reg .esp)

/-- What the processor does before the first instruction of an interrupt's code, at the
lowest level and with interrupts off from then on. -/
def enter (tss : Tss) (selector : BitVec 16) (offset : Word) (errorCode : Option Word) (c : Cpu) : Cpu :=
  let framed := (((switch tss selector c).push c.eflags).push (c.cs.setWidth 32)).push c.eip
  let coded := errorCode.elim framed framed.push
  {coded with cs := selector, eip := offset, eflags := c.eflags &&& ~~~0x34300}

/-! ### The stack -/

/-- The `i`th word below `base`. -/
def slot (base : Word) (i : Nat) : Word := base - BitVec.ofNat 32 (4 * i)

theorem slot_succ (base : Word) (i : Nat) : slot base (i + 1) = slot base i - 4 := by
  rw [slot, slot, BitVec.sub_sub, Nat.mul_succ, BitVec.ofNat_add]
  rfl

theorem slot_pred (base : Word) (i : Nat) : slot base (i + 1) + 4 = slot base i := by
  rw [slot_succ, BitVec.sub_add_cancel]

theorem slot_inj {base : Word} {i j : Nat} (hi : i < 2 ^ 30) (hj : j < 2 ^ 30) (h : slot base i = slot base j) :
    i = j := by
  have h := congrArg BitVec.toNat (sub_right_inj.mp h)
  rw [BitVec.toNat_ofNat, BitVec.toNat_ofNat] at h
  omega

/-- The words below `base`, the last one first. -/
def Holds (base : Word) (mem : Word → Word) : List Word → Prop
  | [] => True
  | w :: ws => mem (slot base (ws.length + 1)) = w ∧ Holds base mem ws

theorem Holds.congr {base : Word} {mem mem' : Word → Word} {ws : List Word} (h : Holds base mem ws)
    (hsame : ∀ i, 0 < i → i ≤ ws.length → mem' (slot base i) = mem (slot base i)) : Holds base mem' ws := by
  induction ws with
  | nil => trivial
  | cons w ws ih =>
    refine ⟨?_, ih h.2 fun i hpos hi => hsame i hpos (by rw [List.length_cons]; omega)⟩
    rw [hsame _ (Nat.succ_pos _) (by rw [List.length_cons]), h.1]

/-- The words `words` are on the stack, above `base` and elsewhere memory is `mem`. -/
structure Pushed (base : Word) (mem : Word → Word) (depth : Nat) (words : List Word) (c : Cpu) : Prop where
  esp : c.reg .esp = slot base words.length
  holds : Holds base c.mem words
  rest : ∀ a, (∀ i, 0 < i → i ≤ depth → a ≠ slot base i) → c.mem a = mem a

namespace Pushed

variable {base : Word} {mem : Word → Word} {depth : Nat} {ws : List Word} {c : Cpu} {x : Word}

/-- The registers but for the stack pointer, and what is not memory, have no part in it. -/
theorem congr (h : Pushed base mem depth ws c) {c' : Cpu} (hesp : c'.reg .esp = c.reg .esp) (hmem : c'.mem = c.mem) :
    Pushed base mem depth ws c' :=
  ⟨hesp.trans h.esp, hmem ▸ h.holds, hmem ▸ h.rest⟩

theorem push (h : Pushed base mem depth ws c) (hroom : ws.length < depth) (hdepth : depth < 2 ^ 30) :
    Pushed base mem depth (x :: ws) (c.push x) := by
  have hslot : c.reg .esp - 4 = slot base (ws.length + 1) := by rw [h.esp, slot_succ]
  refine ⟨?_, ⟨?_, h.holds.congr fun i hpos hi => ?_⟩, fun a ha => ?_⟩
  · simp only [Cpu.push, Function.update_self, hslot, List.length_cons]
  · simp only [Cpu.push, hslot, Function.update_self]
  · have hne : slot base i ≠ slot base (ws.length + 1) := fun he => by
      have := slot_inj (by omega) (by omega) he
      omega
    simp only [Cpu.push, hslot, Function.update_of_ne hne]
  · have hne : a ≠ slot base (ws.length + 1) := ha _ (Nat.succ_pos _) (by omega)
    simp only [Cpu.push, hslot, Function.update_of_ne hne]
    exact h.rest a ha

theorem top (h : Pushed base mem depth (x :: ws) c) : c.top = x := by
  rw [Cpu.top, h.esp]
  exact h.holds.1

theorem drop (h : Pushed base mem depth (x :: ws) c) : Pushed base mem depth ws c.drop := by
  refine ⟨?_, h.holds.2, h.rest⟩
  simp only [Cpu.drop, Cpu.setReg, Function.update_self, h.esp, List.length_cons]
  exact slot_pred base _

/-- Words that are on the stack stay there while other words are written. -/
theorem keep (h : Pushed base mem depth ws c) {c' : Cpu} (hesp : c'.reg .esp = c.reg .esp)
    (hkeep : ∀ i, 0 < i → i ≤ ws.length → c'.mem (slot base i) = c.mem (slot base i)) :
    Pushed base c'.mem depth ws c' :=
  ⟨hesp.trans h.esp, h.holds.congr hkeep, fun _ _ => rfl⟩

theorem pushRegs (h : Pushed base mem depth ws c) (c₀ : Cpu) (rs : List Reg) (hroom : ws.length + rs.length ≤ depth)
    (hdepth : depth < 2 ^ 30) : Pushed base mem depth ((rs.map c₀.reg).reverse ++ ws) (Cpu.pushRegs c₀ rs c) := by
  induction rs generalizing c ws with
  | nil => exact h
  | cons r rs ih =>
    rw [List.length_cons] at hroom
    rw [List.map_cons, List.reverse_cons, List.append_assoc]
    exact ih (h.push (by omega) hdepth) (by simp only [List.length_append, List.length_singleton]; omega)

theorem restore (h : Pushed base mem depth (x :: ws) c) (r : Reg) : Pushed base mem depth ws (c.restore r) := by
  refine h.drop.congr ?_ ?_ <;> rw [Cpu.restore] <;> split
  · rfl
  · rename_i hne
    simp only [Cpu.setReg, Function.update_of_ne (Ne.symm hne)]
  · rfl
  · rfl

theorem popReg (h : Pushed base mem depth (x :: ws) c) (calls : Word → Cpu → Cpu) {r : Reg} (hr : r ≠ .esp) :
    Pushed base mem depth ws (exec calls (.popReg r) c) :=
  h.drop.congr (by simp only [exec, Cpu.setReg, Function.update_of_ne hr.symm]) rfl

theorem popSeg (h : Pushed base mem depth (x :: ws) c) (calls : Word → Cpu → Cpu) (s : Seg) :
    Pushed base mem depth ws (exec calls (.popSeg s) c) :=
  h.drop.congr rfl rfl

theorem popSeg_seg (h : Pushed base mem depth (x :: ws) c) (calls : Word → Cpu → Cpu) (s : Seg) :
    (exec calls (.popSeg s) c).seg = Function.update c.seg s (x.setWidth 16) := by
  rw [← h.top]
  rfl

theorem popRegs {v : Reg → Word} {rs : List Reg} (h : Pushed base mem depth (rs.map v ++ ws) c) :
    Pushed base mem depth ws (c.popRegs rs) := by
  induction rs generalizing c with
  | nil => exact h
  | cons r rs ih => exact ih (h.restore r)

end Pushed

namespace Cpu

variable {base : Word} {mem : Word → Word} {depth : Nat} {ws : List Word} {c : Cpu}

theorem restore_eq (c : Cpu) (r : Reg) : ∃ reg, c.restore r = {c with reg := reg} := by
  rw [restore]
  split <;> exact ⟨_, rfl⟩

theorem popRegs_eq (c : Cpu) (rs : List Reg) : ∃ reg, c.popRegs rs = {c with reg := reg} := by
  induction rs generalizing c with
  | nil => exact ⟨c.reg, rfl⟩
  | cons r rs ih =>
    obtain ⟨reg, h⟩ := ih (c.restore r)
    obtain ⟨_, hr⟩ := restore_eq c r
    exact ⟨reg, h.trans (by rw [hr])⟩

theorem restore_self {r : Reg} (c : Cpu) (hr : r ≠ .esp) : (c.restore r).reg r = c.top := by
  rw [restore, if_neg hr]
  exact Function.update_self ..

theorem restore_ne {r r' : Reg} (c : Cpu) (hne : r ≠ r') (hr : r ≠ .esp) : (c.restore r').reg r = c.reg r := by
  rw [restore]
  split <;> simp only [drop, setReg, Function.update_of_ne hne, Function.update_of_ne hr]

/-- A register that is popped has the word that was on the stack for it, another one what it had. -/
theorem popRegs_reg {v : Reg → Word} {rs : List Reg} (h : Pushed base mem depth (rs.map v ++ ws) c) {r : Reg}
    (hr : r ≠ .esp) : (c.popRegs rs).reg r = if r ∈ rs then v r else c.reg r := by
  induction rs generalizing c with
  | nil => rfl
  | cons r' rs ih =>
    refine (ih (h.restore r')).trans ?_
    by_cases hmem : r ∈ rs
    · rw [if_pos hmem, if_pos (List.mem_cons_of_mem _ hmem)]
    · rw [if_neg hmem]
      by_cases heq : r = r'
      · subst heq
        rw [if_pos (List.mem_cons_self ..), restore_self _ hr, h.top]
      · rw [restore_ne _ heq hr, if_neg (by rw [List.mem_cons, not_or]; exact ⟨heq, hmem⟩)]

end Cpu

/-! ### Entries and returns -/

section

variable (tss : Tss) (selector : BitVec 16) (offset : Word) (errorCode : Option Word) (c : Cpu) {depth : Nat}

/-- The top of the stack an interrupt's code starts with. -/
def enterBase (tss : Tss) (selector : BitVec 16) (c : Cpu) : Word :=
  if level c.cs = level selector then c.reg .esp else tss.esp0

/-- The words of a change of level. -/
def enterTail (selector : BitVec 16) (c : Cpu) : List Word :=
  if level c.cs = level selector then [] else [c.reg .esp, c.ss.setWidth 32]

def enterWords (selector : BitVec 16) (errorCode : Option Word) (c : Cpu) : List Word :=
  errorCode.toList ++ [c.eip, c.cs.setWidth 32, c.eflags] ++ enterTail selector c

theorem length_enterTail : (enterTail selector c).length ≤ 2 := by
  rw [enterTail]
  split <;> simp

theorem switch_pushed (hroom : 2 ≤ depth) (hdepth : depth < 2 ^ 30) :
    Pushed (enterBase tss selector c) c.mem depth (enterTail selector c) (switch tss selector c) := by
  rw [enterBase, enterTail, switch]
  split
  · exact ⟨by simp [slot], trivial, fun _ _ => rfl⟩
  · have hstart : Pushed tss.esp0 c.mem depth [] ({c with ss := tss.ss0}.setReg .esp tss.esp0) :=
      ⟨by simp [slot, Cpu.setReg], trivial, fun _ _ => rfl⟩
    exact (hstart.push (by simp only [List.length_nil]; omega) hdepth).push
      (by simp only [List.length_cons, List.length_nil]; omega) hdepth

theorem enter_pushed (hroom : 6 ≤ depth) (hdepth : depth < 2 ^ 30) :
    Pushed (enterBase tss selector c) c.mem depth (enterWords selector errorCode c)
      (enter tss selector offset errorCode c) := by
  have hlen := length_enterTail selector c
  have hframed : Pushed (enterBase tss selector c) c.mem depth
      (c.eip :: c.cs.setWidth 32 :: c.eflags :: enterTail selector c)
      ((((switch tss selector c).push c.eflags).push (c.cs.setWidth 32)).push c.eip) :=
    (((switch_pushed tss selector c (by omega) hdepth).push (by omega) hdepth).push
      (by simp only [List.length_cons]; omega) hdepth).push
      (by simp only [List.length_cons]; omega) hdepth
  cases errorCode with
  | none => exact hframed.congr rfl rfl
  | some code => exact (hframed.push (by simp only [List.length_cons]; omega) hdepth).congr rfl rfl

theorem switch_eq :
    ∃ esp mem, switch tss selector c =
      {c with reg := Function.update c.reg .esp esp, mem := mem,
              ss := if level c.cs = level selector then c.ss else tss.ss0} := by
  rw [switch]
  split
  · exact ⟨c.reg .esp, c.mem, by rw [Function.update_eq_self]⟩
  · exact ⟨_, _, by simp only [Cpu.push, Cpu.setReg, Function.update_idem]; rfl⟩

/-- But for the stack, an interrupt's code starts with the interrupted registers. -/
theorem enter_eq :
    ∃ esp mem, enter tss selector offset errorCode c =
      {c with reg := Function.update c.reg .esp esp, mem := mem, cs := selector, eip := offset,
              ss := if level c.cs = level selector then c.ss else tss.ss0,
              eflags := c.eflags &&& ~~~0x34300} := by
  obtain ⟨esp, mem, h⟩ := switch_eq tss selector c
  cases errorCode with
  | none => exact ⟨_, _, by simp only [enter, Option.elim, h, Cpu.push, Function.update_idem]; rfl⟩
  | some code => exact ⟨_, _, by simp only [enter, Option.elim, h, Cpu.push, Function.update_idem]; rfl⟩

end

section

variable {base : Word} {mem : Word → Word} {depth : Nat} {eip cs eflags esp ss : Word} {ws : List Word} {c : Cpu}

theorem iret_same (h : Pushed base mem depth (eip :: cs :: eflags :: ws) c)
    (hlevel : level (cs.setWidth 16) = level c.cs) :
    iret c = {c with reg := Function.update c.reg .esp (slot base ws.length), cs := cs.setWidth 16, eip := eip,
                     eflags := eflags} := by
  have hesp := h.drop.drop.drop.esp
  simp only [iret, h.top, h.drop.top, h.drop.drop.top]
  refine (if_pos hlevel).trans ?_
  rw [← hesp]
  simp only [Cpu.drop, Cpu.setReg, Function.update_idem, Function.update_self]

theorem iret_outer (h : Pushed base mem depth (eip :: cs :: eflags :: esp :: ss :: ws) c)
    (hlevel : level (cs.setWidth 16) ≠ level c.cs) :
    iret c = {c with reg := Function.update c.reg .esp esp, cs := cs.setWidth 16, ss := ss.setWidth 16, eip := eip,
                     eflags := eflags} := by
  have htail := h.drop.drop.drop
  simp only [iret, h.top, h.drop.top, h.drop.drop.top, htail.top, htail.drop.top]
  refine (if_neg hlevel).trans ?_
  simp only [Cpu.drop, Cpu.setReg, Function.update_idem]

end

/-! ### Reading upwards -/

/-- The words of memory from `p` on. -/
def Words (mem : Word → Word) (p : Word) : List Word → Prop
  | [] => True
  | w :: ws => mem p = w ∧ Words mem (p + 4) ws

theorem Words.append {mem : Word → Word} {p : Word} {ws vs : List Word} (h : Words mem p ws)
    (hv : Words mem (p + BitVec.ofNat 32 (4 * ws.length)) vs) : Words mem p (ws ++ vs) := by
  induction ws generalizing p with
  | nil => simpa using hv
  | cons w ws ih =>
    refine ⟨h.1, ih h.2 ?_⟩
    rw [BitVec.add_assoc]
    rwa [List.length_cons, Nat.mul_succ, Nat.add_comm, BitVec.ofNat_add] at hv

theorem Words.left {mem : Word → Word} {p : Word} {ws vs : List Word} (h : Words mem p (ws ++ vs)) :
    Words mem p ws := by
  induction ws generalizing p with
  | nil => trivial
  | cons w ws ih => exact ⟨h.1, ih h.2⟩

theorem Holds.words {base : Word} {mem : Word → Word} {ws : List Word} (h : Holds base mem ws) :
    Words mem (slot base ws.length) ws := by
  induction ws with
  | nil => trivial
  | cons w ws ih =>
    refine ⟨h.1, ?_⟩
    rw [List.length_cons, slot_pred]
    exact ih h.2

theorem slot_add (base : Word) (i j : Nat) : slot base (i + j) + BitVec.ofNat 32 (4 * j) = slot base i := by
  rw [slot, slot, Nat.mul_add, BitVec.ofNat_add, ← BitVec.sub_sub, BitVec.sub_add_cancel]

/-- A word above the stack is not one of it. -/
theorem ne_slot (base : Word) {i j : Nat} (hi : 0 < i) (hsum : i + j < 2 ^ 30) :
    base + BitVec.ofNat 32 (4 * j) ≠ slot base i := by
  intro h
  have h := congrArg (fun a => (a - base).toNat) h
  simp only [slot, BitVec.toNat_sub, BitVec.toNat_add, BitVec.toNat_ofNat] at h
  omega

end UntitledOS.Lib.I386
