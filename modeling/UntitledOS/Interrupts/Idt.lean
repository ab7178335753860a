import UntitledOS.Interrupts.Stubs
import UntitledOS.Types

/-! The interrupt descriptor table, `CPU.cpp`, and interrupts delivered through it. -/
namespace UntitledOS.Interrupts

open UntitledOS.Lib.I386

def IDT_ENTRIES : Nat := 256

def KERNEL_CS : u16 := 0x08

def low_16 (address : u32) : u16 := (address &&& 0xFFFF).setWidth 16

def high_16 (address : u32) : u16 := ((address &&& 0xFFFF0000) >>> 16).setWidth 16

structure idtGate_t where
  lowOffset : u16
  sel : u16
  zero : u8
  flags : u8
  highOffset : u16

abbrev Idt := Nat → idtGate_t

/-- The gate `setIdtGate` writes. -/
def idtGate_t.to (handler : u32) : idtGate_t :=
  {lowOffset := low_16 handler, sel := KERNEL_CS, zero := 0, flags := 0x8E, highOffset := high_16 handler}

def setIdtGate (idt : Idt) (n : Nat) (handler : u32) : Idt := Function.update idt n (.to handler)

/-- The linked kernel: where the symbols are, the code there, and what a call does. -/
structure Image where
  isrAt : Nat → Word
  irqAt : Nat → Word
  isrHandler : Word
  irqHandler : Word
  code : Word → List Instr
  calls : Word → Cpu → Cpu
  code_isr : ∀ n < 32, code (isrAt n) = isr isrHandler n
  code_irq : ∀ k < 16, code (irqAt k) = irq irqHandler k

/-- Gates from `first` on, one for each of `count` handlers. -/
def setIdtGates (first : Nat) (handlers : Nat → Word) (count : Nat) (idt : Idt) : Idt :=
  (List.range count).foldl (fun idt k => setIdtGate idt (first + k) (handlers k)) idt

/-- The gates of `isrInstall`. -/
def isrInstall (image : Image) (idt : Idt) : Idt :=
  setIdtGates 32 image.irqAt 16 (setIdtGates 0 image.isrAt 32 idt)

/-- The address in a gate. -/
def idtGate_t.offset (g : idtGate_t) : Word := g.highOffset.setWidth 32 <<< 16 ||| g.lowOffset.setWidth 32

/-- The exceptions for which the processor pushes an error code. -/
def processorCodes : List Nat := [8, 10, 11, 12, 13, 14, 17]

/-- An interrupt as the processor takes it, through a gate that is present and for a 32-bit
interrupt; there is none through others. -/
def deliver (image : Image) (tss : Tss) (idt : Idt) (n : Nat) (errorCode : Option Word) (c : Cpu) : Option Cpu :=
  let gate := idt n
  if n < IDT_ENTRIES ∧ gate.flags &&& 0x9F = 0x8E then
    some (run image.calls (image.code gate.offset) (enter tss gate.sel gate.offset errorCode c))
  else none

/-! ### The table -/

theorem offset_to (handler : Word) : (idtGate_t.to handler).offset = handler := by
  have hlow : (0xFFFF : Word) = (BitVec.allOnes 16).setWidth 32 := by decide
  have hhigh : (0xFFFF0000 : Word) = (BitVec.allOnes 16).setWidth 32 <<< 16 := by decide
  rw [idtGate_t.offset, idtGate_t.to, low_16, high_16, hlow, hhigh]
  apply BitVec.eq_of_getLsbD_eq
  intro i hi
  simp only [BitVec.getLsbD_or, BitVec.getLsbD_shiftLeft, BitVec.getLsbD_setWidth, BitVec.getLsbD_and,
    BitVec.getLsbD_ushiftRight, BitVec.getLsbD_allOnes]
  by_cases h : i < 16
  · simp [h, hi]
  · have hsub : i - 16 < 16 := by omega
    have hwide : i - 16 < 32 := by omega
    simp [h, hi, hsub, hwide, show 16 + (i - 16) = i by omega]

theorem setIdtGates_apply (first count n : Nat) (handlers : Nat → Word) (idt : Idt) :
    setIdtGates first handlers count idt n =
      if first ≤ n ∧ n < first + count then .to (handlers (n - first)) else idt n := by
  induction count with
  | zero => exact (if_neg (by omega)).symm
  | succ count ih =>
    have hstep : setIdtGates first handlers (count + 1) idt =
        setIdtGate (setIdtGates first handlers count idt) (first + count) (handlers count) := by
      rw [setIdtGates, List.range_succ, List.foldl_append]
      rfl
    rw [hstep, setIdtGate]
    by_cases hn : n = first + count
    · rw [hn, Function.update_self, if_pos (by omega), Nat.add_sub_cancel_left]
    · rw [Function.update_of_ne hn, ih]
      exact if_congr (by omega) rfl rfl

/-- What the code of an interrupt pushes, where it is, and what its handler is. -/
def entryOf (n : Nat) : List (BitVec 8) := if n < 32 then isrBytes n else irqBytes (n - 32)

def Image.addressOf (image : Image) (n : Nat) : Word := if n < 32 then image.isrAt n else image.irqAt (n - 32)

def Image.handlerOf (image : Image) (n : Nat) : Word := if n < 32 then image.isrHandler else image.irqHandler

/-- Every interrupt of the table gets to its own code, whatever was in the table before. -/
theorem deliver_installed (image : Image) (tss : Tss) (idt : Idt) {n : Nat} (hn : n < 48) (errorCode : Option Word)
    (c : Cpu) : deliver image tss (isrInstall image idt) n errorCode c =
      some (run image.calls (stub (entryOf n) (image.handlerOf n))
        (enter tss KERNEL_CS (image.addressOf n) errorCode c)) := by
  have hgate : ∀ handler, isrInstall image idt n = .to handler →
      deliver image tss (isrInstall image idt) n errorCode c =
      some (run image.calls (image.code handler) (enter tss KERNEL_CS handler errorCode c)) := by
    intro handler h
    have hflags : (idtGate_t.to handler).flags &&& 0x9F = 0x8E := by
      show (0x8E : u8) &&& 0x9F = 0x8E
      decide
    rw [deliver, h, offset_to]
    exact if_pos ⟨Nat.lt_trans hn (by decide), hflags⟩
  rw [entryOf, Image.handlerOf, Image.addressOf]
  by_cases hexception : n < 32
  · rw [if_pos hexception, if_pos hexception, if_pos hexception, hgate (image.isrAt n), image.code_isr n hexception]
    · rfl
    · rw [isrInstall, setIdtGates_apply, if_neg (by omega), setIdtGates_apply, if_pos (by omega), Nat.sub_zero]
  · rw [if_neg hexception, if_neg hexception, if_neg hexception, hgate (image.irqAt (n - 32)),
      image.code_irq (n - 32) (by omega)]
    · rfl
    · rw [isrInstall, setIdtGates_apply, if_pos (by omega)]

/-! ### What a handler is given -/

/-- The words above the frame that count as `useresp` and `ss`: the interrupted program's
stack pointer and segment, or without a change of level whatever is on its stack. -/
def useresp (c : Cpu) : Word := if level c.cs = level KERNEL_CS then c.mem (c.reg .esp) else c.reg .esp

def userss (c : Cpu) : Word := if level c.cs = level KERNEL_CS then c.mem (c.reg .esp + 4) else c.ss.setWidth 32

/-- The words between the frame and the registers. -/
def codesOf (n : Nat) (errorCode : Option Word) : List Word :=
  ((entryOf n).map (·.signExtend 32)).reverse ++ errorCode.toList

/-- The `registers_t` of an interrupt. -/
def registersOf (tss : Tss) (c : Cpu) (int_no err_code : Word) : registers_t where
  gs := (c.seg .gs).setWidth 32
  fs := (c.seg .fs).setWidth 32
  es := (c.seg .es).setWidth 32
  ds := (c.seg .ds).setWidth 32
  edi := c.reg .edi
  esi := c.reg .esi
  ebp := c.reg .ebp
  esp := slot (enterBase tss KERNEL_CS c) ((enterTail KERNEL_CS c).length + 5)
  ebx := c.reg .ebx
  edx := c.reg .edx
  ecx := c.reg .ecx
  eax := c.reg .eax
  int_no := int_no
  err_code := err_code
  eip := c.eip
  cs := c.cs.setWidth 32
  eflags := c.eflags
  useresp := useresp c
  ss := userss c

/-- `p` points to a `registers_t`. -/
def PointsTo (mem : Word → Word) (p : Word) (r : registers_t) : Prop := Words mem p r.words

/-- The state the handler of an interrupt starts in. -/
def handled (image : Image) (tss : Tss) (n : Nat) (errorCode : Option Word) (c : Cpu) : Cpu :=
  called (image.handlerOf n) (entered tss KERNEL_CS (image.addressOf n) errorCode (entryOf n) c)

variable {image : Image} {tss : Tss} {n : Nat} {int_no err_code : Word} {errorCode : Option Word} {c : Cpu}

theorem enterTail_outer (h : level c.cs ≠ level KERNEL_CS) : enterTail KERNEL_CS c = [useresp c, userss c] := by
  rw [enterTail, useresp, userss, if_neg h, if_neg h, if_neg h]

theorem words_registersOf {e : Cpu} (hreg : ∀ y, y ≠ .esp → e.reg y = c.reg y) (hseg : e.seg = c.seg)
    (hesp : e.reg .esp = slot (enterBase tss KERNEL_CS c) ((enterTail KERNEL_CS c).length + 5)) :
    (registersOf tss c int_no err_code).words =
      savedWords e [int_no, err_code, c.eip, c.cs.setWidth 32, c.eflags, useresp c, userss c] := by
  simp [savedWords, registersOf, registers_t.words, allRegs, hreg, hseg, hesp]

theorem length_entryOf (n : Nat) : (entryOf n).length ≤ 2 := by
  rw [entryOf, isrBytes, irqBytes]
  split
  · split <;> simp
  · simp

variable (image tss c) in
/-- The stack of an interrupt, when its handler starts. -/
theorem handled_sees (hcodes : (codesOf n errorCode).length ≤ 3) : ∃ e,
    (∀ y, y ≠ .esp → e.reg y = c.reg y) ∧ e.seg = c.seg ∧
    e.reg .esp = slot (enterBase tss KERNEL_CS c) ((codesOf n errorCode ++ enterWords KERNEL_CS none c).length) ∧
    Sees (enterBase tss KERNEL_CS c) c.mem 22 (codesOf n errorCode ++ enterWords KERNEL_CS none c) e
      (handled image tss n errorCode c) := by
  have hpushed := entered_pushed c tss KERNEL_CS (image.addressOf n) errorCode (length_entryOf n)
  obtain ⟨esp, mem, eflags, heq⟩ := entered_eq c tss KERNEL_CS (image.addressOf n) errorCode (entryOf n)
  have hwords : ((entryOf n).map (·.signExtend 32)).reverse ++ enterWords KERNEL_CS errorCode c =
      codesOf n errorCode ++ enterWords KERNEL_CS none c := by
    simp [codesOf, enterWords]
  rw [hwords] at hpushed
  have hlen := length_enterTail KERNEL_CS c
  refine ⟨_, fun y hy => ?_, ?_, hpushed.esp, called_sees _ hpushed ?_ (by omega)⟩
  · rw [heq]
    exact Function.update_of_ne hy ..
  · rw [heq]
  · simp only [enterWords, Option.toList, List.length_append, List.length_cons, List.length_nil]
    omega

variable (image tss c) in
/-- From the argument on there are the registers, the words in between and the frame. -/
theorem handled_words (hcodes : (codesOf n errorCode).length ≤ 3) : ∃ e,
    (∀ y, y ≠ .esp → e.reg y = c.reg y) ∧ e.seg = c.seg ∧
    e.reg .esp = slot (enterBase tss KERNEL_CS c) ((enterTail KERNEL_CS c).length + 3 + (codesOf n errorCode).length) ∧
    Words (handled image tss n errorCode c).mem
      ((handled image tss n errorCode c).mem ((handled image tss n errorCode c).reg .esp + 4))
      (savedWords e (codesOf n errorCode ++ [c.eip, c.cs.setWidth 32, c.eflags, useresp c, userss c])) := by
  obtain ⟨e, hreg, hseg, hesp, hsees⟩ := handled_sees image tss c hcodes
  refine ⟨e, hreg, hseg, hesp.trans ?_, ?_⟩
  · simp only [enterWords, Option.toList, List.length_append, List.length_cons, List.length_nil]
    congr 1
    omega
  rw [hsees.argument]
  by_cases hlevel : level c.cs = level KERNEL_CS
  · have hwords := hsees.above (by omega)
    have htail : enterWords KERNEL_CS none c = [c.eip, c.cs.setWidth 32, c.eflags] := by
      rw [enterWords, enterTail, if_pos hlevel]
      rfl
    rw [htail, List.append_assoc] at hwords
    rw [htail, useresp, userss, if_pos hlevel, if_pos hlevel]
    rwa [enterBase, if_pos hlevel] at hwords ⊢
  · have hwords := hsees.words
    have htail : enterWords KERNEL_CS none c = [c.eip, c.cs.setWidth 32, c.eflags, useresp c, userss c] := by
      rw [enterWords, enterTail_outer hlevel]
      rfl
    rwa [htail] at hwords ⊢

/-- The handler of an interrupt is given the interrupted registers. -/
theorem handled_points (htwo : codesOf n errorCode = [int_no, err_code]) :
    PointsTo (handled image tss n errorCode c).mem
      ((handled image tss n errorCode c).mem ((handled image tss n errorCode c).reg .esp + 4))
      (registersOf tss c int_no err_code) := by
  obtain ⟨e, hreg, hseg, hesp, hwords⟩ := handled_words image tss c
    (by rw [htwo]; exact Nat.le_succ 2 : (codesOf n errorCode).length ≤ 3)
  rw [htwo] at hesp hwords
  rw [PointsTo, words_registersOf hreg hseg hesp]
  exact hwords

/-! ### Whole interrupts -/

/-- The error code a handler is given. -/
def codeOf (n : Nat) (errorCode : Option Word) : Word :=
  errorCode.getD (if n < 32 then 0 else BitVec.ofNat 32 (n - 32))

theorem codesOf_eq (hn : n < 48) (hcheck : n ≠ 17) (hcode : errorCode.isSome ↔ n ∈ processorCodes) :
    codesOf n errorCode = [BitVec.ofNat 32 n, codeOf n errorCode] := by
  have hbyte : ∀ m < 48, (BitVec.ofNat 8 m).signExtend 32 = BitVec.ofNat 32 m := by decide
  rw [codesOf, codeOf, entryOf, isrBytes, irqBytes]
  by_cases hexception : n < 32
  · by_cases hwith : n ∈ withErrorCode
    · obtain ⟨e, rfl⟩ := Option.isSome_iff_exists.mp (hcode.mpr (by
        simp only [withErrorCode, processorCodes, List.mem_cons, List.not_mem_nil, or_false] at hwith ⊢
        omega))
      rw [if_pos hexception, if_pos hwith]
      simp [hbyte n hn]
    · have hnone : errorCode = none := Option.not_isSome_iff_eq_none.mp fun h => hwith (by
        have hmem := hcode.mp h
        simp only [withErrorCode, processorCodes, List.mem_cons, List.not_mem_nil, or_false] at hmem ⊢
        omega)
      rw [hnone, if_pos hexception, if_neg hwith, if_pos hexception]
      simp [hbyte n hn]
  · have hnone : errorCode = none := Option.not_isSome_iff_eq_none.mp fun h => by
      have hmem := hcode.mp h
      simp only [processorCodes, List.mem_cons, List.not_mem_nil, or_false] at hmem
      omega
    rw [hnone, if_neg hexception, if_neg hexception]
    simp [hbyte (n - 32) (by omega), hbyte n hn, show 32 + (n - 32) = n by omega]

/-- Before the handler nothing was written but 22 words at the top of its stack. -/
theorem handled_rest (htwo : codesOf n errorCode = [int_no, err_code]) {a : Word}
    (ha : ∀ i, 0 < i → i ≤ 22 → a ≠ slot (enterBase tss KERNEL_CS c) i) :
    (handled image tss n errorCode c).mem a = c.mem a := by
  obtain ⟨e, -, -, -, hsees⟩ := handled_sees image tss c
    (by rw [htwo]; exact Nat.le_succ 2 : (codesOf n errorCode).length ≤ 3)
  exact hsees.rest a ha

/-- When the handler has returned nothing is left but what it did to memory. -/
theorem deliver_returns (idt : Idt) (hn : n < 48) (htwo : codesOf n errorCode = [int_no, err_code])
    (hreturns : Returns (image.calls (image.handlerOf n)) (handled image tss n errorCode c)) :
    deliver image tss (isrInstall image idt) n errorCode c =
      some {c with mem := (image.calls (image.handlerOf n) (handled image tss n errorCode c)).mem} :=
  (deliver_installed image tss idt hn errorCode c).trans (congrArg some (stub_run hreturns (length_entryOf n) htwo))

/-- Every interrupt but the alignment check reaches its handler with the registers as they
were, and when the handler has returned nothing is left of it but what the handler did to
memory; before the handler nothing was written but 22 words at the top of its stack. -/
theorem interrupt_transparent (image : Image) (tss : Tss) (idt : Idt) {n : Nat} (hn : n < 48) (hcheck : n ≠ 17)
    {errorCode : Option Word} (hcode : errorCode.isSome ↔ n ∈ processorCodes) (c : Cpu)
    (hreturns : Returns (image.calls (image.handlerOf n)) (handled image tss n errorCode c)) :
    let called := handled image tss n errorCode c
    PointsTo called.mem (called.mem (called.reg .esp + 4))
        (registersOf tss c (BitVec.ofNat 32 n) (codeOf n errorCode)) ∧
      (∀ a, (∀ i, 0 < i → i ≤ 22 → a ≠ slot (enterBase tss KERNEL_CS c) i) → called.mem a = c.mem a) ∧
      deliver image tss (isrInstall image idt) n errorCode c =
        some {c with mem := (image.calls (image.handlerOf n) called).mem} := by
  have htwo := codesOf_eq hn hcheck hcode
  exact ⟨handled_points htwo, fun a => handled_rest htwo, deliver_returns idt hn htwo hreturns⟩

/-- A kernel whose interrupts count in the word at 0x9000. -/
def countingImage : Image where
  isrAt n := BitVec.ofNat 32 n
  irqAt k := BitVec.ofNat 32 (32 + k)
  isrHandler := 0x1000
  irqHandler := 0x2000
  code address := if address.toNat < 32 then isr 0x1000 address.toNat else irq 0x2000 (address.toNat - 32)
  calls _ c := {c.drop with mem := Function.update c.mem 0x9000 (c.mem 0x9000 + 1)}
  code_isr n hn := by
    rw [BitVec.toNat_ofNat, Nat.mod_eq_of_lt (by omega), if_pos hn]
  code_irq k hk := by
    rw [BitVec.toNat_ofNat, Nat.mod_eq_of_lt (by omega), if_neg (by omega), Nat.add_sub_cancel_left]

theorem counting_returns {address : Word} {c : Cpu}
    (hapart : ∀ i, i < 20 → c.reg .esp + BitVec.ofNat 32 (4 * (i + 2)) ≠ 0x9000) :
    Returns (countingImage.calls address) c :=
  ⟨by simp [countingImage, Cpu.drop, Cpu.setReg], rfl, rfl, fun i hi => Function.update_of_ne (hapart i hi) ..⟩

/-- The lowest level, with the stack below 0x7000. -/
def someContext : Cpu :=
  ⟨fun r => if r = .esp then 0x7000 else 5, fun _ => 0x10, KERNEL_CS, 0x10, 0x400, 0x202, fun _ => 0⟩

theorem interrupt_transparent_timer :
    let called := handled countingImage ⟨0x8000, 0x10⟩ 32 none someContext
    PointsTo called.mem (called.mem (called.reg .esp + 4)) (registersOf ⟨0x8000, 0x10⟩ someContext 32 0) ∧
      (∀ a, (∀ i, 0 < i → i ≤ 22 → a ≠ slot 0x7000 i) → called.mem a = 0) ∧
      deliver countingImage ⟨0x8000, 0x10⟩ (isrInstall countingImage fun _ => .to 0) 32 none someContext =
        some {someContext with mem := Function.update called.mem 0x9000 (called.mem 0x9000 + 1)} :=
  @interrupt_transparent countingImage ⟨0x8000, 0x10⟩ (fun _ => .to 0) 32 (by decide) (by decide) none (by decide)
    someContext (counting_returns (by decide))

end UntitledOS.Interrupts
