import UntitledOS.Lib.I386

/-! The code every interrupt enters through, `interrupts.asm`.

A stub pushes the number of its interrupt, below an error code that the processor or the
stub itself has pushed; the common code saves the registers, calls the handler with the
address of what is on the stack by then, a `registers_t`, and undoes it all. -/
namespace UntitledOS.Interrupts

open UntitledOS.Lib.I386

/-- What is on the stack when a handler is called, lowest address first. -/
structure registers_t where
  gs : Word
  fs : Word
  es : Word
  ds : Word
  edi : Word
  esi : Word
  ebp : Word
  esp : Word
  ebx : Word
  edx : Word
  ecx : Word
  eax : Word
  int_no : Word
  err_code : Word
  eip : Word
  cs : Word
  eflags : Word
  useresp : Word
  ss : Word

def registers_t.words (r : registers_t) : List Word :=
  [r.gs, r.fs, r.es, r.ds, r.edi, r.esi, r.ebp, r.esp, r.ebx, r.edx, r.ecx, r.eax, r.int_no, r.err_code,
    r.eip, r.cs, r.eflags, r.useresp, r.ss]

def saveCode : List Instr :=
  [.pusha, .pushSeg .ds, .pushSeg .es, .pushSeg .fs, .pushSeg .gs,
    .movLow .eax 0x10, .movSeg .ds .eax, .movSeg .es .eax, .movSeg .fs .eax, .movSeg .gs .eax,
    .movReg .eax .esp, .pushReg .eax]

def restoreCode : List Instr :=
  [.popReg .eax, .popSeg .gs, .popSeg .fs, .popSeg .es, .popSeg .ds, .popa, .addByte .esp 8, .iret]

/-- `isr_common_stub` and `irq_common_stub`, which differ in the handler. -/
def common_stub (handler : Word) : List Instr :=
  saveCode ++ [.movImm .eax handler, .call .eax] ++ restoreCode

/-- The exceptions whose code counts on an error code that the processor pushes. -/
def withErrorCode : List Nat := [8, 10, 11, 12, 13, 14]

/-- The bytes `isr0` to `isr31` push. -/
def isrBytes (n : Nat) : List (BitVec 8) :=
  if n ∈ withErrorCode then [BitVec.ofNat 8 n] else [0, BitVec.ofNat 8 n]

/-- The bytes `irq0` to `irq15` push. -/
def irqBytes (k : Nat) : List (BitVec 8) := [BitVec.ofNat 8 k, BitVec.ofNat 8 (32 + k)]

def stub (bytes : List (BitVec 8)) (handler : Word) : List Instr :=
  .cli :: bytes.map .pushByte ++ common_stub handler

def isr (isrHandler : Word) (n : Nat) : List Instr := stub (isrBytes n) isrHandler

def irq (irqHandler : Word) (k : Nat) : List Instr := stub (irqBytes k) irqHandler

/-- The state a handler starts in. -/
def called (handler : Word) (c : Cpu) : Cpu :=
  let saved := (run (fun _ c => c) saveCode c).setReg .eax handler
  saved.push saved.eip

/-! ### Up to the call -/

variable {calls : Word → Cpu → Cpu} {base : Word} {mem : Word → Word} {depth : Nat} {ws : List Word} {c c₀ : Cpu}

/-- The words the common code saves, on top of others. -/
def savedWords (c : Cpu) (ws : List Word) : List Word :=
  (c.seg .gs).setWidth 32 :: (c.seg .fs).setWidth 32 :: (c.seg .es).setWidth 32 :: (c.seg .ds).setWidth 32 ::
    (allRegs.reverse.map c.reg ++ ws)

theorem length_savedWords : (savedWords c ws).length = ws.length + 12 := by
  simp only [savedWords, allRegs, List.length_cons, List.length_append, List.length_map, List.length_reverse,
    List.length_nil]
  omega

theorem saveCode_pushed (calls : Word → Cpu → Cpu) (h : Pushed base mem depth ws c) (hroom : ws.length + 13 ≤ depth)
    (hdepth : depth < 2 ^ 30) :
    Pushed base mem depth (slot base (ws.length + 12) :: savedWords c ws) (run calls saveCode c) := by
  have hregs := h.pushRegs c allRegs (by simp only [allRegs, List.length_cons, List.length_nil]; omega) hdepth
  rw [← List.map_reverse] at hregs
  have hsegs : Pushed base mem depth (savedWords c ws) (run calls (saveCode.take 5) c) := by
    refine (((hregs.push ?_ hdepth).push ?_ hdepth).push ?_ hdepth).push ?_ hdepth
    all_goals
      simp only [allRegs, List.length_cons, List.length_append, List.length_map, List.length_reverse, List.length_nil]
      omega
  have hmoved : Pushed base mem depth (savedWords c ws) (run calls (saveCode.take 11) c) := hsegs.congr rfl rfl
  have hesp : (run calls (saveCode.take 11) c).reg .eax = slot base (ws.length + 12) :=
    hsegs.esp.trans (by rw [length_savedWords])
  rw [← hesp]
  exact hmoved.push (by rw [length_savedWords]; omega) hdepth

/-! ### From its return on -/

/-- The registers and the words of `c₀` are back, and above them the stack is `ws`. -/
structure Restored (c₀ : Cpu) (base : Word) (ws : List Word) (c r : Cpu) : Prop where
  pushed : Pushed base c.mem 0 ws r
  reg : ∀ x, x ≠ .esp → r.reg x = c₀.reg x
  others : ∃ reg, r = {c with reg := reg, seg := c₀.seg}

theorem popSegs_pushed (calls : Word → Cpu → Cpu) {x : Word} (h : Pushed base c.mem 0 (x :: savedWords c₀ ws) c) :
    Pushed base c.mem 0 (allRegs.reverse.map c₀.reg ++ ws) (run calls (restoreCode.take 5) c) ∧
      ∃ reg, run calls (restoreCode.take 5) c = {c with reg := reg, seg := c₀.seg} := by
  have hgs := h.popReg calls (r := .eax) (by decide)
  have hfs := hgs.popSeg calls .gs
  have hes := hfs.popSeg calls .fs
  have hds := hes.popSeg calls .es
  have hseg : (run calls (restoreCode.take 5) c).seg = c₀.seg := by
    refine (hds.popSeg_seg calls .ds).trans ?_
    rw [hes.popSeg_seg, hfs.popSeg_seg, hgs.popSeg_seg]
    funext s
    cases s <;> simp
  exact ⟨hds.popSeg calls .ds, (run calls (restoreCode.take 5) c).reg, by rw [← hseg]; rfl⟩

theorem restoreCode_restored (calls : Word → Cpu → Cpu) {x num code : Word}
    (h : Pushed base c.mem 0 (x :: savedWords c₀ (num :: code :: ws)) c) :
    Restored c₀ base ws c (run calls (restoreCode.take 7) c) := by
  obtain ⟨hregs, reg, heq⟩ := popSegs_pushed calls h
  have hrun : run calls (restoreCode.take 7) c =
      exec calls (.addByte .esp 8) ((run calls (restoreCode.take 5) c).popRegs allRegs.reverse) := rfl
  rw [hrun]
  generalize run calls (restoreCode.take 5) c = c₁ at hregs heq
  obtain ⟨reg', heq'⟩ := Cpu.popRegs_eq c₁ allRegs.reverse
  have hdone := hregs.popRegs.drop.drop
  have hpop : ∀ y, y ≠ .esp → (c₁.popRegs allRegs.reverse).reg y = c₀.reg y := fun y hy => by
    rw [Cpu.popRegs_reg hregs hy]
    exact if_pos (by cases y <;> decide)
  generalize c₁.popRegs allRegs.reverse = c₂ at heq' hdone hpop
  have hesp : (exec calls (.addByte .esp 8) c₂).reg .esp = slot base ws.length := by
    rw [← hdone.esp]
    simp only [exec, Cpu.drop, Cpu.setReg, Function.update_self, BitVec.add_assoc]
    rfl
  refine ⟨⟨hesp, hdone.holds, hdone.rest⟩, fun y hy => ?_, ?_⟩
  · simp only [exec, Cpu.setReg, Function.update_of_ne hy, hpop y hy]
  · rw [heq', heq]
    exact ⟨_, rfl⟩

/-- A handler returns to its caller and leaves it its stack: of the words the interrupt
put there, which are no more than 20 above the argument, all but the argument itself. -/
structure Returns (f : Cpu → Cpu) (c : Cpu) : Prop where
  esp : (f c).reg .esp = c.reg .esp + 4
  cs : (f c).cs = c.cs
  ss : (f c).ss = c.ss
  frame : ∀ i, i < 20 →
    (f c).mem (c.reg .esp + BitVec.ofNat 32 (4 * (i + 2))) = c.mem (c.reg .esp + BitVec.ofNat 32 (4 * (i + 2)))

theorem Returns.pushed {f : Cpu → Cpu} (hf : Returns f c) {eip x : Word} (h : Pushed base mem depth (eip :: x :: ws) c)
    (hlen : ws.length ≤ 20) : Pushed base (f c).mem 0 ((f c).top :: ws) (f c) := by
  have hesp : (f c).reg .esp = slot base (ws.length + 1) := by
    rw [hf.esp, h.esp]
    exact slot_pred base _
  refine ⟨hesp, ⟨by rw [← hesp]; rfl, h.holds.2.2.congr fun i hpos hi => ?_⟩, fun _ _ => rfl⟩
  have hframe := hf.frame (ws.length - i) (by omega)
  rwa [h.esp, List.length_cons, List.length_cons,
    show ws.length + 1 + 1 = i + (ws.length - i + 2) by omega, slot_add] at hframe

theorem common_stub_eq (calls : Word → Cpu → Cpu) (handler : Word) (c : Cpu) :
    run calls (common_stub handler) c = iret (run calls (restoreCode.take 7) (calls handler (called handler c))) := rfl

theorem called_pushed (handler : Word) (h : Pushed base mem depth ws c) (hroom : ws.length + 14 ≤ depth)
    (hdepth : depth < 2 ^ 30) :
    ∃ eip, Pushed base mem depth (eip :: slot base (ws.length + 12) :: savedWords c ws) (called handler c) := by
  have hsaved := saveCode_pushed (fun _ c => c) h (by omega) hdepth
  have hset : Pushed base mem depth (slot base (ws.length + 12) :: savedWords c ws)
      ((run (fun _ c => c) saveCode c).setReg .eax handler) := hsaved.congr rfl rfl
  exact ⟨_, hset.push (by rw [List.length_cons, length_savedWords]; omega) hdepth⟩

/-! ### The whole stub -/

variable {tss : Tss} {selector : BitVec 16} {offset handler num code : Word} {errorCode : Option Word}
  {bytes : List (BitVec 8)}

/-- The state the common code starts in. -/
def entered (tss : Tss) (selector : BitVec 16) (offset : Word) (errorCode : Option Word) (bytes : List (BitVec 8))
    (c : Cpu) : Cpu :=
  run (fun _ c => c) (.cli :: bytes.map .pushByte) (enter tss selector offset errorCode c)

theorem pushBytes_pushed (h : Pushed base mem depth ws c) (hroom : ws.length + bytes.length ≤ depth)
    (hdepth : depth < 2 ^ 30) :
    Pushed base mem depth ((bytes.map (·.signExtend 32)).reverse ++ ws) (run calls (bytes.map .pushByte) c) := by
  induction bytes generalizing c ws with
  | nil => exact h
  | cons b bytes ih =>
    rw [List.length_cons] at hroom
    rw [List.map_cons, List.reverse_cons, List.append_assoc]
    exact ih (h.push (by omega) hdepth) (by simp only [List.length_append, List.length_singleton]; omega)

theorem pushBytes_eq (calls : Word → Cpu → Cpu) (bytes : List (BitVec 8)) (c : Cpu) :
    ∃ esp mem, run calls (bytes.map .pushByte) c = {c with reg := Function.update c.reg .esp esp, mem := mem} := by
  induction bytes generalizing c with
  | nil => exact ⟨c.reg .esp, c.mem, by rw [Function.update_eq_self]; rfl⟩
  | cons b bytes ih =>
    obtain ⟨esp, mem, h⟩ := ih (c.push (b.signExtend 32))
    exact ⟨esp, mem, h.trans (by simp only [Cpu.push, Function.update_idem])⟩

variable (tss selector offset errorCode c) in
theorem entered_pushed (hroom : bytes.length ≤ 2) :
    Pushed (enterBase tss selector c) c.mem 22
      ((bytes.map (·.signExtend 32)).reverse ++ enterWords selector errorCode c)
      (entered tss selector offset errorCode bytes c) := by
  have henter : Pushed _ _ 22 _ _ := enter_pushed tss selector offset errorCode c (by omega) (by omega)
  refine pushBytes_pushed (henter.congr rfl rfl) ?_ (by omega)
  have := length_enterTail selector c
  cases errorCode <;>
    simp only [enterWords, Option.toList, List.length_append, List.length_cons, List.length_nil] <;> omega

variable (tss selector offset errorCode bytes c) in
theorem entered_eq : ∃ esp mem eflags, entered tss selector offset errorCode bytes c =
    {c with reg := Function.update c.reg .esp esp, mem := mem, cs := selector, eip := offset, eflags := eflags,
            ss := if level c.cs = level selector then c.ss else tss.ss0} := by
  obtain ⟨esp, mem, h⟩ := enter_eq tss selector offset errorCode c
  obtain ⟨esp', mem', h'⟩ := pushBytes_eq (fun _ c => c) bytes
    (exec (fun _ c => c) .cli (enter tss selector offset errorCode c))
  exact ⟨esp', mem', _, h'.trans (by rw [h]; simp only [exec, Function.update_idem]; rfl)⟩

theorem run_pushBytes (calls calls' : Word → Cpu → Cpu) (bytes : List (BitVec 8)) (c : Cpu) :
    run calls (bytes.map .pushByte) c = run calls' (bytes.map .pushByte) c := by
  induction bytes generalizing c with
  | nil => rfl
  | cons b bytes ih => exact ih (c.push (b.signExtend 32))

theorem stub_entered (calls : Word → Cpu → Cpu) :
    run calls (stub bytes handler) (enter tss selector offset errorCode c) =
      run calls (common_stub handler) (entered tss selector offset errorCode bytes c) := by
  refine (run_append calls (.cli :: bytes.map .pushByte) (common_stub handler) _).trans ?_
  exact congrArg (run calls (common_stub handler)) (run_pushBytes calls _ bytes _)

/-- The return restores what was interrupted, at its own level or from another one. -/
theorem iret_restored {r : Cpu} (hpushed : Pushed (enterBase tss selector c) mem depth
      (c.eip :: c.cs.setWidth 32 :: c.eflags :: enterTail selector c) r) (hcs : r.cs = selector)
    (hss : level c.cs = level selector → r.ss = c.ss) (hreg : ∀ y, y ≠ .esp → r.reg y = c.reg y)
    (hseg : r.seg = c.seg) :
    iret r = {c with mem := r.mem} := by
  have hcode : (c.cs.setWidth 32).setWidth 16 = c.cs := by
    rw [BitVec.setWidth_setWidth_of_le _ (by omega), BitVec.setWidth_eq]
  have hregs : ∀ esp, esp = c.reg .esp → Function.update r.reg .esp esp = c.reg := by
    rintro esp rfl
    funext y
    by_cases hy : y = .esp
    · rw [hy, Function.update_self]
    · rw [Function.update_of_ne hy, hreg y hy]
  rw [enterBase, enterTail] at hpushed
  by_cases hlevel : level c.cs = level selector
  · rw [if_pos hlevel, if_pos hlevel] at hpushed
    rw [iret_same hpushed (by rw [hcode, hcs, hlevel]), hcode, hregs _ (by simp [slot]), hss hlevel, hseg]
  · rw [if_neg hlevel, if_neg hlevel] at hpushed
    rw [iret_outer hpushed (by rwa [hcode, hcs]), hcode, hregs _ rfl, hseg]
    rw [BitVec.setWidth_setWidth_of_le _ (by omega), BitVec.setWidth_eq]

/-- Up to its last instruction the stub takes off what it put on, and the two words under it. -/
theorem stub_restored (hf : Returns (calls handler) (called handler (entered tss selector offset errorCode bytes c)))
    (hbytes : bytes.length ≤ 2)
    (hcodes : (bytes.map (·.signExtend 32)).reverse ++ errorCode.toList = num :: code :: ws) (hlen : ws.length ≤ 1) :
    ∃ r, run calls (stub bytes handler) (enter tss selector offset errorCode c) = iret r ∧
      Pushed (enterBase tss selector c) r.mem 0
        (ws ++ c.eip :: c.cs.setWidth 32 :: c.eflags :: enterTail selector c) r ∧
      r.cs = selector ∧ (level c.cs = level selector → r.ss = c.ss) ∧ (∀ y, y ≠ .esp → r.reg y = c.reg y) ∧
      r.seg = c.seg ∧
      r.mem = (calls handler (called handler (entered tss selector offset errorCode bytes c))).mem := by
  have hpushed := entered_pushed c tss selector offset errorCode hbytes
  obtain ⟨esp, mem', eflags, heq⟩ := entered_eq c tss selector offset errorCode bytes
  rw [stub_entered, common_stub_eq]
  generalize entered tss selector offset errorCode bytes c = e at hf hpushed heq ⊢
  rw [enterWords, ← List.append_assoc, ← List.append_assoc, hcodes] at hpushed
  have htail := length_enterTail selector c
  obtain ⟨eip, hcalled⟩ := called_pushed handler hpushed
    (by simp only [List.length_append, List.length_cons, List.length_nil]; omega) (by omega)
  have hreturned := hf.pushed hcalled (by
    rw [length_savedWords]; simp only [List.length_append, List.length_cons, List.length_nil]; omega)
  have hrestored := restoreCode_restored calls hreturned
  obtain ⟨reg, hothers⟩ := hrestored.others
  have hmem := congrArg Cpu.mem hothers
  refine ⟨_, rfl, ?_, ?_, fun hlevel => ?_, fun y hy => ?_, ?_, hmem⟩
  · rw [hmem]
    have h := hrestored.pushed
    rwa [List.append_eq, List.append_eq, List.append_assoc] at h
  · rw [hothers, hf.cs]
    exact congrArg Cpu.cs heq
  · rw [hothers, hf.ss]
    exact (congrArg Cpu.ss heq).trans (if_pos hlevel)
  · rw [hrestored.reg y hy, heq]
    exact Function.update_of_ne hy ..
  · rw [hothers, heq]

/-- An interrupt whose code and processor push two words above the frame leaves no trace but
what its handler did. -/
theorem stub_run (hf : Returns (calls handler) (called handler (entered tss selector offset errorCode bytes c)))
    (hbytes : bytes.length ≤ 2)
    (htwo : (bytes.map (·.signExtend 32)).reverse ++ errorCode.toList = [num, code]) :
    run calls (stub bytes handler) (enter tss selector offset errorCode c) =
      {c with mem := (calls handler (called handler (entered tss selector offset errorCode bytes c))).mem} := by
  obtain ⟨r, hrun, hpushed, hcs, hss, hreg, hseg, hmem⟩ := stub_restored hf hbytes htwo (Nat.zero_le 1)
  rw [hrun, iret_restored hpushed hcs hss hreg hseg, hmem]

/-- What a handler starts with: its argument, the words from there on, and the rest of memory. -/
structure Sees (base : Word) (mem : Word → Word) (depth : Nat) (ws : List Word) (e called : Cpu) : Prop where
  esp : called.reg .esp = slot base (ws.length + 14)
  argument : called.mem (called.reg .esp + 4) = slot base (ws.length + 12)
  words : Words called.mem (slot base (ws.length + 12)) (savedWords e ws)
  rest : ∀ a, (∀ i, 0 < i → i ≤ depth → a ≠ slot base i) → called.mem a = mem a

theorem called_sees (handler : Word) {e : Cpu} (h : Pushed base mem depth ws e) (hroom : ws.length + 14 ≤ depth)
    (hdepth : depth < 2 ^ 30) :
    Sees base mem depth ws e (called handler e) := by
  obtain ⟨eip, hcalled⟩ := called_pushed handler h hroom hdepth
  have hwords := hcalled.holds.2.2.words
  rw [length_savedWords] at hwords
  have hesp := hcalled.esp
  rw [List.length_cons, List.length_cons, length_savedWords] at hesp
  refine ⟨hesp, ?_, hwords, hcalled.rest⟩
  rw [hcalled.esp, List.length_cons, slot_pred]
  exact hcalled.holds.2.1

theorem savedWords_append (c : Cpu) (ws vs : List Word) : savedWords c (ws ++ vs) = savedWords c ws ++ vs := by
  simp [savedWords]

/-- The words go on above the stack. -/
theorem Sees.above {e c : Cpu} (h : Sees base mem depth ws e c) (hdepth : depth + 2 < 2 ^ 30) :
    Words c.mem (slot base (ws.length + 12)) (savedWords e (ws ++ [mem base, mem (base + 4)])) := by
  have hbase : slot base (ws.length + 12) + BitVec.ofNat 32 (4 * (savedWords e ws).length) = base := by
    rw [length_savedWords]
    refine (congrArg (fun i => slot base i + _) (Nat.zero_add _).symm).trans ((slot_add base 0 _).trans ?_)
    simp [slot]
  rw [savedWords_append]
  refine h.words.append ?_
  rw [hbase]
  have hzero : ∀ i, 0 < i → i ≤ depth → base ≠ slot base i := fun i hpos hi => by
    simpa using ne_slot base (j := 0) hpos (by omega)
  exact ⟨h.rest _ hzero, h.rest _ fun i hpos hi => ne_slot base (j := 1) hpos (by omega), trivial⟩

end UntitledOS.Interrupts
