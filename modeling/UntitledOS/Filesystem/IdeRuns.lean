import UntitledOS.Filesystem.Ide
import UntitledOS.Filesystem.Fat12
import UntitledOS.Lib.Run

/-! What the disk driver does over a drive that takes its time.

The drive may be busy for any number of accesses whenever it gets busy; all that is
asked is that the driver polls long enough. Reading a sector stays within what is
specified of a drive, so it works over any drive (`readSector_reads`). Writing does not:
the words follow the command at once, whether the drive waits for them or not, with one
byte before them and a flush behind them. Over a drive that ignores what is out of place
the sector is written if the drive takes at most one access to get ready, and otherwise
it is not, and the drive is left waiting (`writeSector_writes`). -/
namespace UntitledOS.Filesystem
open Lib Lib.Ata

namespace IDE

variable {q : Quirks} {d : Drive} {polls : Nat}

/-! ### Waiting -/

theorem inb_status (d : Drive) : inb (BUS_ADDR + REG_STATUS) d = (d.status, d.tick) := by
  rw [inb, if_pos rfl]

theorem ataIOwait_eq (bus : u16) (d : Drive) : ataIOwait bus d = {d with left := d.left - 4} := rfl

theorem status_busy (d : Drive) : d.status &&& SR_BSY ≠ 0 ↔ d.left ≠ 0 := by
  unfold Drive.status
  split
  · simp [*, SR_BSY]
  · split <;> simp_all [SR_BSY]

/-- Polls enough wait for the drive. -/
theorem ataWaitReady_ready (hd : d.left ≤ polls) :
    ataWaitReady BUS_ADDR (polls + 1) d = some {d with left := 0} := by
  induction polls generalizing d with
  | zero =>
    have hleft : d.left = 0 := by omega
    rw [ataWaitReady, inb_status, if_neg (by rw [status_busy, hleft]; simp), Drive.tick_ready hleft, ← hleft]
  | succ polls ih =>
    rw [ataWaitReady, inb_status]
    by_cases hleft : d.left = 0
    · rw [if_neg (by rw [status_busy, hleft]; simp), Drive.tick_ready hleft, ← hleft]
    · have htick : d.tick.left ≤ polls := by
        show d.left - 1 ≤ polls
        omega
      rw [if_pos ((status_busy d).mpr hleft), ih htick]
      rfl

/-- A drive that is not busy has no words to move. -/
def Failed : Phase → Bool
  | .idle _ => true
  | _ => false

/-- The checks of `ataWait` on a drive that is not busy. -/
theorem status_failed (hd : d.left = 0) :
    (d.status &&& SR_ERR ≠ 0 || d.status &&& SR_DF ≠ 0 || !(d.status &&& SR_DRQ ≠ 0)) = Failed d.phase := by
  have hstatus : d.status ∈ if Failed d.phase then [0x50, 0x51] else [(0x58 : u8)] := by
    rw [Drive.status, if_neg (not_not.mpr hd)]
    cases d.phase with
    | idle error => cases error <;> simp [Failed]
    | sending words => simp [Failed]
    | receiving lba words => simp [Failed]
  cases hfailed : Failed d.phase with
  | false =>
    rw [hfailed] at hstatus
    rw [List.mem_singleton.mp hstatus]
    decide
  | true =>
    rw [hfailed] at hstatus
    rcases List.mem_pair.mp hstatus with hs | hs
    · rw [hs]
      decide
    · rw [hs]
      decide

theorem ataWait_ready (hd : d.left ≤ polls) (advanced : Bool) :
    ataWait (polls + 1) BUS_ADDR advanced d = some (advanced && Failed d.phase, {d with left := 0}) := by
  have hleft : (ataIOwait BUS_ADDR d).left ≤ polls := by
    rw [ataIOwait_eq]
    show d.left - 4 ≤ polls
    omega
  rw [ataWait, ataWaitReady_ready hleft, Option.map_some, ataIOwait_eq]
  cases advanced with
  | false => rfl
  | true =>
    simp only [if_true, inb_status, Bool.true_and]
    rw [status_failed rfl, Drive.tick_ready rfl]

/-! ### Registers -/

theorem outb_control (value : u8) (d : Drive) : outb q (BUS_ADDR + REG_CONTROL) value d = d.tick := rfl

/-- How either transfer begins. -/
theorem waitReady_control (hd : d.left ≤ polls) :
    ataWaitReady BUS_ADDR (polls + 1) d.tick = some {d with left := 0} := by
  apply ataWaitReady_ready
  show d.left - 1 ≤ polls
  omega

/-- A byte cut out with a mask. -/
theorem masked_byte {mask : u32} {k : Nat} (hmask : ∀ i < 8, mask.getLsbD (k + i) = true) (x : u32) :
    ((x &&& mask) >>> k).setWidth 8 = (x >>> k).setWidth 8 := by
  apply BitVec.eq_of_getLsbD_eq
  intro i hi
  simp [hi, hmask i hi]

theorem lbaByte_toNat (lba : u32) : (lbaByte0 lba).toNat = lba.toNat % 2 ^ 8 ∧
    (lbaByte1 lba).toNat = lba.toNat / 2 ^ 8 % 2 ^ 8 ∧ (lbaByte2 lba).toNat = lba.toNat / 2 ^ 16 % 2 ^ 8 := by
  refine ⟨?_, ?_, ?_⟩
  · rw [lbaByte0, masked_byte (by decide), BitVec.toNat_setWidth, BitVec.toNat_ushiftRight, Nat.shiftRight_zero]
  · rw [lbaByte1, masked_byte (by decide), BitVec.toNat_setWidth, BitVec.toNat_ushiftRight, Nat.shiftRight_eq_div_pow]
  · rw [lbaByte2, masked_byte (by decide), BitVec.toNat_setWidth, BitVec.toNat_ushiftRight, Nat.shiftRight_eq_div_pow]

/-- The first drive, a linear address, and the four bits at its top. -/
theorem devsel_spec (lba : u32) : devsel 0 lba &&& 0x50 = 0x40 ∧
    (devsel 0 lba).toNat % 16 = lba.toNat / 2 ^ 24 % 2 ^ 4 := by
  have hbits : ∀ i < 8, (devsel 0 lba).getLsbD i = if i < 4 then lba.getLsbD (24 + i) else decide (5 ≤ i) := by
    intro i hi
    have hzero : ∀ j, ((0 : u8).setWidth 32 <<< 4).getLsbD j = false := by simp
    have htop : ∀ i < 8, (0x0f000000 : u32).getLsbD (24 + i) = decide (i < 4) := by decide
    have hbase : ∀ i < 8, (0xe0 : u32).getLsbD i = decide (5 ≤ i) := by decide
    simp only [devsel, BitVec.getLsbD_setWidth, hi, decide_true, Bool.true_and, BitVec.getLsbD_or, hbase i hi,
      hzero, Bool.or_false, BitVec.getLsbD_ushiftRight, BitVec.getLsbD_and, htop i hi]
    split
    · rename_i hlow
      rw [decide_eq_false (show ¬5 ≤ i by omega), decide_eq_true hlow, Bool.and_true, Bool.false_or]
    · rename_i hlow
      rw [decide_eq_false hlow, Bool.and_false, Bool.or_false]
  constructor
  · apply BitVec.eq_of_getLsbD_eq
    intro i hi
    rw [BitVec.getLsbD_and, hbits i hi]
    have hmask : ∀ i < 8, (0x50 : u8).getLsbD i = decide (i = 4 ∨ i = 6) := by decide
    have hresult : ∀ i < 8, (0x40 : u8).getLsbD i = decide (i = 6) := by decide
    rw [hmask i hi, hresult i hi]
    split <;> grind
  · apply Nat.eq_of_testBit_eq
    intro i
    rw [show 16 = 2 ^ 4 by decide, Nat.testBit_mod_two_pow, Nat.testBit_mod_two_pow, Nat.testBit_div_two_pow]
    by_cases hi : i < 4
    · have hbit := hbits i (by omega)
      rw [if_pos hi, BitVec.getLsbD, BitVec.getLsbD] at hbit
      rw [hbit, Nat.add_comm]
    · rw [decide_eq_false hi, Bool.false_and, Bool.false_and]

/-- The registers put together give the address back, as far as they hold it. -/
theorem registers_lba (lba : u32) (d : Drive) (h0 : d.lba0 = lbaByte0 lba) (h1 : d.lba1 = lbaByte1 lba)
    (h2 : d.lba2 = lbaByte2 lba) (hdevice : d.device = devsel 0 lba) : d.lba = lba.toNat % 2 ^ 28 := by
  obtain ⟨hb0, hb1, hb2⟩ := lbaByte_toNat lba
  rw [Drive.lba, h0, h1, h2, hdevice, hb0, hb1, hb2, (devsel_spec lba).2]
  omega

/-- An idle drive with the registers written for a transfer. -/
def addressed (lba : u32) (d : Drive) : Drive :=
  {d with
    features := 0, seccount := 1, lba0 := lbaByte0 lba, lba1 := lbaByte1 lba, lba2 := lbaByte2 lba
    device := devsel 0 lba}

theorem addressed_addressed (lba : u32) (d : Drive) : (addressed lba d).Addressed := ⟨rfl, (devsel_spec lba).1⟩

theorem addressed_lba (lba : u32) (d : Drive) : (addressed lba d).lba = lba.toNat % 2 ^ 28 :=
  registers_lba lba _ rfl rfl rfl rfl

section Idle
variable {error : Bool}

theorem devsel_idle (hleft : d.left = 0) (hphase : d.phase = .idle error) (lba : u32) :
    outb q (BUS_ADDR + REG_HDDEVSEL) (devsel 0 lba) d = {d with device := devsel 0 lba} := by
  show d.writeRegister q 6 (devsel 0 lba) = _
  simp only [Drive.writeRegister, hleft, hphase]

theorem setup_idle (hleft : d.left = 0) (hphase : d.phase = .idle error) (lba : u32) :
    setup q BUS_ADDR lba {d with device := devsel 0 lba} = addressed lba d := by
  show (((((Drive.writeRegister q 1 0x00 {d with device := devsel 0 lba}).writeRegister q 2 1).writeRegister q 3
    (lbaByte0 lba)).writeRegister q 4 (lbaByte1 lba)).writeRegister q 5 (lbaByte2 lba)) = _
  simp only [Drive.writeRegister, hleft, hphase, addressed]

/-- A command to an idle drive. -/
theorem command_idle (hleft : d.left = 0) (hphase : d.phase = .idle error) (command : u8) :
    outb q (BUS_ADDR + REG_COMMAND) command d = d.execute q command := by
  show d.writeRegister q 7 command = _
  simp only [Drive.writeRegister, hleft, hphase]

end Idle

/-! ### Reading -/

/-- The words a drive waits to send are read in order. -/
theorem insm_sending {ws : List u16} (hne : ws ≠ []) (hleft : d.left = 0) (hphase : d.phase = .sending ws) :
    insm q BUS_ADDR ws.length d = (ws, {d with phase := .idle false}) := by
  induction ws generalizing d with
  | nil => exact absurd rfl hne
  | cons w ws ih =>
    rw [List.length_cons, insm, ins, if_pos rfl, Drive.readData_cons hleft hphase]
    cases ws with
    | nil => rfl
    | cons v vs =>
      have hrest := ih (d := {d with phase := .sending (v :: vs)}) (List.cons_ne_nil v vs) hleft rfl
      rw [if_neg (List.cons_ne_nil v vs), hrest]

/-- An idle drive sends nothing. -/
theorem insm_junk (hq : q.Ignores) {error : Bool} (hleft : d.left = 0) (hphase : d.phase = .idle error) (size : Nat) :
    insm q BUS_ADDR size d = (List.replicate size (q.junk d), d) := by
  have hword : d.readData q = (q.junk d, d) := by
    have htick := Drive.tick_ready hleft
    unfold Drive.readData
    rw [hleft, hphase]
    show (q.junk d, (q.wild d).tick) = _
    rw [hq, htick]
  induction size with
  | zero => rfl
  | succ size ih =>
    rw [insm, ins, if_pos rfl, hword]
    dsimp only
    rw [ih, List.replicate_succ]

/-- What is left of a read once the command is given. -/
theorem readWords_eq {error : Bool} (hd : d.left ≤ polls) (hphase : d.phase = .idle error) (lba : u32) :
    readWords q (polls + 1) BUS_ADDR 0 lba d =
      (ataWait (polls + 1) BUS_ADDR true
        (Drive.execute q CMD_READ_PIO (addressed lba {d with left := 0}))).bind fun r =>
          (ataWait (polls + 1) BUS_ADDR false (insm q BUS_ADDR 256 r.2).2).map fun last =>
            (((insm q BUS_ADDR 256 r.2).1, r.1), last.2) := by
  have hready := waitReady_control hd
  have hidle : ({d with left := 0} : Drive).phase = .idle error := hphase
  rw [readWords, outb_control]
  dsimp only
  rw [hready, Option.bind_some, devsel_idle rfl hidle, setup_idle rfl hidle,
    command_idle rfl (show (addressed lba {d with left := 0}).phase = _ from hphase)]

/-- **Reading a sector delivers it**, however long the drive takes, and leaves the drive
idle. -/
theorem readWords_reads {error : Bool} (hd : d.left ≤ polls) (hphase : d.phase = .idle error)
    (hpause : d.pauses.headD 0 ≤ polls) {lba : u32} (hlba : lba.toNat % 2 ^ 28 < d.count) :
    ∃ d', readWords q (polls + 1) BUS_ADDR 0 lba d = some ((wordsOf (d.sectors (lba.toNat % 2 ^ 28)), false), d') ∧
      Drive.Same d d' ∧ d'.left = 0 ∧ d'.phase = .idle false ∧ d'.pauses = d.pauses.tail := by
  -- the drive has the sector to send
  have hread := Drive.execute_read (q := q) (addressed_addressed lba {d with left := 0}) (by
    rw [addressed_lba]
    exact hlba)
  rw [addressed_lba] at hread
  have hread : Drive.execute q CMD_READ_PIO (addressed lba {d with left := 0}) =
    (addressed lba {d with left := 0}).pause (.sending (wordsOf (d.sectors (lba.toNat % 2 ^ 28)))) := hread
  have hlength := length_wordsOf (d.sectors (lba.toNat % 2 ^ 28))
  generalize wordsOf (d.sectors (lba.toNat % 2 ^ 28)) = words at hread hlength ⊢
  have hne : words ≠ [] := by
    rintro rfl
    cases hlength
  have hsent := insm_sending (q := q) (d := {(addressed lba {d with left := 0}).pause (.sending words) with left := 0})
    hne rfl rfl
  rw [hlength] at hsent
  refine ⟨{(addressed lba {d with left := 0}).pause (.sending words) with left := 0, phase := .idle false}, ?_,
    ⟨rfl, rfl, rfl⟩, rfl, rfl, rfl⟩
  rw [readWords_eq hd hphase, hread,
    ataWait_ready (show ((addressed lba {d with left := 0}).pause (.sending words)).left ≤ polls from hpause),
    Option.bind_some]
  dsimp only
  rw [hsent, ataWait_ready (Nat.zero_le polls), Option.map_some]
  rfl

/-- A sector the drive does not have: an error is printed, and the buffer is filled with
what the data register gave. -/
theorem readWords_missing (hq : q.Ignores) {error : Bool} (hd : d.left ≤ polls) (hphase : d.phase = .idle error)
    (hpause : d.pauses.headD 0 ≤ polls) {lba : u32} (hlba : d.count ≤ lba.toNat % 2 ^ 28) :
    ∃ d' word, readWords q (polls + 1) BUS_ADDR 0 lba d = some ((List.replicate 256 word, true), d') ∧
      Drive.Same d d' ∧ d'.left = 0 ∧ d'.phase = .idle true ∧ d'.pauses = d.pauses.tail := by
  have hmissing : Drive.execute q CMD_READ_PIO (addressed lba {d with left := 0}) =
      (addressed lba {d with left := 0}).pause (.idle true) := by
    refine Drive.execute_missing (addressed_addressed lba _) ?_
    rw [addressed_lba]
    exact hlba
  have hjunk := insm_junk hq (d := {(addressed lba {d with left := 0}).pause (.idle true) with left := 0}) rfl rfl 256
  refine ⟨{(addressed lba {d with left := 0}).pause (.idle true) with left := 0},
    q.junk {(addressed lba {d with left := 0}).pause (.idle true) with left := 0}, ?_, ⟨rfl, rfl, rfl⟩, rfl, rfl, rfl⟩
  rw [readWords_eq hd hphase, hmissing,
    ataWait_ready (show ((addressed lba {d with left := 0}).pause (.idle true)).left ≤ polls from hpause),
    Option.bind_some]
  dsimp only
  rw [hjunk, ataWait_ready (Nat.zero_le polls), Option.map_some]
  rfl

/-! ### Writing -/

/-- A busy drive misses the words written meanwhile. -/
theorem outsm_busy (hq : q.Ignores) (ws : List u16) (d : Drive) :
    outsm q BUS_ADDR ws d = outsm q BUS_ADDR (ws.drop d.left) {d with left := d.left - ws.length} := by
  induction ws generalizing d with
  | nil => simp [outsm]
  | cons w ws ih =>
    by_cases hleft : d.left = 0
    · rw [hleft, List.drop_zero, Nat.zero_sub, ← hleft]
    · have hstep : outsm q BUS_ADDR (w :: ws) d = outsm q BUS_ADDR ws d.tick := by
        rw [outsm, outs, if_pos rfl, Drive.writeData_busy hq hleft]
      have hdrop : (w :: ws).drop d.left = ws.drop (d.left - 1) := by
        rw [show d.left = d.left - 1 + 1 by omega, List.drop_succ_cons, Nat.add_sub_cancel]
      rw [hstep, ih, hdrop, List.length_cons, show d.left - (ws.length + 1) = d.left - 1 - ws.length by omega]
      rfl

/-- Too few words leave the drive waiting. -/
theorem outsm_receiving {ws got : List u16} {lba : Nat} (hleft : d.left = 0) (hphase : d.phase = .receiving lba got)
    (hfew : got.length + ws.length < 256) :
    outsm q BUS_ADDR ws d = {d with phase := .receiving lba (got ++ ws)} := by
  induction ws generalizing d got with
  | nil =>
    rw [List.append_nil, ← hphase]
    rfl
  | cons w ws ih =>
    rw [List.length_cons] at hfew
    rw [outsm, outs, if_pos rfl, Drive.writeData_receiving hleft hphase, if_neg (by omega)]
    have hrest := ih (d := {d with phase := .receiving lba (got ++ [w])}) hleft rfl
      (by rw [List.length_append, List.length_singleton]; omega)
    rw [hrest, List.append_assoc, List.singleton_append]

/-- The sector is stored with its last word. -/
theorem outsm_last {ws got : List u16} {lba : Nat} (hleft : d.left = 0) (hphase : d.phase = .receiving lba got)
    (hne : ws ≠ []) (hall : got.length + ws.length = 256) :
    outsm q BUS_ADDR ws d = (d.store lba (got ++ ws)).pause (.idle false) := by
  induction ws generalizing d got with
  | nil => exact absurd rfl hne
  | cons w ws ih =>
    rw [List.length_cons] at hall
    rw [outsm, outs, if_pos rfl, Drive.writeData_receiving hleft hphase]
    cases ws with
    | nil =>
      rw [if_pos (by simpa using hall)]
      rfl
    | cons v vs =>
      rw [List.length_cons] at hall
      have hrest := ih (d := {d with phase := .receiving lba (got ++ [w])}) hleft rfl (List.cons_ne_nil v vs)
        (by rw [List.length_append, List.length_singleton, List.length_cons]; omega)
      rw [if_neg (by omega), hrest, List.append_assoc, List.singleton_append]
      rfl

/-- The sector a write stores, as bytes. -/
theorem stored_eq (buf : Nat → u8) (lba : Nat) (disk : Disk) :
    (Function.update disk lba fun k => if k < 512 then bytesOf (wordsOf buf) k else disk lba k) =
      Filesystem.writeSector lba buf disk := by
  funext s k
  rw [Filesystem.writeSector, Function.update_apply]
  by_cases hs : s = lba
  · by_cases hk : k < 512
    · rw [if_pos hs, if_pos hk, if_pos ⟨hs, hk⟩, bytesOf_wordsOf buf hk]
    · rw [if_pos hs, if_neg hk, if_neg fun hc => hk hc.2, hs]
  · rw [if_neg hs, if_neg fun hc => hs hc.1]

/-- A flush of an idle drive, taken or ignored. -/
theorem flush_idle (hq : q.Ignores) (hphase : d.phase = .idle false) :
    ∃ d', outb q (BUS_ADDR + 0x07) CMD_CACHE_FLUSH d = d' ∧ Drive.Same d d' ∧ d'.phase = .idle false ∧
      d'.pauses <:+ d.pauses ∧ (d'.left ∈ d.pauses ∨ d'.left ≤ d.left) := by
  have hflush : outb q (BUS_ADDR + 0x07) CMD_CACHE_FLUSH d = d.writeRegister q 7 CMD_CACHE_FLUSH := rfl
  by_cases hleft : d.left = 0
  · refine ⟨d.pause (.idle false), (command_idle hleft hphase _).trans Drive.execute_flush, ⟨rfl, rfl, rfl⟩, rfl,
      List.tail_suffix _, ?_⟩
    show d.pauses.headD 0 ∈ d.pauses ∨ d.pauses.headD 0 ≤ d.left
    cases d.pauses with
    | nil => exact .inr (Nat.zero_le _)
    | cons p rest => exact .inl (List.mem_cons_self ..)
  · refine ⟨d.tick, ?_, ⟨rfl, rfl, rfl⟩, hphase, List.suffix_refl _, .inr (Nat.sub_le _ _)⟩
    rw [hflush, Drive.writeRegister_ignored hq fun hc => hleft hc.1]

/-- The words a write puts out, after its one byte. -/
def transfer (q : Quirks) (words : List u16) (d : Drive) : Drive := outsm q BUS_ADDR words (outb q BUS_ADDR 0 d)

section Transfer
variable {words : List u16} {lba : Nat}

/-- The byte is ignored, and so are the words the drive is too busy for. -/
theorem transfer_eq (hq : q.Ignores) (hlength : words.length = 256) (d : Drive) :
    transfer q words d = outsm q BUS_ADDR (words.drop (d.left - 1)) {d with left := d.left - 1 - 256} := by
  have hbyte : outb q BUS_ADDR 0 d = d.tick := by
    show d.writeRegister q 0 0 = _
    rw [Drive.writeRegister_data, hq]
  rw [transfer, hbyte, outsm_busy hq, hlength]
  rfl

theorem transfer_soon (hq : q.Ignores) (hlength : words.length = 256) (hphase : d.phase = .receiving lba [])
    (hsoon : d.left ≤ 1) : transfer q words d = (Drive.store lba words {d with left := 0}).pause (.idle false) := by
  have hne : words ≠ [] := by
    rintro rfl
    cases hlength
  rw [transfer_eq hq hlength, show d.left - 1 = 0 by omega, List.drop_zero, Nat.zero_sub]
  have hall : ([] : List u16).length + words.length = 256 := by rw [hlength, List.length_nil]
  have hlast := outsm_last (q := q) (d := {d with left := 0}) rfl hphase hne hall
  rwa [List.nil_append] at hlast

theorem transfer_late (hq : q.Ignores) (hlength : words.length = 256) (hphase : d.phase = .receiving lba [])
    (hlate : 2 ≤ d.left) : transfer q words d =
      {d with left := d.left - 1 - 256, phase := .receiving lba (words.drop (d.left - 1))} := by
  rw [transfer_eq hq hlength]
  by_cases hleft : d.left - 1 - 256 = 0
  · rw [hleft]
    exact outsm_receiving (d := {d with left := 0}) rfl hphase
      (by rw [List.length_drop, hlength]; show 0 + _ < 256; omega)
  · rw [List.drop_of_length_le (by omega), ← hphase]
    rfl

end Transfer

theorem headD_le {pauses : List Nat} (h : ∀ p ∈ pauses, p ≤ polls) : pauses.headD 0 ≤ polls := by
  cases pauses with
  | nil => exact Nat.zero_le _
  | cons p rest => exact h p (List.mem_cons_self ..)

/-- The drive once the command of a write is given. -/
def given (lba : u32) (d : Drive) : Drive :=
  (addressed lba {d with left := 0}).pause (.receiving (lba.toNat % 2 ^ 28) [])

/-- What is left of a write once the command is given. -/
theorem writeWords_eq {error : Bool} (hd : d.left ≤ polls) (hphase : d.phase = .idle error) {lba : u32}
    (hlba : lba.toNat % 2 ^ 28 < d.count) (words : List u16) :
    writeWords q (polls + 1) BUS_ADDR 0 lba words d =
      (ataWait (polls + 1) BUS_ADDR false
        (outb q (BUS_ADDR + 0x07) CMD_CACHE_FLUSH (transfer q words (given lba d)))).map Prod.snd := by
  have hready := waitReady_control hd
  have hidle : ({d with left := 0} : Drive).phase = .idle error := hphase
  have hin : (addressed lba {d with left := 0}).lba < (addressed lba {d with left := 0}).count := by
    rw [addressed_lba]
    exact hlba
  have hwrite := Drive.execute_write (q := q) (addressed_addressed lba _) hin
  rw [addressed_lba] at hwrite
  have hcommand : outb q (BUS_ADDR + REG_COMMAND) CMD_WRITE_PIO (addressed lba {d with left := 0}) = _ :=
    (command_idle rfl (show (addressed lba {d with left := 0}).phase = _ from hphase) _).trans hwrite
  have hselected : ataWait (polls + 1) BUS_ADDR false {d with left := 0, device := devsel 0 lba} =
      some (false, {d with left := 0, device := devsel 0 lba}) := ataWait_ready (Nat.zero_le polls) false
  rw [writeWords, outb_control]
  dsimp only
  rw [hready, Option.bind_some, devsel_idle rfl hidle]
  dsimp only at hselected ⊢
  rw [hselected, Option.bind_some]
  dsimp only
  rw [setup_idle rfl hidle, hcommand]
  rfl

/-- **Writing a sector** over a drive that ignores what is out of place: the sector is
written if the drive takes at most one access to get ready for it; otherwise nothing is,
and the drive waits for the words it missed. -/
theorem writeSector_writes (hq : q.Ignores) (sector : u32) {error : Bool} (hd : d.left ≤ polls)
    (hphase : d.phase = .idle error) (hpauses : ∀ p ∈ d.pauses, p ≤ polls)
    (hsector : sector.toNat % 2 ^ 28 < d.count) (buf : Nat → u8) :
    ∃ d', writeSector q (polls + 1) sector buf d = some d' ∧ d'.left = 0 ∧ d'.count = d.count ∧
      d'.identity = d.identity ∧ d'.pauses <:+ d.pauses ∧
      if d.pauses.headD 0 ≤ 1 then
        d'.sectors = Filesystem.writeSector (sector.toNat % 2 ^ 28) buf d.sectors ∧ d'.phase = .idle false
      else d'.sectors = d.sectors ∧
        d'.phase = .receiving (sector.toNat % 2 ^ 28) ((wordsOf buf).drop (d.pauses.headD 0 - 1)) := by
  have hlast : ∀ d' : Drive, d'.left ≤ polls → (ataWait (polls + 1) BUS_ADDR false d').map Prod.snd =
      some {d' with left := 0} := by
    intro d' hd'
    rw [ataWait_ready hd']
    rfl
  have hlength := length_wordsOf buf
  rw [writeSector, writeWords_eq hd hphase hsector]
  by_cases hsoon : d.pauses.headD 0 ≤ 1
  · rw [transfer_soon hq hlength (d := given sector d) rfl hsoon]
    obtain ⟨d', hflush, hsame, hidle, hsuffix, hleft⟩ := flush_idle hq
      (d := (Drive.store (sector.toNat % 2 ^ 28) (wordsOf buf) {given sector d with left := 0}).pause (.idle false)) rfl
    have hsuffix : d'.pauses <:+ d.pauses.tail.tail := hsuffix
    have hshort : d'.left ≤ polls := by
      rcases hleft with hmem | hle
      · have hmem : d'.left ∈ d.pauses.tail.tail := hmem
        exact hpauses _ (List.mem_of_mem_tail (List.mem_of_mem_tail hmem))
      · refine hle.trans ?_
        show d.pauses.tail.headD 0 ≤ polls
        exact headD_le fun p hp => hpauses p (List.mem_of_mem_tail hp)
    refine ⟨{d' with left := 0}, by rw [hflush, hlast d' hshort], rfl, hsame.count, hsame.identity,
      hsuffix.trans ((List.tail_suffix _).trans (List.tail_suffix _)), ?_⟩
    rw [if_pos hsoon]
    refine ⟨?_, hidle⟩
    show d'.sectors = _
    rw [hsame.sectors, ← stored_eq]
    rfl
  · have hlate : 2 ≤ (given sector d).left := by
      show 2 ≤ d.pauses.headD 0
      omega
    have hbound : d.pauses.headD 0 ≤ polls := headD_le hpauses
    rw [transfer_late hq hlength (d := given sector d) rfl hlate]
    generalize hmissed : ({given sector d with
      left := (given sector d).left - 1 - 256
      phase := .receiving (sector.toNat % 2 ^ 28) ((wordsOf buf).drop ((given sector d).left - 1))} : Drive) = missed
    -- the flush is ignored, the drive waits for words or is busy
    have hflush : outb q (BUS_ADDR + 0x07) CMD_CACHE_FLUSH missed = missed.tick := by
      refine Drive.writeRegister_ignored hq ?_ 7 CMD_CACHE_FLUSH
      rintro ⟨_, error, hidle⟩
      rw [← hmissed] at hidle
      cases hidle
    rw [hflush]
    refine ⟨{missed with left := 0}, ?_, rfl, ?_⟩
    · rw [hlast missed.tick]
      · rfl
      · show missed.left - 1 ≤ polls
        rw [← hmissed]
        show d.pauses.headD 0 - 1 - 256 - 1 ≤ polls
        omega
    · rw [if_neg hsoon, ← hmissed]
      exact ⟨rfl, rfl, List.tail_suffix _, rfl, rfl⟩

/-! ### Sectors -/

/-- **Reading a sector** gives its bytes, over any drive that has it. -/
theorem readSector_reads (sector : u32) {error : Bool} (hd : d.left ≤ polls) (hphase : d.phase = .idle error)
    (hpause : d.pauses.headD 0 ≤ polls) (hsector : sector.toNat % 2 ^ 28 < d.count) (behind : u8) :
    ∃ d', readSector q (polls + 1) sector behind d =
        some (Filesystem.readSector (sector.toNat % 2 ^ 28) behind d.sectors, d') ∧
      Drive.Same d d' ∧ d'.left = 0 ∧ d'.phase = .idle false ∧ d'.pauses = d.pauses.tail := by
  obtain ⟨d', hread, hrest⟩ := readWords_reads (q := q) hd hphase hpause hsector
  refine ⟨d', ?_, hrest⟩
  rw [readSector, hread, Option.map_some, Option.some.injEq, Prod.mk.injEq]
  refine ⟨?_, rfl⟩
  funext k
  rw [Filesystem.readSector]
  split
  · rename_i hk
    exact bytesOf_wordsOf _ hk
  · rfl

/-- A drive of 100 sectors that pauses as told. -/
def someDrive (pauses : List Nat) : Drive where
  sectors := fun s k => BitVec.ofNat 8 (s + k)
  count := 100
  identity := fun w => BitVec.ofNat 16 (0x4100 + w)
  features := 0
  seccount := 0
  lba0 := 0
  lba1 := 0
  lba2 := 0
  device := 0
  phase := .idle false
  left := 0
  pauses := pauses

/-- A drive that ignores what is out of place. -/
def ignoring : Quirks := ⟨fun d => d, fun _ => 0xFFFF⟩

theorem readWords_missing_hundred : ∃ d' word, readWords ignoring 10 BUS_ADDR 0 100 (someDrive [7]) =
      some ((List.replicate 256 word, true), d') ∧
    Drive.Same (someDrive [7]) d' ∧ d'.left = 0 ∧ d'.phase = .idle true ∧ d'.pauses = [] :=
  readWords_missing (fun _ => rfl) (by decide) rfl (by decide) (by decide)

/-! ### Runs -/

/-- A sector to be read into a new buffer, or written from one. -/
inductive Request where
  | read (sector : u32) (behind : u8)
  | write (sector : u32) (buf : Nat → u8)

/-- The drive, and the buffers read from it, the last one first. -/
structure Host where
  drive : Drive
  answers : List (Nat → u8)

def step (q : Quirks) (polls : Nat) (h : Host) : Request → Option Host
  | .read sector behind => (readSector q polls sector behind h.drive).map fun r => ⟨r.2, r.1 :: h.answers⟩
  | .write sector buf => (writeSector q polls sector buf h.drive).map fun d => ⟨d, h.answers⟩

/-- The drive has the sector, and is ready for a sector to be written within one access. -/
def Serves (h : Host) : Request → Prop
  | .read sector _ => sector.toNat < h.drive.count
  | .write sector _ => sector.toNat < h.drive.count ∧ h.drive.pauses.headD 0 ≤ 1

instance decidableServes (h : Host) : ∀ r, Decidable (Serves h r)
  | .read sector _ => inferInstanceAs (Decidable (sector.toNat < h.drive.count))
  | .write sector _ => inferInstanceAs (Decidable (sector.toNat < h.drive.count ∧ h.drive.pauses.headD 0 ≤ 1))

/-- The same requests of a disk that is its bytes. -/
def serve (disk : Disk × List (Nat → u8)) : Request → Disk × List (Nat → u8)
  | .read sector behind => (disk.1, Filesystem.readSector sector.toNat behind disk.1 :: disk.2)
  | .write sector buf => (Filesystem.writeSector sector.toNat buf disk.1, disk.2)

/-- An idle drive whose pauses the driver waits for, of at most as many sectors as an
address can name. -/
structure Settled (polls : Nat) (d : Drive) : Prop where
  left : d.left ≤ polls
  idle : ∃ error, d.phase = .idle error
  pauses : ∀ p ∈ d.pauses, p ≤ polls
  count : d.count ≤ 2 ^ 28

/-- The host's drive holds the disk and gave what the disk gives. -/
structure Holds (polls : Nat) (h : Host) (disk : Disk × List (Nat → u8)) : Prop where
  settled : Settled polls h.drive
  sectors : h.drive.sectors = disk.1
  answers : h.answers = disk.2

theorem Holds.serve (hq : q.Ignores) {h : Host} {disk : Disk × List (Nat → u8)} (hh : Holds polls h disk) {r : Request}
    (hr : Serves h r) : ∃ t, step q (polls + 1) h r = some t ∧ Holds polls t (serve disk r) := by
  obtain ⟨error, hphase⟩ := hh.settled.idle
  have hcount := hh.settled.count
  cases r with
  | read sector behind =>
    have hsector : sector.toNat < h.drive.count := hr
    have hmod : sector.toNat % 2 ^ 28 = sector.toNat := Nat.mod_eq_of_lt (by omega)
    obtain ⟨d', hread, hsame, hleft, hidle, hpauses⟩ := readSector_reads (q := q) sector hh.settled.left hphase
      (headD_le hh.settled.pauses) (by rwa [hmod]) behind
    refine ⟨⟨d', _ :: h.answers⟩, by rw [step, hread]; rfl, ⟨?_, ⟨false, hidle⟩, ?_, ?_⟩, ?_, ?_⟩
    · rw [hleft]
      exact Nat.zero_le _
    · intro p hp
      rw [hpauses] at hp
      exact hh.settled.pauses p (List.mem_of_mem_tail hp)
    · rw [hsame.count]
      exact hcount
    · exact hsame.sectors.trans hh.sectors
    · rw [hmod, hh.sectors, hh.answers]
      rfl
  | write sector buf =>
    obtain ⟨hsector, hsoon⟩ := hr
    have hmod : sector.toNat % 2 ^ 28 = sector.toNat := Nat.mod_eq_of_lt (by omega)
    obtain ⟨d', hwrite, hleft, hcount', _, hsuffix, hdone⟩ := writeSector_writes hq sector hh.settled.left hphase
      hh.settled.pauses (by rwa [hmod]) buf
    rw [if_pos hsoon, hmod, hh.sectors] at hdone
    refine ⟨⟨d', h.answers⟩, by rw [step, hwrite]; rfl, ⟨?_, ⟨false, hdone.2⟩, ?_, ?_⟩, hdone.1, hh.answers⟩
    · rw [hleft]
      exact Nat.zero_le _
    · intro p hp
      exact hh.settled.pauses p (hsuffix.subset hp)
    · rw [hcount']
      exact hcount

/-- **The driver and the drive together are a disk of bytes**: in every run of requests the
drive serves, what was read is what the disk holds. -/
theorem disk_refines (hq : q.Ignores) {d : Drive} (hd : Settled polls d) {rs : List Request} {h : Host}
    (hrun : Run (step q (polls + 1)) Serves ⟨d, []⟩ rs h) :
    h.drive.sectors = (rs.foldl serve (d.sectors, [])).1 ∧ h.answers = (rs.foldl serve (d.sectors, [])).2 ∧
      ∀ r, Serves h r → ∃ t, step q (polls + 1) h r = some t := by
  have hholds : Holds polls h (rs.foldl serve (d.sectors, [])) := by
    refine hrun.simulates serve (Holds polls) (fun s r t disk hs hr ht => ?_) ⟨hd, rfl, rfl⟩
    obtain ⟨t', ht', hholds⟩ := hs.serve hq hr
    obtain rfl := Option.some.inj (ht'.symm.trans ht)
    exact hholds
  refine ⟨hholds.sectors, hholds.answers, fun r hr => ?_⟩
  obtain ⟨t, ht, _⟩ := hholds.serve hq hr
  exact ⟨t, ht⟩

/-- A sector written and read back, over a drive that takes its time. -/
theorem disk_refines_two : ∃ h, Run (step ignoring 10) Serves ⟨someDrive [0, 5, 0, 3], []⟩
      [.write 3 fun _ => 7, .read 3 0] h ∧
    h.answers = [Filesystem.readSector 3 0 (Filesystem.writeSector 3 (fun _ => 7) (someDrive []).sectors)] := by
  have hsettled : Settled 9 (someDrive [0, 5, 0, 3]) := ⟨by decide, ⟨false, rfl⟩, by decide, by decide⟩
  have hfollow : (follow (step ignoring 10) Serves ⟨someDrive [0, 5, 0, 3], []⟩
      [.write 3 fun _ => 7, .read 3 0]).isSome = true := by
    decide +kernel
  obtain ⟨h, hh⟩ := Option.isSome_iff_exists.mp hfollow
  have hrun := run_iff_follow.mpr hh
  exact ⟨h, hrun, (disk_refines (fun _ => rfl) hsettled hrun).2.1⟩

end IDE

end UntitledOS.Filesystem
