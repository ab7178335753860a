import UntitledOS.Filesystem.IdeRuns

/-! What `init` finds out about the drive.

The words of IDENTIFY hold text with the first character in the high byte, so the bytes
of the record are swapped in pairs before the model is printed. The terminator written
behind the model is inside the next field, which nothing reads; the sizes that are
printed are the drive's (`init_identifies`). -/
namespace UntitledOS.Filesystem
open Lib Lib.Ata

namespace IDE

/-! ### The model -/

/-- Character `i` of the model, of which the record has two in a word from word 27 on. -/
def modelChar (identity : Nat → u16) (i : Nat) : u8 :=
  if i % 2 = 0 then (identity (27 + i / 2) >>> 8).setWidth 8 else (identity (27 + i / 2)).setWidth 8

/-- The bytes of the model change places in pairs, the byte behind them is cleared. -/
theorem swapModel_eq (n : Nat) {i : Nat} (hi : i + 2 * n = 40) (bytes : Nat → u8) (k : Nat) :
    swapModel bytes i n k =
      if k = IDENT_MODEL + 40 then 0
      else if IDENT_MODEL + i ≤ k ∧ k < IDENT_MODEL + 40 then bytes (if k % 2 = 0 then k + 1 else k - 1)
      else bytes k := by
  unfold IDENT_MODEL
  induction n generalizing i bytes with
  | zero =>
    rw [swapModel, Function.update_apply, IDENT_MODEL]
    split
    · rfl
    · rw [if_neg (by omega)]
  | succ n ih =>
    rw [swapModel]
    dsimp only
    rw [ih (by omega)]
    unfold IDENT_MODEL
    have heven : i % 2 = 0 := by omega
    have hat : ∀ j, Function.update (Function.update bytes (54 + (i + 1)) (bytes (54 + i))) (54 + i)
        (bytes (54 + (i + 1))) j =
          if j = 54 + i then bytes (54 + i + 1) else if j = 54 + i + 1 then bytes (54 + i) else bytes j := by
      intro j
      rw [Function.update_apply, Function.update_apply, ← Nat.add_assoc]
    simp only [hat]
    by_cases hend : k = 54 + 40
    · rw [if_pos hend, if_pos hend]
    · rw [if_neg hend, if_neg hend]
      -- the pair swapped first, the pairs after it, and what is outside
      by_cases hfirst : k = 54 + i
      · rw [if_neg (show ¬(54 + (i + 2) ≤ k ∧ k < 54 + 40) by omega), if_pos hfirst,
          if_pos (show 54 + i ≤ k ∧ k < 54 + 40 by omega), if_pos (show k % 2 = 0 by omega), hfirst]
      · by_cases hsecond : k = 54 + i + 1
        · rw [if_neg (show ¬(54 + (i + 2) ≤ k ∧ k < 54 + 40) by omega), if_neg hfirst, if_pos hsecond,
            if_pos (show 54 + i ≤ k ∧ k < 54 + 40 by omega), if_neg (show ¬k % 2 = 0 by omega), hsecond,
            Nat.add_sub_cancel]
        · by_cases hin : 54 + (i + 2) ≤ k ∧ k < 54 + 40
          · rw [if_pos hin, if_pos (show 54 + i ≤ k ∧ k < 54 + 40 by omega)]
            by_cases hparity : k % 2 = 0
            · rw [if_pos hparity, if_neg (show ¬k + 1 = 54 + i by omega), if_neg (show ¬k + 1 = 54 + i + 1 by omega)]
            · rw [if_neg hparity, if_neg (show ¬k - 1 = 54 + i by omega), if_neg (show ¬k - 1 = 54 + i + 1 by omega)]
          · rw [if_neg hin, if_neg hfirst, if_neg hsecond, if_neg (show ¬(54 + i ≤ k ∧ k < 54 + 40) by omega)]

theorem cStringAt_eq (bytes : Nat → u8) (n k : Nat) :
    cStringAt bytes k n = ((List.range' k n).map bytes).takeWhile (· ≠ 0) := by
  induction n generalizing k with
  | zero => rfl
  | succ n ih =>
    rw [cStringAt, ih, List.range'_succ, List.map_cons, List.takeWhile_cons]
    split <;> simp_all

/-- A string ends at its terminator. -/
theorem takeWhile_terminated (l : List u8) : (l ++ [0]).takeWhile (· ≠ 0) = l.takeWhile (· ≠ 0) := by
  induction l with
  | nil => rfl
  | cons c l ih =>
    rw [List.cons_append, List.takeWhile_cons, List.takeWhile_cons, ih]

theorem bytesOf_identity (identity : Nat → u16) {k : Nat} (hk : k < 512) :
    bytesOf ((List.range 256).map identity) k =
      if k % 2 = 0 then (identity (k / 2)).setWidth 8 else (identity (k / 2) >>> 8).setWidth 8 := by
  have hword : ((List.range 256).map identity).getD (k / 2) 0 = identity (k / 2) := by
    rw [List.getD_eq_getElem?_getD, List.getElem?_map, List.getElem?_range (by omega)]
    rfl
  rw [bytesOf, hword]

/-- Two words, low word first. -/
def doubleWord (identity : Nat → u16) (w : Nat) : u32 :=
  (identity (w + 1)).setWidth 32 <<< 16 ||| (identity w).setWidth 32

/-- What the drive says of itself. -/
def described (identity : Nat → u16) : Identified :=
  ⟨((List.range 40).map (modelChar identity)).takeWhile (· ≠ 0), doubleWord identity 100, doubleWord identity 60,
    doubleWord identity 60 / 2 / 1024⟩

theorem word32_eq (identity : Nat → u16) {bytes : Nat → u8} {w : Nat} (hw : w < 255)
    (hbytes : ∀ k, 2 * w ≤ k → k < 2 * w + 4 → bytes k = bytesOf ((List.range 256).map identity) k) :
    word32 bytes (2 * w) = doubleWord identity w := by
  have hread : ∀ j < 4, bytes (2 * w + j) =
      if j % 2 = 0 then (identity (w + j / 2)).setWidth 8 else (identity (w + j / 2) >>> 8).setWidth 8 := by
    intro j hj
    rw [hbytes _ (by omega) (by omega), bytesOf_identity _ (by omega), show (2 * w + j) % 2 = j % 2 by omega,
      show (2 * w + j) / 2 = w + j / 2 by omega]
  rw [word32, show bytes (2 * w) = bytes (2 * w + 0) from rfl, hread 0 (by omega), hread 1 (by omega),
    hread 2 (by omega), hread 3 (by omega)]
  apply BitVec.eq_of_getLsbD_eq
  intro i hi
  have hhigh : 16 ≤ i → (identity w).getLsbD i = false := BitVec.getLsbD_of_ge _ _
  simp only [doubleWord, Nat.reduceMod, Nat.reduceDiv, if_true, Nat.add_zero, BitVec.getLsbD_or,
    BitVec.getLsbD_shiftLeft, BitVec.getLsbD_setWidth, hi, decide_true, Bool.true_and]
  -- byte by byte
  by_cases h8 : i < 8
  · simp [h8, show i < 16 by omega, show i < 24 by omega]
  · by_cases h16 : i < 16
    · simp [h8, h16, show i < 24 by omega, show i - 8 < 8 by omega, show 8 + (i - 8) = i by omega,
        show i - 8 < 32 by omega]
    · by_cases h24 : i < 24
      · simp [h8, h16, h24, hhigh (by omega), show ¬i - 8 < 8 by omega, show i - 16 < 8 by omega,
          show i - 16 < 16 by omega, show i - 16 < 32 by omega]
      · simp [h8, h16, h24, hhigh (by omega), show ¬i - 8 < 8 by omega, show ¬i - 16 < 8 by omega,
          show i - 24 < 8 by omega, show i - 16 < 16 by omega, show 8 + (i - 24) = i - 16 by omega,
          show i - 24 < 32 by omega, show i - 16 < 32 by omega]

theorem identified_eq (identity : Nat → u16) :
    identified (bytesOf ((List.range 256).map identity)) = described identity := by
  have hswap := swapModel_eq 20 (i := 0) (by decide) (bytesOf ((List.range 256).map identity))
  have hmodel : cStringAt (swapModel (bytesOf ((List.range 256).map identity)) 0 20) IDENT_MODEL 41 =
      ((List.range 40).map (modelChar identity)).takeWhile (· ≠ 0) := by
    rw [cStringAt_eq, List.range'_1_concat, List.map_append, List.map_singleton, hswap, if_pos (by rfl),
      takeWhile_terminated, List.range'_eq_map_range, List.map_map]
    refine congrArg _ (List.map_congr_left fun i hi => ?_)
    have hi := List.mem_range.mp hi
    rw [Function.comp_apply, hswap, IDENT_MODEL, if_neg (show ¬54 + i = 54 + 40 by omega),
      if_pos (show 54 + 0 ≤ 54 + i ∧ 54 + i < 54 + 40 by omega), modelChar]
    by_cases hparity : i % 2 = 0
    · rw [if_pos (show (54 + i) % 2 = 0 by omega), if_pos hparity, bytesOf_identity _ (by omega),
        if_neg (show ¬(54 + i + 1) % 2 = 0 by omega), show (54 + i + 1) / 2 = 27 + i / 2 by omega]
    · rw [if_neg (show ¬(54 + i) % 2 = 0 by omega), if_neg hparity, bytesOf_identity _ (by omega),
        if_pos (show (54 + i - 1) % 2 = 0 by omega), show (54 + i - 1) / 2 = 27 + i / 2 by omega]
  have hafter : ∀ k, IDENT_MODEL + 40 < k → swapModel (bytesOf ((List.range 256).map identity)) 0 20 k =
      bytesOf ((List.range 256).map identity) k := by
    intro k hk
    rw [hswap, if_neg (by omega), if_neg (by omega)]
  have h28 := word32_eq identity (w := 60) (by decide) fun k hk _ => hafter k (by rw [IDENT_MODEL]; omega)
  have h48 := word32_eq identity (w := 100) (by decide) fun k hk _ => hafter k (by rw [IDENT_MODEL]; omega)
  rw [identified, hmodel, show 120 = 2 * 60 by decide, show 200 = 2 * 100 by decide, h28, h48]
  rfl

/-! ### The call -/

/-- **`init` prints what the drive says of itself**, and leaves the drive idle. -/
theorem init_identifies {q : Quirks} {d : Drive} {polls : Nat} {error : Bool} (hleft : d.left = 0)
    (hphase : d.phase = .idle error) (hpause : d.pauses.headD 0 ≤ polls) :
    ∃ d', init q (polls + 1) BUS_ADDR d = some (described d.identity, d') ∧ Drive.Same d d' ∧ d'.left = 0 ∧
      d'.phase = .idle false ∧ d'.pauses = d.pauses.tail := by
  -- the registers written before the command
  have hfeatures : outb q (BUS_ADDR + 1) 1 d = {d with features := 1} := by
    show d.writeRegister q 1 1 = _
    simp only [Drive.writeRegister, hleft, hphase]
  have hcontrol : outb q (BUS_ADDR + 0x306) 0 {d with features := 1} = {d with features := 1} :=
    Drive.tick_ready (d := {d with features := 1}) hleft
  have hselect : ataSelect q BUS_ADDR {d with features := 1} = {d with features := 1, device := 0xA0} := by
    show Drive.writeRegister q 6 0xA0 {d with features := 1} = _
    simp only [Drive.writeRegister, hleft, hphase]
  have hwait : ataIOwait BUS_ADDR {d with features := 1, device := 0xA0} = {d with features := 1, device := 0xA0} := by
    rw [ataIOwait_eq]
    dsimp only
    rw [hleft]
  -- the command, and the drive that has its words to send
  generalize hasked : ({d with features := 1, device := 0xA0} : Drive) = asked at hselect hwait
  obtain ⟨hsame, hready, hidle, hnext⟩ : Drive.Same d asked ∧ asked.left = 0 ∧ asked.phase = .idle error ∧
      asked.pauses = d.pauses := by
    subst hasked
    exact ⟨⟨rfl, rfl, rfl⟩, hleft, hphase, rfl⟩
  have hcommand : outb q (BUS_ADDR + REG_COMMAND) CMD_IDENTIFY asked =
      asked.pause (.sending ((List.range 256).map d.identity)) := by
    rw [command_idle hready hidle, ← hsame.identity]
    exact Drive.execute_identify
  have hpolled : ataWaitReady BUS_ADDR (polls + 1) (inb (BUS_ADDR + REG_COMMAND) (ataIOwait BUS_ADDR
      (asked.pause (.sending ((List.range 256).map d.identity))))).2 =
        some {asked.pause (.sending ((List.range 256).map d.identity)) with left := 0} := by
    rw [ataWaitReady_ready]
    · rfl
    · show asked.pauses.headD 0 - 4 - 1 ≤ polls
      rw [hnext]
      omega
  have hlength : ((List.range 256).map d.identity).length = 256 := by rw [List.length_map, List.length_range]
  have hidentified := identified_eq d.identity
  generalize (List.range 256).map d.identity = words at hcommand hpolled hlength hidentified
  have hne : words ≠ [] := by
    rintro rfl
    cases hlength
  have hsent := insm_sending (q := q) (d := {asked.pause (.sending words) with left := 0}) hne rfl rfl
  rw [hlength] at hsent
  refine ⟨{asked.pause (.sending words) with left := 0, phase := .idle false}, ?_, ?_, rfl, rfl, ?_⟩
  · rw [init]
    dsimp only
    rw [hfeatures, hcontrol, hselect, hwait, hcommand, hpolled, Option.map_some, hsent]
    dsimp only
    rw [hidentified]
    rfl
  · exact hsame.trans ⟨rfl, rfl, rfl⟩
  · show asked.pauses.tail = _
    rw [hnext]

theorem init_identifies_slow : ∃ d', init ignoring 10 BUS_ADDR (someDrive [7]) =
      some (described (someDrive [7]).identity, d') ∧ Drive.Same (someDrive [7]) d' ∧ d'.left = 0 ∧
    d'.phase = .idle false ∧ d'.pauses = [] :=
  init_identifies rfl rfl (by decide)

end IDE

end UntitledOS.Filesystem
