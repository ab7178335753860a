import UntitledOS.Memory.PmmRuns

/-! Allocation of a run of frames.

What a caller wants is the lowest run of clear frames below `maxBlocks`, taken and
counted, or null and nothing changed (`Allocates`). `allocBlock` gives that for one frame
as long as the frame is in a word that is scanned and has an address
(`allocBlock_allocates`): the words scanned end at the last multiple of 32.

`allocBlocks` refuses to give the last frames away, and its search looks elsewhere than at
the run: to decide on frame `f`, bit `j` of its word, it counts the clear frames among the
`n + 1` from `2 ^ j` behind the word's start on, and is content with `n` of them. For bit
31 the number is negative, and there is no map to look at. What it does is right exactly
if this other place happens to decide right (`allocBlocks_allocates`). -/
namespace UntitledOS.Memory
open Lib

namespace PMM

/-! ### The code -/

/-- `mmapTest`. A bit number is an `int`; a negative one leads to where no memory is. -/
def mmapTest (bit : u32) (m : PMM) : Option Bool :=
  if bit.msb then none else some (m.memoryMap (bit.toNat / 32) &&& 1#32 <<< (bit.toNat % 32) ≠ 0#32)

/-- The loop of `mmapFirstFreeS` over the bits from `startingBit + count` on, `n` of them
at most: whether enough are clear. -/
def countFree (startingBit size : u32) (m : PMM) : Nat → u32 → u32 → Option Bool
  | 0, _, _ => some false
  | n + 1, count, free => (m.mmapTest (startingBit + count)).bind fun set =>
    let free := if set then free else free + 1
    if free = size then some true else countFree startingBit size m n (count + 1) free

/-- `i * 32 + bit`, for the bit's mask `bit`. -/
def startingBit (i j : Nat) : u32 := BitVec.ofNat 32 (i * 32) + 1#32 <<< j

/-- What the search does at a clear frame, bit `j` of word `i`: it goes on, or ends with
the frame, or it reads where no memory is. -/
def tryFrame (size : u32) (m : PMM) (frame : Nat) : Option (Option Nat) :=
  (m.countFree (startingBit (frame / 32) (frame % 32)) size (size.toNat + 1) 0 0).elim (some none)
    fun enough => if enough then some (some frame) else none

/-- `mmapFirstFreeS`, with a result of its own for -1. -/
def mmapFirstFreeS (size : u32) (m : PMM) : Option (Option Nat) :=
  if size = 0 then some none
  else if size = 1 then some m.mmapFirstFree
  else
    ((List.range (m.maxBlocks / 32).toNat).findSome? fun i => if m.memoryMap i ≠ 0xffffffff then
      (List.range 32).findSome? fun j =>
        if m.memoryMap i &&& 1#32 <<< j = 0#32 then m.tryFrame size (i * 32 + j) else none
    else none).elim (some none) fun r => r.map some

/-- The loop of `allocBlocks` that takes the frames. -/
def setBits (frame : Nat) : Nat → PMM → PMM
  | 0, m => m
  | n + 1, m => setBits (frame + 1) n (m.mmapSet frame)

def allocBlocks (size : u32) (m : PMM) : Option (PMM × Addr) :=
  if m.maxBlocks - m.usedBlocks ≤ size then some (m, 0)
  else (m.mmapFirstFreeS size).map fun frame => frame.elim (m, 0) fun frame =>
    ({m.setBits frame size.toNat with usedBlocks := m.usedBlocks + size}, BitVec.ofNat 32 (frame * 4096))

/-! ### What is wanted -/

/-- The `n` frames from `f` on are clear, and there are that many. -/
def IsRun (m : PMM) (n f : Nat) : Prop :=
  f + n ≤ m.maxBlocks.toNat ∧ ∀ g, f ≤ g → g < f + n → m.bit g = false

structure LowestRun (m : PMM) (n f : Nat) : Prop where
  run : m.IsRun n f
  lowest : ∀ g < f, ¬m.IsRun n g

/-- The frames from `f` on were taken, these and no other, and counted. -/
structure Takes (m : PMM) (n : u32) (f : Nat) (r : PMM × Addr) : Prop where
  address : r.2.toNat = 4096 * f
  bits : ∀ g, r.1.bit g = (decide (f ≤ g ∧ g < f + n.toNat) || m.bit g)
  counted : r.1.usedBlocks = m.usedBlocks + n
  size : r.1.maxBlocks = m.maxBlocks

/-- The lowest run is taken if there is one, and nothing changes if there is none. -/
structure Allocates (m : PMM) (n : u32) (r : PMM × Addr) : Prop where
  found : ∀ f, m.LowestRun n.toNat f → Takes m n f r
  exhausted : (∀ f, ¬m.IsRun n.toNat f) → r = (m, 0)

section Runs
variable {m : PMM} {n f g : Nat}

theorem isRun_one : m.IsRun 1 f ↔ f < m.maxBlocks.toNat ∧ m.bit f = false := by
  refine and_congr Nat.succ_le_iff ⟨fun h => h f (le_refl f) (Nat.lt_succ_self f), fun h g hlow hhigh => ?_⟩
  rwa [show g = f by omega]

theorem LowestRun.unique (hf : m.LowestRun n f) (hg : m.LowestRun n g) : f = g := by
  by_contra hne
  rcases Nat.lt_or_gt_of_ne hne with hlt | hlt
  · exact hg.lowest f hlt hf.run
  · exact hf.lowest g hlt hg.run

/-- If there is a run, there is a lowest one. -/
theorem exists_lowestRun (h : m.IsRun n f) : ∃ g, m.LowestRun n g := by
  classical
  have hex : ∃ g, m.IsRun n g := ⟨f, h⟩
  exact ⟨Nat.find hex, Nat.find_spec hex, fun g hg => Nat.find_min hex hg⟩

theorem LowestRun.bit_below (h : m.LowestRun 1 f) (hg : g < f) : m.bit g = true := by
  have hmax : f < m.maxBlocks.toNat := (isRun_one.mp h.run).1
  by_contra hclear
  exact h.lowest g hg (isRun_one.mpr ⟨hg.trans hmax, by simpa using hclear⟩)

end Runs

/-! ### One frame -/

section One
variable {m : PMM} {f : Nat}

/-- The head room is the number of clear frames. -/
theorem headRoom_toNat (hcount : m.usedBlocks.toNat = m.used) :
    (m.maxBlocks - m.usedBlocks).toNat = m.maxBlocks.toNat - m.used := by
  have hle : m.usedBlocks ≤ m.maxBlocks := by
    rw [BitVec.le_def, hcount]
    exact used_le m
  rw [BitVec.toNat_sub_of_le hle, hcount]

theorem used_lt (hf : f < m.maxBlocks.toNat) (hclear : m.bit f = false) : m.used < m.maxBlocks.toNat := by
  have hset := used_mmapSet hclear hf
  have hle : (m.mmapSet f).used ≤ m.maxBlocks.toNat := used_le _
  omega

theorem used_full (h : ∀ f, ¬m.IsRun 1 f) : m.used = m.maxBlocks.toNat := by
  refine Bitmap.count_full fun f hf => ?_
  by_contra hclear
  exact h f (isRun_one.mpr ⟨hf, by simpa [bit] using hclear⟩)

theorem mmapFirstFree_lowest (h : m.LowestRun 1 f) (hf : f < m.maxBlocks.toNat / 32 * 32) :
    m.mmapFirstFree = some f := by
  have hclear := (isRun_one.mp h.run).2
  cases hfind : m.mmapFirstFree with
  | none =>
    have := mmapFirstFree_none hfind f hf
    simp [hclear] at this
  | some g =>
    obtain ⟨hg, hgclear, hbefore⟩ := mmapFirstFree_some hfind
    have hlow : m.LowestRun 1 g := by
      refine ⟨isRun_one.mpr ⟨by omega, hgclear⟩, fun k hk hrun => ?_⟩
      have := hbefore k hk
      simp [(isRun_one.mp hrun).2] at this
    rw [hlow.unique h]

theorem mmapFirstFree_full (h : ∀ g < m.maxBlocks.toNat / 32 * 32, m.bit g = true) : m.mmapFirstFree = none := by
  cases hfind : m.mmapFirstFree with
  | none => rfl
  | some g =>
    obtain ⟨hg, hclear, -⟩ := mmapFirstFree_some hfind
    simp [h g hg] at hclear

/-- Null takes nothing. -/
theorem not_takes_null {n : u32} (hn : 0 < n.toNat) (h : m.IsRun n.toNat f) : ¬Takes m n f (m, 0) := by
  intro htakes
  have hbit := htakes.bits f
  rw [h.2 f (le_refl f) (by omega)] at hbit
  simp [hn] at hbit

theorem allocBlock_none (h : m.mmapFirstFree = none) : m.allocBlock = (m, 0) := by
  rw [allocBlock, h]
  split <;> rfl

theorem takes_mmapSet (hf : f < 2 ^ 20) :
    Takes m 1 f ({m.mmapSet f with usedBlocks := m.usedBlocks + 1}, BitVec.ofNat 32 (f * 4096)) := by
  refine ⟨?_, fun g => ?_, rfl, rfl⟩
  · rw [address_toNat hf, Nat.mul_comm]
  · have hone : f ≤ g ∧ g < f + (1 : u32).toNat ↔ g = f := by
      rw [show (1 : u32).toNat = 1 from rfl]
      omega
    rw [decide_eq_decide.mpr hone]
    exact bit_mmapSet f g m

theorem allocBlock_exhausted (h : ∀ f, ¬m.IsRun 1 f) : m.allocBlock = (m, 0) := by
  refine allocBlock_none (mmapFirstFree_full fun g hg => ?_)
  by_contra hclear
  exact h g (isRun_one.mpr ⟨by omega, by simpa using hclear⟩)

theorem allocBlock_found (hcount : m.usedBlocks.toNat = m.used) (h : m.LowestRun 1 f)
    (hscanned : f < m.maxBlocks.toNat / 32 * 32) (hsmall : f < 2 ^ 20) : Takes m 1 f m.allocBlock := by
  obtain ⟨hf, hclear⟩ := isRun_one.mp h.run
  have hroom : ¬m.maxBlocks - m.usedBlocks ≤ 0 := by
    have hpos := used_lt hf hclear
    rw [BitVec.le_def, headRoom_toNat hcount]
    show ¬_ ≤ 0
    omega
  rw [allocBlock, if_neg hroom, mmapFirstFree_lowest h hscanned]
  exact takes_mmapSet hsmall

theorem scanned_of_takes (h : m.LowestRun 1 f) (htakes : Takes m 1 f m.allocBlock) :
    f < m.maxBlocks.toNat / 32 * 32 ∧ f < 2 ^ 20 := by
  have haddr := htakes.address
  refine ⟨?_, by omega⟩
  by_contra hlast
  have hfull : m.mmapFirstFree = none := mmapFirstFree_full fun g hg => h.bit_below (by omega)
  rw [allocBlock_none hfull] at htakes
  exact not_takes_null (by decide) h.run htakes

end One

/-- **`allocBlock` gives the lowest clear frame there is, exactly when that frame is in one
of the words scanned and has an address.** -/
theorem allocBlock_allocates {m : PMM} (hcount : m.usedBlocks.toNat = m.used) :
    m.Allocates 1 m.allocBlock ↔
      ∀ f, m.LowestRun 1 f → f < m.maxBlocks.toNat / 32 * 32 ∧ f < 2 ^ 20 := by
  constructor
  · intro h f hlow
    exact scanned_of_takes hlow (h.found f hlow)
  · intro h
    exact ⟨fun f hlow => allocBlock_found hcount hlow (h f hlow).1 (h f hlow).2, allocBlock_exhausted⟩

/-- Two words, with their first frames in use. -/
theorem allocBlock_allocates_two : Allocates ⟨fun _ => 1, 2, 64⟩ 1 (allocBlock ⟨fun _ => 1, 2, 64⟩) := by
  refine (allocBlock_allocates (by decide +kernel)).mpr fun f hlow => ?_
  have hfirst : IsRun ⟨fun _ => 1, 2, 64⟩ 1 1 := isRun_one.mpr (by decide)
  have hle : f ≤ 1 := Nat.le_of_not_lt fun hlt => hlow.lowest 1 hlt hfirst
  have hscanned : (64 : u32).toNat / 32 * 32 = 64 := rfl
  exact ⟨by simp only [hscanned]; omega, by omega⟩

/-- 33 frames, the last of them clear. -/
def lastOf33 : PMM := ⟨fun i => if i = 0 then 0xffffffff else 0, 32, 33⟩

theorem allocBlock_last_frame : ¬ ∀ m : PMM, m.usedBlocks.toNat = m.used → m.bit 0 = true →
    m.Allocates 1 m.allocBlock := by
  intro h
  have hset : ∀ g < 32, lastOf33.bit g = true := by decide
  have hlow : lastOf33.LowestRun 1 32 := by
    refine ⟨isRun_one.mpr (by decide), fun g hg hrun => ?_⟩
    have := hset g hg
    simp [(isRun_one.mp hrun).2] at this
  have hfull : lastOf33.mmapFirstFree = none := mmapFirstFree_full hset
  have htakes := (h lastOf33 (by decide +kernel) (hset 0 (by decide))).found 32 hlow
  rw [allocBlock_none hfull] at htakes
  exact not_takes_null (by decide) hlow.run htakes

/-! ### The search for a run -/

/-- How many of the `k` frames from `p` on are clear. -/
def clearCount (m : PMM) (p k : Nat) : Nat := (List.range' p k).countP fun g => !m.bit g

/-- Where the search looks to decide on a frame. -/
def windowStart (frame : Nat) : Nat := (frame / 32 * 32 + 2 ^ (frame % 32)) % 2 ^ 32

/-- Of the `n + 1` frames there, `n` are clear; only numbers that are not negative count. -/
def Accepts (m : PMM) (n frame : Nat) : Prop :=
  n ≤ m.clearCount (windowStart frame) (min (n + 1) (2 ^ 31 - windowStart frame))

/-- Fewer are, and all `n + 1` could be looked at. -/
def Refuses (m : PMM) (n frame : Nat) : Prop := ¬m.Accepts n frame ∧ windowStart frame + n < 2 ^ 31

instance (m : PMM) (n frame : Nat) : Decidable (m.Accepts n frame) :=
  inferInstanceAs (Decidable (_ ≤ _))

instance (m : PMM) (n frame : Nat) : Decidable (m.Refuses n frame) :=
  inferInstanceAs (Decidable (_ ∧ _))

section Search
variable {m : PMM} {size : u32}

theorem clearCount_succ (m : PMM) (p k : Nat) :
    m.clearCount p (k + 1) = m.clearCount (p + 1) k + if m.bit p then 0 else 1 := by
  rw [clearCount, List.range'_succ, List.countP_cons, clearCount]
  cases m.bit p <;> rfl

theorem mmapTest_eq {p : Nat} (hp : p < 2 ^ 31) : m.mmapTest (BitVec.ofNat 32 p) = some (m.bit p) := by
  have hnat : (BitVec.ofNat 32 p).toNat = p := by
    rw [BitVec.toNat_ofNat, Nat.mod_eq_of_lt (by omega)]
  have hmsb : (BitVec.ofNat 32 p).msb = false := by
    rw [BitVec.msb_eq_decide, hnat, decide_eq_false_iff_not]
    omega
  rw [mmapTest, hmsb, if_neg Bool.false_ne_true, hnat]
  refine congrArg some ?_
  have hmask := Bitmap.mask_eq_zero (Nat.mod_lt p (by decide : 0 < 32)) (m.memoryMap (p / 32))
  show decide (_ ≠ 0#32) = Bitmap.bit m.memoryMap p
  cases hbit : Bitmap.bit m.memoryMap p with
  | false => simpa using hmask.mpr hbit
  | true =>
    rw [decide_eq_true_iff]
    intro hzero
    rw [Bitmap.bit, hmask.mp hzero] at hbit
    cases hbit

theorem mmapTest_negative {bit : u32} (h : 2 ^ 31 ≤ bit.toNat) : m.mmapTest bit = none := by
  rw [mmapTest, if_pos]
  rw [BitVec.msb_eq_decide, decide_eq_true_iff]
  omega

/-- The loop from frame `p` on, with fewer clear ones found than asked for. -/
theorem countFree_eq {start count free : u32} {p : Nat} (k : Nat) (hp : start + count = BitVec.ofNat 32 p)
    (hle : p ≤ 2 ^ 31) (hfree : free.toNat < size.toNat) :
    m.countFree start size k count free =
      if size.toNat ≤ free.toNat + m.clearCount p (min k (2 ^ 31 - p)) then some true
      else if p + k ≤ 2 ^ 31 then some false else none := by
  induction k generalizing count free p with
  | zero =>
    rw [countFree, Nat.zero_min, if_neg (by simp [clearCount]; omega), if_pos (by omega)]
  | succ k ih =>
    rw [countFree, hp]
    by_cases hend : p = 2 ^ 31
    · -- the next number is negative
      subst hend
      rw [mmapTest_negative (by decide), Nat.sub_self, Nat.min_zero, if_neg (by simp [clearCount]; omega),
        if_neg (by omega)]
      rfl
    · have hmin : min (k + 1) (2 ^ 31 - p) = min k (2 ^ 31 - (p + 1)) + 1 := by omega
      have hnext : start + (count + 1) = BitVec.ofNat 32 (p + 1) := by
        rw [← add_assoc, hp, BitVec.ofNat_add]
        rfl
      rw [mmapTest_eq (by omega), Option.bind_some, hmin, clearCount_succ]
      cases hbit : m.bit p with
      | true =>
        have hmore : ¬free = size := by
          intro heq
          rw [heq] at hfree
          omega
        simp only [if_true, if_neg hmore]
        rw [ih hnext (by omega) hfree, show p + 1 + k = p + (k + 1) by omega]
        rfl
      | false =>
        have hone : (free + 1).toNat = free.toNat + 1 := by
          have := size.isLt
          rw [BitVec.toNat_add, Nat.mod_eq_of_lt (by simp; omega)]
          rfl
        simp only [Bool.false_eq_true, if_false]
        by_cases hlast : free + 1 = size
        · rw [if_pos hlast, if_pos]
          rw [← hlast, hone]
          omega
        · have hmore : (free + 1).toNat < size.toNat := by
            have hne : (free + 1).toNat ≠ size.toNat := fun h => hlast (BitVec.eq_of_toNat_eq h)
            omega
          rw [if_neg hlast, ih hnext (by omega) hmore, hone, show p + 1 + k = p + (k + 1) by omega,
            Nat.add_assoc, Nat.add_comm 1]

theorem startingBit_toNat (frame : Nat) :
    (startingBit (frame / 32) (frame % 32)).toNat = windowStart frame := by
  have hmask : (1#32 <<< (frame % 32)).toNat = 2 ^ (frame % 32) := by
    rw [← BitVec.twoPow_eq, BitVec.toNat_twoPow_of_lt (Nat.mod_lt _ (by decide))]
  rw [startingBit, BitVec.toNat_add, hmask, BitVec.toNat_ofNat, windowStart, Nat.mod_add_mod]

/-- What the search makes of a frame, by what it finds elsewhere. -/
theorem tryFrame_eq (hsize : 0 < size.toNat) (frame : Nat) :
    m.tryFrame size frame = if m.Accepts size.toNat frame then some (some frame)
      else if m.Refuses size.toNat frame then none else some none := by
  have hstart := startingBit_toNat frame
  have hcount : m.countFree (startingBit (frame / 32) (frame % 32)) size (size.toNat + 1) 0 0 =
      if m.Accepts size.toNat frame then some true else if windowStart frame + size.toNat < 2 ^ 31 then some false
      else none := by
    by_cases hneg : windowStart frame ≤ 2 ^ 31
    · have hp : startingBit (frame / 32) (frame % 32) + 0 = BitVec.ofNat 32 (windowStart frame) := by
        rw [add_zero, ← hstart, BitVec.ofNat_toNat, BitVec.setWidth_eq]
      have hnone : (0 : u32).toNat < size.toNat := hsize
      rw [countFree_eq (size.toNat + 1) hp hneg hnone]
      simp only [Accepts, show (0 : u32).toNat = 0 from rfl, Nat.zero_add, Nat.lt_iff_add_one_le, Nat.add_assoc]
    · have hnone : 2 ^ 31 - windowStart frame = 0 := by omega
      rw [countFree, add_zero, mmapTest_negative (by omega), Option.bind_none, if_neg, if_neg (by omega)]
      rw [Accepts, hnone, Nat.min_zero]
      simp [clearCount]
      omega
  rw [tryFrame, hcount]
  by_cases haccepts : m.Accepts size.toNat frame
  · rw [if_pos haccepts, if_pos haccepts]
    rfl
  · rw [if_neg haccepts, if_neg haccepts]
    by_cases hin : windowStart frame + size.toNat < 2 ^ 31
    · rw [if_pos hin, if_pos ⟨haccepts, hin⟩]
      rfl
    · rw [if_neg hin, if_neg fun h => hin h.2]
      rfl

/-- The frames that are looked at, below the last multiple of 32. -/
theorem mmapFirstFreeS_eq (hsize : 2 ≤ size.toNat) : m.mmapFirstFreeS size =
    (Bitmap.firstTested m.memoryMap (m.tryFrame size) (m.maxBlocks.toNat / 32 * 32)).elim (some none)
      fun r => r.map some := by
  have hzero : size ≠ 0 := by
    intro h
    rw [h] at hsize
    exact absurd hsize (by decide)
  have hone : size ≠ 1 := by
    intro h
    rw [h] at hsize
    exact absurd hsize (by decide)
  rw [mmapFirstFreeS, if_neg hzero, if_neg hone, ← scanned_eq, ← Bitmap.firstTested_words]
  rfl

theorem tryFrame_none (hsize : 0 < size.toNat) {g : Nat} : m.tryFrame size g = none ↔ m.Refuses size.toNat g := by
  rw [tryFrame_eq hsize]
  by_cases haccepts : m.Accepts size.toNat g
  · rw [if_pos haccepts]
    exact iff_of_false nofun fun h => h.1 haccepts
  · rw [if_neg haccepts]
    by_cases hrefuses : m.Refuses size.toNat g <;> simp [hrefuses]

theorem tryFrame_some (hsize : 0 < size.toNat) {f g : Nat} : m.tryFrame size g = some (some f) ↔
    m.Accepts size.toNat g ∧ g = f := by
  rw [tryFrame_eq hsize]
  by_cases haccepts : m.Accepts size.toNat g
  · simp [haccepts]
  · by_cases hrefuses : m.Refuses size.toNat g <;> simp [haccepts, hrefuses]

theorem mmapFirstFreeS_none (hsize : 2 ≤ size.toNat) : m.mmapFirstFreeS size = some none ↔
    ∀ g < m.maxBlocks.toNat / 32 * 32, m.bit g = false → m.Refuses size.toNat g := by
  have hall : Bitmap.firstTested m.memoryMap (m.tryFrame size) (m.maxBlocks.toNat / 32 * 32) = none ↔
      ∀ g < m.maxBlocks.toNat / 32 * 32, m.bit g = false → m.Refuses size.toNat g := by
    simp only [Bitmap.firstTested_none, tryFrame_none (by omega : 0 < size.toNat)]
    rfl
  rw [mmapFirstFreeS_eq hsize, ← hall]
  cases Bitmap.firstTested m.memoryMap (m.tryFrame size) (m.maxBlocks.toNat / 32 * 32) with
  | none => exact iff_of_true rfl rfl
  | some r => cases r <;> simp

theorem mmapFirstFreeS_some (hsize : 2 ≤ size.toNat) {f : Nat} : m.mmapFirstFreeS size = some (some f) ↔
    f < m.maxBlocks.toNat / 32 * 32 ∧ m.bit f = false ∧ m.Accepts size.toNat f ∧
      ∀ g < f, m.bit g = false → m.Refuses size.toNat g := by
  have hfirst : Bitmap.firstTested m.memoryMap (m.tryFrame size) (m.maxBlocks.toNat / 32 * 32) = some (some f) ↔
      f < m.maxBlocks.toNat / 32 * 32 ∧ m.bit f = false ∧ m.Accepts size.toNat f ∧
        ∀ g < f, m.bit g = false → m.Refuses size.toNat g := by
    simp only [Bitmap.firstTested_some, tryFrame_none (by omega : 0 < size.toNat),
      tryFrame_some (by omega : 0 < size.toNat)]
    constructor
    · rintro ⟨k, hk, hclear, ⟨haccepts, rfl⟩, hbefore⟩
      exact ⟨hk, hclear, haccepts, hbefore⟩
    · rintro ⟨hf, hclear, haccepts, hbefore⟩
      exact ⟨f, hf, hclear, ⟨haccepts, rfl⟩, hbefore⟩
  rw [mmapFirstFreeS_eq hsize, ← hfirst]
  cases Bitmap.firstTested m.memoryMap (m.tryFrame size) (m.maxBlocks.toNat / 32 * 32) with
  | none => simp
  | some r => cases r <;> simp

end Search

/-! ### Several frames -/

section Several
variable {m : PMM} {size : u32}

theorem bit_setBits (n frame : Nat) (m : PMM) (g : Nat) :
    (m.setBits frame n).bit g = (decide (frame ≤ g ∧ g < frame + n) || m.bit g) := by
  induction n generalizing frame m with
  | zero => simp [setBits]
  | succ n ih =>
    rw [setBits, ih, bit_mmapSet, ← Bool.or_assoc, ← Bool.decide_or]
    congr 1
    exact decide_eq_decide.mpr (by omega)

theorem maxBlocks_setBits (n frame : Nat) (m : PMM) : (m.setBits frame n).maxBlocks = m.maxBlocks := by
  induction n generalizing frame m with
  | zero => rfl
  | succ n ih => exact ih _ _

/-- The run from `f` on, taken the way `allocBlocks` does. -/
def takeRun (m : PMM) (size : u32) (f : Nat) : PMM × Addr :=
  ({m.setBits f size.toNat with usedBlocks := m.usedBlocks + size}, BitVec.ofNat 32 (f * 4096))

theorem takes_takeRun {f : Nat} (hf : f < 2 ^ 20) : Takes m size f (m.takeRun size f) :=
  ⟨by rw [takeRun, address_toNat hf, Nat.mul_comm], bit_setBits size.toNat f m, rfl, maxBlocks_setBits size.toNat f m⟩

/-- Only the run itself can be taken for it, and only where it has an address. -/
theorem takeRun_takes {f g : Nat} (hsize : 0 < size.toNat) (hrun : m.IsRun size.toNat f)
    (h : Takes m size f (m.takeRun size g)) : g = f ∧ f < 2 ^ 20 := by
  have hbits : ∀ k, f ≤ k → k < f + size.toNat → g ≤ k ∧ k < g + size.toNat := by
    intro k hlow hhigh
    have hset := h.bits k
    have htaken : (m.takeRun size g).1.bit k = (m.setBits g size.toNat).bit k := rfl
    rw [htaken, bit_setBits, hrun.2 k hlow hhigh, Bool.or_false, Bool.or_false, decide_eq_decide] at hset
    exact hset.mpr ⟨hlow, hhigh⟩
  have hfirst := hbits f (le_refl f) (by omega)
  have hlast := hbits (f + size.toNat - 1) (by omega) (by omega)
  have haddr := h.address
  exact ⟨by omega, by omega⟩

theorem takeRun_ne (hsize : 0 < size.toNat) {g : Nat} : m.takeRun size g ≠ (m, 0) := by
  intro h
  have hused : m.usedBlocks + size = m.usedBlocks := congrArg (fun r : PMM × Addr => r.1.usedBlocks) h
  have hzero : size = 0 := by simpa using hused
  rw [hzero] at hsize
  exact absurd hsize (by decide)

/-- For one frame, `allocBlocks` does what `allocBlock` does, once it tries. -/
theorem allocBlocks_one :
    m.allocBlocks 1 = some (if m.maxBlocks - m.usedBlocks ≤ 1 then (m, 0) else m.allocBlock) := by
  rw [allocBlocks]
  split
  · rfl
  · rename_i hroom
    have hmore : ¬m.maxBlocks - m.usedBlocks ≤ 0 := by
      intro hzero
      have hzero : (m.maxBlocks - m.usedBlocks).toNat ≤ 0 := hzero
      exact hroom (BitVec.le_def.mpr (hzero.trans (Nat.zero_le _)))
    rw [mmapFirstFreeS, if_neg (by decide), if_pos rfl, allocBlock, if_neg hmore]
    cases m.mmapFirstFree <;> rfl

/-- The condition: where a run is to be found, more than `n` frames are clear, the run is
among the frames scanned, has an address, and is the first that the search decides for;
where there is none, the request is refused or the search decides for nothing. -/
structure Fits (m : PMM) (n : Nat) : Prop where
  found : ∀ f, m.LowestRun n f → n < m.maxBlocks.toNat - m.used ∧ f < m.maxBlocks.toNat / 32 * 32 ∧ f < 2 ^ 20 ∧
    (n = 1 ∨ m.Accepts n f ∧ ∀ g < f, m.bit g = false → m.Refuses n g)
  exhausted : (∀ f, ¬m.IsRun n f) → m.maxBlocks.toNat - m.used ≤ n ∨
    ∀ g < m.maxBlocks.toNat / 32 * 32, m.bit g = false → m.Refuses n g

/-- Null is right where nothing fits. -/
theorem allocates_null (hsize : 0 < size.toNat) : m.Allocates size (m, 0) ↔ ∀ f, ¬m.IsRun size.toNat f := by
  constructor
  · intro h f hrun
    obtain ⟨g, hlow⟩ := exists_lowestRun hrun
    exact not_takes_null hsize hlow.run (h.found g hlow)
  · intro h
    exact ⟨fun f hlow => absurd hlow.run (h f), fun _ => rfl⟩

/-- A refusal is right where nothing fits. -/
theorem refused_fits {n : Nat} (hroom : m.maxBlocks.toNat - m.used ≤ n) : m.Fits n ↔ ∀ f, ¬m.IsRun n f := by
  constructor
  · intro h f hrun
    obtain ⟨g, hlow⟩ := exists_lowestRun hrun
    have := (h.found g hlow).1
    omega
  · intro h
    exact ⟨fun f hlow => absurd hlow.run (h f), fun _ => .inl hroom⟩

/-- With room enough, the condition is about what the search finds. -/
theorem search_fits (hsize : 2 ≤ size.toNat) (hroom : size.toNat < m.maxBlocks.toNat - m.used) :
    m.Fits size.toNat ↔ (∃ f, m.LowestRun size.toNat f ∧ m.mmapFirstFreeS size = some (some f) ∧ f < 2 ^ 20) ∨
      (∀ f, ¬m.IsRun size.toNat f) ∧ m.mmapFirstFreeS size = some none := by
  constructor
  · intro h
    by_cases hex : ∃ f, m.IsRun size.toNat f
    · obtain ⟨f, hrun⟩ := hex
      obtain ⟨f, hlow⟩ := exists_lowestRun hrun
      obtain ⟨-, hscanned, hsmall, hdecided⟩ := h.found f hlow
      have hclear := hlow.run.2 f (le_refl f) (by omega)
      have hfirst := hdecided.resolve_left (by omega)
      exact .inl ⟨f, hlow, (mmapFirstFreeS_some hsize).mpr ⟨hscanned, hclear, hfirst⟩, hsmall⟩
    · have hnone : ∀ f, ¬m.IsRun size.toNat f := fun f hrun => hex ⟨f, hrun⟩
      have hrefuses := (h.exhausted hnone).resolve_left (by omega)
      exact .inr ⟨hnone, (mmapFirstFreeS_none hsize).mpr hrefuses⟩
  · rintro (⟨f, hlow, hfind, hsmall⟩ | ⟨hnone, hfind⟩)
    · obtain ⟨hscanned, -, hfirst⟩ := (mmapFirstFreeS_some hsize).mp hfind
      refine ⟨fun g hg => ?_, fun hnone => absurd hlow.run (hnone f)⟩
      obtain rfl := hlow.unique hg
      exact ⟨hroom, hscanned, hsmall, .inr hfirst⟩
    · exact ⟨fun f hlow => absurd hlow.run (hnone f), fun _ => .inr ((mmapFirstFreeS_none hsize).mp hfind)⟩

/-- `allocBlocks` has a result, and that is right; for one frame it is `allocBlock`'s. -/
def Serves (m : PMM) (size : u32) : Prop :=
  ∃ r, m.allocBlocks size = some r ∧ m.Allocates size r ∧ (size = 1 → r = m.allocBlock)

/-- Too few frames are clear. -/
theorem serves_refused (hsize : 0 < size.toNat) (hrefused : m.maxBlocks.toNat - m.used ≤ size.toNat)
    (hnull : m.allocBlocks size = some (m, 0)) : m.Serves size ↔ m.Fits size.toNat := by
  rw [refused_fits hrefused, ← allocates_null hsize]
  constructor
  · intro ⟨r, hr, hallocates, _⟩
    rw [hnull] at hr
    rwa [← Option.some.inj hr] at hallocates
  · intro h
    refine ⟨(m, 0), hnull, h, ?_⟩
    rintro rfl
    exact (allocBlock_exhausted ((allocates_null hsize).mp h)).symm

/-- One frame is searched for as `allocBlock` does. -/
theorem serves_one (hcount : m.usedBlocks.toNat = m.used) (hroom : 1 < m.maxBlocks.toNat - m.used)
    (hgives : m.allocBlocks 1 = some m.allocBlock) : m.Serves 1 ↔ m.Fits 1 := by
  have hfits : m.Fits 1 ↔ ∀ f, m.LowestRun 1 f → f < m.maxBlocks.toNat / 32 * 32 ∧ f < 2 ^ 20 := by
    constructor
    · exact fun h f hlow => ⟨(h.found f hlow).2.1, (h.found f hlow).2.2.1⟩
    · intro h
      refine ⟨fun f hlow => ⟨hroom, (h f hlow).1, (h f hlow).2, .inl rfl⟩, fun hnone => ?_⟩
      rw [used_full hnone, Nat.sub_self]
      exact .inl (Nat.zero_le 1)
  rw [hfits]
  constructor
  · intro ⟨r, hr, hallocates, _⟩ f hlow
    rw [hgives] at hr
    obtain rfl := Option.some.inj hr
    exact scanned_of_takes hlow (hallocates.found f hlow)
  · intro h
    have hfound := fun f hlow => allocBlock_found hcount hlow (h f hlow).1 (h f hlow).2
    exact ⟨m.allocBlock, hgives, ⟨hfound, allocBlock_exhausted⟩, fun _ => rfl⟩

/-- Several frames are what the search decides for. -/
theorem serves_several (hsize : 2 ≤ size.toNat) (hroom : size.toNat < m.maxBlocks.toNat - m.used)
    (htries : m.allocBlocks size = (m.mmapFirstFreeS size).map fun frame => frame.elim (m, 0) (m.takeRun size)) :
    m.Serves size ↔ m.Fits size.toNat := by
  have hpos : 0 < size.toNat := by omega
  have hone : size ≠ 1 := by
    rintro rfl
    exact absurd hsize (by decide)
  rw [search_fits hsize hroom, Serves, htries]
  constructor
  · intro ⟨r, hr, hallocates, _⟩
    obtain ⟨frame, hfind, rfl⟩ := Option.map_eq_some_iff.mp hr
    cases frame with
    | none => exact .inr ⟨(allocates_null hpos).mp hallocates, hfind⟩
    | some g =>
      have hex : ∃ f, m.IsRun size.toNat f := by
        by_contra hnone
        exact takeRun_ne hpos (hallocates.exhausted fun f hrun => hnone ⟨f, hrun⟩)
      obtain ⟨f, hrun⟩ := hex
      obtain ⟨f, hlow⟩ := exists_lowestRun hrun
      obtain ⟨rfl, hsmall⟩ := takeRun_takes hpos hlow.run (hallocates.found f hlow)
      exact .inl ⟨g, hlow, hfind, hsmall⟩
  · rintro (⟨f, hlow, hfind, hsmall⟩ | ⟨hnone, hfind⟩)
    · refine ⟨m.takeRun size f, by rw [hfind]; rfl, ⟨fun g hg => ?_, fun hnone => absurd hlow.run (hnone f)⟩,
        fun h => absurd h hone⟩
      obtain rfl := hlow.unique hg
      exact takes_takeRun hsmall
    · exact ⟨(m, 0), by rw [hfind]; rfl, (allocates_null hpos).mpr hnone, fun h => absurd h hone⟩

end Several

/-- **`allocBlocks` gives the lowest run there is, and for one frame what `allocBlock` gives,
exactly when its search, looking elsewhere, decides for that run.** -/
theorem allocBlocks_allocates {m : PMM} {size : u32} (hcount : m.usedBlocks.toNat = m.used) (hsize : 1 ≤ size.toNat) :
    (∃ r, m.allocBlocks size = some r ∧ m.Allocates size r ∧ (size = 1 → r = m.allocBlock)) ↔ m.Fits size.toNat := by
  have hroom : m.maxBlocks - m.usedBlocks ≤ size ↔ m.maxBlocks.toNat - m.used ≤ size.toNat := by
    rw [BitVec.le_def, headRoom_toNat hcount]
  by_cases hrefused : m.maxBlocks.toNat - m.used ≤ size.toNat
  · exact serves_refused hsize hrefused (if_pos (hroom.mpr hrefused))
  · by_cases hone : size = 1
    · subst hone
      have hgives : m.allocBlocks 1 = some m.allocBlock := by
        rw [allocBlocks_one, if_neg fun h => hrefused (hroom.mp h)]
      exact serves_one hcount (Nat.lt_of_not_le hrefused) hgives
    · have htwo : 2 ≤ size.toNat := by
        have hne : size.toNat ≠ 1 := fun h => hone (BitVec.eq_of_toNat_eq h)
        omega
      exact serves_several htwo (Nat.lt_of_not_le hrefused) (if_neg fun h => hrefused (hroom.mp h))

/-- 64 frames, all clear but the first. -/
def firstOf64 : PMM := ⟨fun i => if i = 0 then 1 else 0, 1, 64⟩

theorem firstOf64_run : firstOf64.LowestRun 2 1 := by
  refine ⟨⟨by decide, fun g hlow hhigh => ?_⟩, fun g hg hrun => ?_⟩
  · obtain rfl | rfl : g = 1 ∨ g = 2 := by omega
    · decide
    · decide
  · obtain rfl : g = 0 := by omega
    exact absurd (hrun.2 0 (le_refl 0) (by decide)) (by decide)

/-- Two frames, decided on by frames 2 to 4. -/
theorem allocBlocks_allocates_two : ∃ r, firstOf64.allocBlocks 2 = some r ∧ firstOf64.Allocates 2 r ∧
    ((2 : u32) = 1 → r = firstOf64.allocBlock) := by
  refine (allocBlocks_allocates (by decide +kernel) (by decide)).mpr ⟨fun f hlow => ?_, fun hnone => ?_⟩
  · obtain rfl := hlow.unique firstOf64_run
    refine ⟨by decide +kernel, by decide, by decide, .inr ⟨by decide, fun g hg hclear => ?_⟩⟩
    obtain rfl : g = 0 := by omega
    exact absurd hclear (by decide)
  · exact absurd firstOf64_run.run (hnone 1)

/-- 32 frames, 0 and 2 in use. -/
def gapAt1 : PMM := ⟨fun i => if i = 0 then 5 else 0, 2, 32⟩

/-- Frames 1 and 2 are given, and 2 was in use: frames 3 and 4 decided on 1. -/
theorem allocBlocks_overlaps : ¬ ∀ (m : PMM) (size : u32), m.usedBlocks.toNat = m.used → m.bit 0 = true →
    1 ≤ size.toNat → ∃ r, m.allocBlocks size = some r ∧ m.Allocates size r ∧ (size = 1 → r = m.allocBlock) := by
  intro h
  obtain ⟨r, hr, hallocates, -⟩ := h gapAt1 2 (by decide +kernel) (by decide) (by decide)
  have hlow : gapAt1.LowestRun 2 3 := by
    refine ⟨⟨by decide, fun g hlow hhigh => ?_⟩, fun g hg hrun => ?_⟩
    · obtain rfl | rfl : g = 3 ∨ g = 4 := by omega
      · decide
      · decide
    · have hset : gapAt1.bit 0 = true ∧ gapAt1.bit 2 = true := by decide
      obtain rfl | hg : g = 0 ∨ 1 ≤ g := by omega
      · have := hrun.2 0 (le_refl 0) (by decide)
        simp [hset.1] at this
      · have := hrun.2 2 (by omega) (by omega)
        simp [hset.2] at this
  have haddr : (gapAt1.allocBlocks 2).map Prod.snd = some 0x1000 := by decide +kernel
  rw [hr] at haddr
  have htaken := (hallocates.found 3 hlow).address
  rw [Option.some.inj haddr] at htaken
  exact absurd htaken (by decide)

end PMM

end UntitledOS.Memory
