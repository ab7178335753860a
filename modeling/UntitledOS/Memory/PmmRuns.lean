import UntitledOS.Memory.Pmm
import UntitledOS.Lib.Run

/-! Runs of the frame allocator.

A `Frames` is a bitmap together with the frames handed out and not given back. In
every run from a map whose count is right and whose first 4 MiB are in use, the
frames out are distinct, were clear at the start and are set now, the count stays
right, and no other bit moves (`frames_exclusive`). That a frame number becomes an
address by a multiplication in 32 bits is harmless up to 2^20 frames, the whole of
a 32-bit address space; a map that goes on behind them has a frame 2^20, at address 0
(`frame_lost`). -/
namespace UntitledOS.Memory
open Lib

/-- The frame at an address. -/
def frameAt (p : Addr) : Nat := (p / 4096).toNat

structure Frames where
  pmm : PMM
  out : List Addr

/-- A call, and for a free the address. -/
inductive FrameEvent where
  | allocBlock
  | freeBlock (p : Addr)

namespace Frames

/-- One call. Any address but the null pointer is out until it is freed. -/
def step (s : Frames) : FrameEvent → Option Frames
  | .allocBlock =>
    let r := s.pmm.allocBlock
    some ⟨r.1, if r.2 = 0 then s.out else r.2 :: s.out⟩
  | .freeBlock p => some ⟨s.pmm.freeBlock p, s.out.erase p⟩

/-- What callers promise: they free what is out. -/
def Admits (s : Frames) : FrameEvent → Prop
  | .allocBlock => True
  | .freeBlock p => p ∈ s.out

instance (s : Frames) : ∀ e, Decidable (s.Admits e)
  | .allocBlock => inferInstanceAs (Decidable True)
  | .freeBlock p => inferInstanceAs (Decidable (p ∈ s.out))

end Frames

namespace PMM

/-- The map as the allocator is to find it; the words it scans hold no frame from 2^20
on, the end of a 32-bit address space. -/
structure Ready (m : PMM) : Prop where
  counted : m.usedBlocks.toNat = m.used
  kernel : ∀ f < 1024, m.bit f = true
  small : m.maxBlocks.toNat < 2 ^ 20 + 32

end PMM

/-! ### Addresses -/

theorem frameAt_toNat (p : Addr) : frameAt p = p.toNat / 4096 := BitVec.toNat_udiv

/-- The address of a frame below 2^20. -/
theorem address_toNat {frame : Nat} (h : frame < 2 ^ 20) :
    (BitVec.ofNat 32 (frame * 4096)).toNat = frame * 4096 := by
  rw [BitVec.toNat_ofNat, Nat.mod_eq_of_lt (by omega)]

theorem frameAt_address {frame : Nat} (h : frame < 2 ^ 20) :
    frameAt (BitVec.ofNat 32 (frame * 4096)) = frame := by
  rw [frameAt_toNat, address_toNat h, Nat.mul_div_cancel _ (by decide)]

/-! ### The two calls -/

namespace PMM

/-- A call of `allocBlock` fails and changes nothing, or takes a clear frame. -/
theorem allocBlock_cases {m : PMM} (hsmall : m.maxBlocks.toNat < 2 ^ 20 + 32) :
    m.allocBlock = (m, 0) ∨
      ∃ frame, m.bit frame = false ∧ frame < m.maxBlocks.toNat ∧ frame < 2 ^ 20 ∧ m.allocBlock =
        ({m.mmapSet frame with usedBlocks := m.usedBlocks + 1}, BitVec.ofNat 32 (frame * 4096)) := by
  unfold allocBlock
  split
  · exact .inl rfl
  · cases h : m.mmapFirstFree with
    | none => exact .inl rfl
    | some frame =>
      obtain ⟨hscanned, hclear, _⟩ := mmapFirstFree_some h
      exact .inr ⟨frame, hclear, by omega, by omega, rfl⟩

/-- The frames that `allocBlock` has to give, in its order. -/
def frees (m : PMM) : List Nat :=
  (Bitmap.clears m.memoryMap (m.maxBlocks.toNat / 32 * 32)).take (m.maxBlocks - m.usedBlocks).toNat

theorem frees_clear {m : PMM} {f : Nat} (h : f ∈ m.frees) : m.bit f = false :=
  (Bitmap.mem_clears.mp (List.mem_of_mem_take h)).2

theorem frees_lt {m : PMM} (hsmall : m.maxBlocks.toNat < 2 ^ 20 + 32) {f : Nat} (h : f ∈ m.frees) : f < 2 ^ 20 := by
  have hlt := (Bitmap.mem_clears.mp (List.mem_of_mem_take h)).1
  omega

theorem frees_nodup (m : PMM) : m.frees.Nodup :=
  (Bitmap.clears_nodup _ _).sublist (List.take_sublist _ _)

/-- Memory is exhausted when there is none to give. -/
theorem allocBlock_nil {m : PMM} (h : m.frees = []) : m.allocBlock = (m, 0) := by
  have hhead : m.mmapFirstFree = (Bitmap.clears m.memoryMap (m.maxBlocks.toNat / 32 * 32)).head? := by
    rw [mmapFirstFree_eq, scanned_eq, Bitmap.firstClear_eq]
  rw [allocBlock]
  rcases List.take_eq_nil_iff.mp h with hcount | hnone
  · have hzero : m.maxBlocks - m.usedBlocks ≤ 0 := by
      rw [BitVec.le_def, hcount]
      exact Nat.zero_le _
    rw [if_pos hzero]
  · rw [hhead, hnone]
    simp

/-- The first of them is given, and the others are left. -/
theorem allocBlock_cons {m : PMM} {frame : Nat} {rest : List Nat} (h : m.frees = frame :: rest) :
    m.allocBlock =
        ({m.mmapSet frame with usedBlocks := m.usedBlocks + 1}, BitVec.ofNat 32 (frame * 4096)) ∧
      m.allocBlock.1.frees = rest := by
  have hhead : m.mmapFirstFree = (Bitmap.clears m.memoryMap (m.maxBlocks.toNat / 32 * 32)).head? := by
    rw [mmapFirstFree_eq, scanned_eq, Bitmap.firstClear_eq]
  cases hclears : Bitmap.clears m.memoryMap (m.maxBlocks.toNat / 32 * 32) with
  | nil =>
    rw [frees, hclears, List.take_nil] at h
    cases h
  | cons f others =>
    cases hcount : (m.maxBlocks - m.usedBlocks).toNat with
    | zero =>
      rw [frees, hcount, List.take_zero] at h
      cases h
    | succ n =>
      rw [frees, hclears, hcount, List.take_succ_cons] at h
      obtain ⟨rfl, rfl⟩ := List.cons.inj h
      have hmore : ¬m.maxBlocks - m.usedBlocks ≤ 0 := by
        intro hle
        have hle : (m.maxBlocks - m.usedBlocks).toNat ≤ 0 := hle
        omega
      have hblock : m.allocBlock =
          ({m.mmapSet f with usedBlocks := m.usedBlocks + 1}, BitVec.ofNat 32 (f * 4096)) := by
        rw [allocBlock, if_neg hmore, hhead, hclears]
        rfl
      refine ⟨hblock, ?_⟩
      have hset : Bitmap.clears (m.mmapSet f).memoryMap (m.maxBlocks.toNat / 32 * 32) = others :=
        Bitmap.clears_set (by decide) hclears
      have hone : (m.maxBlocks - (m.usedBlocks + 1)).toNat = n := by
        have hsub : m.maxBlocks - (m.usedBlocks + 1) = m.maxBlocks - m.usedBlocks - 1 := by
          exact sub_add_eq_sub_sub ..
        have hpos : (1 : u32) ≤ m.maxBlocks - m.usedBlocks := by
          rw [BitVec.le_def, hcount]
          show 1 ≤ _
          omega
        rw [hsub, BitVec.toNat_sub_of_le hpos, hcount]
        rfl
      rw [hblock]
      show List.take (m.maxBlocks - (m.usedBlocks + 1)).toNat
        (Bitmap.clears (m.mmapSet f).memoryMap (m.maxBlocks.toNat / 32 * 32)) = _
      rw [hset, hone]

theorem allocBlock_frees (m : PMM) : m.allocBlock.1.frees = m.frees.tail := by
  cases h : m.frees with
  | nil => rw [allocBlock_nil h, h, List.tail_nil]
  | cons frame rest => rw [(allocBlock_cons h).2, List.tail_cons]

/-- The block given; null when there is none. -/
theorem allocBlock_block (m : PMM) : m.allocBlock.2 = BitVec.ofNat 32 (m.frees.headD 0 * 4096) := by
  cases h : m.frees with
  | nil =>
    rw [allocBlock_nil h]
    rfl
  | cons frame rest =>
    rw [(allocBlock_cons h).1]
    rfl

theorem allocBlock_maxBlocks (m : PMM) : m.allocBlock.1.maxBlocks = m.maxBlocks := by
  cases h : m.frees with
  | nil => rw [allocBlock_nil h]
  | cons frame rest =>
    rw [(allocBlock_cons h).1]
    rfl

theorem bit_allocBlock (m : PMM) (f : Nat) :
    m.allocBlock.1.bit f = (decide (m.frees.head? = some f) || m.bit f) := by
  cases h : m.frees with
  | nil =>
    rw [allocBlock_nil h]
    simp
  | cons frame rest =>
    have hset : m.allocBlock.1.bit f = (m.mmapSet frame).bit f := by
      rw [(allocBlock_cons h).1]
      rfl
    rw [hset, bit_mmapSet]
    simp [eq_comm]

/-- Setting a clear frame, and counting it. -/
theorem used_mmapSet {m : PMM} {frame : Nat} (hclear : m.bit frame = false)
    (hframe : frame < m.maxBlocks.toNat) : (m.mmapSet frame).used = m.used + 1 :=
  Bitmap.count_set (by decide) hclear hframe

theorem used_mmapUnset {m : PMM} {frame : Nat} (hset : m.bit frame = true)
    (hframe : frame < m.maxBlocks.toNat) : (m.mmapUnset frame).used + 1 = m.used :=
  Bitmap.count_unset (by decide) hset hframe

theorem used_le (m : PMM) : m.used ≤ m.maxBlocks.toNat := Bitmap.count_le _ _

/-- The count keeps up with an allocation: there is room for it. -/
theorem counted_alloc {m : PMM} {frame : Nat} (hcount : m.usedBlocks.toNat = m.used)
    (hclear : m.bit frame = false) (hframe : frame < m.maxBlocks.toNat) :
    (m.usedBlocks + 1).toNat = (m.mmapSet frame).used := by
  have hused := used_mmapSet hclear hframe
  have hle : (m.mmapSet frame).used ≤ m.maxBlocks.toNat := used_le _
  have hmax := m.maxBlocks.isLt
  have hone : (m.usedBlocks + 1).toNat = (m.usedBlocks.toNat + 1) % 2 ^ 32 := BitVec.toNat_add ..
  rw [hone, Nat.mod_eq_of_lt (by omega), hused, hcount]

/-- The count keeps up with a free: there was a frame to take off. -/
theorem counted_free {m : PMM} {frame : Nat} (hcount : m.usedBlocks.toNat = m.used)
    (hset : m.bit frame = true) (hframe : frame < m.maxBlocks.toNat) :
    (m.usedBlocks - 1).toNat = (m.mmapUnset frame).used := by
  have hused := used_mmapUnset hset hframe
  have hpos : (1 : u32) ≤ m.usedBlocks := by
    rw [BitVec.le_def, hcount]
    show 1 ≤ _
    omega
  rw [BitVec.toNat_sub_of_le hpos, hcount]
  show m.used - 1 = _
  omega

end PMM

/-! ### Over runs -/

/-- What every run from `m` keeps: the frames out are distinct, aligned, above the
kernel's, were clear in `m` and are set; the count is right; every other bit is as it
was. -/
structure Exclusive (m : PMM) (s : Frames) : Prop where
  nodup : s.out.Nodup
  frames : ∀ p ∈ s.out, 4096 ∣ p.toNat ∧ 0x400000 ≤ p.toNat ∧ frameAt p < m.maxBlocks.toNat ∧
    m.bit (frameAt p) = false ∧ s.pmm.bit (frameAt p) = true
  counted : s.pmm.usedBlocks.toNat = s.pmm.used
  others : ∀ f, (∀ p ∈ s.out, f ≠ frameAt p) → s.pmm.bit f = m.bit f
  size : s.pmm.maxBlocks = m.maxBlocks

namespace Exclusive

variable {m : PMM} {s t : Frames}

theorem start (h : m.Ready) : Exclusive m ⟨m, []⟩ :=
  ⟨List.nodup_nil, fun _ hp => absurd hp List.not_mem_nil, h.counted, fun _ _ => rfl, rfl⟩

/-- Addresses out are known by their frames. -/
theorem frameAt_inj (h : Exclusive m s) {p q : Addr} (hp : p ∈ s.out) (hq : q ∈ s.out)
    (he : frameAt p = frameAt q) : p = q := by
  obtain ⟨a, ha⟩ := (h.frames p hp).1
  obtain ⟨b, hb⟩ := (h.frames q hq).1
  rw [frameAt_toNat, frameAt_toNat, ha, hb, Nat.mul_div_cancel_left _ (by decide),
    Nat.mul_div_cancel_left _ (by decide)] at he
  exact BitVec.eq_of_toNat_eq (by rw [ha, hb, he])

theorem alloc (h : Exclusive m s) (hm : m.Ready) (ht : s.step .allocBlock = some t) :
    Exclusive m t := by
  obtain rfl := Option.some.inj ht
  rcases PMM.allocBlock_cases (h.size ▸ hm.small) with hnull | ⟨frame, hclear, hframe, hsmall, hsome⟩
  · simp only [hnull, if_true]
    exact h
  · rw [h.size] at hframe
    -- the frame is clear now, so it is not out, and was clear at the start
    have hout : ∀ p ∈ s.out, frame ≠ frameAt p := by
      rintro p hp rfl
      have := (h.frames p hp).2.2.2.2
      rw [hclear] at this
      exact Bool.false_ne_true this
    have hold : m.bit frame = false := (h.others frame hout).symm.trans hclear
    have hkernel : 1024 ≤ frame := by
      by_contra hlow
      have := hm.kernel frame (by omega)
      rw [hold] at this
      exact Bool.false_ne_true this
    have haddr := address_toNat hsmall
    have hne : BitVec.ofNat 32 (frame * 4096) ≠ 0 := by
      intro hzero
      rw [hzero] at haddr
      have : (0 : Addr).toNat = 0 := rfl
      omega
    simp only [hsome, hne, if_false]
    refine ⟨?_, fun p hp => ?_, ?_, fun f hf => ?_, h.size⟩
    · refine List.nodup_cons.mpr ⟨fun hmem => hout _ hmem ?_, h.nodup⟩
      rw [frameAt_address hsmall]
    · show _ ∧ _ ∧ _ ∧ _ ∧ (s.pmm.mmapSet frame).bit _ = true
      rw [PMM.bit_mmapSet]
      rcases List.mem_cons.mp hp with rfl | hp
      · rw [frameAt_address hsmall, haddr, decide_eq_true rfl, Bool.true_or]
        exact ⟨Nat.dvd_mul_left _ _, by omega, hframe, hold, rfl⟩
      · obtain ⟨halign, hlow, hlt, hwas, hset⟩ := h.frames p hp
        rw [hset, Bool.or_true]
        exact ⟨halign, hlow, hlt, hwas, rfl⟩
    · exact PMM.counted_alloc h.counted hclear (by rwa [h.size])
    · show (s.pmm.mmapSet frame).bit f = _
      have hne : f ≠ frame := by
        have := hf _ (List.mem_cons_self ..)
        rwa [frameAt_address hsmall] at this
      rw [PMM.bit_mmapSet, decide_eq_false hne, Bool.false_or]
      exact h.others f fun p hp => hf p (List.mem_cons_of_mem _ hp)

theorem free (h : Exclusive m s) {p : Addr} (hp : p ∈ s.out)
    (ht : s.step (.freeBlock p) = some t) : Exclusive m t := by
  obtain rfl := Option.some.inj ht
  obtain ⟨halign, _, hlt, hwas, hset⟩ := h.frames p hp
  refine ⟨h.nodup.erase p, fun q hq => ?_, ?_, fun f hf => ?_, h.size⟩
  · obtain ⟨hqp, hq⟩ := (h.nodup.mem_erase_iff).mp hq
    obtain ⟨halign, hlow, hlt, hwas, hset⟩ := h.frames q hq
    have hne : frameAt q ≠ frameAt p := fun he => hqp (h.frameAt_inj hq hp he)
    refine ⟨halign, hlow, hlt, hwas, ?_⟩
    show (s.pmm.mmapUnset (frameAt p)).bit (frameAt q) = true
    rw [PMM.bit_mmapUnset, decide_eq_false hne, hset]
    rfl
  · exact PMM.counted_free h.counted hset (by rwa [h.size])
  · show (s.pmm.mmapUnset (frameAt p)).bit f = m.bit f
    rw [PMM.bit_mmapUnset]
    by_cases hfp : f = frameAt p
    · rw [hfp, hwas, decide_eq_true rfl]
      rfl
    · rw [decide_eq_false hfp, Bool.not_false, Bool.true_and]
      refine h.others f fun q hq hfq => ?_
      by_cases hqp : q = p
      · exact hfp (hqp ▸ hfq)
      · exact hf q ((h.nodup.mem_erase_iff).mpr ⟨hqp, hq⟩) hfq

theorem step (h : Exclusive m s) (hm : m.Ready) {e : FrameEvent} (hrule : s.Admits e)
    (ht : s.step e = some t) : Exclusive m t := by
  cases e with
  | allocBlock => exact h.alloc hm ht
  | freeBlock p => exact h.free hrule ht

end Exclusive

namespace Frames

/-- **Frames are handed out exclusively and accounted for exactly.** -/
theorem frames_exclusive {m : PMM} (hm : m.Ready) {es : List FrameEvent} {s : Frames}
    (hrun : Run step Admits ⟨m, []⟩ es s) : Exclusive m s :=
  hrun.invariant _ (fun _ _ _ h hrule ht => h.step hm hrule ht) (.start hm)

/-- Two frames out of 64 taken, one given back and taken again. -/
theorem frames_exclusive_three :
    ∃ m s, follow step Admits ⟨m, []⟩ [.allocBlock, .allocBlock, .freeBlock 0x400000, .allocBlock] =
        some s ∧ s.out = [0x400000, 0x401000] ∧ Exclusive m s := by
  have hready : PMM.Ready ⟨fun i => if i < 32 then 0xffffffff else 0, 1024, 1088⟩ :=
    ⟨by decide +kernel, by decide +kernel, by decide⟩
  have hfollow : (follow step Admits
      ⟨⟨fun i => if i < 32 then 0xffffffff else 0, 1024, 1088⟩, []⟩
      [.allocBlock, .allocBlock, .freeBlock 0x400000, .allocBlock]).map Frames.out =
        some [0x400000, 0x401000] := by
    decide +kernel
  obtain ⟨s, hs, hout⟩ := Option.map_eq_some_iff.mp hfollow
  exact ⟨_, s, hs, hout, frames_exclusive hready (run_iff_follow.mpr hs)⟩

/-- A map of 2^20 + 32 frames, all in use but frame 2^20. -/
def lastClear : PMM := ⟨fun i => if i = 32768 then 0xfffffffe else 0xffffffff, 0x10001f, 0x100020⟩

theorem bit_lastClear (f : Nat) : lastClear.bit f = !decide (f = 2 ^ 20) := by
  have hlast : ∀ j < 32, (0xfffffffe#32).getLsbD j = !decide (j = 0) := by decide
  have hfull : ∀ j < 32, (0xffffffff#32).getLsbD j = true := by decide
  have hbit : f % 32 < 32 := Nat.mod_lt _ (by decide)
  show (if f / 32 = 32768 then 0xfffffffe#32 else 0xffffffff#32).getLsbD (f % 32) = _
  split
  · rw [hlast _ hbit, decide_eq_decide.mpr (show f % 32 = 0 ↔ f = 2 ^ 20 by omega)]
  · rw [hfull _ hbit, decide_eq_false (show f ≠ 2 ^ 20 by omega)]
    rfl

theorem used_lastClear : lastClear.used + 1 = 2 ^ 20 + 32 := by
  have hclear : lastClear.bit (2 ^ 20) = false := by
    rw [bit_lastClear]
    rfl
  rw [← PMM.used_mmapSet hclear (by decide)]
  refine Bitmap.count_full fun f _ => ?_
  show (lastClear.mmapSet (2 ^ 20)).bit f = true
  rw [PMM.bit_mmapSet, bit_lastClear]
  cases decide (f = 2 ^ 20) <;> rfl

/-- The address of frame 2^20 is null: the frame is taken, and nobody has it. -/
theorem frame_lost :
    ∃ m es s, m.usedBlocks.toNat = m.used ∧ (∀ f < 1024, m.bit f = true) ∧
      Run step Admits ⟨m, []⟩ es s ∧
      ¬ ∀ f, (∀ p ∈ s.out, f ≠ frameAt p) → s.pmm.bit f = m.bit f := by
  have hfirst : lastClear.mmapFirstFree = some (2 ^ 20) := by
    cases hfirst : lastClear.mmapFirstFree with
    | none =>
      have := PMM.mmapFirstFree_none hfirst (2 ^ 20) (by decide)
      rw [bit_lastClear] at this
      cases this
    | some frame =>
      have hclear := (PMM.mmapFirstFree_some hfirst).2.1
      rw [bit_lastClear] at hclear
      simpa using hclear
  have hstep : step ⟨lastClear, []⟩ .allocBlock = some
      ⟨{lastClear.mmapSet (2 ^ 20) with usedBlocks := lastClear.usedBlocks + 1}, []⟩ := by
    have hroom : ¬ lastClear.maxBlocks - lastClear.usedBlocks ≤ 0 := by decide
    simp only [step, PMM.allocBlock, if_neg hroom, hfirst]
    rfl
  refine ⟨lastClear, [.allocBlock], _, ?_, fun f hf => ?_, .cons trivial hstep (.nil _), fun hkeep => ?_⟩
  · have hused : lastClear.usedBlocks.toNat = 2 ^ 20 + 31 := rfl
    have := used_lastClear
    omega
  · rw [bit_lastClear, decide_eq_false (by omega)]
    rfl
  · have hsame : (lastClear.mmapSet (2 ^ 20)).bit (2 ^ 20) = lastClear.bit (2 ^ 20) :=
      hkeep (2 ^ 20) fun _ hp => absurd hp List.not_mem_nil
    rw [PMM.bit_mmapSet, bit_lastClear] at hsame
    cases hsame

end Frames

end UntitledOS.Memory
