import UntitledOS.Memory.Pmm

/-! What the constructor leaves free.

The constructor fills the bitmap, frees the frames of the memory map's available
regions and takes the first 4 MiB back. The bytes it fills with are `0x0f`, so half
of all frames are free before any region is looked at; a region is freed from the
frame its base is in, whole or not, with base and length cut to 32 bits; and the loop
runs over `mmap_length` entries, of which the map has `mmap_length / 24`.
`clear_new` says frame by frame what is clear afterwards, and `offers_declared_iff` on
exactly which inputs all of it was declared available. -/
namespace UntitledOS.Memory
open Lib

/-! ### The map -/

namespace MultibootInfo

/-- The memory the boot loader declared available: the map is `mmap_length` bytes long. -/
def available (mbt : MultibootInfo) : Set Nat :=
  {x | ∃ i < mbt.mmap_length.toNat / 24, (mbt.mmap i).type = 1 ∧
    (mbt.mmap i).addr.toNat ≤ x ∧ x < (mbt.mmap i).addr.toNat + (mbt.mmap i).len.toNat}

end MultibootInfo

/-- The bytes of a frame. -/
def frameBytes (f : Nat) : Set Nat := Set.Ico (4096 * f) (4096 * f + 4096)

namespace MmapEntry

/-- The constructor frees frame `f` when it meets the entry. -/
def Frees (e : MmapEntry) (f : Nat) : Prop :=
  e.type = 1 ∧ e.addr.setWidth 32 ≠ (1 : u32) ∧
    e.addr.toNat % 2 ^ 32 / 4096 ≤ f ∧
    f < e.addr.toNat % 2 ^ 32 / 4096 + e.len.toNat % 2 ^ 32 / 4096

end MmapEntry

namespace PMM

/-- The fill leaves frame `f` clear: it is in the high half of a byte filled, or in the
last, partial byte of the map and was clear there before. -/
def LeftClear (mbt : MultibootInfo) (stale : Nat → BitVec 32) (f : Nat) : Prop :=
  if f / 8 < (blocks mbt).toNat / 8 then 4 ≤ f % 8 else Bitmap.bit stale f = false

/-- Every frame that is clear lies above the kernel's and was declared available. -/
def OffersDeclared (mbt : MultibootInfo) (m : PMM) : Prop :=
  ∀ f < m.maxBlocks.toNat, m.bit f = false → 1024 ≤ f ∧ frameBytes f ⊆ mbt.available

/-! ### Filling -/

theorem getLsbD_word (b : Nat → u8) {j : Nat} (hj : j < 32) :
    (word b).getLsbD j = (b (j / 8)).getLsbD (j % 8) := by
  unfold word
  simp only [BitVec.getLsbD_append]
  rcases (by omega : j < 8 ∨ (8 ≤ j ∧ j < 16) ∨ (16 ≤ j ∧ j < 24) ∨ 24 ≤ j) with h | h | h | h
  · rw [if_pos h, Nat.div_eq_of_lt h, Nat.mod_eq_of_lt h]
  · rw [if_neg (by omega), if_pos (by omega), show j / 8 = 1 by omega, show j % 8 = j - 8 by omega]
  · rw [if_neg (by omega), if_neg (by omega), if_pos (by omega), show j / 8 = 2 by omega,
      show j % 8 = j - 8 - 8 by omega]
  · rw [if_neg (by omega), if_neg (by omega), if_neg (by omega), show j / 8 = 3 by omega,
      show j % 8 = j - 8 - 8 - 8 by omega]

theorem bit_memset (value : u8) (size : Nat) (map : Nat → BitVec 32) (f : Nat) :
    Bitmap.bit (memset value size map) f =
      if f / 8 < size then value.getLsbD (f % 8) else Bitmap.bit map f := by
  have hbit : f % 32 < 32 := Nat.mod_lt _ (by decide)
  have hbyte : 4 * (f / 32) + f % 32 / 8 = f / 8 := by omega
  rw [Bitmap.bit, memset, getLsbD_word _ hbit, hbyte]
  split
  · rw [show f % 32 % 8 = f % 8 by omega]
  · rw [BitVec.getLsbD_extractLsb', decide_eq_true (Nat.mod_lt _ (by decide)), Bool.true_and,
      Nat.div_add_mod]
    rfl

theorem getLsbD_fill : ∀ j < 8, (0xf : u8).getLsbD j = decide (j < 4) := by decide

/-- The map as the fill leaves it. -/
theorem clear_filled (mbt : MultibootInfo) (stale : Nat → BitVec 32) (f : Nat) :
    Bitmap.bit (memset 0xf (blocks mbt / 8).toNat stale) f = false ↔ LeftClear mbt stale f := by
  have hsize : (blocks mbt / 8).toNat = (blocks mbt).toNat / 8 := BitVec.toNat_udiv
  rw [bit_memset, hsize, LeftClear]
  split
  · rw [getLsbD_fill _ (Nat.mod_lt _ (by decide)), decide_eq_false_iff_not, Nat.not_lt]
  · rfl

/-! ### Regions -/

theorem clear_mmapUnset (frame f : Nat) (m : PMM) :
    (m.mmapUnset frame).bit f = false ↔ f = frame ∨ m.bit f = false := by
  rw [bit_mmapUnset, Bool.and_eq_false_iff, Bool.not_eq_false', decide_eq_true_iff]

theorem clear_mmapSet (frame f : Nat) (m : PMM) :
    (m.mmapSet frame).bit f = false ↔ f ≠ frame ∧ m.bit f = false := by
  rw [bit_mmapSet, Bool.or_eq_false_iff, decide_eq_false_iff_not]

theorem clear_unsetFrames (blocks : Nat) (align : Nat) (m : PMM) (f : Nat) :
    (unsetFrames align blocks m).bit f = false ↔
      (align ≤ f ∧ f < align + blocks) ∨ m.bit f = false := by
  induction blocks generalizing align m with
  | zero =>
    rw [unsetFrames, or_iff_right (by omega)]
  | succ blocks ih =>
    have hfirst : align ≤ f ∧ f < align + (blocks + 1) ↔
        (align + 1 ≤ f ∧ f < align + 1 + blocks) ∨ f = align := by
      omega
    rw [unsetFrames, ih, hfirst, or_assoc]
    exact or_congr_right (m.clear_mmapUnset align f)

theorem clear_setFrames (blocks : Nat) (align : Nat) (m : PMM) (f : Nat) :
    (setFrames align blocks m).bit f = false ↔
      ¬ (align ≤ f ∧ f < align + blocks) ∧ m.bit f = false := by
  induction blocks generalizing align m with
  | zero =>
    rw [setFrames, and_iff_right (by omega)]
  | succ blocks ih =>
    have hfirst : ¬ (align ≤ f ∧ f < align + (blocks + 1)) ↔
        ¬ (align + 1 ≤ f ∧ f < align + 1 + blocks) ∧ f ≠ align := by
      omega
    rw [setFrames, ih, hfirst, and_assoc]
    exact and_congr_right fun _ => m.clear_mmapSet align f

/-- A 64-bit address or length, cut to 32 bits, in frames. -/
theorem cut_toNat (x : u64) : (x.setWidth 32 / 4096 : u32).toNat = x.toNat % 2 ^ 32 / 4096 := by
  rw [BitVec.toNat_udiv, BitVec.toNat_setWidth]
  rfl

theorem clear_initEntry (e : MmapEntry) (m : PMM) {f : Nat} (hf : f ≠ 0) :
    (initEntry e m).bit f = false ↔ e.Frees f ∨ m.bit f = false := by
  unfold initEntry MmapEntry.Frees
  split
  · rename_i hopen
    rw [initRegion, clear_mmapSet, and_iff_right hf, clear_unsetFrames, cut_toNat, cut_toNat]
    simp only [hopen.1, hopen.2, ne_eq, not_false_eq_true, true_and]
  · rename_i hclosed
    constructor
    · exact .inr
    · rintro (⟨htype, haddr, _⟩ | hclear)
      · exact absurd ⟨htype, haddr⟩ hclosed
      · exact hclear

/-- The loop over the map, as far as it has come. -/
theorem clear_initEntries (mbt : MultibootInfo) (n : Nat) (m : PMM) {f : Nat} (hf : f ≠ 0) :
    (initEntries mbt n m).bit f = false ↔ (∃ i < n, (mbt.mmap i).Frees f) ∨ m.bit f = false := by
  induction n with
  | zero => simp [initEntries]
  | succ n ih =>
    rw [initEntries, clear_initEntry _ _ hf, ih, ← or_assoc]
    refine or_congr_left ?_
    constructor
    · rintro (hn | ⟨i, hi, hfrees⟩)
      · exact ⟨n, Nat.lt_succ_self n, hn⟩
      · exact ⟨i, hi.trans (Nat.lt_succ_self n), hfrees⟩
    · rintro ⟨i, hi, hfrees⟩
      rcases Nat.lt_succ_iff_lt_or_eq.mp hi with hlt | rfl
      · exact .inr ⟨i, hlt, hfrees⟩
      · exact .inl hfrees

/-- What is clear after the constructor: above the kernel's 4 MiB, what the fill left
clear and what an entry the loop met freed. -/
theorem clear_new (mbt : MultibootInfo) (stale : Nat → BitVec 32) (f : Nat) :
    (new mbt stale).bit f = false ↔ 1024 ≤ f ∧
      (LeftClear mbt stale f ∨ ∃ i < mbt.mmap_length.toNat, (mbt.mmap i).Frees f) := by
  have hfirst : (0 / 4096 : u32).toNat = 0 := rfl
  have hkernel : (0x400000 / 4096 : u32).toNat = 1024 := rfl
  rw [new, deinitRegion, clear_setFrames, hfirst, hkernel]
  have habove : ¬ (0 ≤ f ∧ f < 0 + 1024) ↔ 1024 ≤ f := by omega
  rw [habove]
  refine and_congr_right fun hf => ?_
  rw [clear_initEntries _ _ _ (by omega), or_comm]
  exact or_congr_left (clear_filled mbt stale f)

/-! ### What is offered -/

@[simp] theorem maxBlocks_unsetFrames (blocks : Nat) (align : Nat) (m : PMM) :
    (unsetFrames align blocks m).maxBlocks = m.maxBlocks := by
  induction blocks generalizing align m with
  | zero => rfl
  | succ blocks ih => exact ih _ _

@[simp] theorem maxBlocks_setFrames (blocks : Nat) (align : Nat) (m : PMM) :
    (setFrames align blocks m).maxBlocks = m.maxBlocks := by
  induction blocks generalizing align m with
  | zero => rfl
  | succ blocks ih => exact ih _ _

theorem maxBlocks_initEntries (mbt : MultibootInfo) (n : Nat) (m : PMM) :
    (initEntries mbt n m).maxBlocks = m.maxBlocks := by
  induction n with
  | zero => rfl
  | succ n ih =>
    rw [initEntries, initEntry]
    split
    · exact (maxBlocks_unsetFrames _ _ _).trans ih
    · exact ih

theorem maxBlocks_new (mbt : MultibootInfo) (stale : Nat → BitVec 32) :
    (new mbt stale).maxBlocks = blocks mbt :=
  (maxBlocks_setFrames _ _ _).trans (maxBlocks_initEntries mbt _ _)

/-- **The constructor offers declared memory only, exactly when the frames its fill
leaves clear and the frames its loop frees were all declared available.** -/
theorem offers_declared_iff (mbt : MultibootInfo) (stale : Nat → BitVec 32) :
    OffersDeclared mbt (new mbt stale) ↔
      ∀ f, 1024 ≤ f → f < (blocks mbt).toNat →
        (LeftClear mbt stale f ∨ ∃ i < mbt.mmap_length.toNat, (mbt.mmap i).Frees f) →
          frameBytes f ⊆ mbt.available := by
  unfold OffersDeclared
  rw [maxBlocks_new]
  constructor
  · intro h f hkernel hf hclear
    exact (h f hf ((clear_new mbt stale f).mpr ⟨hkernel, hclear⟩)).2
  · intro h f hf hbit
    obtain ⟨hkernel, hclear⟩ := (clear_new mbt stale f).mp hbit
    exact ⟨hkernel, h f hkernel hf hclear⟩

/-- 32 MiB with the hole below 16 MiB: the map declares 1 to 15 and 16 to 32 MiB. -/
def holeAt15 : MultibootInfo where
  mem_lower := 640
  mem_upper := 31744
  mmap_length := 48
  mmap_addr := 0x9000
  memory a := [20, 0, 0, 0, 0, 0, 0x10, 0, 0, 0, 0, 0, 0, 0, 0xe0, 0, 0, 0, 0, 0, 1, 0, 0, 0,
    20, 0, 0, 0, 0, 0, 0, 1, 0, 0, 0, 0, 0, 0, 0, 1, 0, 0, 0, 0, 1, 0, 0, 0].getD
      (a - 0xC0009000).toNat 0

/-- Frame `0xf04`, in the hole, is left clear by the fill. -/
theorem offers_hole : ¬ OffersDeclared holeAt15 (new holeAt15 fun _ => 0) := by
  intro h
  have hclear : LeftClear holeAt15 (fun _ => 0) 0xf04 := by
    rw [LeftClear, if_pos (by decide)]
  have hoffer := h 0xf04 (by rw [maxBlocks_new]; decide)
    ((clear_new _ _ _).mpr ⟨by decide, .inl hclear⟩)
  obtain ⟨i, hi, _, hlow, hhigh⟩ := hoffer.2 (show 4096 * 0xf04 ∈ frameBytes 0xf04 from ⟨le_rfl, by decide⟩)
  have hcases : i = 0 ∨ i = 1 := by
    have : holeAt15.mmap_length.toNat / 24 = 2 := rfl
    omega
  rcases hcases with rfl | rfl
  · exact absurd hhigh (by decide)
  · exact absurd hlow (by decide)

end PMM

end UntitledOS.Memory
