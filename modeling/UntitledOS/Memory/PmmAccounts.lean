import UntitledOS.Memory.PmmBoot

/-! What the constructor counts, and which bits it touches.

`usedBlocks` starts at `maxBlocks`, loses one for every frame that a region frees and gains
1024 for the kernel's, whether or not the bit changes (`usedBlocks_new`). So it is right
when the frees make up for the frames they found clear, and for those the fill left clear
(`counted_iff`).

The calls of `mmapSet` and `mmapUnset` are written down in order (`newOps`), and the bitmap
is what they make of the fill (`memoryMap_new`). They stay below `maxBlocks` when the
kernel's 4 MiB and every region freed do, and that number is right when the amount of
memory, in bytes, is an `int` (`stays_inside_iff`). -/
namespace UntitledOS.Memory
open Lib

namespace MmapEntry

/-- How many frames the loop frees when it meets the entry. -/
def freed (e : MmapEntry) : Nat :=
  if e.type = 1 ∧ e.addr.setWidth 32 ≠ (1 : u32) then e.len.toNat % 2 ^ 32 / 4096 else 0

instance (e : MmapEntry) (f : Nat) : Decidable (e.Frees f) :=
  inferInstanceAs (Decidable (_ ∧ _))

end MmapEntry

namespace PMM

/-! ### Counting -/

/-- How many frames the loop over the map frees, frames freed twice counted twice. -/
def freed (mbt : MultibootInfo) : Nat := ∑ i ∈ Finset.range mbt.mmap_length.toNat, (mbt.mmap i).freed

instance (mbt : MultibootInfo) (stale : Nat → BitVec 32) (f : Nat) : Decidable (LeftClear mbt stale f) := by
  unfold LeftClear
  infer_instance

/-- How many frames behind the kernel's the fill leaves clear, or an entry frees. -/
def offered (mbt : MultibootInfo) (stale : Nat → BitVec 32) : Nat :=
  Nat.count (fun f => 1024 ≤ f ∧ (LeftClear mbt stale f ∨ ∃ i < mbt.mmap_length.toNat, (mbt.mmap i).Frees f))
    (blocks mbt).toNat

theorem usedBlocks_unsetFrames (n align : Nat) (m : PMM) :
    (unsetFrames align n m).usedBlocks = m.usedBlocks - BitVec.ofNat 32 n := by
  induction n generalizing align m with
  | zero => exact (sub_zero m.usedBlocks).symm
  | succ n ih =>
    rw [unsetFrames, ih, BitVec.ofNat_add, sub_sub, add_comm]
    rfl

theorem usedBlocks_setFrames (n align : Nat) (m : PMM) :
    (setFrames align n m).usedBlocks = m.usedBlocks + BitVec.ofNat 32 n := by
  induction n generalizing align m with
  | zero => exact (add_zero m.usedBlocks).symm
  | succ n ih =>
    rw [setFrames, ih, BitVec.ofNat_add, add_assoc, add_comm (BitVec.ofNat 32 n)]
    rfl

theorem usedBlocks_initEntry (e : MmapEntry) (m : PMM) :
    (initEntry e m).usedBlocks = m.usedBlocks - BitVec.ofNat 32 e.freed := by
  rw [initEntry, MmapEntry.freed]
  split
  · rw [← cut_toNat]
    exact usedBlocks_unsetFrames _ _ m
  · exact (sub_zero m.usedBlocks).symm

theorem usedBlocks_initEntries (mbt : MultibootInfo) (n : Nat) (m : PMM) :
    (initEntries mbt n m).usedBlocks =
      m.usedBlocks - BitVec.ofNat 32 (∑ i ∈ Finset.range n, (mbt.mmap i).freed) := by
  induction n with
  | zero => exact (sub_zero m.usedBlocks).symm
  | succ n ih =>
    rw [initEntries, usedBlocks_initEntry, ih, Finset.sum_range_succ, BitVec.ofNat_add, sub_sub]

/-- The count the constructor comes to. -/
theorem usedBlocks_new (mbt : MultibootInfo) (stale : Nat → BitVec 32) :
    (new mbt stale).usedBlocks = blocks mbt - BitVec.ofNat 32 (freed mbt) + 1024 := by
  rw [new, deinitRegion, usedBlocks_setFrames, usedBlocks_initEntries]
  rfl

/-- Every frame is counted as set, or offered. -/
theorem used_new (mbt : MultibootInfo) (stale : Nat → BitVec 32) :
    (new mbt stale).used + offered mbt stale = (blocks mbt).toNat := by
  rw [used, maxBlocks_new]
  exact Bitmap.count_add_clear fun f _ => (clear_new mbt stale f).symm

/-- **The constructor's count is right exactly when the frames freed, one by one, are as
many as the kernel's and those offered.** -/
theorem counted_iff (mbt : MultibootInfo) (stale : Nat → BitVec 32) :
    (new mbt stale).usedBlocks.toNat = (new mbt stale).used ↔ freed mbt ≡ 1024 + offered mbt stale [MOD 2 ^ 32] := by
  have hall := used_new mbt stale
  have hlt := (blocks mbt).isLt
  have hblocks : blocks mbt = BitVec.ofNat 32 (new mbt stale).used + BitVec.ofNat 32 (offered mbt stale) := by
    rw [← BitVec.ofNat_add, hall, BitVec.ofNat_toNat, BitVec.setWidth_eq]
  have hnat : (new mbt stale).usedBlocks.toNat = (new mbt stale).used ↔
      (new mbt stale).usedBlocks = BitVec.ofNat 32 (new mbt stale).used := by
    rw [← BitVec.toNat_inj, BitVec.toNat_ofNat, Nat.mod_eq_of_lt (by omega)]
  have hmod : freed mbt ≡ 1024 + offered mbt stale [MOD 2 ^ 32] ↔
      BitVec.ofNat 32 (freed mbt) = 1024 + BitVec.ofNat 32 (offered mbt stale) := by
    have hkernel : (1024 : u32) = BitVec.ofNat 32 1024 := rfl
    rw [hkernel, ← BitVec.ofNat_add, ← BitVec.toNat_inj, BitVec.toNat_ofNat, BitVec.toNat_ofNat]
    exact Iff.rfl
  rw [hnat, hmod, usedBlocks_new, hblocks]
  generalize BitVec.ofNat 32 (new mbt stale).used = u
  generalize BitVec.ofNat 32 (offered mbt stale) = o
  generalize BitVec.ofNat 32 (freed mbt) = s
  -- u + o - s + 1024 = u
  constructor
  · intro h
    linear_combination -h
  · intro h
    linear_combination -h

/-- 4 MiB, of which the map declares all but the hole: 0 to 640 KiB and 1 to 4 MiB. -/
def fourMiB : MultibootInfo where
  mem_lower := 640
  mem_upper := 3072
  mmap_length := 48
  mmap_addr := 0x9000
  memory a := [20, 0, 0, 0, 0, 0, 0, 0, 0, 0, 0, 0, 0, 0, 0x0a, 0, 0, 0, 0, 0, 1, 0, 0, 0,
    20, 0, 0, 0, 0, 0, 0x10, 0, 0, 0, 0, 0, 0, 0, 0x30, 0, 0, 0, 0, 0, 1, 0, 0, 0].getD
      (a - 0xC0009000).toNat 0

/-- 1024 blocks are counted in use, of 928. -/
theorem more_than_all : ¬ ∀ (mbt : MultibootInfo) (stale : Nat → BitVec 32),
    (new mbt stale).usedBlocks.toNat = (new mbt stale).used := by
  intro h
  have hcount : (new fourMiB fun _ => 0).usedBlocks = 1024 := by
    have hblocks : blocks fourMiB = 928 := by decide
    have hfreed : freed fourMiB = 928 := by decide +kernel
    rw [usedBlocks_new, hblocks, hfreed]
    decide
  have hle : (new fourMiB fun _ => 0).used ≤ (new fourMiB fun _ => 0).maxBlocks.toNat := Bitmap.count_le _ _
  rw [maxBlocks_new, ← h, hcount] at hle
  exact absurd hle (by decide)

/-! ### The bits it touches -/

end PMM

/-- A call of `mmapSet` or `mmapUnset`. -/
inductive BitOp where
  | mmapSet (bit : Nat)
  | mmapUnset (bit : Nat)

namespace BitOp

def bit : BitOp → Nat
  | mmapSet bit => bit
  | mmapUnset bit => bit

def apply (map : Nat → BitVec 32) : BitOp → Nat → BitVec 32
  | mmapSet bit => Bitmap.set map bit
  | mmapUnset bit => Bitmap.unset map bit

/-- A call writes the word of its bit. -/
theorem apply_other (map : Nat → BitVec 32) {o : BitOp} {i : Nat} (h : i ≠ o.bit / 32) : o.apply map i = map i := by
  cases o <;> exact Function.update_of_ne h _ _

theorem foldl_other (ops : List BitOp) (map : Nat → BitVec 32) {i : Nat} (h : ∀ o ∈ ops, i ≠ o.bit / 32) :
    ops.foldl apply map i = map i := by
  induction ops generalizing map with
  | nil => rfl
  | cons o ops ih =>
    rw [List.foldl_cons, ih _ fun p hp => h p (List.mem_cons_of_mem _ hp)]
    exact apply_other map (h o (List.mem_cons_self ..))

end BitOp

namespace PMM

/-- The calls of `initRegion`, of the loop's body, and of the loop, in order. -/
def initRegionOps (base size : u32) : List BitOp :=
  (List.range' (base / 4096).toNat (size / 4096).toNat).map .mmapUnset ++ [.mmapSet 0]

def initEntryOps (e : MmapEntry) : List BitOp :=
  if e.type = 1 ∧ e.addr.setWidth 32 ≠ (1 : u32) then initRegionOps (e.addr.setWidth 32) (e.len.setWidth 32)
  else []

def initEntriesOps (mbt : MultibootInfo) : Nat → List BitOp
  | 0 => []
  | n + 1 => initEntriesOps mbt n ++ initEntryOps (mbt.mmap n)

/-- Every call that the constructor makes. -/
def newOps (mbt : MultibootInfo) : List BitOp :=
  initEntriesOps mbt mbt.mmap_length.toNat ++
    (List.range' (0 / 4096 : u32).toNat (0x400000 / 4096 : u32).toNat).map .mmapSet

theorem memoryMap_unsetFrames (n align : Nat) (m : PMM) : (unsetFrames align n m).memoryMap =
    ((List.range' align n).map .mmapUnset).foldl BitOp.apply m.memoryMap := by
  induction n generalizing align m with
  | zero => rfl
  | succ n ih =>
    rw [unsetFrames, ih, List.range'_succ, List.map_cons, List.foldl_cons]
    rfl

theorem memoryMap_setFrames (n align : Nat) (m : PMM) : (setFrames align n m).memoryMap =
    ((List.range' align n).map .mmapSet).foldl BitOp.apply m.memoryMap := by
  induction n generalizing align m with
  | zero => rfl
  | succ n ih =>
    rw [setFrames, ih, List.range'_succ, List.map_cons, List.foldl_cons]
    rfl

theorem memoryMap_initEntry (e : MmapEntry) (m : PMM) :
    (initEntry e m).memoryMap = (initEntryOps e).foldl BitOp.apply m.memoryMap := by
  rw [initEntry, initEntryOps]
  split
  · rw [initRegionOps, List.foldl_append, ← memoryMap_unsetFrames]
    rfl
  · rfl

theorem memoryMap_initEntries (mbt : MultibootInfo) (n : Nat) (m : PMM) :
    (initEntries mbt n m).memoryMap = (initEntriesOps mbt n).foldl BitOp.apply m.memoryMap := by
  induction n with
  | zero => rfl
  | succ n ih => rw [initEntries, memoryMap_initEntry, ih, initEntriesOps, List.foldl_append]

/-- The bitmap is what these calls make of the fill. -/
theorem memoryMap_new (mbt : MultibootInfo) (stale : Nat → BitVec 32) : (new mbt stale).memoryMap =
    (newOps mbt).foldl BitOp.apply (memset 0xf (blocks mbt / 8).toNat stale) := by
  rw [new, deinitRegion, memoryMap_setFrames, memoryMap_initEntries, newOps, List.foldl_append]

theorem mem_initEntryOps {e : MmapEntry} {o : BitOp} : o ∈ initEntryOps e ↔
    (∃ f, e.Frees f ∧ o = .mmapUnset f) ∨ (e.type = 1 ∧ e.addr.setWidth 32 ≠ (1 : u32)) ∧ o = .mmapSet 0 := by
  unfold initEntryOps MmapEntry.Frees
  split
  · rename_i hopen
    rw [initRegionOps, List.mem_append, List.mem_map, List.mem_singleton, cut_toNat, cut_toNat]
    simp only [List.mem_range'_1, hopen.1, hopen.2, ne_eq, not_false_eq_true, true_and, eq_comm]
  · rename_i hclosed
    refine iff_of_false List.not_mem_nil ?_
    rintro (⟨f, ⟨htype, haddr, -⟩, -⟩ | ⟨hopen, -⟩)
    · exact hclosed ⟨htype, haddr⟩
    · exact hclosed hopen

theorem mem_initEntriesOps {mbt : MultibootInfo} {n : Nat} {o : BitOp} :
    o ∈ initEntriesOps mbt n ↔ ∃ i < n, o ∈ initEntryOps (mbt.mmap i) := by
  induction n with
  | zero => simp [initEntriesOps]
  | succ n ih =>
    rw [initEntriesOps, List.mem_append, ih]
    constructor
    · rintro (⟨i, hi, ho⟩ | ho)
      · exact ⟨i, hi.trans (Nat.lt_succ_self n), ho⟩
      · exact ⟨n, Nat.lt_succ_self n, ho⟩
    · rintro ⟨i, hi, ho⟩
      rcases Nat.lt_succ_iff_lt_or_eq.mp hi with hlt | rfl
      · exact .inl ⟨i, hlt, ho⟩
      · exact .inr ho

/-- The bits below some number: frame 0, the kernel's and those of the regions freed. -/
theorem newOps_below (mbt : MultibootInfo) (n : Nat) : (∀ o ∈ newOps mbt, o.bit < n) ↔ 1024 ≤ n ∧
    ∀ i < mbt.mmap_length.toNat, ∀ f, (mbt.mmap i).Frees f → f < n := by
  have hkernel : (List.range' (0 / 4096 : u32).toNat (0x400000 / 4096 : u32).toNat).map BitOp.mmapSet =
      (List.range' 0 1024).map .mmapSet := rfl
  rw [newOps, hkernel]
  constructor
  · intro h
    constructor
    · have hlast : BitOp.mmapSet 1023 ∈ (List.range' 0 1024).map .mmapSet :=
        List.mem_map.mpr ⟨1023, List.mem_range'_1.mpr (by decide), rfl⟩
      exact h _ (List.mem_append_right _ hlast)
    · intro i hi f hf
      have hunset : BitOp.mmapUnset f ∈ initEntriesOps mbt mbt.mmap_length.toNat :=
        mem_initEntriesOps.mpr ⟨i, hi, mem_initEntryOps.mpr (.inl ⟨f, hf, rfl⟩)⟩
      exact h _ (List.mem_append_left _ hunset)
  · rintro ⟨hn, hfrees⟩ o ho
    rcases List.mem_append.mp ho with ho | ho
    · obtain ⟨i, hi, ho⟩ := mem_initEntriesOps.mp ho
      rcases mem_initEntryOps.mp ho with ⟨f, hf, rfl⟩ | ⟨-, rfl⟩
      · exact hfrees i hi f hf
      · exact Nat.lt_of_lt_of_le (by decide : 0 < 1024) hn
    · obtain ⟨f, hf, rfl⟩ := List.mem_map.mp ho
      have hlt := (List.mem_range'_1.mp hf).2
      show f < n
      omega

/-- The fill leaves the words behind it as they were. -/
theorem memset_behind (value : u8) {size i : Nat} (map : Nat → BitVec 32) (h : size ≤ 4 * i) :
    memset value size map i = map i := by
  apply BitVec.eq_of_getLsbD_eq
  intro j hj
  rw [← Bitmap.bit_word hj, ← Bitmap.bit_word hj, bit_memset, if_neg (by omega)]

/-- How many KiB the boot loader counted. -/
def kib (mbt : MultibootInfo) : Nat := mbt.mem_lower.toNat + mbt.mem_upper.toNat

/-- The constructor gets the number of blocks right and touches their bits only, so that
the words behind the bitmap are as they were. -/
structure StaysInside (mbt : MultibootInfo) : Prop where
  size : (blocks mbt).toNat = kib mbt * 1024 / 4096
  bits : ∀ o ∈ newOps mbt, o.bit < (blocks mbt).toNat
  behind : ∀ stale i, (blocks mbt).toNat ≤ 32 * i → (new mbt stale).memoryMap i = stale i

/-- The amount of memory in bytes, as the code has it. -/
theorem bytes_toNat {mbt : MultibootInfo} (h : kib mbt < 2 ^ 22) :
    ((mbt.mem_lower + mbt.mem_upper) * 1024).toNat = kib mbt * 1024 := by
  unfold kib at h ⊢
  have h1024 : (1024 : u32).toNat = 1024 := rfl
  rw [BitVec.toNat_mul, BitVec.toNat_add, h1024]
  omega

/-- It is an `int` below 2 GiB. -/
theorem blocks_small {mbt : MultibootInfo} (h : kib mbt < 2 ^ 21) : (blocks mbt).toNat = kib mbt / 4 := by
  have hbytes := bytes_toNat (by omega : kib mbt < 2 ^ 22)
  have hmsb : ((mbt.mem_lower + mbt.mem_upper) * 1024).msb = false := by
    rw [BitVec.msb_eq_decide, hbytes, decide_eq_false_iff_not]
    omega
  have hdiv : blocks mbt = (mbt.mem_lower + mbt.mem_upper) * 1024 / 4096 := by
    rw [blocks, BitVec.sdiv_eq, hmsb]
    rfl
  have h4096 : (4096 : u32).toNat = 4096 := rfl
  rw [hdiv, BitVec.toNat_udiv, hbytes, h4096]
  omega

/-- From there on it is negative, and so is the number of blocks. -/
theorem blocks_negative {mbt : MultibootInfo} (hlow : 2 ^ 21 ≤ kib mbt) (h : kib mbt < 2 ^ 22) :
    (blocks mbt).toNat ≠ kib mbt / 4 := by
  have hbytes := bytes_toNat h
  have hmsb : ((mbt.mem_lower + mbt.mem_upper) * 1024).msb = true := by
    rw [BitVec.msb_eq_decide, hbytes, decide_eq_true_iff]
    omega
  have hdiv : blocks mbt = -(-((mbt.mem_lower + mbt.mem_upper) * 1024) / 4096) := by
    rw [blocks, BitVec.sdiv_eq, hmsb]
    rfl
  have hneg : (-((mbt.mem_lower + mbt.mem_upper) * 1024)).toNat = 2 ^ 32 - kib mbt * 1024 := by
    rw [BitVec.toNat_neg, hbytes, Nat.mod_eq_of_lt (by omega)]
  have h4096 : (4096 : u32).toNat = 4096 := rfl
  rw [hdiv, BitVec.toNat_neg, BitVec.toNat_udiv, hneg, h4096]
  omega

/-- **The constructor stays inside its bitmap exactly when there are 4 MiB at least and
less than 2 GiB, and every region it frees ends inside.** -/
theorem stays_inside_iff {mbt : MultibootInfo} (h : kib mbt < 2 ^ 22) : StaysInside mbt ↔
    kib mbt < 2 ^ 21 ∧ 4096 ≤ kib mbt ∧
      ∀ i < mbt.mmap_length.toNat, ∀ f, (mbt.mmap i).Frees f → f < kib mbt / 4 := by
  have hexact : kib mbt * 1024 / 4096 = kib mbt / 4 := by omega
  constructor
  · intro hin
    have hsize := hin.size
    rw [hexact] at hsize
    have hsmall : kib mbt < 2 ^ 21 := by
      by_contra hlow
      exact blocks_negative (by omega) h hsize
    obtain ⟨hkernel, hfrees⟩ := (newOps_below mbt _).mp hin.bits
    rw [hsize] at hkernel hfrees
    exact ⟨hsmall, by omega, hfrees⟩
  · rintro ⟨hsmall, hkernel, hfrees⟩
    have hsize := blocks_small hsmall
    have hbits : ∀ o ∈ newOps mbt, o.bit < (blocks mbt).toNat := by
      rw [hsize]
      exact (newOps_below mbt _).mpr ⟨by omega, hfrees⟩
    refine ⟨by rw [hsize, hexact], hbits, fun stale i hi => ?_⟩
    have hfill : (blocks mbt / 8).toNat = (blocks mbt).toNat / 8 := BitVec.toNat_udiv
    rw [memoryMap_new, BitOp.foldl_other _ _ fun o ho => ?_, memset_behind _ _ (by omega)]
    have hlt := hbits o ho
    omega

/-- 16 MiB without the hole below 1 MiB: the map declares 1 to 15 MiB. -/
def upTo15 : MultibootInfo where
  mem_lower := 640
  mem_upper := 15360
  mmap_length := 24
  mmap_addr := 0x9000
  memory a := [20, 0, 0, 0, 0, 0, 0x10, 0, 0, 0, 0, 0, 0, 0, 0xe0, 0, 0, 0, 0, 0, 1, 0, 0, 0].getD
    (a - 0xC0009000).toNat 0

/-- Frames 256 to 3839 are freed, of 4000, and the entries met behind the map free none. -/
theorem stays_inside_mapped : StaysInside upTo15 := by
  refine (stays_inside_iff (by decide)).mpr ⟨by decide, by decide, fun i hi f hf => ?_⟩
  have hbehind : ∀ i < 24, i ≠ 0 → (upTo15.mmap i).type ≠ 1 := by decide +kernel
  obtain rfl : i = 0 := by
    by_contra hne
    exact hbehind i hi hne hf.1
  have hlast : f < 256 + 3584 := hf.2.2.2
  exact hlast.trans (by decide)

/-- 16 MiB from 16 MiB on are freed to frame 8191, of 8096. -/
theorem frees_behind : ¬ ∀ mbt : MultibootInfo, kib mbt < 2 ^ 22 → StaysInside mbt := by
  intro h
  have hblocks : (blocks holeAt15).toNat = 8096 := by decide
  have hfrees := ((newOps_below holeAt15 _).mp (h holeAt15 (by decide)).bits).2 1 (by decide) 8191 (by decide)
  rw [hblocks] at hfrees
  exact absurd hfrees (by decide)

end PMM

end UntitledOS.Memory
