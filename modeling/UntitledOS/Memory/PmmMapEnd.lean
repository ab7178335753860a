import UntitledOS.Memory.PmmAccounts

/-! The end of the memory map.

`mmap_length` is a number of bytes and the loop takes it for a number of entries, so that it
reads 24 bytes for every byte of the map. What lies behind the map then counts. Over any map
that is not empty, one memory with nothing behind the map and one with an entry there for a
single available frame lead to different counts (`freed_differs`), so the result depends on
the map alone exactly when there is no map (`ends_with_map_iff`). -/
namespace UntitledOS.Memory
open Lib

namespace MultibootInfo

/-- Where the constructor reads the map. -/
def mapAddress (mbt : MultibootInfo) : Addr := mbt.mmap_addr + 0xC0000000

/-- The byte so far from the start of the map. -/
def byteAt (mbt : MultibootInfo) (k : Nat) : u8 := mbt.memory (mbt.mapAddress + BitVec.ofNat 32 k)

/-- The same sizes, and another memory. -/
def withMemory (mbt : MultibootInfo) (memory : Addr → u8) : MultibootInfo := {mbt with memory := memory}

/-- Another memory with the same map. -/
def SameMap (mbt : MultibootInfo) (memory : Addr → u8) : Prop :=
  ∀ k < mbt.mmap_length.toNat, memory (mbt.mapAddress + BitVec.ofNat 32 k) = mbt.byteAt k

section Reading
variable (mbt : MultibootInfo)

theorem read_zero (a : Addr) : mbt.read a 0 = 0 := rfl

theorem read_succ (k n : Nat) : mbt.read (mbt.mapAddress + BitVec.ofNat 32 k) (n + 1) =
    (mbt.byteAt k).toNat + 256 * mbt.read (mbt.mapAddress + BitVec.ofNat 32 (k + 1)) n := by
  rw [read, BitVec.ofNat_add, ← add_assoc]
  rfl

theorem mmap_eq (i : Nat) : mbt.mmap i =
    ⟨BitVec.ofNat 64 (mbt.read (mbt.mapAddress + BitVec.ofNat 32 (24 * i + 4)) 8),
      BitVec.ofNat 64 (mbt.read (mbt.mapAddress + BitVec.ofNat 32 (24 * i + 12)) 8),
      BitVec.ofNat 32 (mbt.read (mbt.mapAddress + BitVec.ofNat 32 (24 * i + 20)) 4)⟩ := by
  have hoffset : ∀ j, mbt.mapAddress + BitVec.ofNat 32 (24 * i + j) =
      mbt.mmap_addr + 0xC0000000 + BitVec.ofNat 32 (24 * i) + BitVec.ofNat 32 j := by
    intro j
    rw [BitVec.ofNat_add, ← add_assoc]
    rfl
  simp only [hoffset]
  rfl

variable {mbt}

theorem read_congr {mbt' : MultibootInfo} (n : Nat) {k : Nat} (h : ∀ j < n, mbt'.byteAt (k + j) = mbt.byteAt (k + j)) :
    mbt'.read (mbt'.mapAddress + BitVec.ofNat 32 k) n = mbt.read (mbt.mapAddress + BitVec.ofNat 32 k) n := by
  induction n generalizing k with
  | zero => rw [read_zero, read_zero]
  | succ n ih =>
    have hrest : ∀ j < n, mbt'.byteAt (k + 1 + j) = mbt.byteAt (k + 1 + j) := by
      intro j hj
      rw [Nat.add_assoc, Nat.add_comm 1]
      exact h (j + 1) (by omega)
    have hfirst : mbt'.byteAt k = mbt.byteAt k := h 0 (Nat.succ_pos n)
    rw [read_succ, read_succ, ih hrest, hfirst]

/-- An entry is its bytes. -/
theorem mmap_congr {mbt' : MultibootInfo} {i : Nat}
    (h : ∀ j, 4 ≤ j → j < 24 → mbt'.byteAt (24 * i + j) = mbt.byteAt (24 * i + j)) : mbt'.mmap i = mbt.mmap i := by
  have hread : ∀ p n, 4 ≤ p → p + n ≤ 24 → mbt'.read (mbt'.mapAddress + BitVec.ofNat 32 (24 * i + p)) n =
      mbt.read (mbt.mapAddress + BitVec.ofNat 32 (24 * i + p)) n := by
    intro p n hp hn
    refine read_congr n fun j hj => ?_
    rw [Nat.add_assoc]
    exact h (p + j) (by omega) (by omega)
  rw [mmap_eq, mmap_eq, hread 4 8 (by omega) (by omega), hread 12 8 (by omega) (by omega),
    hread 20 4 (by omega) (by omega)]

/-- An entry whose type reads 0 in its low byte is not available. -/
theorem freed_of_zero {i : Nat} (h : mbt.byteAt (24 * i + 20) = 0) : (mbt.mmap i).freed = 0 := by
  rw [MmapEntry.freed, if_neg]
  rintro ⟨htype, -⟩
  rw [mmap_eq] at htype
  have hnat := congrArg BitVec.toNat htype
  simp [read_succ, h] at hnat
  omega

/-- An entry at address 0 of 4096 bytes frees a frame. -/
theorem freed_of_frame {i : Nat}
    (h : ∀ j, 4 ≤ j → j < 24 → mbt.byteAt (24 * i + j) = if j = 13 then 0x10 else if j = 20 then 1 else 0) :
    (mbt.mmap i).freed = 1 := by
  have hbytes : ∀ j, 4 ≤ j → j < 24 →
      (mbt.byteAt (24 * i + j)).toNat = if j = 13 then 16 else if j = 20 then 1 else 0 := by
    intro j hlow hhigh
    rw [h j hlow hhigh]
    split
    · rfl
    · split <;> rfl
  have hentry : mbt.mmap i = ⟨0, 0x1000, 1⟩ := by
    rw [mmap_eq]
    simp [read_succ, read_zero, Nat.add_assoc, hbytes]
  rw [hentry]
  decide

end Reading

/-! ### Two memories -/

/-- The same map, with these bytes behind it, by their distance from its start. -/
def filled (mbt : MultibootInfo) (behind : Nat → u8) : MultibootInfo :=
  mbt.withMemory fun a => if (a - mbt.mapAddress).toNat < mbt.mmap_length.toNat then mbt.memory a
    else behind (a - mbt.mapAddress).toNat

/-- Nothing behind the map. -/
def quiet (_ : Nat) : u8 := 0

/-- An entry at `s`, for an available frame at address 0. -/
def noisy (s k : Nat) : u8 := if k = s + 13 then 0x10 else if k = s + 20 then 1 else 0

section Memories
variable (mbt : MultibootInfo)

theorem offset_toNat (k : Nat) : (mbt.mapAddress + BitVec.ofNat 32 k - mbt.mapAddress).toNat = k % 2 ^ 32 := by
  rw [add_sub_cancel_left, BitVec.toNat_ofNat]

theorem byteAt_withMemory (memory : Addr → u8) (k : Nat) :
    (mbt.withMemory memory).byteAt k = memory (mbt.mapAddress + BitVec.ofNat 32 k) := rfl

theorem byteAt_filled (behind : Nat → u8) (k : Nat) : (mbt.filled behind).byteAt k =
    if k % 2 ^ 32 < mbt.mmap_length.toNat then mbt.byteAt k else behind (k % 2 ^ 32) := by
  rw [filled, byteAt_withMemory, offset_toNat]
  exact ite_congr rfl (fun _ => by rw [byteAt]) (fun _ => rfl)

theorem mmap_length_filled (behind : Nat → u8) : (mbt.filled behind).mmap_length = mbt.mmap_length := by
  rw [filled, withMemory]

theorem sameMap_filled (behind : Nat → u8) : mbt.SameMap (mbt.filled behind).memory := by
  intro k hk
  have hlt := mbt.mmap_length.isLt
  have hmemory : (mbt.filled behind).byteAt k = (mbt.filled behind).memory (mbt.mapAddress + BitVec.ofNat 32 k) :=
    mbt.byteAt_withMemory _ k
  rw [← hmemory, byteAt_filled, Nat.mod_eq_of_lt (by omega), if_pos hk]

variable {mbt}

theorem byteAt_behind {behind : Nat → u8} {k o : Nat} (hk : k % 2 ^ 32 = o) (ho : mbt.mmap_length.toNat ≤ o) :
    (mbt.filled behind).byteAt k = behind o := by
  rw [byteAt_filled, hk, if_neg (by omega)]

/-- An entry, at a multiple of 8, that overlaps a byte 13 or 20 from `s` is the one at `s`, or
its type is 12, 28 or 36 bytes from there. -/
theorem overlaps {o s j p : Nat} (ho : 8 ∣ o) (hs : 8 ∣ s) (hlt : o < 2 ^ 32) (hroom : s + 40 ≤ 2 ^ 32)
    (hlow : 4 ≤ j) (hhigh : j < 24) (hp : p = 13 ∨ p = 20) (h : (o + j) % 2 ^ 32 = s + p) :
    o = s ∨ ∃ q, (q = 12 ∨ q = 28 ∨ q = 36) ∧ (o + 20) % 2 ^ 32 = s + q := by
  obtain ⟨a, rfl⟩ := ho
  obtain ⟨b, rfl⟩ := hs
  have hcases : 8 * a = 8 * b ∨ (8 * a + 20) % 2 ^ 32 = 8 * b + 12 ∨ (8 * a + 20) % 2 ^ 32 = 8 * b + 28 ∨
      (8 * a + 20) % 2 ^ 32 = 8 * b + 36 := by
    rcases hp with rfl | rfl
    · omega
    · omega
  rcases hcases with h | h | h | h
  · exact .inl h
  · exact .inr ⟨12, .inl rfl, h⟩
  · exact .inr ⟨28, .inr (.inl rfl), h⟩
  · exact .inr ⟨36, .inr (.inr rfl), h⟩

/-- The entry at `s` frees a frame more, and no other entry is different. The loop reads at
multiples of 24 bytes, modulo 2^32, and so at multiples of 8: an entry that overlaps the
one at `s` has a zero where its type is. -/
theorem freed_noisy (mbt : MultibootInfo) {s : Nat} (hs : 8 ∣ s) (hbehind : mbt.mmap_length.toNat ≤ s + 4)
    (hroom : s + 40 ≤ 2 ^ 32) (i : Nat) : ((mbt.filled (noisy s)).mmap i).freed =
      ((mbt.filled quiet).mmap i).freed + if 24 * i % 2 ^ 32 = s then 1 else 0 := by
  have hmod : ∀ j, (24 * i + j) % 2 ^ 32 = (24 * i % 2 ^ 32 + j) % 2 ^ 32 := by
    intro j
    rw [Nat.mod_add_mod]
  have ho : 8 ∣ 24 * i % 2 ^ 32 := by omega
  have hlt : 24 * i % 2 ^ 32 < 2 ^ 32 := Nat.mod_lt _ (Nat.two_pow_pos 32)
  generalize 24 * i % 2 ^ 32 = o at hmod ho hlt
  by_cases hat : o = s
  · have hoffset : ∀ j < 24, (24 * i + j) % 2 ^ 32 = s + j := by
      intro j hj
      rw [hmod, hat, Nat.mod_eq_of_lt (by omega)]
    have hquiet : ((mbt.filled quiet).mmap i).freed = 0 :=
      freed_of_zero (byteAt_behind (hoffset 20 (by decide)) (by omega))
    rw [if_pos hat, hquiet, Nat.zero_add]
    refine freed_of_frame fun j hlow hhigh => ?_
    rw [byteAt_behind (hoffset j hhigh) (by omega), noisy]
    simp only [Nat.add_left_cancel_iff]
  · rw [if_neg hat, Nat.add_zero]
    by_cases hoverlap : ∃ q, (q = 12 ∨ q = 28 ∨ q = 36) ∧ (o + 20) % 2 ^ 32 = s + q
    · obtain ⟨q, hq, hoffset⟩ := hoverlap
      rw [← hmod] at hoffset
      have hzero : noisy s (s + q) = 0 := by
        rcases hq with rfl | rfl | rfl <;> simp [noisy]
      have hquiet : ((mbt.filled quiet).mmap i).freed = 0 := freed_of_zero (byteAt_behind hoffset (by omega))
      have hnoisy : ((mbt.filled (noisy s)).mmap i).freed = 0 :=
        freed_of_zero ((byteAt_behind hoffset (by omega)).trans hzero)
      rw [hquiet, hnoisy]
    · refine congrArg MmapEntry.freed (mmap_congr fun j hlow hhigh => ?_)
      have hmiss : ∀ p, p = 13 ∨ p = 20 → (24 * i + j) % 2 ^ 32 ≠ s + p := by
        intro p hp h
        rw [hmod] at h
        rcases overlaps ho hs hlt hroom hlow hhigh hp h with h | h
        · exact hat h
        · exact hoverlap h
      rw [byteAt_filled, byteAt_filled, noisy, if_neg (hmiss 13 (.inl rfl)), if_neg (hmiss 20 (.inr rfl)), quiet]

end Memories

end MultibootInfo

namespace PMM
open MultibootInfo

/-- The entry is met once at least, and counted every time. -/
theorem freed_differs {mbt : MultibootInfo} {s n : Nat} (hs : s = 24 * n) (hn : n < mbt.mmap_length.toNat)
    (hbehind : mbt.mmap_length.toNat ≤ s + 4) (hroom : s + 40 ≤ 2 ^ 32) :
    ∃ t, 0 < t ∧ t < 2 ^ 32 ∧ freed (mbt.filled (noisy s)) = freed (mbt.filled quiet) + t := by
  have hlt := mbt.mmap_length.isLt
  have hentries := fun i => freed_noisy mbt (by omega : 8 ∣ s) hbehind hroom i
  refine ⟨((Finset.range mbt.mmap_length.toNat).filter fun i => 24 * i % 2 ^ 32 = s).card, ?_, ?_, ?_⟩
  · refine Finset.card_pos.mpr ⟨n, Finset.mem_filter.mpr ⟨Finset.mem_range.mpr hn, ?_⟩⟩
    omega
  · exact (Finset.card_filter_le _ _).trans_lt (by rwa [Finset.card_range])
  · rw [freed, freed, mmap_length_filled, mmap_length_filled, Finset.sum_congr rfl fun i _ => hentries i,
      Finset.sum_add_distrib, Finset.card_filter]

theorem blocks_withMemory (mbt : MultibootInfo) (memory : Addr → u8) :
    blocks (mbt.withMemory memory) = blocks mbt := by
  rw [blocks, blocks, withMemory]

theorem withMemory_filled (mbt : MultibootInfo) (behind : Nat → u8) :
    mbt.withMemory (mbt.filled behind).memory = mbt.filled behind := by
  rw [filled, withMemory, withMemory]

/-- Without a map, no memory is read. -/
theorem new_without_map {mbt : MultibootInfo} (h : mbt.mmap_length = 0) (memory : Addr → u8) (stale : Nat → BitVec 32) :
    new (mbt.withMemory memory) stale =
      deinitRegion 0 0x400000 ⟨memset 0xf (blocks mbt / 8).toNat stale, blocks mbt, blocks mbt⟩ := by
  have hlength : (mbt.withMemory memory).mmap_length.toNat = 0 := by
    rw [withMemory, h]
    rfl
  rw [new, hlength, initEntries, blocks_withMemory]

/-- Whatever is behind the map, and anywhere else, the constructor makes the same of it. -/
def EndsWithMap (mbt : MultibootInfo) : Prop :=
  ∀ memory memory' stale, mbt.SameMap memory → mbt.SameMap memory' →
    new (mbt.withMemory memory) stale = new (mbt.withMemory memory') stale

theorem reads_behind {mbt : MultibootInfo} (hpos : 0 < mbt.mmap_length.toNat)
    (hroom : mbt.mmap_length.toNat + 59 ≤ 2 ^ 32) : ¬EndsWithMap mbt := by
  intro h
  -- the first entry whose fields all lie behind the map
  obtain ⟨s, n, hs, hn, hbehind, hend⟩ : ∃ s n, s = 24 * n ∧ n < mbt.mmap_length.toNat ∧
      mbt.mmap_length.toNat ≤ s + 4 ∧ s + 40 ≤ 2 ^ 32 :=
    ⟨24 * ((mbt.mmap_length.toNat + 19) / 24), (mbt.mmap_length.toNat + 19) / 24, rfl, by omega, by omega, by omega⟩
  obtain ⟨t, htpos, htlt, hfreed⟩ := freed_differs hs hn hbehind hend
  have hsame := h (mbt.filled (noisy s)).memory (mbt.filled quiet).memory (fun _ => 0)
    (mbt.sameMap_filled (noisy s)) (mbt.sameMap_filled quiet)
  have hused := congrArg PMM.usedBlocks hsame
  rw [usedBlocks_new, usedBlocks_new, blocks_withMemory, blocks_withMemory, withMemory_filled, withMemory_filled,
    hfreed, BitVec.ofNat_add] at hused
  have hzero : BitVec.ofNat 32 t = 0 := by
    linear_combination -hused
  have hnat := congrArg BitVec.toNat hzero
  rw [BitVec.toNat_ofNat, Nat.mod_eq_of_lt htlt] at hnat
  exact htpos.ne' hnat

/-- **The constructor reads the map to its end and no further exactly when there is none.** -/
theorem ends_with_map_iff {mbt : MultibootInfo} (hroom : mbt.mmap_length.toNat + 59 ≤ 2 ^ 32) :
    EndsWithMap mbt ↔ mbt.mmap_length = 0 := by
  constructor
  · intro h
    by_contra hlength
    exact reads_behind (Nat.pos_of_ne_zero fun hzero => hlength (BitVec.eq_of_toNat_eq hzero)) hroom h
  · intro hlength memory memory' stale _ _
    rw [new_without_map hlength, new_without_map hlength]

/-- 4 MiB and no map. -/
theorem ends_with_map_none : EndsWithMap ⟨0, 4096, 0, 0x9000, fun _ => 0⟩ :=
  (ends_with_map_iff (by decide)).mpr rfl

/-- The map of 48 bytes, of two entries, is read as 48. -/
theorem reads_behind_hole : ¬ ∀ mbt, EndsWithMap mbt :=
  fun h => reads_behind (by decide : 0 < holeAt15.mmap_length.toNat) (by decide) (h holeAt15)

end PMM

end UntitledOS.Memory
