import UntitledOS.Filesystem.Fat12Chain

/-! The search for free clusters.

`findSectors` decodes every sector of the FAT by itself: the numbers it looks at are the
entries of the sector's bytes, taken as a packed array that starts with entry 0. It gives
the first of the zeros among them, one at least if there is one (`located`). In the
first sector these are the free clusters (`free`), as far as the entries lie in the
sector; what comes later are positions in a later sector, not clusters (`found_eq`). -/
namespace UntitledOS.Filesystem
open Lib

namespace FAT12

/-- The decoding of `findSectors` is that of the packed array. -/
theorem scanValue_eq (FAT : Nat → u8) (k : Nat) : scanValue FAT (k + k / 2) (k % 2) = Packed.entry FAT k := by
  simp only [scanValue, Packed.entry, Packed.word_low, Packed.word_high]
  apply BitVec.eq_of_getLsbD_eq
  intro i hi
  rcases Nat.mod_two_eq_zero_or_one k with hpar | hpar
  · rw [hpar, if_pos rfl, if_neg (by decide)]
    interval_cases i <;> simp [Packed.word_getElem]
  · rw [hpar, if_neg (by decide), if_pos rfl]
    interval_cases i <;> simp [Packed.word_getElem]

/-- The next entry's offset, one byte further or two. -/
theorem scan_offset (k : Nat) : (if k % 2 = 1 then k + k / 2 + 2 else k + k / 2 + 1) = (k + 1) + (k + 1) / 2 := by
  split <;> omega

theorem scan_phase (k : Nat) : (if k % 2 = 1 then 0 else k % 2 + 1) = (k + 1) % 2 := by
  split <;> omega

/-- The zeros of a sector from position `k` on. -/
def zeros (FAT : Nat → u8) (k : Nat) : List Nat :=
  (List.range' k (342 - k)).filter fun k => Packed.entry FAT k = 0

theorem zeros_end (FAT : Nat → u8) {k : Nat} (hk : 342 ≤ k) : zeros FAT k = [] := by
  rw [zeros, Nat.sub_eq_zero_of_le hk]
  rfl

theorem zeros_step (FAT : Nat → u8) {k : Nat} (hk : k < 342) :
    zeros FAT k = if Packed.entry FAT k = 0 then k :: zeros FAT (k + 1) else zeros FAT (k + 1) := by
  have hlen : 342 - k = 342 - (k + 1) + 1 := by omega
  rw [zeros, hlen, List.range'_succ, List.filter_cons]
  by_cases hzero : Packed.entry FAT k = 0
  · rw [if_pos hzero, if_pos (by simpa using hzero), zeros]
  · rw [if_neg hzero, if_neg (by simpa using hzero), zeros]

/-- The loop over one sector, when fewer numbers than asked for have been found. -/
theorem scan_eq (FAT : Nat → u8) (sectorCount fuel : Nat) {k : Nat} {sectors : List Nat}
    (hfuel : 342 - k ≤ fuel) (hmore : sectors.length < max 1 sectorCount) :
    scan FAT sectorCount fuel (k + k / 2) (k % 2) k sectors =
      if sectors.length + (zeros FAT k).length < max 1 sectorCount then (sectors ++ zeros FAT k, false)
      else (sectors ++ (zeros FAT k).take (max 1 sectorCount - sectors.length), true) := by
  induction fuel generalizing k sectors with
  | zero =>
    rw [zeros_end FAT (by omega), if_pos (by simpa using hmore), List.append_nil, scan]
  | succ fuel ih =>
    by_cases hk : k < 342
    · rw [scan, if_pos (by omega), scanValue_eq, zeros_step FAT hk, scan_offset, scan_phase]
      by_cases hzero : Packed.entry FAT k = 0
      · rw [if_pos hzero, if_pos hzero, List.length_cons]
        by_cases henough : (sectors ++ [k]).length ≥ sectorCount
        · rw [if_pos henough]
          rw [List.length_append, List.length_singleton] at henough
          have hone : max 1 sectorCount - sectors.length = 1 := by omega
          rw [if_neg (by omega), hone]
          rfl
        · rw [if_neg henough]
          rw [List.length_append, List.length_singleton] at henough
          have hlast : max 1 sectorCount - sectors.length =
              max 1 sectorCount - (sectors.length + 1) + 1 := by omega
          rw [ih (by omega) (by rw [List.length_append, List.length_singleton]; omega),
            List.length_append, List.length_singleton, hlast, List.take_succ_cons, Nat.add_assoc,
            Nat.add_comm 1, List.append_assoc, List.append_assoc]
          rfl
      · rw [if_neg hzero, if_neg hzero, ih (by omega) hmore]
    · rw [scan, if_neg (by omega), zeros_end FAT (by omega), if_pos (by simpa using hmore),
        List.append_nil]

variable (m : MOUNT_INFO) (behind : Nat → u8) (d : Disk)

/-- The `j`th sector of the FAT, with the byte behind its buffer. -/
def FATSector (j : Nat) : Nat → u8 := readSector (m.FATOffset + j) (behind j) d

/-- The numbers of the zeros in `n` sectors of the FAT from `j` on. -/
def zerosFrom (j n : Nat) : List Nat := (List.range' j n).flatMap fun j => zeros (FATSector m behind d j) 0

theorem findFrom_eq (sectorCount n : Nat) {j : Nat} {sectors : List Nat}
    (hmore : sectors.length < max 1 sectorCount) :
    findFrom m behind sectorCount d n j sectors =
      sectors ++ (zerosFrom m behind d j n).take (max 1 sectorCount - sectors.length) := by
  induction n generalizing j sectors with
  | zero => simp [findFrom, zerosFrom]
  | succ n ih =>
    have hscan : scan (readSector (m.FATOffset + j) (behind j) d) sectorCount 512 0 0 0 sectors = _ :=
      scan_eq (FATSector m behind d j) sectorCount 512 (k := 0) (by decide) hmore
    have hsplit : zerosFrom m behind d j (n + 1) =
        zeros (FATSector m behind d j) 0 ++ zerosFrom m behind d (j + 1) n := by
      rw [zerosFrom, List.range'_succ, List.flatMap_cons]
      rfl
    rw [findFrom, hscan, hsplit]
    by_cases hfew : sectors.length + (zeros (FATSector m behind d j) 0).length < max 1 sectorCount
    · rw [if_pos hfew]
      dsimp only
      rw [ih (by rw [List.length_append]; exact hfew), List.length_append, List.append_assoc,
        List.take_append, Nat.sub_sub,
        List.take_of_length_le (l := zeros (FATSector m behind d j) 0) (by omega)]
    · rw [if_neg hfew]
      dsimp only
      rw [List.take_append_of_le_length (by omega)]

/-- What the search for `n` clusters comes to. -/
def located (m : MOUNT_INFO) (behind : Nat → u8) (n : Nat) (d : Disk) : List Nat :=
  (zerosFrom m behind d 0 m.FATSize).take n

theorem located_lt {n : Nat} : ∀ c ∈ located m behind n d, c < 342 := by
  intro c hc
  obtain ⟨j, -, hj⟩ := List.mem_flatMap.mp (List.mem_of_mem_take hc)
  have hrange := List.mem_range'_1.mp (List.mem_filter.mp hj).1
  omega

theorem located_length (n : Nat) : (located m behind n d).length ≤ n := by
  rw [located, List.length_take]
  exact Nat.min_le_left ..

theorem findSectors_located (sectorCount : Nat) :
    findSectors m behind sectorCount d =
      if (located m behind (max 1 sectorCount) d).length ≤ 1024 then some (located m behind (max 1 sectorCount) d)
      else none := by
  have hfind : findFrom m behind sectorCount d m.FATSize 0 [] = located m behind (max 1 sectorCount) d := by
    rw [findFrom_eq _ _ _ _ _ (by simp), List.nil_append, List.length_nil, Nat.sub_zero, located]
  rw [findSectors, hfind]

/-! ### The first sector -/

/-- The free clusters whose entries lie in the first sector of the FAT. -/
def free (d : Disk) : List Nat := (List.range 341).filter fun k => fatEntry d k = 0

/-- So many clusters of 512 bytes hold a file; even an empty one gets a cluster. -/
def needed (len : Nat) : Nat := max 1 (if len % SECTOR_SIZE = 0 then len / SECTOR_SIZE else len / SECTOR_SIZE + 1)

/-- What `mount` reads off a 1.44 MB volume. -/
abbrev floppy : MOUNT_INFO := ⟨1, 9, 19⟩

/-- The disk has the layout of a 1.44 MB volume, and its two reserved entries are in use. -/
structure Layout (d : Disk) : Prop where
  mount : mount d = floppy
  media : fatEntry d 0 ≠ 0
  reserved : fatEntry d 1 ≠ 0

/-- The search for `n` clusters ends in the first sector, or finds nothing behind it. -/
def InFirst (behind : Nat → u8) (d : Disk) (n : Nat) : Prop :=
  n ≤ (free d).length ∨
    zeros (FATSector floppy behind d 0) 341 = [] ∧ zerosFrom floppy behind d 1 8 = []

variable {behind d}

/-- In the first sector, positions are clusters. -/
theorem zeros_first : zeros (FATSector floppy behind d 0) 0 =
    free d ++ zeros (FATSector floppy behind d 0) 341 := by
  have hentry : ∀ k < 341, Packed.entry (FATSector floppy behind d 0) k = fatEntry d k := by
    intro k hk
    have hbyte : ∀ o < 512, FATSector floppy behind d 0 o = fatByte d o := by
      intro o ho
      rw [FATSector, readSector, if_pos ho, fatByte, Nat.div_eq_of_lt ho, Nat.mod_eq_of_lt ho]
    exact Packed.entry_congr (hbyte _ (by omega)) (hbyte _ (by omega))
  have hsplit : List.range' 0 (342 - 0) = List.range 341 ++ List.range' 341 (342 - 341) := by
    rw [List.range_eq_range', List.range'_append_1]
  have hfree : (List.range 341).filter (fun k => Packed.entry (FATSector floppy behind d 0) k = 0) =
      free d := by
    apply List.filter_congr
    intro k hk
    rw [hentry k (List.mem_range.mp hk)]
  rw [zeros, hsplit, List.filter_append, hfree, zeros]

theorem located_free {n : Nat} (h : InFirst behind d n) : located floppy behind n d = (free d).take n := by
  have hsplit : zerosFrom floppy behind d 0 9 =
      free d ++ (zeros (FATSector floppy behind d 0) 341 ++ zerosFrom floppy behind d 1 8) := by
    rw [← List.append_assoc, ← zeros_first]
    rfl
  rw [located, hsplit]
  rcases h with hfew | ⟨hlast, hlater⟩
  · rw [List.take_append_of_le_length hfew]
  · rw [hlast, hlater, List.append_nil, List.append_nil]

/-- What `findSectors` finds there. -/
theorem found_eq {len : Nat} (h : InFirst behind d (needed len)) :
    findSectors floppy behind (if len % SECTOR_SIZE = 0 then len / SECTOR_SIZE else len / SECTOR_SIZE + 1) d =
      some ((free d).take (needed len)) := by
  have hlen : ((free d).take (needed len)).length ≤ 1024 := by
    have hfree : (free d).length ≤ 341 := (List.length_filter_le _ _).trans_eq (List.length_range ..)
    rw [List.length_take]
    omega
  rw [findSectors_located, ← needed, located_free h, if_pos hlen]

/-- Free clusters are clusters of the data area. -/
theorem mem_free (hd : Layout d) {k : Nat} (hk : k ∈ free d) : 2 ≤ k ∧ k < 341 ∧ fatEntry d k = 0 := by
  obtain ⟨hrange, hzero⟩ := List.mem_filter.mp hk
  have hzero : fatEntry d k = 0 := by simpa using hzero
  refine ⟨?_, List.mem_range.mp hrange, hzero⟩
  by_contra hlt
  rcases (show k = 0 ∨ k = 1 by omega) with rfl | rfl
  · exact hd.media hzero
  · exact hd.reserved hzero

theorem free_nodup : (free d).Nodup := List.nodup_range.filter _

end FAT12

end UntitledOS.Filesystem
