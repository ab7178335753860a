import UntitledOS.Filesystem.Fat12Search

/-! What the search for free clusters is for, and when it does that.

The free clusters of a FAT of so many sectors are those whose entry lies inside of it and
decodes to 0, the way `read` decodes it (`freeClusters`). The search decodes the first
sector like that up to cluster 340. The entry of cluster 341 lies on both sides of the
sector's end, and looking at it reads the byte behind the buffer (`scanReads_inside`); from
then on the search is in the next sector and counts from 0. So it is exact when it is over
before that, and only then (`search_exact`). -/
namespace UntitledOS.Filesystem
open Lib

namespace FAT12

/-- The clusters of a FAT of `F` sectors that are free. -/
def freeClusters (F : Nat) (d : Disk) : List Nat :=
  (List.range (512 * F)).filter fun c => c + c / 2 + 1 < 512 * F ∧ nextCluster d c = 0

theorem mem_freeClusters {F : Nat} {d : Disk} {c : Nat} :
    c ∈ freeClusters F d ↔ c + c / 2 + 1 < 512 * F ∧ nextCluster d c = 0 := by
  rw [freeClusters, List.mem_filter, List.mem_range, decide_eq_true_iff]
  exact and_iff_right_of_imp fun h => by omega

/-! ### The bytes that are read -/

/-- The offsets in the buffer that the `while` loop of `findSectors` reads. -/
def scanReads (FAT : Nat → u8) (sectorCount : Nat) : Nat → Nat → Nat → Nat → List Nat → List Nat
  | 0, _, _, _, _ => []
  | fuel + 1, i, c, sector, sectors =>
    if i < 512 then
      i :: (i + 1) ::
        if scanValue FAT i c = 0 then
          if (sectors ++ [sector]).length ≥ sectorCount then []
          else scanReads FAT sectorCount fuel (if c = 1 then i + 2 else i + 1) (if c = 1 then 0 else c + 1)
            (sector + 1) (sectors ++ [sector])
        else scanReads FAT sectorCount fuel (if c = 1 then i + 2 else i + 1) (if c = 1 then 0 else c + 1)
          (sector + 1) sectors
    else []

/-- The sectors that the `for` loop reads, and the offsets in the buffer of each. -/
def findReads (m : MOUNT_INFO) (behind : Nat → u8) (sectorCount : Nat) (d : Disk) :
    Nat → Nat → List Nat → List (Nat × Nat)
  | 0, _, _ => []
  | n + 1, j, sectors =>
    (scanReads (FATSector m behind d j) sectorCount 512 0 0 0 sectors).map (fun o => (m.FATOffset + j, o)) ++
      if (scan (FATSector m behind d j) sectorCount 512 0 0 0 sectors).2 then []
      else findReads m behind sectorCount d n (j + 1) (scan (FATSector m behind d j) sectorCount 512 0 0 0 sectors).1

/-- The zeros of a sector from position `k` on whose entries end in it. -/
def whole (FAT : Nat → u8) (k : Nat) : List Nat := (zeros FAT k).filter (· < 341)

theorem whole_step (FAT : Nat → u8) {k : Nat} (hk : k < 341) :
    whole FAT k = if Packed.entry FAT k = 0 then k :: whole FAT (k + 1) else whole FAT (k + 1) := by
  rw [whole, zeros_step FAT (by omega)]
  split
  · rw [List.filter_cons_of_pos (by simpa using hk), whole]
  · rfl

theorem whole_end (FAT : Nat → u8) : whole FAT 341 = [] := by
  rw [whole, zeros_step FAT (by decide), zeros_end FAT (by decide)]
  split <;> rfl

/-- The scan stays in the buffer exactly when the zeros in front of the last position are
enough. -/
theorem scanReads_inside (FAT : Nat → u8) (sectorCount fuel : Nat) {k : Nat} {sectors : List Nat}
    (hk : k ≤ 341) (hfuel : 342 - k ≤ fuel) (hmore : sectors.length < max 1 sectorCount) :
    (∀ o ∈ scanReads FAT sectorCount fuel (k + k / 2) (k % 2) k sectors, o < 512) ↔
      max 1 sectorCount ≤ sectors.length + (whole FAT k).length := by
  induction fuel generalizing k sectors with
  | zero => omega
  | succ fuel ih =>
    rw [scanReads, if_pos (by omega), scanValue_eq, scan_offset, scan_phase]
    by_cases hlast : k = 341
    · -- the word at 511 goes over the end
      subst hlast
      refine iff_of_false (fun h => ?_) (by rw [whole_end, List.length_nil]; omega)
      have := h 512 (by simp)
      omega
    · -- this word is inside, so the rest decides
      have hword : ∀ rest : List Nat,
          (∀ o ∈ (k + k / 2) :: (k + k / 2 + 1) :: rest, o < 512) ↔ ∀ o ∈ rest, o < 512 := by
        intro rest
        have hin : k + k / 2 < 512 ∧ k + k / 2 + 1 < 512 := by omega
        simp [hin]
      rw [hword, whole_step FAT (by omega)]
      by_cases hzero : Packed.entry FAT k = 0
      · rw [if_pos hzero, if_pos hzero, List.length_cons]
        by_cases henough : (sectors ++ [k]).length ≥ sectorCount
        · rw [if_pos henough]
          rw [List.length_append, List.length_singleton] at henough
          refine iff_of_true (by simp) (by omega)
        · rw [if_neg henough]
          rw [List.length_append, List.length_singleton] at henough
          rw [ih (by omega) (by omega) (by rw [List.length_append, List.length_singleton]; omega),
            List.length_append, List.length_singleton]
          omega
      · rw [if_neg hzero, if_neg hzero, ih (by omega) (by omega) hmore]

/-! ### Exactness -/

section Exactness
variable (behind : Nat → u8) (d : Disk) (F rootOffset : Nat)

/-- The zeros of the first sector, the ones of its last word behind the free clusters. -/
theorem zeros_sector : zeros (FATSector ⟨1, F, rootOffset⟩ behind d 0) 0 =
    free d ++ zeros (FATSector floppy behind d 0) 341 := by
  have hfloppy : zeros (FATSector floppy behind d 0) 0 = _ := zeros_first
  exact hfloppy

/-- The zeros of the first sector that end in it are the free clusters it holds. -/
theorem whole_first : whole (FATSector ⟨1, F, rootOffset⟩ behind d 0) 0 = free d := by
  rw [whole, zeros_sector, List.filter_append]
  have hlast : (zeros (FATSector floppy behind d 0) 341).filter (· < 341) = [] := whole_end _
  rw [hlast, List.append_nil]
  refine List.filter_eq_self.mpr fun c hc => ?_
  simpa using List.mem_range.mp (List.mem_filter.mp hc).1

/-- The search ends in the first sector. -/
theorem scan_first {sectorCount : Nat} (h : max 1 sectorCount ≤ (free d).length) :
    scan (FATSector ⟨1, F, rootOffset⟩ behind d 0) sectorCount 512 0 0 0 [] =
      ((free d).take (max 1 sectorCount), true) := by
  have hscan : scan (FATSector ⟨1, F, rootOffset⟩ behind d 0) sectorCount 512 0 0 0 [] = _ :=
    scan_eq (FATSector ⟨1, F, rootOffset⟩ behind d 0) sectorCount 512 (k := 0) (by decide) (by simp)
  have henough : ¬(([] : List Nat).length + (free d ++ zeros (FATSector floppy behind d 0) 341).length <
      max 1 sectorCount) := by
    rw [List.length_nil, List.length_append]
    omega
  rw [hscan, zeros_sector, if_neg henough, List.length_nil, Nat.sub_zero, List.nil_append,
    List.take_append_of_le_length h]

theorem findReads_inside (sectorCount : Nat) :
    (∀ r ∈ findReads ⟨1, F, rootOffset⟩ behind sectorCount d F 0 [], 1 ≤ r.1 ∧ r.1 < 1 + F ∧ r.2 < 512) ↔
      F = 0 ∨ max 1 sectorCount ≤ (free d).length := by
  cases F with
  | zero => simp [findReads]
  | succ n =>
    have hmore : ([] : List Nat).length < max 1 sectorCount := by simp
    have hinside := scanReads_inside (FATSector ⟨1, n + 1, rootOffset⟩ behind d 0) sectorCount 512 (k := 0)
      (by decide) (by decide) hmore
    rw [whole_first, List.length_nil, Nat.zero_add (free d).length] at hinside
    rw [or_iff_right (Nat.succ_ne_zero n), ← hinside]
    constructor
    · intro h o ho
      exact (h (1, o) (List.mem_append_left _ (List.mem_map.mpr ⟨o, ho, rfl⟩))).2.2
    · intro h r hr
      have hscan := scan_first behind d (n + 1) rootOffset (hinside.mp h)
      rw [findReads, hscan, if_pos rfl, List.append_nil] at hr
      obtain ⟨o, ho, rfl⟩ := List.mem_map.mp hr
      exact ⟨le_refl 1, by simp, h o ho⟩

theorem findSectors_first {n : Nat} (hF : 0 < F) (hn : max 1 n ≤ (free d).length) :
    findSectors ⟨1, F, rootOffset⟩ behind n d = some ((free d).take (max 1 n)) := by
  obtain ⟨k, rfl⟩ := Nat.exists_eq_succ_of_ne_zero hF.ne'
  have hlocated : located ⟨1, k + 1, rootOffset⟩ behind (max 1 n) d = (free d).take (max 1 n) := by
    rw [located, zerosFrom, List.range'_succ, List.flatMap_cons, zeros_sector, List.append_assoc,
      List.take_append_of_le_length hn]
  have hfree : (free d).length ≤ 341 := (List.length_filter_le _ _).trans_eq (List.length_range ..)
  rw [findSectors_located, hlocated, if_pos (by rw [List.length_take]; omega)]

/-- With a sector at least, the first free clusters are those it holds. -/
theorem freeClusters_take {F n : Nat} (hF : 0 < F) (hn : n ≤ (free d).length) :
    (freeClusters F d).take n = (free d).take n := by
  have hsplit : List.range (512 * F) = List.range 341 ++ List.range' 341 (512 * F - 341) := by
    rw [List.range_eq_range', List.range_eq_range', List.range'_append_1, Nat.add_sub_cancel' (by omega)]
  have hfirst : (List.range 341).filter (fun c => c + c / 2 + 1 < 512 * F ∧ nextCluster d c = 0) = free d := by
    apply List.filter_congr
    intro c hc
    have hin : c + c / 2 + 1 < 512 * F := by
      have := List.mem_range.mp hc
      omega
    rw [nextCluster_eq]
    simp [hin]
  rw [freeClusters, hsplit, List.filter_append, hfirst, List.take_append_of_le_length hn]

end Exactness

/-- What a search for `n` clusters is to do: give the `n` smallest free ones, or all there
are, and read the sectors of the FAT only. -/
structure Exact (m : MOUNT_INFO) (behind : Nat → u8) (n : Nat) (d : Disk) : Prop where
  found : findSectors m behind n d = some ((freeClusters m.FATSize d).take n)
  inside : ∀ r ∈ findReads m behind n d m.FATSize 0 [],
    m.FATOffset ≤ r.1 ∧ r.1 < m.FATOffset + m.FATSize ∧ r.2 < 512

/-- The search is exact if and only if the free clusters whose entries end in the first
sector of the FAT are enough, or there is no FAT. -/
theorem search_exact (behind : Nat → u8) (d : Disk) (F rootOffset : Nat) {n : Nat} (hn : 1 ≤ n) :
    Exact ⟨1, F, rootOffset⟩ behind n d ↔ F = 0 ∨ n ≤ (free d).length := by
  have hmax : max 1 n = n := Nat.max_eq_right hn
  have hinside := findReads_inside behind d F rootOffset n
  rw [hmax] at hinside
  constructor
  · intro h
    exact hinside.mp h.inside
  · intro h
    refine ⟨?_, hinside.mpr h⟩
    by_cases hF : F = 0
    · subst hF
      simp [findSectors, findFrom, freeClusters]
    · have henough : n ≤ (free d).length := h.resolve_left hF
      have hpos : 0 < F := Nat.pos_of_ne_zero hF
      rw [findSectors_first behind d F rootOffset hpos (by rw [hmax]; exact henough), hmax,
        freeClusters_take d hpos henough]

/-- A FAT of two sectors with every third cluster free, from cluster 3 on. -/
def thirdsFree : Disk := fun s k =>
  if s = 1 ∨ s = 2 then Packed.pack (fun c => if 2 ≤ c ∧ c % 3 = 0 then 0 else 0xFFF) (512 * (s - 1) + k) else 0

/-- The first four of them. -/
theorem search_exact_thirds : Exact ⟨1, 2, 3⟩ (fun _ => 0) 4 thirdsFree ∧
    findSectors ⟨1, 2, 3⟩ (fun _ => 0) 4 thirdsFree = some [3, 6, 9, 12] :=
  ⟨(search_exact (fun _ => 0) thirdsFree 2 3 (by decide)).mpr (.inr (by decide +kernel)), by decide +kernel⟩

/-- A FAT of two sectors, all of the first in use. -/
def secondEmpty : Disk := fun s _ => if s = 1 then 0xFF else 0

/-- The search gives cluster 0, whose entry is in use, for the first entry of the second
sector. -/
theorem second_sector_misread : ¬ ∀ (behind : Nat → u8) (d : Disk) (F rootOffset n : Nat), 1 ≤ n →
    Exact ⟨1, F, rootOffset⟩ behind n d := by
  intro h
  have hfound := (h (fun _ => 0) secondEmpty 2 3 1 (le_refl 1)).found
  have hzero : findSectors ⟨1, 2, 3⟩ (fun _ => 0) 1 secondEmpty = some [0] := by decide +kernel
  rw [hzero] at hfound
  have hmem : 0 ∈ (freeClusters 2 secondEmpty).take 1 := by
    rw [← Option.some.inj hfound]
    exact List.mem_singleton_self 0
  exact absurd (mem_freeClusters.mp (List.mem_of_mem_take hmem)).2 (by decide)

end FAT12

end UntitledOS.Filesystem
