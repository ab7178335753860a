import UntitledOS.Filesystem.Fat12Chain

/-! Reading a file call by call.

The FAT as a document would define it is a table of numbers, packed twelve bits each
(`Packs`). What `read` decodes is this table (`Packs.fatEntry`), so calls of `read`, one
after the other, deliver the sectors of a chain in order, and the last of them sets `eof`
(`reads_follow`). Nothing else of the file changes. -/
namespace UntitledOS.Filesystem
open Lib

namespace FAT12

/-- What so many calls of `read` on a file give, one after the other. -/
def reads (d : Disk) : Nat → FILE → List (FILE × (Nat → u8))
  | 0, _ => []
  | n + 1, file => read file d :: reads d n (read file d).1

/-- The entry of a cluster lies in the nine sectors of the FAT. -/
def Inside (c : Nat) : Prop := c + c / 2 + 1 < 512 * 9

instance (c : Nat) : Decidable (Inside c) :=
  inferInstanceAs (Decidable (_ < _))

/-- The FAT is the packing of a table. -/
def Packs (d : Disk) (t : Nat → Nat) : Prop :=
  ∀ c, Inside c → t c =
    if c % 2 = 0 then (fatByte d (c + c / 2)).toNat + 256 * ((fatByte d (c + c / 2 + 1)).toNat % 16)
    else (fatByte d (c + c / 2)).toNat / 16 + 16 * (fatByte d (c + c / 2 + 1)).toNat

/-- The table leads along the clusters, and marks the last of them. -/
def Leads (t : Nat → Nat) : List Nat → Prop
  | [] => False
  | [c] => Inside c ∧ 0xFF8 ≤ t c
  | c :: c' :: rest => Inside c ∧ t c = c' ∧ 2 ≤ c' ∧ c' ≤ 0xFEF ∧ Leads t (c' :: rest)

instance decidableLeads (t : Nat → Nat) : ∀ cs, Decidable (Leads t cs)
  | [] => inferInstanceAs (Decidable False)
  | [c] => inferInstanceAs (Decidable (Inside c ∧ 0xFF8 ≤ t c))
  | c :: c' :: rest =>
    have := decidableLeads t (c' :: rest)
    inferInstanceAs (Decidable (Inside c ∧ t c = c' ∧ 2 ≤ c' ∧ c' ≤ 0xFEF ∧ Leads t (c' :: rest)))

variable {d : Disk} {t : Nat → Nat}

/-- An entry is a byte and half of the next one. -/
theorem fatEntry_toNat (d : Disk) (c : Nat) : (fatEntry d c).toNat =
    if c % 2 = 0 then (fatByte d (c + c / 2)).toNat + 256 * ((fatByte d (c + c / 2 + 1)).toNat % 16)
    else (fatByte d (c + c / 2)).toNat / 16 + 16 * (fatByte d (c + c / 2 + 1)).toNat := by
  rw [fatEntry, Packed.entry_toNat]
  rcases Nat.mod_two_eq_zero_or_one c with hpar | hpar
  · rw [hpar, if_neg (by decide), if_pos rfl]
  · rw [hpar, if_pos rfl, if_neg (by decide)]

theorem Packs.fatEntry (h : Packs d t) {c : Nat} (hc : Inside c) : (fatEntry d c).toNat = t c := by
  rw [h c hc, fatEntry_toNat]

/-- The mark of the table is the end for `read`. -/
theorem Packs.next_last (h : Packs d t) {c : Nat} (hc : Inside c) (hlast : 0xFF8 ≤ t c) : next d c = 0 := by
  have hmark : FAT12.fatEntry d c ≥ 0xFF8 := by
    show 0xFF8 ≤ (FAT12.fatEntry d c).toNat
    rw [h.fatEntry hc]
    exact hlast
  rw [next, if_pos hmark]

theorem Packs.next_link (h : Packs d t) {c : Nat} (hc : Inside c) (hlink : t c ≤ 0xFEF) : next d c = t c := by
  have hgo : ¬FAT12.fatEntry d c ≥ 0xFF8 := by
    intro hmark
    have hmark : 0xFF8 ≤ (FAT12.fatEntry d c).toNat := hmark
    rw [h.fatEntry hc] at hmark
    omega
  rw [next, if_neg hgo, h.fatEntry hc]

theorem Inside.small {c : Nat} (h : Inside c) : c < 2 ^ 31 := by
  unfold Inside at h
  omega

/-- The calls follow the table: one for each cluster of the chain, its sector in the buffer, and
`eof` with the last. -/
theorem reads_follow (ht : Packs d t) {c : Nat} {rest : List Nat} (h : Leads t (c :: rest)) (file : FILE)
    (hc : file.currentCluster.toNat = c) (heof : file.eof = 0) {i : Nat} (hi : i < (c :: rest).length) :
    ∃ file', (reads d (rest.length + 1) file)[i]? = some (file', d (31 + (c :: rest)[i])) ∧
      file'.eof = (if i = rest.length then 1 else 0) ∧
      file' = {file with currentCluster := file'.currentCluster, eof := file'.eof} := by
  subst hc
  induction rest generalizing file i with
  | nil =>
    obtain ⟨hin, hlast⟩ := h
    have hi : i = 0 := by simpa using hi
    subst hi
    refine ⟨{file with eof := 1}, ?_, rfl, rfl⟩
    have hread := read_eq d hin.small
    rw [ht.next_last hin hlast, if_pos rfl] at hread
    rw [List.length_nil, reads, hread]
    rfl
  | cons c' rest ih =>
    obtain ⟨hin, hlink, hlow, hhigh, hrest⟩ := h
    have hnext : next d file.currentCluster.toNat = c' := by
      rw [ht.next_link hin (by omega), hlink]
    have hread := read_eq d hin.small
    rw [hnext, if_neg (by omega)] at hread
    have htoNat : (BitVec.ofNat 32 c').toNat = c' := by
      rw [BitVec.toNat_ofNat, Nat.mod_eq_of_lt (by omega)]
    rw [List.length_cons, reads, hread]
    cases i with
    | zero => exact ⟨{file with currentCluster := BitVec.ofNat 32 c'}, rfl, heof, rfl⟩
    | succ i =>
      have hrest' := ih {file with currentCluster := BitVec.ofNat 32 c'} heof (i := i)
        (show Leads t ((BitVec.ofNat 32 c').toNat :: rest) by rw [htoNat]; exact hrest) (by simpa using hi)
      simp only [htoNat] at hrest'
      obtain ⟨file', hget, heof', hsame⟩ := hrest'
      refine ⟨file', hget, ?_, hsame⟩
      simpa using heof'

/-- Every FAT packs the table of its entries. -/
theorem packs_entries (d : Disk) : Packs d fun c => (fatEntry d c).toNat :=
  fun c _ => fatEntry_toNat d c

/-- A chain over the end of the first sector of the FAT and back: 2, 341, 3. -/
def threaded : Disk := fun s k =>
  Packed.pack (fun c => if c = 2 then 341 else if c = 341 then 3 else if c = 3 then 0xFFF else 0) (512 * (s - 1) + k)

theorem reads_follow_threaded : ∃ file',
    (reads threaded 3 ⟨[], 0, 0, 0, 0, 2⟩)[1]? = some (file', threaded (31 + 341)) ∧ file'.eof = 0 ∧
      file' = {(⟨[], 0, 0, 0, 0, 2⟩ : FILE) with currentCluster := file'.currentCluster, eof := file'.eof} :=
  reads_follow (packs_entries threaded) (show Leads _ (2 :: [341, 3]) by decide +kernel) ⟨[], 0, 0, 0, 0, 2⟩ rfl rfl
    (show 1 < 3 by decide)

end FAT12

end UntitledOS.Filesystem
