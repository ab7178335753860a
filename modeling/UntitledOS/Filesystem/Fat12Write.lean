import UntitledOS.Filesystem.Fat12Directory

/-! What `writetest` does to the disk.

A call either leaves the disk as it is (`writetest_nothing`) or puts one entry into the
first free slot, links the clusters that were found and fills them (`writetest_something`).
If the search stays in the first sector of the FAT, these are the first free clusters and
become a chain (`writetest_written`). `Written` says which parts of the disk that
determines and which it leaves alone; everything about files is proved from it. -/
namespace UntitledOS.Filesystem
open Lib

namespace FAT12

/-- The entry put into a slot, the links, and the chunks. -/
def filed (m : MOUNT_INFO) (e : DIRECTORY) (slot : Nat × Nat) (S : List Nat) (buffer : Nat → u8) (d : Disk) : Disk :=
  writeChunks buffer 0 S (updateFAT S
    (writeSector (m.rootOffset + slot.1) (putEntry e slot.2 (d (m.rootOffset + slot.1))) d))

section Calls
variable {m : MOUNT_INFO} {s : Surroundings} {name dn : List u8} {len first : Nat} {rest : List Nat}
  {slot : Nat × Nat} {d : Disk} (buffer : Nat → u8)

theorem find_firstFree (m : MOUNT_INFO) (d : Disk) :
    slots.find? (fun slot => decide (d (m.rootOffset + slot.1) (32 * slot.2) = 0)) = firstFree m d := rfl

/-- Without clusters or without a free slot, nothing is written. -/
theorem writetest_nothing {S : List Nat} (hdn : dosName name = some dn)
    (hS : findSectors m s.behind (if len % SECTOR_SIZE = 0 then len / SECTOR_SIZE else len / SECTOR_SIZE + 1) d =
      some S) (h : S = [] ∨ firstFree m d = none) : writetest m s name buffer len d = some d := by
  simp only [writetest, hdn, Option.bind_some]
  rw [hS, Option.bind_some]
  cases S with
  | nil => rfl
  | cons first rest =>
    rcases h with h | h
    · cases h
    · simp only
      rw [find_firstFree, h]

/-- With both, the entry, the FAT and the data are written. -/
theorem writetest_something (hdn : dosName name = some dn)
    (hS : findSectors m s.behind (if len % SECTOR_SIZE = 0 then len / SECTOR_SIZE else len / SECTOR_SIZE + 1) d =
      some (first :: rest)) (hslot : firstFree m d = some slot) :
    writetest m s name buffer len d =
      some (filed m (newDirectory s dn first len) slot (first :: rest) buffer d) := by
  simp only [writetest, hdn, Option.bind_some]
  rw [hS, Option.bind_some]
  simp only
  rw [find_firstFree, hslot]
  simp only [filed]

end Calls

/-- From `d` to `d'`, the entry `e` went to `slot`, and the clusters `S` became a chain
that holds the buffer. -/
structure Written (buffer : Nat → u8) (e : DIRECTORY) (slot : Nat × Nat) (S : List Nat) (d d' : Disk) : Prop where
  entry : ∀ slot' ∈ slots, ∀ k < 32, slotByte floppy d' slot' k =
    if slot' = slot then e.bytes[k]?.getD 0 else slotByte floppy d slot' k
  linked : Linked d' S
  other : ∀ k < 4096, k ∉ S → fatEntry d' k = fatEntry d k
  stored : S.flatMap (clusterBytes d') = (List.range (512 * S.length)).map buffer
  kept : ∀ k, 2 ≤ k → k ∉ S → d' (31 + k) = d (31 + k)
  boot : d' 0 = d 0

variable {d : Disk} {behind : Nat → u8}

/-- The first free clusters can be linked. -/
theorem linkable_free (n : Nat) : Linkable ((free d).take n) := by
  intro k hk
  have hlt : k < 341 := List.mem_range.mp (List.mem_of_mem_filter (List.mem_of_mem_take hk))
  have hoffset : (k + k / 2) % 512 = k + k / 2 := Nat.mod_eq_of_lt (by omega)
  refine ⟨by omega, ?_⟩
  unfold straddles
  omega

/-- The three writes, one after the other, to clusters that come to be linked. -/
theorem written (buffer : Nat → u8) {e : DIRECTORY} (he : e.filename.length = 11) {slot : Nat × Nat}
    (hslot : slot ∈ slots) {S : List Nat} (hS : ∀ k ∈ S, 2 ≤ k ∧ k < 342) (hnodup : S.Nodup) (hlinks : Links d S) :
    Written buffer e slot S d (filed floppy e slot S buffer d) := by
  rw [filed]
  change Written buffer e slot S d (writeChunks buffer 0 S (updateFAT S
    (writeSector (19 + slot.1) (putEntry e slot.2 (d (19 + slot.1))) d)))
  generalize hroot : writeSector (19 + slot.1) (putEntry e slot.2 (d (19 + slot.1))) d = d₁
  have hnumbered : Numbered S := numbered_of_lt fun k hk => (hS k hk).2.trans (by decide)
  have hsector := (mem_slots.mp hslot).1
  -- the sectors each write leaves alone
  have hdir : ∀ s, s ≠ 19 + slot.1 → d₁ s = d s := by
    intro s hs
    rw [← hroot]
    funext k
    rw [writeSector, if_neg fun h => hs h.1]
  have hfat : ∀ s, s ≠ 1 → updateFAT S d₁ s = d₁ s := fun s hs => updateFAT_first (fun k hk => (hS k hk).2) hs
  have hdata : ∀ d s, s < 33 → writeChunks buffer 0 S d s = d s := by
    intro d s hs
    apply writeChunks_sector
    intro k hk
    have := hS k hk
    omega
  have hentry : ∀ k < 4096, fatEntry d₁ k = fatEntry d k := by
    intro k hk
    exact fatEntry_congr (fun s hs hs' => hdir s (by omega)) hk
  have hchunks : ∀ k < 4096, fatEntry (writeChunks buffer 0 S (updateFAT S d₁)) k = fatEntry (updateFAT S d₁) k := by
    intro k hk
    exact fatEntry_congr (fun s hs hs' => hdata _ s (by omega)) hk
  have hlinked : Linked (updateFAT S d₁) S :=
    (updateFAT_links hnumbered hnodup).mpr (hlinks.congr fun k hk => hentry k (by have := hS k hk; omega))
  refine ⟨?_, ?_, ?_, ?_, ?_, ?_⟩
  · intro slot' hslot' k hk
    have hsector' := (mem_slots.mp hslot').1
    rw [← slotByte_put he hslot hslot' hk]
    show writeChunks buffer 0 S (updateFAT S d₁) (19 + slot'.1) _ = _
    rw [hdata _ _ (by omega), hfat _ (by omega), ← hroot]
    rfl
  · exact hlinked.congr fun k hk => hchunks k (by have := hS k hk; omega)
  · intro k hk hmem
    rw [hchunks k hk, updateFAT_other hnumbered hmem, hentry k hk]
  · rw [writeChunks_stored buffer hnodup, List.range_eq_range']
  · intro k hk hmem
    have hother : writeChunks buffer 0 S (updateFAT S d₁) (31 + k) = updateFAT S d₁ (31 + k) := by
      apply writeChunks_sector
      intro j hj heq
      exact hmem (Nat.add_left_cancel heq ▸ hj)
    rw [hother, hfat _ (by omega), hdir _ (by omega)]
  · rw [hdata _ 0 (by omega), hfat 0 (by omega), hdir 0 (by omega)]

/-- The first free clusters come to be linked. -/
theorem links_free (n : Nat) : Links d ((free d).take n) := by
  have hzero : ∀ k ∈ (free d).take n, fatEntry d k = 0 := fun k hk => by
    simpa using (List.mem_filter.mp (List.mem_of_mem_take hk)).2
  have hlink := linkable_free (d := d) n
  have hnodup : ((free d).take n).Nodup := free_nodup.sublist (List.take_sublist _ _)
  exact (updateFAT_links hlink.numbered hnodup).mp (updateFAT_linked hlink hnodup hzero)

variable {name dn : List u8} {len : Nat} {slot : Nat × Nat} (s : Surroundings) (buffer : Nat → u8)

theorem writetest_written (hd : Layout d) (hname : dosName name = some dn) (hdn : dn.length = 11)
    (hslot : firstFree floppy d = some slot) (hfirst : InFirst s.behind d (needed len)) {first : Nat}
    {rest : List Nat} (hS : (free d).take (needed len) = first :: rest) :
    ∃ d', writetest floppy s name buffer len d = some d' ∧
      Written buffer (newDirectory s dn first len) slot (first :: rest) d d' := by
  have hmem : slot ∈ slots := List.mem_of_find?_eq_some hslot
  have hbounds : ∀ k ∈ (free d).take (needed len), 2 ≤ k ∧ k < 342 := by
    intro k hk
    obtain ⟨hlow, hhigh, -⟩ := mem_free hd (List.mem_of_mem_take hk)
    exact ⟨hlow, by omega⟩
  have hwritten := written buffer (e := newDirectory s dn first len) hdn hmem hbounds
    (free_nodup.sublist (List.take_sublist _ _)) (links_free (needed len))
  have hfound := found_eq hfirst
  rw [hS] at hfound hwritten
  exact ⟨_, writetest_something buffer hname hfound hslot, hwritten⟩

end FAT12

end UntitledOS.Filesystem
