import UntitledOS.Filesystem.Fat12Geometry

/-! What `writetest` does, whatever it finds.

A search gives the first positions of zeros, counted from 0 in every sector of the FAT.
With these and a free slot, three writes follow, else none (`writetest_cases`). The entries
they are linked by all lie in the first sector of the FAT, and a cluster that was located
twice keeps the last chunk. Cluster 0 and 1 would lie in the root directory, so a chunk can
go over entries, the new one among them. -/
namespace UntitledOS.Filesystem
open Lib

namespace FAT12

/-! ### The last chunk stays -/

section Chunks
variable {S : List Nat} {c : Nat}

/-- A cluster holds the chunk of its last place in the list. -/
theorem writeChunks_at (hc : c ∈ S) : ∃ i, S[i]? = some c ∧ (∀ i', S[i']? = some c → i' ≤ i) ∧
    ∀ (buffer : Nat → u8) (j : Nat) (d : Disk) (k : Nat), k < 512 →
      writeChunks buffer j S d (31 + c) k = buffer (512 * (j + i) + k) := by
  induction S with
  | nil => cases hc
  | cons x rest ih =>
    by_cases hmem : c ∈ rest
    · obtain ⟨i, hi, hlast, hbyte⟩ := ih hmem
      refine ⟨i + 1, hi, fun i' hi' => ?_, fun buffer j d k hk => ?_⟩
      · cases i' with
        | zero => exact Nat.zero_le _
        | succ i' => exact Nat.succ_le_succ (hlast i' hi')
      · have hsum : j + 1 + i = j + (i + 1) := by omega
        rw [writeChunks, hbyte buffer (j + 1) _ k hk, hsum]
    · obtain rfl : c = x := (List.mem_cons.mp hc).resolve_right hmem
      refine ⟨0, rfl, fun i' hi' => ?_, fun buffer j d k hk => ?_⟩
      · cases i' with
        | zero => exact le_refl 0
        | succ i' => exact absurd (List.mem_of_getElem? (show rest[i']? = some c from hi')) hmem
      · have hother : ∀ c' ∈ rest, 31 + c ≠ 31 + c' := by
          intro c' hc' heq
          exact hmem (Nat.add_left_cancel heq ▸ hc')
        rw [writeChunks, writeChunks_sector buffer hother, writeSector, if_pos ⟨by omega, hk⟩]
        rfl

/-- What lies behind a sector's bytes is not written. -/
theorem writeChunks_behind (buffer : Nat → u8) (j s : Nat) {k : Nat} (hk : 512 ≤ k) (d : Disk) :
    writeChunks buffer j S d s k = d s k := by
  induction S generalizing d j with
  | nil => rfl
  | cons x rest ih => rw [writeChunks, ih, writeSector, if_neg fun h => by omega]

end Chunks

/-! ### The outcomes -/

/-- The three outcomes of `writetest`, by what was located: the disk as it was, no result, or the writes. -/
theorem writetest_cases (m : MOUNT_INFO) {name dn : List u8} (hdn : dosName name = some dn) (behind : Nat → u8)
    (len : Nat) (d : Disk) :
    ((located m behind (needed len) d).length ≤ 1024 ∧
      (located m behind (needed len) d = [] ∨ firstFree m d = none) ∧
      ∀ rtc w buffer, writetest m ⟨behind, rtc, w⟩ name buffer len d = some d) ∨
    (¬(located m behind (needed len) d).length ≤ 1024 ∧
      ∀ rtc w buffer, writetest m ⟨behind, rtc, w⟩ name buffer len d = none) ∨
    ∃ first rest slot, located m behind (needed len) d = first :: rest ∧ (first :: rest).length ≤ 1024 ∧
      firstFree m d = some slot ∧
      ∀ rtc w buffer, writetest m ⟨behind, rtc, w⟩ name buffer len d =
        some (filed m (newDirectory ⟨behind, rtc, w⟩ dn first len) slot (first :: rest) buffer d) := by
  have hfound := findSectors_located m behind d
    (if len % SECTOR_SIZE = 0 then len / SECTOR_SIZE else len / SECTOR_SIZE + 1)
  rw [← needed] at hfound
  generalize located m behind (needed len) d = S at *
  by_cases hpage : S.length ≤ 1024
  · rw [if_pos hpage] at hfound
    by_cases hnothing : S = [] ∨ firstFree m d = none
    · exact .inl ⟨hpage, hnothing, fun _ _ buffer => writetest_nothing buffer hdn hfound hnothing⟩
    · obtain ⟨hne, hfull⟩ := not_or.mp hnothing
      obtain ⟨first, rest, rfl⟩ := List.exists_cons_of_ne_nil hne
      obtain ⟨slot, hslot⟩ := Option.ne_none_iff_exists'.mp hfull
      exact .inr (.inr ⟨first, rest, slot, rfl, hpage, hslot, fun _ _ buffer =>
        writetest_something buffer hdn hfound hslot⟩)
  · rw [if_neg hpage] at hfound
    refine .inr (.inl ⟨hpage, fun _ _ _ => ?_⟩)
    simp only [writetest, hdn, Option.bind_some]
    rw [hfound, Option.bind_none]

/-! ### The writes -/

section Filed
variable {m : MOUNT_INFO} {e e' : DIRECTORY} {slot slot' : Nat × Nat} {S : List Nat} {buffer buffer' : Nat → u8}
  {d : Disk}

theorem updateFAT_congr (hS : ∀ c ∈ S, c < 342) {d' : Disk} (h : d' 1 = d 1) : updateFAT S d' 1 = updateFAT S d 1 := by
  have hagree : Agree [⟨.FAT, 1⟩] d d' := by
    intro a ha
    obtain rfl := List.mem_singleton.mp ha
    exact h
  have hupdate : ∀ a ∈ updateAccesses S, a ∈ [(⟨.FAT, 1⟩ : Access)] := by
    intro a ha
    obtain ⟨c, hc, rfl⟩ := List.mem_map.mp ha
    have hone : (c + c / 2) / SECTOR_SIZE = 0 := Nat.div_eq_of_lt (by
      have := hS c hc
      show c + c / 2 < 512
      omega)
    rw [hone]
    exact List.mem_singleton_self _
  exact updateFAT_agree hupdate hagree ⟨.FAT, 1⟩ (List.mem_singleton_self _)

theorem filed_other (hS : ∀ c ∈ S, c < 342) {s : Nat} (hfat : s ≠ 1) (hroot : s ≠ m.rootOffset + slot.1)
    (hdata : ∀ c ∈ S, s ≠ 31 + c) : filed m e slot S buffer d s = d s := by
  rw [filed, writeChunks_sector buffer hdata, updateFAT_first hS hfat]
  funext k
  rw [writeSector, if_neg fun h => hroot h.1]

/-- The entries of a sector that no chunk went over. -/
theorem filed_slot (hS : ∀ c ∈ S, c < 342) (hroot : 2 ≤ m.rootOffset) (he : e.filename.length = 11)
    (hslot : slot ∈ slots) (hslot' : slot' ∈ slots) (hdata : ∀ c ∈ S, m.rootOffset + slot'.1 ≠ 31 + c) {k : Nat}
    (hk : k < 32) : slotByte m (filed m e slot S buffer d) slot' k =
      if slot' = slot then e.bytes[k]?.getD 0 else slotByte m d slot' k := by
  rw [← slotByte_put he hslot hslot' hk, slotByte, filed, writeChunks_sector buffer hdata,
    updateFAT_first hS (by omega)]
  rfl

/-- If the directory's sector is gone over anyway, nothing of the entry is left. -/
theorem filed_congr (hS : ∀ c ∈ S, c < 342) (hbuffer : ∀ k < 512 * S.length, buffer k = buffer' k)
    (hover : ∃ c ∈ S, m.rootOffset + slot.1 = 31 + c) :
    filed m e slot S buffer d = filed m e' slot S buffer' d := by
  obtain ⟨c₀, hc₀, hsector⟩ := hover
  have hput : ∀ s, s ≠ m.rootOffset + slot.1 → ∀ e : DIRECTORY,
      writeSector (m.rootOffset + slot.1) (putEntry e slot.2 (d (m.rootOffset + slot.1))) d s = d s := by
    intro s hs e
    funext k
    rw [writeSector, if_neg fun h => hs h.1]
  funext s k
  by_cases hchunk : ∃ c ∈ S, s = 31 + c
  · obtain ⟨c, hc, rfl⟩ := hchunk
    by_cases hk : k < 512
    · obtain ⟨i, hi, -, hbyte⟩ := writeChunks_at hc
      have hlt := (List.getElem?_eq_some_iff.mp hi).1
      rw [filed, filed, hbyte _ _ _ _ hk, hbyte _ _ _ _ hk]
      exact hbuffer _ (by omega)
    · rw [filed, filed, writeChunks_behind _ _ _ (by omega), writeChunks_behind _ _ _ (by omega),
        updateFAT_first hS (by omega), updateFAT_first hS (by omega), writeSector, writeSector,
        if_neg fun h => hk h.2, if_neg fun h => hk h.2]
  · have hdata : ∀ c ∈ S, s ≠ 31 + c := fun c hc heq => hchunk ⟨c, hc, heq⟩
    have hne : s ≠ m.rootOffset + slot.1 := fun heq => hdata c₀ hc₀ (heq.trans hsector)
    rw [filed, filed, writeChunks_sector _ hdata, writeChunks_sector _ hdata]
    by_cases hfat : s = 1
    · subst hfat
      rw [updateFAT_congr hS (hput 1 hne e), updateFAT_congr hS (hput 1 hne e')]
    · rw [updateFAT_first hS hfat, updateFAT_first hS hfat, hput s hne, hput s hne]

/-- The chunk of a cluster's last place. -/
theorem filed_chunk {c : Nat} (hc : c ∈ S) : ∃ i, S[i]? = some c ∧ (∀ i', S[i']? = some c → i' ≤ i) ∧
    ∀ (m : MOUNT_INFO) (e : DIRECTORY) (slot : Nat × Nat) (buffer : Nat → u8) (d : Disk) (k : Nat), k < 512 →
      filed m e slot S buffer d (31 + c) k = buffer (512 * i + k) := by
  obtain ⟨i, hi, hlast, hbyte⟩ := writeChunks_at hc
  refine ⟨i, hi, hlast, fun m e slot buffer d k hk => ?_⟩
  rw [filed, hbyte buffer 0 _ k hk, Nat.zero_add]

end Filed

end FAT12

end UntitledOS.Filesystem
