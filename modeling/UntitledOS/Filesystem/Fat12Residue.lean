import UntitledOS.Filesystem.Fat12Located
import UntitledOS.Filesystem.Fat12Encoding

/-! Memory that gets onto the disk with a file.

Chunks are whole sectors, so the last one takes along what is behind the caller's bytes,
unless they fill it. And the directory record is filled in field by field, all but
`windowsNTRESERVED`, which is written as it was on the stack. Two calls that differ in such
memory only make the same disk exactly where nothing is written, or where a chunk goes over
the record again (`only_callers_bytes`). -/
namespace UntitledOS.Filesystem
open Lib

namespace FAT12

/-- Calls with the same name and the same bytes, whatever is behind the bytes and on the stack, have
one disk as their result. -/
def OnlyCallersBytes (behind : Nat → u8) (rtc : RTC) (name : List u8) (len : Nat) (d : Disk) : Prop :=
  ∀ (w w' : u8) (buffer buffer' : Nat → u8), (∀ k < len, buffer k = buffer' k) →
    ∃ d', writetest (mount d) ⟨behind, rtc, w⟩ name buffer len d = some d' ∧
      writetest (mount d) ⟨behind, rtc, w'⟩ name buffer' len d = some d'

/-- Nothing is written, or all chunks are the caller's and one of them goes over the sector of the
directory record. -/
def Covered (m : MOUNT_INFO) (S : List Nat) (len : Nat) (d : Disk) : Prop :=
  S = [] ∨ firstFree m d = none ∨ ∃ slot, firstFree m d = some slot ∧
    512 * S.length ≤ len ∧ ∃ c ∈ S, m.rootOffset + slot.1 = 31 + c

section Residue
variable {m : MOUNT_INFO} {dn : List u8} {len : Nat} {d : Disk} {slot : Nat × Nat} {first : Nat} {rest : List Nat}

theorem bytes_reserved {e : DIRECTORY} (he : e.filename.length = 11) : e.bytes[12]? = some e.windowsNTRESERVED := by
  simp only [DIRECTORY.bytes, List.append_assoc]
  rw [List.getElem?_append_right (by omega), he]
  rfl

/-- If the chunks are longer than the caller's bytes, the last byte of the last chunk is on the disk. -/
theorem filed_last (e e' : DIRECTORY) (hlen : len < 512 * (first :: rest).length) :
    ¬∀ buffer buffer' : Nat → u8, (∀ k < len, buffer k = buffer' k) →
      filed m e slot (first :: rest) buffer d = filed m e' slot (first :: rest) buffer' d := by
  intro h
  have hlast : (first :: rest)[rest.length]? = some ((first :: rest).getLast (List.cons_ne_nil _ _)) := by
    rw [List.getLast_eq_getElem]
    exact List.getElem?_eq_getElem (Nat.lt_succ_self _)
  obtain ⟨i, hi, hle, hbyte⟩ := filed_chunk (List.mem_of_getElem? hlast)
  have hplace : i = rest.length :=
    Nat.le_antisymm (Nat.le_of_lt_succ (List.getElem?_eq_some_iff.mp hi).1) (hle _ hlast)
  have hsame : ∀ k < len, (0 : u8) = if k = 512 * i + 511 then 1 else 0 := by
    intro k hk
    rw [List.length_cons] at hlen
    rw [if_neg (by omega)]
  have hbytes := congrFun (congrFun (h (fun _ => 0) (fun k => if k = 512 * i + 511 then 1 else 0) hsame)
    (31 + (first :: rest).getLast (List.cons_ne_nil _ _))) 511
  rw [hbyte _ _ _ _ _ _ (by decide), hbyte _ _ _ _ _ _ (by decide), if_pos rfl] at hbytes
  exact absurd hbytes (by decide)

/-- A record that no chunk goes over is on the disk with all its bytes. -/
theorem filed_reserved (hS : ∀ c ∈ first :: rest, c < 342) (hroot : 2 ≤ m.rootOffset) (hslot : slot ∈ slots)
    (hdata : ∀ c ∈ first :: rest, m.rootOffset + slot.1 ≠ 31 + c) {e : DIRECTORY} (he : e.filename.length = 11)
    (buffer : Nat → u8) : slotByte m (filed m e slot (first :: rest) buffer d) slot 12 = e.windowsNTRESERVED := by
  rw [filed_slot hS hroot he hslot hslot hdata (by decide), if_pos rfl, bytes_reserved he]
  rfl

/-- For what is written, the disks are the same exactly if it is covered. -/
theorem filed_covered (behind : Nat → u8) (rtc : RTC) (len : Nat) (d : Disk) (hdn : dn.length = 11)
    (hS : ∀ c ∈ first :: rest, c < 342) (hroot : 2 ≤ m.rootOffset) (hslot : slot ∈ slots) :
    (∀ (w w' : u8) (buffer buffer' : Nat → u8), (∀ k < len, buffer k = buffer' k) →
      filed m (newDirectory ⟨behind, rtc, w⟩ dn first len) slot (first :: rest) buffer d =
        filed m (newDirectory ⟨behind, rtc, w'⟩ dn first len) slot (first :: rest) buffer' d) ↔
      512 * (first :: rest).length ≤ len ∧ ∃ c ∈ first :: rest, m.rootOffset + slot.1 = 31 + c := by
  constructor
  · intro h
    constructor
    · by_contra hlen
      exact filed_last _ _ (by omega) (h 0 0)
    · by_contra hover
      have hdata : ∀ c ∈ first :: rest, m.rootOffset + slot.1 ≠ 31 + c := fun c hc heq => hover ⟨c, hc, heq⟩
      have hreserved : ∀ w : u8, slotByte m (filed m (newDirectory ⟨behind, rtc, w⟩ dn first len) slot (first :: rest)
          (fun _ => 0) d) slot 12 = w :=
        fun w => filed_reserved hS hroot hslot hdata (e := newDirectory ⟨behind, rtc, w⟩ dn first len) hdn _
      have hbyte := congrArg (slotByte m · slot 12) (h 0 1 (fun _ => 0) (fun _ => 0) fun _ _ => rfl)
      have hzero : (0 : u8) = 1 := (hreserved 0).symm.trans (hbyte.trans (hreserved 1))
      exact absurd hzero (by decide)
  · rintro ⟨hlen, hover⟩ w w' buffer buffer' hbuffer
    exact filed_congr hS (fun k hk => hbuffer k (by omega)) hover

/-- Where something is located, there is a FAT, and the root directory is behind it. -/
theorem rootOffset_located {behind : Nat → u8} {n : Nat} (hFATs : d 0 16 ≠ 0) (h : located (mount d) behind n d ≠ []) :
    2 ≤ (mount d).rootOffset := by
  have hFAT : 0 < (mount d).FATSize := by
    by_contra hzero
    have hzero : (mount d).FATSize = 0 := by omega
    exact h (by simp [located, zerosFrom, hzero])
  have hpos : 0 < (d 0 16).toNat := Nat.pos_of_ne_zero fun h => hFATs (BitVec.eq_of_toNat_eq h)
  exact Nat.succ_le_succ (Nat.mul_pos hpos hFAT)

/-- **Only the caller's bytes reach the disk exactly if** nothing is written, or the chunks are full
and one of them goes over the sector of the directory record. -/
theorem only_callers_bytes (behind : Nat → u8) (rtc : RTC) (name : List u8) (len : Nat) {d : Disk}
    (hFATs : d 0 16 ≠ 0) : OnlyCallersBytes behind rtc name len d ↔
      (8 ≤ name.length ∨ 4 ≤ name.length ∧ name[name.length - 4]? = some 0x2e) ∧
      (located (mount d) behind (needed len) d).length ≤ 1024 ∧
      Covered (mount d) (located (mount d) behind (needed len) d) len d := by
  rw [← nameReads_inside, ← dosName_isSome]
  cases hdn : dosName name with
  | none =>
    refine iff_of_false (fun h => ?_) fun h => Bool.false_ne_true h.1
    obtain ⟨d', hd', -⟩ := h 0 0 (fun _ => 0) (fun _ => 0) fun _ _ => rfl
    rw [writetest, hdn] at hd'
    cases hd'
  | some dn =>
    rw [and_iff_right (show (some dn).isSome = true from rfl)]
    rcases writetest_cases (mount d) hdn behind len d with ⟨hpage, hnothing, hwrite⟩ | ⟨hpage, hwrite⟩ |
      ⟨first, rest, slot, hS, hpage, hslot, hwrite⟩
    · exact iff_of_true (fun w w' buffer buffer' _ => ⟨d, hwrite .., hwrite ..⟩) ⟨hpage, hnothing.imp_right .inl⟩
    · refine iff_of_false (fun h => ?_) fun h => hpage h.1
      obtain ⟨d', hd', -⟩ := h 0 0 (fun _ => 0) (fun _ => 0) fun _ _ => rfl
      rw [hwrite] at hd'
      cases hd'
    · have hsmall : ∀ c ∈ located (mount d) behind (needed len) d, c < 342 := located_lt _ _ _
      have hroot := rootOffset_located hFATs (hS ▸ List.cons_ne_nil first rest)
      obtain ⟨hlen, -⟩ := dosName_last hdn
      rw [hS] at hsmall
      have hcovered := filed_covered behind rtc len d hlen hsmall hroot (List.mem_of_find?_eq_some hslot)
      simp only [OnlyCallersBytes, hwrite, Option.some.injEq, exists_eq_left', Covered, hS, hslot]
      rw [and_iff_right hpage, or_iff_right (List.cons_ne_nil _ _), or_iff_right (Option.some_ne_none slot),
        ← hcovered]
      exact ⟨fun h w w' buffer buffer' hbuffer => (h w w' buffer buffer' hbuffer).symm,
        fun h w w' buffer buffer' hbuffer => (h w w' buffer buffer' hbuffer).symm⟩

/-- FATs of sixteen sectors: the root directory starts at sector 33, where the data of cluster 2 goes. -/
def farRoot : Disk := fun s k =>
  if s = 0 then (if k = 16 then 2 else if k = 22 then 16 else 0)
  else if s = 1 then Packed.pack (fun c => if c < 2 then 0xFFF else 0) k
  else 0

/-- There, a file of one sector goes over its own entry, and the disk has the caller's bytes only. -/
theorem only_callers_bytes_covered : OnlyCallersBytes around.behind around.rtc newName 512 farRoot ∧
    (writetest (mount farRoot) around newName (fun _ => 0x58) 512 farRoot).map (· 33 0) = some 0x58 := by
  have hlocated : located (mount farRoot) around.behind (needed 512) farRoot = [2] := by decide +kernel
  have hslot : firstFree (mount farRoot) farRoot = some (0, 0) := by decide +kernel
  refine ⟨(only_callers_bytes around.behind around.rtc newName 512 (by decide)).mpr ⟨.inr (by decide), ?_⟩,
    by decide +kernel⟩
  rw [hlocated]
  exact ⟨by decide, .inr (.inr ⟨(0, 0), hslot, by decide, 2, List.mem_singleton_self 2, rfl⟩)⟩

/-- Of three bytes on an empty volume, the disk has the 509 behind them too. -/
theorem residue_written : ¬ ∀ (behind : Nat → u8) (rtc : RTC) (name : List u8) (len : Nat) (d : Disk), d 0 16 ≠ 0 →
    OnlyCallersBytes behind rtc name len d := by
  intro h
  have hsame : ∀ k < 3, (0x58 : u8) = if k < 3 then 0x58 else 0 := fun k hk => (if_pos hk).symm
  obtain ⟨d', hd', hd''⟩ := h around.behind around.rtc newName 3 blank (by decide) 0 0 (fun _ => 0x58)
    (fun k => if k < 3 then 0x58 else 0) hsame
  have hbyte : (writetest (mount blank) ⟨around.behind, around.rtc, 0⟩ newName (fun _ => 0x58) 3 blank).map (· 33 3) =
      some 0x58 := by decide +kernel
  have hbyte' : (writetest (mount blank) ⟨around.behind, around.rtc, 0⟩ newName (fun k => if k < 3 then 0x58 else 0) 3
      blank).map (· 33 3) = some 0 := by decide +kernel
  rw [hd', Option.map_some] at hbyte
  rw [hd'', Option.map_some] at hbyte'
  exact absurd (hbyte.symm.trans hbyte') (by decide)

end Residue

end FAT12

end UntitledOS.Filesystem
