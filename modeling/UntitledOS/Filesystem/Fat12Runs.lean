import UntitledOS.Filesystem.Fat12Volume
import UntitledOS.Lib.Run

/-! Files written one after the other.

`findSectors` counts its positions anew in every sector of the FAT, so from the second
sector on it takes clusters for free that are not, and a volume whose first sector is full
loses a file to the next one written (`file_overwritten`). As long as the search ends in
the first sector, every call keeps the files there are and leaves the volume well formed
(`writetest_keeps`), over any number of calls (`writes_keep_files`). -/
namespace UntitledOS.Filesystem
open Lib

namespace FAT12

/-- A call of `writetest`. -/
structure Call where
  around : Surroundings
  filename : List u8
  buffer : Nat → u8
  len : Nat

/-- The calls of a driver that has mounted a volume. -/
def step (m : MOUNT_INFO) (d : Disk) (c : Call) : Option Disk :=
  writetest m c.around c.filename c.buffer c.len d

/-- The call stays clear of the later sectors of the FAT: either it writes nothing, the
root directory being full, or its search ends in the first sector. -/
def Fits (d : Disk) (c : Call) : Prop :=
  ValidName c.filename ∧ (firstFree floppy d = none ∧ needed c.len ≤ 1024 ∨
    InFirst c.around.behind d (needed c.len))

variable {inner : Nat → Option Nat} {d d' d₀ : Disk} {L L' L₀ : File → List Nat}

theorem Untouched.trans (h : Untouched inner d₀ d L₀ L) (h' : Untouched inner d d' L L') :
    Untouched inner d₀ d' L₀ L' := by
  intro f first hhead
  obtain ⟨hhead, hL, hdata⟩ := h f first hhead
  obtain ⟨hhead, hL', hdata'⟩ := h' f first hhead
  refine ⟨hhead, hL'.trans hL, ?_⟩
  intro c hc
  rw [hdata' c (hL ▸ hc), hdata c hc]

/-- However the search goes, it finds no more than it looks for. -/
theorem findSectors_some (m : MOUNT_INFO) (behind : Nat → u8) {sectorCount : Nat} (h : max 1 sectorCount ≤ 1024)
    (d : Disk) : ∃ S, findSectors m behind sectorCount d = some S := by
  rw [findSectors_located, if_pos ((located_length m behind d _).trans h)]
  exact ⟨_, rfl⟩

/-- One call keeps the files. -/
theorem writetest_keeps (h : WellFormed inner d L) {c : Call} (hfits : Fits d c) :
    ∃ d' L', step floppy d c = some d' ∧ WellFormed inner d' L' ∧ Untouched inner d d' L L' := by
  obtain ⟨hname, hcase⟩ := hfits
  obtain ⟨dn, hdn, hlen, hzero, hdeleted⟩ := hname.dosName
  have hnothing : ∀ S, findSectors floppy c.around.behind
      (if c.len % SECTOR_SIZE = 0 then c.len / SECTOR_SIZE else c.len / SECTOR_SIZE + 1) d = some S →
      (S = [] ∨ firstFree floppy d = none) →
      ∃ d' L', step floppy d c = some d' ∧ WellFormed inner d' L' ∧ Untouched inner d d' L L' := by
    intro S hfound hnone
    exact ⟨d, L, writetest_nothing c.buffer hdn hfound hnone, h, .refl inner d L⟩
  rcases hcase with ⟨hfull, hpage⟩ | hfirst
  · obtain ⟨S, hfound⟩ := findSectors_some floppy c.around.behind hpage d
    exact hnothing S hfound (.inr hfull)
  · cases hslot : firstFree floppy d with
    | none => exact hnothing _ (found_eq hfirst) (.inr hslot)
    | some slot =>
      cases hS : (free d).take (needed c.len) with
      | nil => exact hnothing _ (found_eq hfirst) (.inl hS)
      | cons first rest =>
        obtain ⟨d', hd', hw⟩ := writetest_written c.around c.buffer h.layout hdn hlen hslot hfirst hS
        have hfree : ∀ k ∈ first :: rest, 2 ≤ k ∧ k < 341 ∧ fatEntry d k = 0 := by
          intro k hk
          rw [← hS] at hk
          exact mem_free h.layout (List.mem_of_mem_take hk)
        have hnodup : (first :: rest).Nodup := hS ▸ free_nodup.sublist (List.take_sublist _ _)
        have hlow : (BitVec.ofNat 16 first).toNat = first := by
          have := hfree first (List.mem_cons_self ..)
          rw [BitVec.toNat_ofNat, Nat.mod_eq_of_lt (by omega)]
        have hhead : head inner d' (.inl slot) = some (BitVec.ofNat 16 first).toNat :=
          hw.head_self (List.mem_of_find?_eq_some hslot) hlen hzero hdeleted
        rw [hlow] at hhead
        exact ⟨d', _, hd', hw.wellFormed h hfree hnodup hhead, hw.untouched h hslot fun k hk => (hfree k hk).2.2⟩

/-- Any number of calls keeps the files there were at first, and every further call keeps
those there are then. -/
theorem writes_keep_files (h₀ : WellFormed inner d₀ L₀) {cs : List Call}
    (hrun : Run (step (mount d₀)) Fits d₀ cs d) :
    ∃ L, WellFormed inner d L ∧ Untouched inner d₀ d L₀ L ∧ ∀ c, Fits d c →
      ∃ d' L', step (mount d₀) d c = some d' ∧ WellFormed inner d' L' ∧ Untouched inner d d' L L' := by
  rw [h₀.layout.mount] at hrun ⊢
  have hinv : ∃ L, WellFormed inner d L ∧ Untouched inner d₀ d L₀ L := by
    apply hrun.invariant fun d => ∃ L, WellFormed inner d L ∧ Untouched inner d₀ d L₀ L
    · rintro s c t ⟨L, h, hkept⟩ hfits hstep
      obtain ⟨d', L', hd', h', hkept'⟩ := writetest_keeps h hfits
      obtain rfl : d' = t := Option.some.inj (hd'.symm.trans hstep)
      exact ⟨L', h', hkept.trans hkept'⟩
    · exact ⟨L₀, h₀, .refl inner d₀ L₀⟩
  obtain ⟨L, h, hkept⟩ := hinv
  exact ⟨L, h, hkept, fun c hfits => writetest_keeps h hfits⟩

/-- Three bytes on an empty volume. -/
theorem writes_keep_files_blank :
    ∃ c d, Run (step (mount blank)) Fits blank [c] d ∧
      ∃ L, WellFormed (fun _ => none) d L ∧ Untouched (fun _ => none) blank d (fun _ => []) L ∧ ∀ c, Fits d c →
        ∃ d' L', step (mount blank) d c = some d' ∧ WellFormed (fun _ => none) d' L' ∧
          Untouched (fun _ => none) d d' L L' := by
  have hfree : 1 ≤ (free blank).length := List.length_pos_of_mem blank_free
  have hfits : Fits blank ⟨around, newName, fun _ => 0x58, 3⟩ := ⟨newName_valid, .inr (.inl hfree)⟩
  obtain ⟨d, -, hstep, -, -⟩ := writetest_keeps blank_wellFormed hfits
  have hrun : Run (step (mount blank)) Fits blank [_] d := .cons hfits hstep (.nil d)
  exact ⟨_, d, hrun, writes_keep_files blank_wellFormed hrun⟩

/-- On a volume whose first FAT sector is full, two clusters for a new file are clusters 1
and 2, and the file that started at cluster 2 ends there from now on. -/
theorem file_overwritten :
    ∃ d L c d', WellFormed (fun _ => none) d L ∧ ValidName c.filename ∧ New d c.filename ∧
      step (mount d) d c = some d' ∧
        ¬∃ L', WellFormed (fun _ => none) d' L' ∧ Untouched (fun _ => none) d d' L L' := by
  have hwrite : (step (mount crowded) crowded ⟨around, newName, fun _ => 0x58, 600⟩).map (fun d => fatEntry d 2) =
      some 0xFFF := by
    decide +kernel
  obtain ⟨d', hstep, hentry⟩ := Option.map_eq_some_iff.mp hwrite
  refine ⟨crowded, _, _, d', crowded_wellFormed, newName_valid, by decide +kernel, hstep, ?_⟩
  rintro ⟨L', h', hkept⟩
  have hold : head (fun _ => none) crowded (.inl (0, 0)) = some 2 := by decide +kernel
  obtain ⟨hhead, hL', -⟩ := hkept (.inl (0, 0)) 2 hold
  have hchain := h'.files.chain (.inl (0, 0))
  rw [hhead, hL', Function.update_self] at hchain
  have hnext : next d' 2 = 0 := by
    rw [next, hentry]
    rfl
  have hrest : Chain 0 (next d') (next d' 2) (List.range' 3 339) := hchain.tail
  rw [hnext] at hrest
  exact absurd (hrest.eq_nil_iff.mpr rfl) (by decide)

end FAT12

end UntitledOS.Filesystem
