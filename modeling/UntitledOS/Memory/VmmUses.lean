import UntitledOS.Memory.Vmm
import UntitledOS.Memory.PmmRuns

/-! Who uses a frame.

The directory, every page table and every page mapped is a *use* of a frame. The code
reaches tables through the directory's last entry, so what its loads and stores do is
first brought back to words of frames (`translate_tableEntry`, `translate_dirEntry`).
A state is `Exclusive` when no frame has two uses and every frame used is taken in the
bitmap; the three writes of `mapPage` keep it so from frames nobody uses
(`Exclusive.addTable`, `Exclusive.addPage`). -/
namespace UntitledOS.Memory

/-! ### Entries -/

theorem present_iff (entry : u32) : Present entry ↔ entry.toNat % 2 = 1 := by
  unfold Present
  rw [← BitVec.toNat_inj, BitVec.toNat_and]
  show entry.toNat &&& 1 = 1 ↔ _
  rw [Nat.and_one_is_mod]

/-- A bit of an entry, tested with a mask. -/
theorem mask_iff {j : Nat} (hj : j < 32) (entry : u32) : entry &&& 1#32 <<< j ≠ 0 ↔ entry.toNat / 2 ^ j % 2 = 1 := by
  have hmask : entry &&& 1#32 <<< j = 0 ↔ entry.getLsbD j = false := Lib.Bitmap.mask_eq_zero hj entry
  rw [ne_eq, hmask, Bool.not_eq_false, BitVec.getLsbD, Nat.testBit_eq_decide_div_mod_eq, decide_eq_true_iff]

theorem large_iff (entry : u32) : Large entry ↔ entry.toNat / 128 % 2 = 1 := mask_iff (show 7 < 32 by decide) entry

theorem frameOf_eq (entry : u32) : frameOf entry = entry.toNat / 4096 := by
  rw [frameOf, BitVec.toNat_ushiftRight, Nat.shiftRight_eq_div_pow]

/-- The entry written for a frame. -/
theorem entryFor_toNat {frame : Nat} (h : frame < 2 ^ 20) :
    (VMM.entryFor (BitVec.ofNat 32 (frame * 4096))).toNat = frame * 4096 + 7 := by
  have haddr := address_toNat h
  have hflags : VMM.entryFor (BitVec.ofNat 32 (frame * 4096)) = BitVec.ofNat 32 (frame * 4096) ||| 7 := by
    rw [VMM.entryFor, BitVec.or_assoc, BitVec.or_assoc]
    rfl
  have hlow : BitVec.ofNat 32 (frame * 4096) &&& (7 : u32) = 0#32 := by
    refine BitVec.eq_of_toNat_eq ?_
    rw [BitVec.toNat_and, haddr]
    show frame * 4096 &&& (2 ^ 3 - 1) = 0
    rw [Nat.and_two_pow_sub_one_eq_mod]
    omega
  rw [hflags, ← BitVec.add_eq_or_of_and_eq_zero _ _ hlow, BitVec.toNat_add, haddr]
  show (frame * 4096 + 7) % 2 ^ 32 = _
  omega

theorem entryFor_spec {frame : Nat} (h : frame < 2 ^ 20) :
    let entry := VMM.entryFor (BitVec.ofNat 32 (frame * 4096))
    Present entry ∧ ¬ Large entry ∧ frameOf entry = frame := by
  have hnat := entryFor_toNat h
  intro entry
  rw [present_iff, large_iff, frameOf_eq, hnat]
  omega

/-! ### Addresses -/

namespace VMM

theorem dirIndex_toNat (v : Addr) : (PAGE_DIRECTORY_INDEX v).toNat = v.toNat / 2 ^ 22 := by
  rw [PAGE_DIRECTORY_INDEX, BitVec.toNat_ushiftRight, Nat.shiftRight_eq_div_pow]

theorem tableIndex_toNat (v : Addr) : (PAGE_TABLE_INDEX v).toNat = v.toNat / 2 ^ 12 % 1024 := by
  rw [PAGE_TABLE_INDEX, BitVec.toNat_and, BitVec.toNat_ushiftRight, Nat.shiftRight_eq_div_pow]
  exact Nat.and_two_pow_sub_one_eq_mod _ 10

theorem word_toNat (v : Addr) : ((v &&& 0xfff) >>> 2).toNat = v.toNat % 4096 / 4 := by
  rw [BitVec.toNat_ushiftRight, BitVec.toNat_and, Nat.shiftRight_eq_div_pow]
  have hmod : v.toNat &&& (0xfff : u32).toNat = v.toNat % 4096 := Nat.and_two_pow_sub_one_eq_mod _ 12
  rw [hmod]

theorem dirIndex_lt (v : Addr) : (PAGE_DIRECTORY_INDEX v).toNat < 1024 := by
  have := v.isLt
  rw [dirIndex_toNat]
  omega

theorem tableIndex_lt (v : Addr) : (PAGE_TABLE_INDEX v).toNat < 1024 := by
  rw [tableIndex_toNat]
  omega

theorem tableEntry_toNat {i k : u32} (hi : i.toNat < 1024) (hk : k.toNat < 1024) :
    (tableEntry i k).toNat = 0xFFC00000 + 4096 * i.toNat + 4 * k.toNat := by
  simp only [tableEntry, PAGE_TABLE_BASE_ADDR, BitVec.toNat_add, BitVec.toNat_mul]
  show ((4290772992 + 4 * (1024 * i.toNat % 2 ^ 32) % 2 ^ 32) % 2 ^ 32 + 4 * k.toNat % 2 ^ 32) % 2 ^ 32 = _
  omega

theorem dirEntry_eq (i : u32) : dirEntry i = tableEntry 1023 i := rfl

/-- The directory shows itself through its last entry. -/
structure Recursive (s : VMM) : Prop where
  present : Present (s.ram s.dir 1023)
  small : ¬ Large (s.ram s.dir 1023)
  self : frameOf (s.ram s.dir 1023) = s.dir

section Accesses
variable {s : VMM} {i k : u32}

/-- A table is reached through the directory, if its entry is there. -/
theorem Recursive.translate_tableEntry (h : s.Recursive) (hi : i.toNat < 1024) (hk : k.toNat < 1024) :
    s.translate (tableEntry i k) =
      if Present (s.ram s.dir i.toNat) then some (frameOf (s.ram s.dir i.toNat), k.toNat) else none := by
  have haddr := tableEntry_toNat hi hk
  have hdir : (PAGE_DIRECTORY_INDEX (tableEntry i k)).toNat = 1023 := by
    rw [dirIndex_toNat]
    omega
  have htable : (PAGE_TABLE_INDEX (tableEntry i k)).toNat = i.toNat := by
    rw [tableIndex_toNat]
    omega
  have hword : ((tableEntry i k &&& 0xfff) >>> 2).toNat = k.toNat := by
    rw [word_toNat]
    omega
  rw [translate, hdir, htable, hword, if_neg (not_not.mpr h.present), if_neg h.small, h.self]

theorem Recursive.translate_dirEntry (h : s.Recursive) (hi : i.toNat < 1024) :
    s.translate (dirEntry i) = some (s.dir, i.toNat) := by
  have hlast : (1023 : u32).toNat = 1023 := rfl
  rw [dirEntry_eq, h.translate_tableEntry (by decide) hi, hlast, if_pos h.present, h.self]

end Accesses

/-- A word written is that word, and no other. -/
theorem setWord_ram (s : VMM) (frame word : Nat) (x : u32) (g j : Nat) :
    (s.setWord frame word x).ram g j = if g = frame ∧ j = word then x else s.ram g j := by
  rw [setWord]
  by_cases hg : g = frame
  · subst hg
    simp [Function.update_apply]
  · simp [hg]

@[simp] theorem setWord_dir (s : VMM) (frame word : Nat) (x : u32) :
    (s.setWord frame word x).dir = s.dir := rfl

@[simp] theorem setWord_pmm (s : VMM) (frame word : Nat) (x : u32) :
    (s.setWord frame word x).pmm = s.pmm := rfl

end VMM

/-! ### Uses -/

/-- What a frame is used as: the page directory, the table behind a directory entry, the
page behind a table entry. -/
inductive Use where
  | directory
  | table (i : Nat)
  | page (i k : Nat)
deriving DecidableEq

/-- A directory entry with a page table behind it. -/
def IsTable (entry : u32) : Prop := Present entry ∧ ¬ Large entry

instance (entry : u32) : Decidable (IsTable entry) :=
  inferInstanceAs (Decidable (Present entry ∧ ¬ Large entry))

namespace VMM

/-- The state uses frame `f` so. The last directory entry is the directory's own. -/
def Uses (s : VMM) : Use → Nat → Prop
  | .directory, f => f = s.dir
  | .table i, f => i < 1023 ∧ IsTable (s.ram s.dir i) ∧ frameOf (s.ram s.dir i) = f
  | .page i k, f => (i < 1023 ∧ IsTable (s.ram s.dir i)) ∧ k < 1024 ∧
      Present (s.ram (frameOf (s.ram s.dir i)) k) ∧ frameOf (s.ram (frameOf (s.ram s.dir i)) k) = f

instance (s : VMM) : ∀ u f, Decidable (s.Uses u f)
  | .directory, f => inferInstanceAs (Decidable (f = s.dir))
  | .table i, f => inferInstanceAs
      (Decidable (i < 1023 ∧ IsTable (s.ram s.dir i) ∧ frameOf (s.ram s.dir i) = f))
  | .page i k, f => inferInstanceAs (Decidable ((i < 1023 ∧ IsTable (s.ram s.dir i)) ∧ k < 1024 ∧
      Present (s.ram (frameOf (s.ram s.dir i)) k) ∧ frameOf (s.ram (frameOf (s.ram s.dir i)) k) = f))

/-- Uses are read off memory; the bitmap has no part in them. -/
@[simp] theorem uses_pmm (s : VMM) (pmm : PMM) (u : Use) (f : Nat) :
    Uses {s with pmm := pmm} u f ↔ s.Uses u f := by
  cases u <;> rfl

/-- No frame is used twice, every frame used is taken, and the directory is laid out as
the code expects: it shows itself, and no entry but the kernel's maps 4 MiB. -/
structure Exclusive (s : VMM) : Prop where
  recursive : s.Recursive
  plain : ∀ i < 1023, i ≠ 768 → Present (s.ram s.dir i) → ¬ Large (s.ram s.dir i)
  once : ∀ u v f, s.Uses u f → s.Uses v f → u = v
  taken : ∀ u f, s.Uses u f → s.pmm.bit f = true
  size : s.pmm.maxBlocks.toNat < 2 ^ 20 + 32

/-- Nobody uses the frame, and the bitmap has it taken. -/
structure Spare (s : VMM) (f : Nat) : Prop where
  unused : ∀ u, ¬ s.Uses u f
  taken : s.pmm.bit f = true

theorem Spare.ne_dir {s : VMM} {f : Nat} (h : s.Spare f) : f ≠ s.dir :=
  fun hdir => h.unused .directory hdir

namespace Exclusive

variable {s : VMM}

/-- The bitmap may take more frames. -/
theorem grow (h : s.Exclusive) {pmm : PMM} (hkeep : ∀ f, s.pmm.bit f = true → pmm.bit f = true)
    (hsize : pmm.maxBlocks = s.pmm.maxBlocks) : Exclusive {s with pmm := pmm} :=
  ⟨⟨h.recursive.present, h.recursive.small, h.recursive.self⟩, h.plain,
    fun u v f hu hv => h.once u v f ((s.uses_pmm pmm u f).mp hu) ((s.uses_pmm pmm v f).mp hv),
    fun u f hu => hkeep f (h.taken u f ((s.uses_pmm pmm u f).mp hu)), hsize ▸ h.size⟩

/-- One more use, of a frame nobody uses. -/
theorem add (h : s.Exclusive) {t : VMM} (hrecursive : t.Recursive)
    (hplain : ∀ i < 1023, i ≠ 768 → Present (t.ram t.dir i) → ¬ Large (t.ram t.dir i))
    (hpmm : t.pmm = s.pmm) {u : Use} {f : Nat} (hf : s.Spare f)
    (huses : ∀ v g, t.Uses v g → (v = u ∧ g = f) ∨ s.Uses v g) : t.Exclusive := by
  refine ⟨hrecursive, hplain, fun v w g hv hw => ?_, fun v g hv => ?_, by rw [hpmm]; exact h.size⟩
  · rcases huses v g hv with ⟨rfl, rfl⟩ | hv
    · rcases huses w g hw with ⟨rfl, _⟩ | hw
      · rfl
      · exact absurd hw (hf.unused w)
    · rcases huses w g hw with ⟨_, rfl⟩ | hw
      · exact absurd hv (hf.unused v)
      · exact h.once v w g hv hw
  · rw [hpmm]
    rcases huses v g hv with ⟨_, rfl⟩ | hv
    · exact hf.taken
    · exact h.taken v g hv

/-- A table is not the directory. -/
theorem table_ne_dir (h : s.Exclusive) {i : Nat} (hi : i < 1023) (htable : IsTable (s.ram s.dir i)) :
    frameOf (s.ram s.dir i) ≠ s.dir := by
  intro hdir
  cases h.once (.table i) .directory s.dir ⟨hi, htable, hdir⟩ rfl

/-! ### A new table -/

/-- The writes of `mapPage` for a new table: its entry, and its first word. -/
def withTable (s : VMM) (i : Nat) (entry : u32) : VMM :=
  (s.setWord s.dir i entry).setWord (frameOf entry) 0 0

section Table
variable {i : Nat} {entry : u32}

theorem withTable_dir (hne : frameOf entry ≠ s.dir) (j : Nat) :
    (withTable s i entry).ram s.dir j = if j = i then entry else s.ram s.dir j := by
  rw [withTable, setWord_ram, if_neg fun hc => hne hc.1.symm, setWord_ram]
  simp only [true_and]

theorem withTable_frame {g : Nat} (hg : g ≠ s.dir) (k : Nat) :
    (withTable s i entry).ram g k = if g = frameOf entry ∧ k = 0 then 0 else s.ram g k := by
  have hold : (s.setWord s.dir i entry).ram g k = s.ram g k := by
    rw [setWord_ram, if_neg fun hc => hg hc.1]
  rw [withTable, setWord_ram, hold]

/-- What is used after a table was added, nothing in it being present. -/
theorem uses_withTable (h : s.Exclusive) (hf : s.Spare (frameOf entry))
    (hempty : ∀ k < 1024, k ≠ 0 → ¬ Present (s.ram (frameOf entry) k)) {v : Use} {g : Nat}
    (hv : (withTable s i entry).Uses v g) :
    (v = .table i ∧ g = frameOf entry) ∨ s.Uses v g := by
  have hdir : ∀ j, (withTable s i entry).ram (withTable s i entry).dir j =
      if j = i then entry else s.ram s.dir j := withTable_dir hf.ne_dir
  cases v with
  | directory => exact .inr hv
  | table j =>
    simp only [Uses, hdir] at hv
    by_cases hj : j = i
    · rw [if_pos hj] at hv
      exact .inl ⟨by rw [hj], hv.2.2.symm⟩
    · rw [if_neg hj] at hv
      exact .inr hv
  | page j k =>
    simp only [Uses, hdir] at hv
    obtain ⟨⟨hj, htable⟩, hk, hpresent, hframe⟩ := hv
    by_cases hji : j = i
    · -- the new table has nothing present
      rw [if_pos hji, withTable_frame fun hd => hf.unused .directory hd] at hpresent
      split at hpresent
      · exact absurd hpresent (by decide)
      · exact absurd hpresent (hempty k hk fun hk0 => by simp_all)
    · rw [if_neg hji] at htable hpresent hframe
      have hold : s.Uses (.table j) (frameOf (s.ram s.dir j)) := ⟨hj, htable, rfl⟩
      have hne : frameOf (s.ram s.dir j) ≠ frameOf entry := fun he => hf.unused _ (he ▸ hold)
      rw [withTable_frame (h.table_ne_dir hj htable), if_neg fun hc => hne hc.1] at hpresent hframe
      exact .inr ⟨⟨hj, htable⟩, hk, hpresent, hframe⟩

/-- A spare frame without present entries becomes a table. -/
theorem addTable (h : s.Exclusive) (hi : i < 1023) (hentry : ¬ Large entry)
    (hf : s.Spare (frameOf entry))
    (hempty : ∀ k < 1024, k ≠ 0 → ¬ Present (s.ram (frameOf entry) k)) :
    (withTable s i entry).Exclusive := by
  have hlast : (withTable s i entry).ram (withTable s i entry).dir 1023 = s.ram s.dir 1023 :=
    (withTable_dir hf.ne_dir 1023).trans (if_neg (by omega))
  refine h.add ⟨?_, ?_, ?_⟩ (fun j hj hne hpresent => ?_) rfl hf fun v g => h.uses_withTable hf hempty
  · rw [hlast]
    exact h.recursive.present
  · rw [hlast]
    exact h.recursive.small
  · rw [hlast]
    exact h.recursive.self
  · have hdir : (withTable s i entry).ram (withTable s i entry).dir j =
        if j = i then entry else s.ram s.dir j := withTable_dir hf.ne_dir j
    rw [hdir] at hpresent ⊢
    split
    · exact hentry
    · rename_i hji
      rw [if_neg hji] at hpresent
      exact h.plain j hj hne hpresent

end Table

/-! ### A new page -/

section Page
variable {i k : Nat} {entry : u32}

/-- An entry of a table is not one of the directory. -/
theorem directory_kept (h : s.Exclusive) (hi : i < 1023) (htable : IsTable (s.ram s.dir i)) (k : Nat) (entry : u32)
    (j : Nat) :
    (s.setWord (frameOf (s.ram s.dir i)) k entry).ram s.dir j = s.ram s.dir j := by
  have hne := h.table_ne_dir hi htable
  rw [setWord_ram, if_neg fun hc => hne hc.1.symm]

/-- What is used after a table entry was written. -/
theorem uses_withPage (h : s.Exclusive) (hi : i < 1023) (htable : IsTable (s.ram s.dir i))
    {v : Use} {g : Nat} (hv : (s.setWord (frameOf (s.ram s.dir i)) k entry).Uses v g) :
    (v = .page i k ∧ g = frameOf entry) ∨ s.Uses v g := by
  have hdir := h.directory_kept hi htable k entry
  cases v with
  | directory => exact .inr hv
  | table j =>
    simp only [Uses, setWord_dir, hdir] at hv
    exact .inr hv
  | page j l =>
    simp only [Uses, setWord_dir, hdir, setWord_ram] at hv
    obtain ⟨⟨hj, hjtable⟩, hl, hpresent, hframe⟩ := hv
    by_cases hsame : frameOf (s.ram s.dir j) = frameOf (s.ram s.dir i) ∧ l = k
    · -- only entry `i` shows this table
      rw [if_pos hsame] at hframe
      cases h.once (.table j) (.table i) _ ⟨hj, hjtable, rfl⟩ ⟨hi, htable, hsame.1.symm⟩
      exact .inl ⟨by rw [hsame.2], hframe.symm⟩
    · rw [if_neg hsame] at hpresent hframe
      exact .inr ⟨⟨hj, hjtable⟩, hl, hpresent, hframe⟩

/-- A spare frame becomes a page. -/
theorem addPage (h : s.Exclusive) (hi : i < 1023) (htable : IsTable (s.ram s.dir i))
    (hf : s.Spare (frameOf entry)) : (s.setWord (frameOf (s.ram s.dir i)) k entry).Exclusive := by
  have hdir := h.directory_kept hi htable k entry
  refine h.add ⟨?_, ?_, ?_⟩ ?_ rfl hf fun v g => h.uses_withPage hi htable
  · rw [setWord_dir, hdir]
    exact h.recursive.present
  · rw [setWord_dir, hdir]
    exact h.recursive.small
  · rw [setWord_dir, hdir]
    exact h.recursive.self
  · intro j hj hne hpresent
    rw [setWord_dir, hdir] at hpresent ⊢
    exact h.plain j hj hne hpresent

end Page

end Exclusive

end VMM

end UntitledOS.Memory
