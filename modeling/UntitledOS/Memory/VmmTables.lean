import UntitledOS.Memory.VmmRuns

/-! What one allocation of a page does.

For this it is enough that the page tables are in order (`Tabled`); what the pages are
mapped to is of no account. The entry of a page (`entryOf`) is found through its table.
If the table is there, the page is given the first free frame, unless its entry is present
already (`allocPage_table`); if it is not, the second free frame becomes the table
(`allocPage_new`), with the entries it has of old, or there is none and the page is left
as it was (`allocPage_exhausted`). -/
namespace UntitledOS.Memory
open Lib

/-- The frame holds entries. -/
def Use.Inner : Use → Prop
  | .page _ _ => False
  | _ => True

namespace VMM

/-- The page table of a directory entry. -/
def tableOf (s : VMM) (i : Nat) : Option Nat :=
  if Present (s.ram s.dir i) then some (frameOf (s.ram s.dir i)) else none

theorem tableOf_some {s : VMM} {i T : Nat} :
    s.tableOf i = some T ↔ Present (s.ram s.dir i) ∧ frameOf (s.ram s.dir i) = T := by
  unfold tableOf
  split <;> simp_all

theorem tableOf_none {s : VMM} {i : Nat} : s.tableOf i = none ↔ ¬Present (s.ram s.dir i) := by
  unfold tableOf
  split <;> simp_all

/-- The entry of a page, if its table is there. -/
def entryOf (s : VMM) (v : Addr) : Option u32 :=
  (s.tableOf (PAGE_DIRECTORY_INDEX v).toNat).map fun T => s.ram T (PAGE_TABLE_INDEX v).toNat

/-- A word of a new table: the first one is cleared, the others are what they were. -/
def cleared (s : VMM) (T k : Nat) : u32 := if k = 0 then 0 else s.ram T k

/-- The directory is laid out as the code expects, directory and tables are in frames of
their own that are taken, and so is frame 0. -/
structure Tabled (s : VMM) : Prop where
  recursive : s.Recursive
  plain : ∀ i < 1023, i ≠ 768 → Present (s.ram s.dir i) → ¬Large (s.ram s.dir i)
  once : ∀ u v f, u.Inner → v.Inner → s.Uses u f → s.Uses v f → u = v
  taken : ∀ u f, u.Inner → s.Uses u f → s.pmm.bit f = true
  zero : s.pmm.bit 0 = true
  size : s.pmm.maxBlocks.toNat < 2 ^ 20 + 32

theorem Exclusive.tabled {s : VMM} (h : s.Exclusive) (hzero : s.pmm.bit 0 = true) : s.Tabled :=
  ⟨h.recursive, h.plain, fun u v f _ _ => h.once u v f, fun u f _ => h.taken u f, hzero, h.size⟩

theorem Outside.index {v : Addr} (h : Outside v) :
    (PAGE_DIRECTORY_INDEX v).toNat < 1023 ∧ (PAGE_DIRECTORY_INDEX v).toNat ≠ 768 := by
  obtain ⟨_, hkernel, hlast⟩ := h
  have hlt := dirIndex_lt v
  have hne : (PAGE_DIRECTORY_INDEX v).toNat ≠ 1023 := fun he => hlast (BitVec.eq_of_toNat_eq he)
  exact ⟨by omega, fun he => hkernel (BitVec.eq_of_toNat_eq he)⟩

/-- A page is its two indices. -/
theorem Outside.eq {v w : Addr} (hv : Outside v) (hw : Outside w)
    (hdir : (PAGE_DIRECTORY_INDEX v).toNat = (PAGE_DIRECTORY_INDEX w).toNat)
    (htable : (PAGE_TABLE_INDEX v).toNat = (PAGE_TABLE_INDEX w).toNat) : v = w := by
  have hv := hv.1
  have hw := hw.1
  apply BitVec.eq_of_toNat_eq
  rw [dirIndex_toNat, dirIndex_toNat] at hdir
  rw [tableIndex_toNat, tableIndex_toNat] at htable
  omega

namespace Tabled

variable {s : VMM} {v w : Addr} {T : Nat}

theorem table (h : s.Tabled) {i : Nat} (hi : i < 1023) (hkernel : i ≠ 768) (htable : s.tableOf i = some T) :
    s.Uses (.table i) T := by
  obtain ⟨hpresent, hframe⟩ := tableOf_some.mp htable
  exact ⟨hi, ⟨hpresent, h.plain i hi hkernel hpresent⟩, hframe⟩

theorem ne_dir (h : s.Tabled) {i : Nat} (huse : s.Uses (.table i) T) : T ≠ s.dir := by
  intro hdir
  cases h.once (.table i) .directory T trivial trivial huse hdir

/-- A free frame is no directory and no table. -/
theorem unused (h : s.Tabled) {f : Nat} (hf : s.pmm.bit f = false) {u : Use} (hu : u.Inner) : ¬s.Uses u f := by
  intro huse
  have htaken := h.taken u f hu huse
  rw [hf] at htaken
  exact Bool.false_ne_true htaken

/-! ### What keeps the tables in order -/

theorem grow (h : s.Tabled) {pmm : PMM} (hkeep : ∀ f, s.pmm.bit f = true → pmm.bit f = true)
    (hsize : pmm.maxBlocks = s.pmm.maxBlocks) : Tabled {s with pmm := pmm} where
  recursive := ⟨h.recursive.present, h.recursive.small, h.recursive.self⟩
  plain := h.plain
  once u v f hu hv huse hvse := h.once u v f hu hv ((s.uses_pmm pmm u f).mp huse) ((s.uses_pmm pmm v f).mp hvse)
  taken u f hu huse := hkeep f (h.taken u f hu ((s.uses_pmm pmm u f).mp huse))
  zero := hkeep 0 h.zero
  size := hsize ▸ h.size

/-- The directory stays as it is. -/
theorem congr (h : s.Tabled) {t : VMM} (hdir : t.dir = s.dir) (hram : ∀ i, t.ram t.dir i = s.ram s.dir i)
    (hpmm : t.pmm = s.pmm) : t.Tabled := by
  have huses : ∀ u f, u.Inner → (t.Uses u f ↔ s.Uses u f) := by
    intro u f hu
    cases u with
    | directory => simp [Uses, hdir]
    | table i => simp [Uses, hram]
    | page i k => exact hu.elim
  constructor
  · constructor
    · rw [hram]
      exact h.recursive.present
    · rw [hram]
      exact h.recursive.small
    · rw [hram, hdir]
      exact h.recursive.self
  · intro i hi hkernel hpresent
    rw [hram] at hpresent ⊢
    exact h.plain i hi hkernel hpresent
  · intro u v f hu hv huse hvse
    exact h.once u v f hu hv ((huses u f hu).mp huse) ((huses v f hv).mp hvse)
  · intro u f hu huse
    rw [hpmm]
    exact h.taken u f hu ((huses u f hu).mp huse)
  · rw [hpmm]
    exact h.zero
  · rw [hpmm]
    exact h.size

/-- A frame that is taken and holds no entries becomes a table. -/
theorem withTable (h : s.Tabled) {i : Nat} {entry : u32} (hi : i < 1023) (hlarge : ¬Large entry)
    (hunused : ∀ u, u.Inner → ¬s.Uses u (frameOf entry)) (htaken : s.pmm.bit (frameOf entry) = true) :
    (Exclusive.withTable s i entry).Tabled := by
  have hne : frameOf entry ≠ s.dir := fun hdir => hunused .directory trivial hdir
  have hdir : ∀ j, (Exclusive.withTable s i entry).ram (Exclusive.withTable s i entry).dir j =
      if j = i then entry else s.ram s.dir j := Exclusive.withTable_dir hne
  have huses : ∀ u f, u.Inner → (Exclusive.withTable s i entry).Uses u f →
      (u = .table i ∧ f = frameOf entry) ∨ s.Uses u f := by
    intro u f hu huse
    cases u with
    | directory => exact .inr huse
    | table j =>
      simp only [Uses, hdir] at huse
      by_cases hj : j = i
      · rw [if_pos hj] at huse
        exact .inl ⟨by rw [hj], huse.2.2.symm⟩
      · rw [if_neg hj] at huse
        exact .inr huse
    | page j k => exact hu.elim
  have hlast : (Exclusive.withTable s i entry).ram (Exclusive.withTable s i entry).dir 1023 = s.ram s.dir 1023 :=
    (hdir 1023).trans (if_neg (by omega))
  constructor
  · constructor
    · rw [hlast]
      exact h.recursive.present
    · rw [hlast]
      exact h.recursive.small
    · rw [hlast]
      exact h.recursive.self
  · intro j hj hkernel hpresent
    rw [hdir] at hpresent ⊢
    split at hpresent
    · rename_i hji
      rw [if_pos hji]
      exact hlarge
    · rename_i hji
      rw [if_neg hji]
      exact h.plain j hj hkernel hpresent
  · intro u v f hu hv huse hvse
    rcases huses u f hu huse with ⟨rfl, rfl⟩ | huse
    · rcases huses v _ hv hvse with ⟨rfl, _⟩ | hvse
      · rfl
      · exact absurd hvse (hunused v hv)
    · rcases huses v f hv hvse with ⟨_, rfl⟩ | hvse
      · exact absurd huse (hunused u hu)
      · exact h.once u v f hu hv huse hvse
  · intro u f hu huse
    rcases huses u f hu huse with ⟨_, rfl⟩ | huse
    · exact htaken
    · exact h.taken u f hu huse
  · exact h.zero
  · exact h.size

/-! ### Entries -/

theorem setWord (h : s.Tabled) (hT : T ≠ s.dir) (k : Nat) (x : u32) : (s.setWord T k x).Tabled := by
  apply congr (t := s.setWord T k x) h rfl _ rfl
  intro i
  rw [setWord_dir, setWord_ram, if_neg fun hc => hT hc.1.symm]

/-- Writing the entry of a page changes that one only. -/
theorem entryOf_setWord (h : s.Tabled) (hv : Outside v) (hw : Outside w)
    (htable : s.tableOf (PAGE_DIRECTORY_INDEX v).toNat = some T) (x : u32) :
    (s.setWord T (PAGE_TABLE_INDEX v).toNat x).entryOf w = if w = v then some x else s.entryOf w := by
  have huse := h.table hv.index.1 hv.index.2 htable
  have hdir : ∀ i, (s.setWord T (PAGE_TABLE_INDEX v).toNat x).tableOf i = s.tableOf i := by
    intro i
    have hword : (s.setWord T (PAGE_TABLE_INDEX v).toNat x).ram s.dir i = s.ram s.dir i := by
      rw [setWord_ram, if_neg fun hc => h.ne_dir huse hc.1.symm]
    rw [tableOf, setWord_dir, hword]
    rfl
  rw [entryOf, hdir]
  by_cases hwv : w = v
  · rw [if_pos hwv, hwv, htable, Option.map_some, setWord_ram, if_pos ⟨rfl, rfl⟩]
  · rw [if_neg hwv, entryOf]
    cases hother : s.tableOf (PAGE_DIRECTORY_INDEX w).toNat with
    | none => rfl
    | some T' =>
      have hne : ¬(T' = T ∧ (PAGE_TABLE_INDEX w).toNat = (PAGE_TABLE_INDEX v).toNat) := by
        intro hc
        -- one frame is the table of one directory entry
        have hother := h.table hw.index.1 hw.index.2 hother
        rw [hc.1] at hother
        have hsame := h.once (.table _) (.table _) T trivial trivial hother huse
        exact hwv (hw.eq hv (Use.table.inj hsame) hc.2)
      rw [Option.map_some, Option.map_some, setWord_ram, if_neg hne]

/-- A new table shows the pages of its directory entry as its frame has them. -/
theorem entryOf_withTable (h : s.Tabled) {i : Nat} {entry : u32} (hentry : Present entry)
    (hunused : ∀ u, u.Inner → ¬s.Uses u (frameOf entry)) (hw : Outside w) :
    (Exclusive.withTable s i entry).entryOf w =
      if (PAGE_DIRECTORY_INDEX w).toNat = i then some (cleared s (frameOf entry) (PAGE_TABLE_INDEX w).toNat)
      else s.entryOf w := by
  have hne : frameOf entry ≠ s.dir := fun hdir => hunused .directory trivial hdir
  have hdir : ∀ j, (Exclusive.withTable s i entry).ram (Exclusive.withTable s i entry).dir j =
      if j = i then entry else s.ram s.dir j := Exclusive.withTable_dir hne
  rw [entryOf, tableOf, hdir]
  by_cases hi : (PAGE_DIRECTORY_INDEX w).toNat = i
  · rw [if_pos hi, if_pos hi, if_pos hentry, Option.map_some, Exclusive.withTable_frame hne, cleared]
    simp only [true_and]
  · rw [if_neg hi, if_neg hi, entryOf]
    cases hother : s.tableOf (PAGE_DIRECTORY_INDEX w).toNat with
    | none =>
      rw [tableOf] at hother
      rw [hother]
      rfl
    | some T =>
      have huse := h.table hw.index.1 hw.index.2 hother
      have hT : T ≠ frameOf entry := fun he => hunused (.table _) trivial (he ▸ huse)
      rw [tableOf] at hother
      rw [hother, Option.map_some, Option.map_some, Exclusive.withTable_frame (h.ne_dir huse),
        if_neg fun hc => hT hc.1]

end Tabled

/-! ### One allocation -/

/-- The state with a block taken from the allocator. -/
def took (s : VMM) : VMM := {s with pmm := s.pmm.allocBlock.1}

/-- The block entered for a page, unless there is an entry. -/
def placed (s : VMM) (T k : Nat) (phys : Addr) : VMM :=
  if Present (s.ram T k) then s else s.setWord T k (entryFor phys)

/-- The state with the table of a page made out of a free frame. -/
def tabledWith (s : VMM) (v : Addr) (T : Nat) : VMM :=
  Exclusive.withTable s.took (PAGE_DIRECTORY_INDEX v).toNat (entryFor (BitVec.ofNat 32 (T * 4096)))

theorem Recursive.mapEntry {s : VMM} (h : s.Recursive) {T : Nat} {phys virt : Addr}
    (htable : s.tableOf (PAGE_DIRECTORY_INDEX virt).toNat = some T) :
    s.mapEntry phys virt = some (placed s T (PAGE_TABLE_INDEX virt).toNat phys) := by
  have htranslate := h.translate_tableEntry (dirIndex_lt virt) (tableIndex_lt virt)
  obtain ⟨hpresent, hframe⟩ := tableOf_some.mp htable
  rw [if_pos hpresent, hframe] at htranslate
  simp only [VMM.mapEntry, read, write, htranslate, Option.map_some, Option.bind_some, placed]
  split <;> rfl

/-- The directory entry of a page, as `mapPage` reads it. -/
theorem Recursive.pde {s : VMM} (h : s.Recursive) {v : Addr} (hv : Outside v) :
    s.read (dirEntry (PAGE_DIRECTORY_INDEX v)) = some (s.ram s.dir (PAGE_DIRECTORY_INDEX v).toNat) := by
  have hi := hv.index.1
  rw [read, h.translate_dirEntry (by omega)]
  rfl

theorem Recursive.mapPage_table {s : VMM} (h : s.Recursive) {T : Nat} {phys v : Addr} (hv : Outside v)
    (htable : s.tableOf (PAGE_DIRECTORY_INDEX v).toNat = some T) :
    s.mapPage phys v = some (placed s T (PAGE_TABLE_INDEX v).toNat phys) := by
  simp only [mapPage, h.pde hv, Option.bind_some]
  rw [if_pos (tableOf_some.mp htable).1, h.mapEntry htable]

theorem Recursive.mapPage_exhausted {s : VMM} (h : s.Recursive) {phys v : Addr} (hv : Outside v)
    (htable : s.tableOf (PAGE_DIRECTORY_INDEX v).toNat = none) (hfree : s.pmm.frees = []) :
    s.mapPage phys v = some s := by
  simp only [mapPage, h.pde hv, Option.bind_some]
  rw [if_neg (tableOf_none.mp htable), PMM.allocBlock_nil hfree, if_pos rfl]

@[simp] theorem took_ram (s : VMM) : s.took.ram = s.ram := rfl

@[simp] theorem took_dir (s : VMM) : s.took.dir = s.dir := rfl

/-! ### A missing table -/

section Missing
variable {s : VMM} {phys virt : Addr} {T : Nat}

theorem Recursive.took (h : s.Recursive) : s.took.Recursive := ⟨h.present, h.small, h.self⟩

theorem tabledWith_last (hi : (PAGE_DIRECTORY_INDEX virt).toNat < 1023) :
    (s.tabledWith virt T).ram s.dir 1023 = s.ram s.dir 1023 := by
  rw [tabledWith, Exclusive.withTable, setWord_ram, if_neg fun hc => by omega, setWord_ram,
    if_neg fun hc => by omega]
  rfl

/-- A new table leaves the window where it is. -/
theorem Recursive.tabledWith (h : s.Recursive) (hi : (PAGE_DIRECTORY_INDEX virt).toNat < 1023) :
    (s.tabledWith virt T).Recursive := by
  have hlast : (s.tabledWith virt T).ram (s.tabledWith virt T).dir 1023 = s.ram s.dir 1023 := tabledWith_last hi
  constructor
  · rw [hlast]
    exact h.present
  · rw [hlast]
    exact h.small
  · rw [hlast]
    exact h.self

/-- A missing table is made of the first free frame, if its address is not null. -/
theorem Recursive.mapPage_frame (h : s.Recursive) (hv : Outside virt) {f : Nat} {free : List Nat}
    (habsent : ¬Present (s.ram s.dir (PAGE_DIRECTORY_INDEX virt).toNat)) (hfree : s.pmm.frees = f :: free) :
    s.mapPage phys virt =
      if f % 2 ^ 20 = 0 then some s.took else (s.tabledWith virt (f % 2 ^ 20)).mapEntry phys virt := by
  have hlt : f % 2 ^ 20 < 2 ^ 20 := Nat.mod_lt _ (by decide)
  have hblock : s.pmm.allocBlock.2 = BitVec.ofNat 32 (f % 2 ^ 20 * 4096) := by
    apply BitVec.eq_of_toNat_eq
    rw [PMM.allocBlock_block, hfree, List.headD_cons, address_toNat hlt, BitVec.toNat_ofNat]
    omega
  have hnull : BitVec.ofNat 32 (f % 2 ^ 20 * 4096) = (0 : Addr) ↔ f % 2 ^ 20 = 0 := by
    rw [← BitVec.toNat_inj, address_toNat hlt]
    show f % 2 ^ 20 * 4096 = 0 ↔ _
    omega
  obtain ⟨hpresent, _, _⟩ := entryFor_spec hlt
  simp only [mapPage, h.pde hv, Option.bind_some]
  rw [if_neg habsent, hblock]
  by_cases hzero : f % 2 ^ 20 = 0
  · rw [if_pos (hnull.mpr hzero), if_pos hzero]
    rfl
  · rw [if_neg (fun he => hzero (hnull.mp he)), if_neg hzero, ← Option.bind_assoc]
    show ((s.took.write _ _).bind _).bind _ = _
    rw [h.took.writeTable hv.index.1 hpresent, Option.bind_some]
    rfl

theorem tableOf_withTable {i : Nat} {entry : u32} (hpresent : Present entry) (hframe : frameOf entry = T)
    (hdir : T ≠ s.dir) : (Exclusive.withTable s i entry).tableOf i = some T := by
  have hword := Exclusive.withTable_dir (s := s) (i := i) (hframe ▸ hdir) i
  rw [if_pos rfl] at hword
  rw [tableOf_some]
  show Present ((Exclusive.withTable s i entry).ram s.dir i) ∧
    frameOf ((Exclusive.withTable s i entry).ram s.dir i) = T
  rw [hword]
  exact ⟨hpresent, hframe⟩

end Missing

namespace Tabled

variable {s : VMM} {v w : Addr} {T : Nat}

theorem took (h : s.Tabled) : s.took.Tabled := by
  apply h.grow _ s.pmm.allocBlock_maxBlocks
  intro f hf
  rw [PMM.bit_allocBlock, hf, Bool.or_true]

/-- The frame that becomes a table: its entry, and that nobody uses it. -/
theorem newTable (h : s.Tabled) {free : List Nat} (hfree : s.pmm.frees = T :: free) :
    (Present (entryFor (BitVec.ofNat 32 (T * 4096))) ∧ ¬Large (entryFor (BitVec.ofNat 32 (T * 4096)))) ∧
      frameOf (entryFor (BitVec.ofNat 32 (T * 4096))) = T ∧
      (∀ u, u.Inner → ¬s.took.Uses u T) ∧ s.took.pmm.bit T = true := by
  have hmem : T ∈ s.pmm.frees := hfree ▸ List.mem_cons_self ..
  have hclear := PMM.frees_clear hmem
  obtain ⟨hpresent, hlarge, hframe⟩ := entryFor_spec (PMM.frees_lt h.size hmem)
  refine ⟨⟨hpresent, hlarge⟩, hframe, ?_, ?_⟩
  · intro u hu huse
    exact h.unused hclear hu ((s.uses_pmm _ u T).mp huse)
  · show s.pmm.allocBlock.1.bit T = true
    rw [PMM.bit_allocBlock, hfree]
    simp

theorem entryOf_tabledWith (h : s.Tabled) {free : List Nat} (hfree : s.pmm.frees = T :: free)
    (hw : Outside w) : (s.tabledWith v T).entryOf w =
      if (PAGE_DIRECTORY_INDEX w).toNat = (PAGE_DIRECTORY_INDEX v).toNat
      then some (cleared s T (PAGE_TABLE_INDEX w).toNat) else s.entryOf w := by
  obtain ⟨⟨hpresent, _⟩, hframe, hunused, _⟩ := h.newTable hfree
  rw [VMM.tabledWith, h.took.entryOf_withTable hpresent (by rwa [hframe]) hw, hframe]
  rfl

theorem tableOf_tabledWith (h : s.Tabled) {free : List Nat} (hfree : s.pmm.frees = T :: free) :
    (s.tabledWith v T).tableOf (PAGE_DIRECTORY_INDEX v).toNat = some T := by
  obtain ⟨⟨hpresent, _⟩, hframe, hunused, _⟩ := h.newTable hfree
  exact tableOf_withTable hpresent hframe fun hdir => hunused .directory trivial hdir

/-- Making a table writes to it and to the directory only. -/
theorem tabledWith_ram (h : s.Tabled) {free : List Nat} (hfree : s.pmm.frees = T :: free) {f : Nat}
    (hdir : f ≠ s.dir) (hT : f ≠ T) (k : Nat) : (s.tabledWith v T).ram f k = s.ram f k := by
  obtain ⟨_, hframe, _⟩ := h.newTable hfree
  rw [VMM.tabledWith]
  show (Exclusive.withTable s.took _ _).ram f k = _
  rw [Exclusive.withTable_frame (s := s.took) hdir, hframe, if_neg fun hc => hT hc.1]
  rfl

theorem tabledWith (h : s.Tabled) {free : List Nat} (hv : Outside v) (hfree : s.pmm.frees = T :: free) :
    (s.tabledWith v T).Tabled := by
  obtain ⟨⟨_, hlarge⟩, hframe, hunused, htaken⟩ := h.newTable hfree
  exact h.took.withTable hv.index.1 hlarge (by rwa [hframe]) (by rwa [hframe])

theorem mapPage_new (h : s.Tabled) {phys : Addr} {free : List Nat} (hv : Outside v)
    (htable : s.tableOf (PAGE_DIRECTORY_INDEX v).toNat = none) (hfree : s.pmm.frees = T :: free) :
    s.mapPage phys v = some (placed (s.tabledWith v T) T (PAGE_TABLE_INDEX v).toNat phys) := by
  have hmem : T ∈ s.pmm.frees := hfree ▸ List.mem_cons_self ..
  have hmod : T % 2 ^ 20 = T := Nat.mod_eq_of_lt (PMM.frees_lt h.size hmem)
  have hnull : T ≠ 0 := by
    rintro rfl
    have hclear := PMM.frees_clear hmem
    rw [h.zero] at hclear
    cases hclear
  rw [h.recursive.mapPage_frame hv (tableOf_none.mp htable) hfree, hmod, if_neg hnull]
  exact (h.tabledWith hv hfree).recursive.mapEntry (h.tableOf_tabledWith hfree)

/-! ### What is left alone -/

theorem placed (h : s.Tabled) (hT : T ≠ s.dir) (k : Nat) (phys : Addr) : (VMM.placed s T k phys).Tabled := by
  unfold VMM.placed
  split
  · exact h
  · exact h.setWord hT k _

theorem entryOf_placed (h : s.Tabled) (hv : Outside v) (hw : Outside w)
    (htable : s.tableOf (PAGE_DIRECTORY_INDEX v).toNat = some T) (phys : Addr) :
    (VMM.placed s T (PAGE_TABLE_INDEX v).toNat phys).entryOf w =
      if w = v ∧ ¬Present (s.ram T (PAGE_TABLE_INDEX v).toNat) then some (entryFor phys) else s.entryOf w := by
  unfold VMM.placed
  by_cases hpresent : Present (s.ram T (PAGE_TABLE_INDEX v).toNat)
  · rw [if_pos hpresent, if_neg fun hc => hc.2 hpresent]
  · rw [if_neg hpresent, h.entryOf_setWord hv hw htable]
    simp only [hpresent, not_false_eq_true, and_true]

end Tabled

@[simp] theorem placed_pmm (s : VMM) (T k : Nat) (phys : Addr) : (placed s T k phys).pmm = s.pmm := by
  unfold placed
  split <;> rfl

@[simp] theorem entryOf_took (s : VMM) (w : Addr) : s.took.entryOf w = s.entryOf w := rfl

@[simp] theorem took_frees (s : VMM) : s.took.pmm.frees = s.pmm.frees.tail := s.pmm.allocBlock_frees

theorem bit_took (s : VMM) {f : Nat} (hf : s.pmm.bit f = true) : s.took.pmm.bit f = true := by
  show s.pmm.allocBlock.1.bit f = true
  rw [PMM.bit_allocBlock, hf, Bool.or_true]

/-- What an allocation leaves alone, whatever becomes of it. -/
structure Keeps (s t : VMM) : Prop where
  tabled : t.Tabled
  bits : ∀ f, s.pmm.bit f = true → t.pmm.bit f = true
  frees : t.pmm.frees <:+ s.pmm.frees
  entries : ∀ w, Outside w → ∀ e, s.entryOf w = some e → ∃ e', t.entryOf w = some e' ∧ (Present e → e' = e)
  missing : s.pmm.frees = [] → ∀ w, Outside w → s.entryOf w = none → t.entryOf w = none

namespace Keeps

variable {s t u : VMM}

theorem refl (h : s.Tabled) : Keeps s s :=
  ⟨h, fun _ hf => hf, List.suffix_refl _, fun _ _ e he => ⟨e, he, fun _ => rfl⟩, fun _ _ _ hw => hw⟩

theorem trans (h : Keeps s t) (h' : Keeps t u) : Keeps s u := by
  refine ⟨h'.tabled, fun f hf => h'.bits f (h.bits f hf), h'.frees.trans h.frees, ?_, ?_⟩
  · intro w hw e he
    obtain ⟨e₁, he₁, hsame₁⟩ := h.entries w hw e he
    obtain ⟨e₂, he₂, hsame₂⟩ := h'.entries w hw e₁ he₁
    refine ⟨e₂, he₂, fun hpresent => ?_⟩
    have hold := hsame₁ hpresent
    rw [hsame₂ (hold ▸ hpresent), hold]
  · intro hnone w hw habsent
    have hnone' : t.pmm.frees = [] := by
      have hsuffix := h.frees
      rw [hnone] at hsuffix
      exact List.suffix_nil.mp hsuffix
    exact h'.missing hnone' w hw (h.missing hnone w hw habsent)

/-- Taking a block. -/
theorem took (h : s.Tabled) : Keeps s s.took where
  tabled := h.took
  bits _ := s.bit_took
  frees := by
    rw [took_frees]
    exact List.tail_suffix _
  entries _ _ e he := ⟨e, he, fun _ => rfl⟩
  missing _ _ _ hw := hw

/-- Entering it. -/
theorem placed {v : Addr} {T : Nat} (h : s.Tabled) (hv : Outside v)
    (htable : s.tableOf (PAGE_DIRECTORY_INDEX v).toNat = some T) (phys : Addr) :
    Keeps s (VMM.placed s T (PAGE_TABLE_INDEX v).toNat phys) where
  tabled := h.placed (h.ne_dir (h.table hv.index.1 hv.index.2 htable)) _ phys
  bits f hf := by rwa [placed_pmm]
  frees := by rw [placed_pmm]
  entries w hw e he := by
    rw [h.entryOf_placed hv hw htable]
    split
    · rename_i hc
      obtain ⟨rfl, habsent⟩ := hc
      rw [entryOf, htable, Option.map_some] at he
      obtain rfl := Option.some.inj he
      exact ⟨_, rfl, fun hpresent => absurd hpresent habsent⟩
    · exact ⟨e, he, fun _ => rfl⟩
  missing _ w hw hnone := by
    rw [h.entryOf_placed hv hw htable, if_neg _, hnone]
    rintro ⟨rfl, _⟩
    rw [entryOf, htable] at hnone
    cases hnone

end Keeps

/-! ### One page -/

section Page
variable {s : VMM} {v w : Addr} {T : Nat}

theorem Tabled.allocPage_table (h : s.Tabled) (hv : Outside v)
    (htable : s.tableOf (PAGE_DIRECTORY_INDEX v).toNat = some T) :
    s.allocPage v = some (VMM.placed s.took T (PAGE_TABLE_INDEX v).toNat s.pmm.allocBlock.2, v) := by
  have hmap : s.took.mapPage s.pmm.allocBlock.2 v = _ := h.took.recursive.mapPage_table hv htable
  rw [allocPage]
  show (s.took.mapPage _ v).map _ = _
  rw [hmap]
  rfl

theorem Tabled.allocPage_exhausted (h : s.Tabled) (hv : Outside v)
    (htable : s.tableOf (PAGE_DIRECTORY_INDEX v).toNat = none) (hfree : s.pmm.frees.tail = []) :
    s.allocPage v = some (s.took, v) := by
  have hmap : s.took.mapPage s.pmm.allocBlock.2 v = _ :=
    h.took.recursive.mapPage_exhausted hv htable (by rwa [took_frees])
  rw [allocPage]
  show (s.took.mapPage _ v).map _ = _
  rw [hmap]
  rfl

theorem Tabled.allocPage_new (h : s.Tabled) {free : List Nat} (hv : Outside v)
    (htable : s.tableOf (PAGE_DIRECTORY_INDEX v).toNat = none) (hfree : s.pmm.frees.tail = T :: free) :
    s.allocPage v =
      some (VMM.placed (s.took.tabledWith v T) T (PAGE_TABLE_INDEX v).toNat s.pmm.allocBlock.2, v) := by
  have hfree' : s.took.pmm.frees = T :: free := by rwa [took_frees]
  have hmap : s.took.mapPage s.pmm.allocBlock.2 v = _ := h.took.mapPage_new hv htable hfree'
  rw [allocPage]
  show (s.took.mapPage _ v).map _ = _
  rw [hmap]
  rfl

theorem Keeps.tabledWith (h : s.Tabled) {free : List Nat} (hv : Outside v)
    (htable : s.tableOf (PAGE_DIRECTORY_INDEX v).toNat = none) (hfree : s.pmm.frees = T :: free) :
    Keeps s (s.tabledWith v T) where
  tabled := h.tabledWith hv hfree
  bits _ := s.bit_took
  frees := (Keeps.took h).frees
  entries w hw e he := by
    rw [h.entryOf_tabledWith hfree hw]
    split
    · rename_i hdir
      rw [entryOf, hdir, htable] at he
      cases he
    · exact ⟨e, he, fun _ => rfl⟩
  missing hnone := by
    rw [hfree] at hnone
    cases hnone

/-- A page is allocated without a fault. A block is taken, and the rest `Keeps` what was
there. -/
theorem Tabled.allocPage_took (h : s.Tabled) (hv : Outside v) :
    ∃ t, s.allocPage v = some (t, v) ∧ Keeps s.took t := by
  cases htable : s.tableOf (PAGE_DIRECTORY_INDEX v).toNat with
  | some T => exact ⟨_, h.allocPage_table hv htable, Keeps.placed h.took hv htable _⟩
  | none =>
    cases hfree : s.pmm.frees.tail with
    | nil => exact ⟨_, h.allocPage_exhausted hv htable hfree, Keeps.refl h.took⟩
    | cons T free =>
      have hrest : s.took.pmm.frees = T :: free := by rwa [took_frees]
      refine ⟨_, h.allocPage_new hv htable hfree, ?_⟩
      exact (Keeps.tabledWith h.took hv htable hrest).trans
        (Keeps.placed (h.took.tabledWith hv hrest) hv (h.took.tableOf_tabledWith hrest) _)

theorem Tabled.allocPage (h : s.Tabled) (hv : Outside v) :
    ∃ t, s.allocPage v = some (t, v) ∧ Keeps s t := by
  obtain ⟨t, ht, hkeeps⟩ := h.allocPage_took hv
  exact ⟨t, ht, (Keeps.took h).trans hkeeps⟩

end Page

end VMM

end UntitledOS.Memory
