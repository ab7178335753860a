import UntitledOS.Memory.VmmWhole

/-! Which translations `mapPage` changes.

What the hardware finds for an address has the flags of both levels in it
(`translation`), and is read off two words, whatever the other ones hold (`page_congr`).
`mapPage` writes one word of a table; a table that is missing it writes twice before, in
the directory and in the first word of the new table, which is all its `memset` clears. So
what the other pages of that table are mapped to is what the frame held before.

`maps_only_iff` asks no order of the tables: an entry may be shown through another entry of
the directory as well, or the directory be a table itself. -/
namespace UntitledOS.Memory

/-! ### Flags -/

/-- Bit 1 of an entry. -/
def Writable (entry : u32) : Prop := entry &&& 2 ≠ 0

/-- Bit 2 of an entry. -/
def User (entry : u32) : Prop := entry &&& 4 ≠ 0

instance (entry : u32) : Decidable (Writable entry) := inferInstanceAs (Decidable (entry &&& 2 ≠ 0))
instance (entry : u32) : Decidable (User entry) := inferInstanceAs (Decidable (entry &&& 4 ≠ 0))

theorem writable_iff (entry : u32) : Writable entry ↔ entry.toNat / 2 % 2 = 1 :=
  mask_iff (show 1 < 32 by decide) entry

theorem user_iff (entry : u32) : User entry ↔ entry.toNat / 4 % 2 = 1 := mask_iff (show 2 < 32 by decide) entry

/-- An entry for a frame, with every flag that `mapPage` sets. -/
structure EntryOf (entry : u32) (frame : Nat) : Prop where
  table : IsTable entry
  frame : frameOf entry = frame
  writable : Writable entry
  user : User entry

theorem entryFor_entryOf {frame : Nat} (h : frame < 2 ^ 20) :
    EntryOf (VMM.entryFor (BitVec.ofNat 32 (frame * 4096))) frame := by
  obtain ⟨hpresent, hlarge, hframe⟩ := entryFor_spec h
  have hnat := entryFor_toNat h
  refine ⟨⟨hpresent, hlarge⟩, hframe, ?_, ?_⟩
  · rw [writable_iff, hnat]
    omega
  · rw [user_iff, hnat]
    omega

/-- What a page is mapped to. -/
structure Mapped where
  frame : Nat
  writable : Bool
  user : Bool
deriving DecidableEq

/-- Mapped by a table entry, with what the directory entry grants as well. -/
def through (pde pte : u32) : Option Mapped :=
  if Present pte then
    some ⟨frameOf pte, decide (Writable pde ∧ Writable pte), decide (User pde ∧ User pte)⟩
  else none

theorem through_none {pde pte : u32} : through pde pte = none ↔ ¬Present pte := by
  rw [through]
  split
  · simp [*]
  · simp [*]

theorem through_some {pde pte : u32} {f : Nat} :
    through pde pte = some ⟨f, true, true⟩ ↔
      Present pte ∧ frameOf pte = f ∧ (Writable pde ∧ User pde) ∧ Writable pte ∧ User pte := by
  rw [through]
  split
  · rename_i hpresent
    simp [hpresent]
    tauto
  · rename_i habsent
    simp [habsent]

/-- An entry that `mapPage` would write shows what another one shows, if that is for the same
frame and grants what the directory entry does. -/
theorem through_entryOf {pde pte old : u32} {f : Nat} (h : EntryOf pte f) :
    through pde pte = through pde old ↔
      Present old ∧ frameOf old = f ∧ (Writable pde → Writable old) ∧ (User pde → User old) := by
  by_cases hold : Present old
  · rw [through, through, if_pos h.table.1, if_pos hold, and_iff_right hold]
    simp only [Option.some.injEq, Mapped.mk.injEq, decide_eq_decide, h.frame, h.writable, h.user, and_true,
      iff_self_and, eq_comm]
  · rw [through_none.mpr hold]
    exact iff_of_false (fun hnone => through_none.mp hnone h.table.1) fun hc => hold hc.1

namespace VMM

/-! ### Pages -/

/-- What page `k` of a directory entry is mapped to. -/
def page (s : VMM) (i k : Nat) : Option Mapped :=
  let pde := s.ram s.dir i
  if ¬Present pde then none
  else if Large pde then some ⟨frameOf pde / 1024 * 1024 + k, decide (Writable pde), decide (User pde)⟩
  else through pde (s.ram (frameOf pde) k)

/-- The physical address behind a virtual one, whether it may be written, and whether by
the user. -/
def translation (s : VMM) (v : Addr) : Option (Addr × Bool × Bool) :=
  (s.page (PAGE_DIRECTORY_INDEX v).toNat (PAGE_TABLE_INDEX v).toNat).map fun m =>
    (BitVec.ofNat 32 (m.frame * 4096) + (v &&& 0xfff), m.writable, m.user)

/-- The loads and stores of the code go where pages are mapped. -/
theorem translate_page (s : VMM) (v : Addr) :
    s.translate v = (s.page (PAGE_DIRECTORY_INDEX v).toNat (PAGE_TABLE_INDEX v).toNat).map fun m =>
      (m.frame, ((v &&& 0xfff) >>> 2).toNat) := by
  simp only [translate, page, through]
  split_ifs <;> rfl

section Page
variable {s t : VMM} {i k : Nat}

theorem page_absent (h : ¬Present (s.ram s.dir i)) : s.page i k = none := if_pos h

theorem page_table (h : IsTable (s.ram s.dir i)) :
    s.page i k = through (s.ram s.dir i) (s.ram (frameOf (s.ram s.dir i)) k) := by
  rw [page, if_neg (not_not.mpr h.1), if_neg h.2]

/-- A page is two words. -/
theorem page_congr (hdir : t.ram t.dir i = s.ram s.dir i)
    (htable : IsTable (s.ram s.dir i) →
      t.ram (frameOf (s.ram s.dir i)) k = s.ram (frameOf (s.ram s.dir i)) k) : t.page i k = s.page i k := by
  simp only [page, hdir]
  by_cases hpresent : Present (s.ram s.dir i)
  · by_cases hlarge : Large (s.ram s.dir i)
    · rw [if_pos hlarge, if_pos hlarge]
    · rw [htable ⟨hpresent, hlarge⟩]
  · rw [if_pos hpresent, if_pos hpresent]

/-- An unmapped page has no table, or an absent entry in one. -/
theorem page_none : s.page i k = none ↔
    Present (s.ram s.dir i) → ¬Large (s.ram s.dir i) ∧ ¬Present (s.ram (frameOf (s.ram s.dir i)) k) := by
  by_cases hpresent : Present (s.ram s.dir i)
  · by_cases hlarge : Large (s.ram s.dir i)
    · simp [page, hpresent, hlarge]
    · rw [page_table ⟨hpresent, hlarge⟩, through_none]
      simp [hpresent, hlarge]
  · simp [page, hpresent]

theorem page_frame_lt {m : Mapped} (hk : k < 1024) (h : s.page i k = some m) : m.frame < 2 ^ 20 := by
  have hframe (entry : u32) : frameOf entry < 2 ^ 20 := by
    have := entry.isLt
    rw [frameOf_eq]
    omega
  have hpde := hframe (s.ram s.dir i)
  have hpte := hframe (s.ram (frameOf (s.ram s.dir i)) k)
  simp only [page, through] at h
  split_ifs at h
  · obtain rfl := Option.some.inj h
    show frameOf (s.ram s.dir i) / 1024 * 1024 + k < 2 ^ 20
    omega
  · obtain rfl := Option.some.inj h
    exact hpte

end Page

/-! ### One page changed -/

/-- The page at `virt` is mapped to `phys`, for writing and for the user, and every other
page outside the window is what it was. -/
structure MapsOnly (s t : VMM) (phys virt : Addr) : Prop where
  mapped : ∀ offset : Nat, offset < 4096 →
    t.translation (virt + BitVec.ofNat 32 offset) = some (phys + BitVec.ofNat 32 offset, true, true)
  others : ∀ v : Addr, v.toNat / 4096 ≠ virt.toNat / 4096 → PAGE_DIRECTORY_INDEX v ≠ 1023 →
    t.translation v = s.translation v

/-- The same, page by page. -/
structure Updated (s t : VMM) (i k : Nat) (m : Mapped) : Prop where
  mapped : t.page i k = some m
  others : ∀ j < 1023, ∀ l < 1024, ¬(j = i ∧ l = k) → t.page j l = s.page j l

section Addresses
variable {s t : VMM} {phys virt : Addr}

theorem address_of_aligned (hphys : phys.toNat % 4096 = 0) : BitVec.ofNat 32 (frameAt phys * 4096) = phys := by
  apply BitVec.eq_of_toNat_eq
  have hlt := phys.isLt
  rw [frameAt_toNat, BitVec.toNat_ofNat]
  omega

theorem frameAt_lt (p : Addr) : frameAt p < 2 ^ 20 := by
  have := p.isLt
  rw [frameAt_toNat]
  omega

theorem address_inj {f g : Nat} {offset : Addr} (hf : f < 2 ^ 20) (hg : g < 2 ^ 20)
    (h : BitVec.ofNat 32 (f * 4096) + offset = BitVec.ofNat 32 (g * 4096) + offset) : f = g := by
  have hbase := congrArg BitVec.toNat ((BitVec.add_left_inj offset).mp h)
  rw [address_toNat hf, address_toNat hg] at hbase
  omega

theorem translation_offset (hvirt : virt.toNat % 4096 = 0) {offset : Nat} (hoffset : offset < 4096) :
    s.translation (virt + BitVec.ofNat 32 offset) =
      (s.page (PAGE_DIRECTORY_INDEX virt).toNat (PAGE_TABLE_INDEX virt).toNat).map fun m =>
        (BitVec.ofNat 32 (m.frame * 4096) + BitVec.ofNat 32 offset, m.writable, m.user) := by
  have hlt := virt.isLt
  have hnat : (virt + BitVec.ofNat 32 offset).toNat = virt.toNat + offset := by
    rw [BitVec.toNat_add, BitVec.toNat_ofNat]
    omega
  have hdir : (PAGE_DIRECTORY_INDEX (virt + BitVec.ofNat 32 offset)).toNat = (PAGE_DIRECTORY_INDEX virt).toNat := by
    rw [dirIndex_toNat, dirIndex_toNat, hnat]
    omega
  have htable : (PAGE_TABLE_INDEX (virt + BitVec.ofNat 32 offset)).toNat = (PAGE_TABLE_INDEX virt).toNat := by
    rw [tableIndex_toNat, tableIndex_toNat, hnat]
    omega
  have hlow : (virt + BitVec.ofNat 32 offset) &&& 0xfff = BitVec.ofNat 32 offset := by
    apply BitVec.eq_of_toNat_eq
    have hmod : (virt + BitVec.ofNat 32 offset).toNat &&& (0xfff : u32).toNat =
        (virt + BitVec.ofNat 32 offset).toNat % 4096 := Nat.and_two_pow_sub_one_eq_mod _ 12
    rw [BitVec.toNat_and, hmod, hnat, BitVec.toNat_ofNat]
    omega
  rw [translation, hdir, htable, hlow]

/-- Translations are the same exactly where pages are. -/
theorem translation_eq {v : Addr} :
    t.translation v = s.translation v ↔
      t.page (PAGE_DIRECTORY_INDEX v).toNat (PAGE_TABLE_INDEX v).toNat =
        s.page (PAGE_DIRECTORY_INDEX v).toNat (PAGE_TABLE_INDEX v).toNat := by
  constructor
  · intro h
    simp only [translation] at h
    cases ht : t.page (PAGE_DIRECTORY_INDEX v).toNat (PAGE_TABLE_INDEX v).toNat with
    | none =>
      rw [ht, Option.map_none, eq_comm, Option.map_eq_none_iff] at h
      exact h.symm
    | some m =>
      rw [ht, Option.map_some, eq_comm, Option.map_eq_some_iff] at h
      obtain ⟨m', hm', heq⟩ := h
      obtain ⟨haddress, hflags⟩ := Prod.mk.inj heq
      obtain ⟨hwritable, huser⟩ := Prod.mk.inj hflags
      have hframe := address_inj (page_frame_lt (tableIndex_lt v) hm') (page_frame_lt (tableIndex_lt v) ht) haddress
      rw [hm']
      cases m
      cases m'
      simp_all
  · intro h
    rw [translation, translation, h]

/-- The address of a page. -/
theorem exists_page {j l : Nat} (hj : j < 1024) (hl : l < 1024) :
    ∃ v : Addr, v.toNat = (j * 1024 + l) * 4096 ∧ (PAGE_DIRECTORY_INDEX v).toNat = j ∧
      (PAGE_TABLE_INDEX v).toNat = l := by
  have hnat : (BitVec.ofNat 32 ((j * 1024 + l) * 4096)).toNat = (j * 1024 + l) * 4096 := by
    rw [BitVec.toNat_ofNat]
    omega
  refine ⟨_, hnat, ?_, ?_⟩
  · rw [dirIndex_toNat, hnat]
    omega
  · rw [tableIndex_toNat, hnat]
    omega

theorem mapsOnly_iff (hphys : phys.toNat % 4096 = 0) (hvirt : virt.toNat % 4096 = 0) :
    MapsOnly s t phys virt ↔
      Updated s t (PAGE_DIRECTORY_INDEX virt).toNat (PAGE_TABLE_INDEX virt).toNat ⟨frameAt phys, true, true⟩ := by
  have haddress := address_of_aligned hphys
  constructor
  · intro h
    constructor
    · have hzero := h.mapped 0 (by omega)
      rw [translation_offset hvirt (by omega), Option.map_eq_some_iff] at hzero
      obtain ⟨m, hm, heq⟩ := hzero
      obtain ⟨hbase, hflags⟩ := Prod.mk.inj heq
      obtain ⟨hwritable, huser⟩ := Prod.mk.inj hflags
      have hframe := address_inj (page_frame_lt (tableIndex_lt virt) hm) (frameAt_lt phys)
        (hbase.trans (by rw [haddress]))
      rw [hm]
      cases m
      simp_all
    · intro j hj l hl hne
      obtain ⟨v, hv, hdir, htable⟩ := exists_page (show j < 1024 by omega) hl
      rw [dirIndex_toNat, tableIndex_toNat] at hne
      have hother := h.others v (by omega) fun hlast => by
        rw [hlast] at hdir
        exact absurd hdir (Nat.ne_of_gt hj)
      rw [translation_eq, hdir, htable] at hother
      exact hother
  · intro h
    constructor
    · intro offset hoffset
      rw [translation_offset hvirt hoffset, h.mapped, Option.map_some, haddress]
    · intro v hv hlast
      have hlt := dirIndex_lt v
      have hne : (PAGE_DIRECTORY_INDEX v).toNat ≠ 1023 := fun he => hlast (BitVec.eq_of_toNat_eq he)
      refine translation_eq.mpr (h.others _ (by omega) _ (tableIndex_lt v) fun hsame => ?_)
      simp only [dirIndex_toNat, tableIndex_toNat] at hsame
      omega

end Addresses

/-! ### A table that is there -/

/-- Writing an absent entry changes no present one. -/
theorem setWord_present {s : VMM} {T k g j : Nat} (habsent : ¬Present (s.ram T k)) (hpresent : Present (s.ram g j))
    (x : u32) : (s.setWord T k x).ram g j = s.ram g j := by
  rw [setWord_ram, if_neg]
  intro ⟨hg, hj⟩
  rw [hg, hj] at hpresent
  exact habsent hpresent

/-- Directory entry `i` grants what the page is to have, and no other one shows its table.
Should that be the directory itself, writing makes a table of frame `f`, which shows
nothing. -/
structure TableReady (s : VMM) (i f : Nat) : Prop where
  grants : Writable (s.ram s.dir i) ∧ User (s.ram s.dir i)
  once : ∀ j, s.Uses (.table j) (frameOf (s.ram s.dir i)) → j = i
  blank : frameOf (s.ram s.dir i) = s.dir → ∀ w < 1024, ¬Present (s.ram f w)

section Table
variable {s t : VMM} {i k f : Nat} {entry : u32}

/-- An entry of a table is shown by every directory entry that has the table. -/
theorem page_entry {j g l : Nat} {pde pte : u32} (htable : IsTable pde) (hframe : frameOf pde = g)
    (hdir : t.ram t.dir j = pde) (hword : t.ram g l = pte) : t.page j l = through pde pte := by
  rw [page_table (hdir ▸ htable), hdir, hframe, hword]

theorem Recursive.updated_iff (h : s.Recursive) (hi : i < 1023) (hk : k < 1024) (htable : IsTable (s.ram s.dir i))
    (habsent : ¬Present (s.ram (frameOf (s.ram s.dir i)) k)) (hentry : EntryOf entry f) :
    Updated s (s.setWord (frameOf (s.ram s.dir i)) k entry) i k ⟨f, true, true⟩ ↔ s.TableReady i f := by
  have hword := s.setWord_ram (frameOf (s.ram s.dir i)) k entry
  have hself := (hword (frameOf (s.ram s.dir i)) k).trans (if_pos ⟨rfl, rfl⟩)
  -- the entry written was absent, so it is none of the tables
  have hkept : ∀ j, Present (s.ram s.dir j) →
      (s.setWord (frameOf (s.ram s.dir i)) k entry).ram s.dir j = s.ram s.dir j :=
    fun j hj => setWord_present habsent hj entry
  have hpage := page_entry (t := s.setWord (frameOf (s.ram s.dir i)) k entry) htable rfl (hkept i htable.1) hself
  constructor
  · intro hu
    constructor
    · have hmapped := hu.mapped
      rw [hpage, through_some] at hmapped
      exact hmapped.2.2.1
    · intro j ⟨hj, hjtable, hframe⟩
      by_contra hne
      have hother := hu.others j hj k hk fun hc => hne hc.1
      rw [page_table hjtable, hframe, through_none.mpr habsent, page_entry hjtable hframe (hkept j hjtable.1) hself,
        through_none] at hother
      exact hother hentry.table.1
    · intro hdir w hw hpresent
      rw [hdir] at habsent hself hword hu
      have hlast : k ≠ 1023 := fun he => habsent (he ▸ h.present)
      have hki : k ≠ i := fun he => habsent (he ▸ htable.1)
      have hother := hu.others k (by omega) w hw fun hc => hki hc.1
      rw [page_absent habsent, page_entry hentry.table hentry.frame hself rfl, through_none, hword] at hother
      split at hother
      · exact hother hentry.table.1
      · exact hother hpresent
  · intro hready
    constructor
    · rw [hpage, through_some]
      exact ⟨hentry.table.1, hentry.frame, hready.grants, hentry.writable, hentry.user⟩
    · intro j hj l hl hne
      by_cases hnew : s.dir = frameOf (s.ram s.dir i) ∧ j = k
      · -- a new table, which shows nothing
        obtain ⟨hdir, rfl⟩ := hnew
        have hblank := hready.blank hdir.symm
        have hf : f ≠ s.dir := fun he => hblank 1023 (by omega) (he ▸ h.present)
        rw [← hdir] at habsent hself hword ⊢
        rw [page_absent habsent, page_entry hentry.table hentry.frame hself rfl, through_none, hword,
          if_neg fun hc => hf hc.1]
        exact hblank l hl
      · refine page_congr ((hword s.dir j).trans (if_neg hnew)) fun hjtable => ?_
        rw [hword, if_neg]
        intro ⟨hframe, hlk⟩
        exact hne ⟨hready.once j ⟨hj, hjtable, hframe⟩, hlk⟩

end Table

/-! ### A new table -/

/-- Frame `T` becomes the table of directory entry `i`: it is a frame, and neither it nor
another table is the directory. But for the first word, which is cleared, it has no entry
present but that of the page, and that one is right. Where directory entries show the frame
already, they show what they will. -/
structure FrameReady (s : VMM) (k f T : Nat) : Prop where
  null : T ≠ 0
  directory : T ≠ s.dir
  apart : ∀ j, ¬s.Uses (.table j) s.dir
  clean : ∀ w < 1024, w ≠ 0 → w ≠ k → ¬Present (s.ram T w)
  own : k ≠ 0 → Present (s.ram T k) → frameOf (s.ram T k) = f ∧ Writable (s.ram T k) ∧ User (s.ram T k)
  first : k = 0 → ∀ j, s.Uses (.table j) T → Present (s.ram T 0) ∧ frameOf (s.ram T 0) = f ∧
    (Writable (s.ram s.dir j) → Writable (s.ram T 0)) ∧ (User (s.ram s.dir j) → User (s.ram T 0))
  later : k ≠ 0 → ∀ j, s.Uses (.table j) T → Present (s.ram T k) ∧ ¬Present (s.ram T 0)

/-- What the writes of `mapPage` leave: the new table's entry, and its words. -/
structure NewTable (s t : VMM) (i k T : Nat) (pde pte : u32) : Prop where
  dir : t.dir = s.dir
  entries : ∀ j, t.ram s.dir j = if j = i then pde else s.ram s.dir j
  words : ∀ w, t.ram T w = if w = k ∧ ¬Present (cleared s T k) then pte else cleared s T w
  others : ∀ g w, g ≠ s.dir → g ≠ T → t.ram g w = s.ram g w

section NewTable
variable {s t : VMM} {i k f T : Nat} {pde pte : u32}

theorem not_present_zero : ¬Present 0 := by decide

/-- The entry of the page itself. -/
theorem NewTable.own (h : NewTable s t i k T pde pte) (hpte : EntryOf pte f) :
    Present (t.ram T k) ∧ ((k ≠ 0 → ¬Present (s.ram T k)) → t.ram T k = pte) := by
  have hword := h.words k
  by_cases hpresent : Present (cleared s T k)
  · rw [if_neg fun hc => hc.2 hpresent] at hword
    rw [hword]
    refine ⟨hpresent, fun hold => ?_⟩
    unfold cleared at hpresent
    split at hpresent
    · exact absurd hpresent not_present_zero
    · rename_i hk
      exact absurd hpresent (hold hk)
  · rw [if_pos ⟨rfl, hpresent⟩] at hword
    rw [hword]
    exact ⟨hpte.table.1, fun _ => rfl⟩

theorem NewTable.other (h : NewTable s t i k T pde pte) {w : Nat} (hw : w ≠ k) :
    t.ram T w = if w = 0 then 0 else s.ram T w := by
  rw [h.words, if_neg fun hc => hw hc.1, cleared]

theorem NewTable.entry (h : NewTable s t i k T pde pte) {j : Nat} (hj : j ≠ i) :
    t.ram t.dir j = s.ram s.dir j := by
  rw [h.dir, h.entries, if_neg hj]

/-- Page `l` of the new table. -/
theorem NewTable.page (h : NewTable s t i k T pde pte) (hpde : EntryOf pde T) (l : Nat) :
    t.page i l = through pde (t.ram T l) :=
  page_entry hpde.table hpde.frame (by rw [h.dir, h.entries, if_pos rfl]) rfl

theorem NewTable.updated (h : NewTable s t i k T pde pte) (habsent : ¬Present (s.ram s.dir i)) (hpde : EntryOf pde T)
    (hpte : EntryOf pte f) (hready : s.FrameReady k f T) : Updated s t i k ⟨f, true, true⟩ := by
  obtain ⟨hpresent, hwritten⟩ := h.own hpte
  constructor
  · rw [h.page hpde, through_some]
    refine ⟨hpresent, ?_⟩
    by_cases hold : k ≠ 0 ∧ Present (s.ram T k)
    · obtain ⟨hk, hold⟩ := hold
      have hword := h.words k
      rw [cleared, if_neg hk, if_neg fun hc => hc.2 hold] at hword
      rw [hword]
      obtain ⟨hframe, hflags⟩ := hready.own hk hold
      exact ⟨hframe, ⟨hpde.writable, hpde.user⟩, hflags⟩
    · rw [hwritten fun hk hc => hold ⟨hk, hc⟩]
      exact ⟨hpte.frame, ⟨hpde.writable, hpde.user⟩, hpte.writable, hpte.user⟩
  · intro j hj l hl hne
    by_cases hji : j = i
    · -- the rest of the new table is blank
      have hlk : l ≠ k := fun hlk => hne ⟨hji, hlk⟩
      rw [hji, page_absent habsent, h.page hpde, through_none, h.other hlk]
      split
      · exact not_present_zero
      · rename_i hl0
        exact hready.clean l hl hl0 hlk
    · have hdir := h.entry hji
      by_cases htable : s.Uses (.table j) T
      · -- the frame is a table already
        rw [page_table htable.2.1, htable.2.2, page_entry htable.2.1 htable.2.2 hdir rfl]
        by_cases hk : k = 0
        · by_cases hl0 : l = 0
          · have hentry := hwritten fun hc => absurd hk hc
            rw [hk] at hentry
            rw [hl0, hentry]
            exact (through_entryOf hpte).mpr (hready.first hk j htable)
          · rw [h.other (by omega), if_neg hl0]
        · obtain ⟨hold, hzero⟩ := hready.later hk j htable
          by_cases hlk : l = k
          · rw [hlk, h.words, cleared, if_neg hk, if_neg fun hc => hc.2 hold]
          · rw [h.other hlk]
            split
            · rename_i hl0
              rw [hl0, through_none.mpr hzero, through_none.mpr not_present_zero]
            · rfl
      · refine page_congr hdir fun hjtable => h.others _ _ ?_ ?_
        · exact fun hframe => hready.apart j ⟨hj, hjtable, hframe⟩
        · exact fun hframe => htable ⟨hj, hjtable, hframe⟩

/-- What another directory entry shows of the new table stays. -/
theorem NewTable.shown (h : NewTable s t i k T pde pte) (habsent : ¬Present (s.ram s.dir i)) {m : Mapped}
    (hu : Updated s t i k m) {j l g : Nat} (hj : s.Uses (.table j) g) (hl : l < 1024) :
    through (s.ram s.dir j) (t.ram g l) = through (s.ram s.dir j) (s.ram g l) := by
  obtain ⟨hj, htable, hframe⟩ := hj
  have hji : j ≠ i := fun hji => habsent (hji ▸ htable.1)
  have hother := hu.others j hj l hl fun hc => hji hc.1
  rw [page_table htable, hframe, page_entry htable hframe (h.entry hji) rfl] at hother
  exact hother

theorem NewTable.ready (h : NewTable s t i k T pde pte) (hi : i < 1023) (hk : k < 1024)
    (habsent : ¬Present (s.ram s.dir i)) (hpde : EntryOf pde T) (hpte : EntryOf pte f) (hnull : T ≠ 0)
    (hdir : T ≠ s.dir) (hu : Updated s t i k ⟨f, true, true⟩) : s.FrameReady k f T := by
  obtain ⟨hpresent, hwritten⟩ := h.own hpte
  constructor
  · exact hnull
  · exact hdir
  · intro j hj
    have hsame := h.shown habsent hu hj (show i < 1024 by omega)
    rw [h.entries, if_pos rfl, through_none.mpr habsent, through_none] at hsame
    exact hsame hpde.table.1
  · intro w hw hw0 hwk hold
    have hother := hu.others i hi w hw fun hc => hwk hc.2
    rw [page_absent habsent, h.page hpde, through_none, h.other hwk, if_neg hw0] at hother
    exact hother hold
  · intro hk0 hold
    have hmapped := hu.mapped
    have hword := h.words k
    rw [cleared, if_neg hk0, if_neg fun hc => hc.2 hold] at hword
    rw [h.page hpde, hword, through_some] at hmapped
    exact ⟨hmapped.2.1, hmapped.2.2.2⟩
  · intro hk0 j hj
    have hsame := h.shown habsent hu hj (show 0 < 1024 by omega)
    have hentry := hwritten fun hc => absurd hk0 hc
    rw [hk0] at hentry
    rw [hentry] at hsame
    exact (through_entryOf hpte).mp hsame
  · intro hk0 j hj
    constructor
    · by_contra hold
      have hsame := h.shown habsent hu hj hk
      rw [hwritten fun _ => hold, through_none.mpr hold, through_none] at hsame
      exact hsame hpte.table.1
    · have hsame := h.shown habsent hu hj (show 0 < 1024 by omega)
      rw [h.other (Ne.symm hk0), if_pos rfl, through_none.mpr not_present_zero, eq_comm, through_none] at hsame
      exact hsame

/-- The directory as its own new table shows more than one page. -/
theorem not_updated_directory (hi : i < 1023) (habsent : ¬Present (s.ram s.dir i)) (htdir : t.dir = s.dir)
    (hpde : EntryOf pde s.dir) (hentry : t.ram s.dir i = pde) (hlast : Present (t.ram s.dir 1023)) {m : Mapped} :
    ¬Updated s t i k m := by
  intro hu
  have hshown : ∀ l < 1024, Present (t.ram s.dir l) → l = k := by
    intro l hl hpresent
    by_contra hlk
    have hother := hu.others i hi l hl fun hc => hlk hc.2
    rw [page_absent habsent, page_entry hpde.table hpde.frame (by rw [htdir, hentry]) rfl, through_none] at hother
    exact hother hpresent
  have hself := hshown i (by omega) (hentry ▸ hpde.table.1)
  have hwindow := hshown 1023 (by omega) hlast
  omega

end NewTable

/-! ### The code -/

section MapPage
variable {s : VMM} {phys virt : Addr} {T : Nat}

theorem placed_present {k l : Nat} (h : Present (s.ram T l)) : (placed s T k phys).ram T l = s.ram T l := by
  unfold placed
  split
  · rfl
  · rename_i habsent
    exact setWord_present habsent h _

@[simp] theorem placed_dir (s : VMM) (T k : Nat) (phys : Addr) : (placed s T k phys).dir = s.dir := by
  unfold placed
  split <;> rfl

/-- A frame that is not the directory, as a table with the page entered. -/
theorem newTable_placed (virt phys : Addr) (hT : T < 2 ^ 20) (hdir : T ≠ s.dir) :
    NewTable s (placed (s.tabledWith virt T) T (PAGE_TABLE_INDEX virt).toNat phys) (PAGE_DIRECTORY_INDEX virt).toNat
      (PAGE_TABLE_INDEX virt).toNat T (entryFor (BitVec.ofNat 32 (T * 4096))) (entryFor phys) := by
  obtain ⟨_, _, hframe⟩ := entryFor_spec hT
  have hne : frameOf (entryFor (BitVec.ofNat 32 (T * 4096))) ≠ s.took.dir := by rwa [hframe]
  have hentries : ∀ j, (s.tabledWith virt T).ram s.dir j =
      if j = (PAGE_DIRECTORY_INDEX virt).toNat then entryFor (BitVec.ofNat 32 (T * 4096)) else s.ram s.dir j :=
    Exclusive.withTable_dir hne
  have hwords : ∀ g w, g ≠ s.dir → (s.tabledWith virt T).ram g w = if g = T ∧ w = 0 then 0 else s.ram g w := by
    intro g w hg
    have hword : (s.tabledWith virt T).ram g w = _ := Exclusive.withTable_frame hg w
    rw [hword, hframe]
  have hcleared : ∀ w, (s.tabledWith virt T).ram T w = cleared s T w := by
    intro w
    rw [hwords T w hdir, cleared]
    simp only [true_and]
  have hother : ∀ g w, g ≠ T → (placed (s.tabledWith virt T) T (PAGE_TABLE_INDEX virt).toNat phys).ram g w =
      (s.tabledWith virt T).ram g w := by
    intro g w hg
    unfold placed
    split
    · rfl
    · rw [setWord_ram, if_neg fun hc => hg hc.1]
  constructor
  · rw [placed_dir]
    rfl
  · intro j
    rw [hother _ _ (Ne.symm hdir), hentries]
  · intro w
    unfold placed
    rw [hcleared]
    by_cases hpresent : Present (cleared s T (PAGE_TABLE_INDEX virt).toNat)
    · rw [if_pos hpresent, if_neg fun hc => hc.2 hpresent, hcleared]
    · rw [if_neg hpresent, setWord_ram, hcleared]
      simp only [hpresent, true_and, not_false_eq_true, and_true]
  · intro g w hg hgT
    rw [hother g w hgT, hwords g w hg, if_neg fun hc => hgT hc.1]

theorem Recursive.mapEntry_missing (h : s.Recursive)
    (habsent : ¬Present (s.ram s.dir (PAGE_DIRECTORY_INDEX virt).toNat)) : s.mapEntry phys virt = none := by
  have htranslate := h.translate_tableEntry (dirIndex_lt virt) (tableIndex_lt virt)
  rw [if_neg habsent] at htranslate
  simp only [VMM.mapEntry, VMM.read, htranslate, Option.map_none, Option.bind_none]

/-- With the directory as the new table, the first word cleared is the directory's. -/
theorem Recursive.mapEntry_directory (h : s.Recursive) {t : VMM} (hv : Outside virt) (hT : s.dir < 2 ^ 20)
    (ht : (s.tabledWith virt s.dir).mapEntry phys virt = some t) :
    t.dir = s.dir ∧ t.ram s.dir (PAGE_DIRECTORY_INDEX virt).toNat = entryFor (BitVec.ofNat 32 (s.dir * 4096)) ∧
      Present (t.ram s.dir 1023) := by
  have hi := hv.index.1
  have hrecursive := h.tabledWith (T := s.dir) hi
  obtain ⟨hpresent, _, hframe⟩ := entryFor_spec hT
  have hword : ∀ j, (s.tabledWith virt s.dir).ram s.dir j = if j = 0 then 0
      else if j = (PAGE_DIRECTORY_INDEX virt).toNat then entryFor (BitVec.ofNat 32 (s.dir * 4096))
      else s.ram s.dir j := by
    intro j
    rw [VMM.tabledWith, Exclusive.withTable, hframe, setWord_ram, setWord_ram]
    simp only [took_ram, took_dir, true_and]
  have hself := hword (PAGE_DIRECTORY_INDEX virt).toNat
  by_cases hzero : (PAGE_DIRECTORY_INDEX virt).toNat = 0
  · -- the entry itself was cleared: its table faults
    rw [if_pos hzero] at hself
    have habsent : ¬Present ((s.tabledWith virt s.dir).ram (s.tabledWith virt s.dir).dir
        (PAGE_DIRECTORY_INDEX virt).toNat) := by
      show ¬Present ((s.tabledWith virt s.dir).ram s.dir _)
      rw [hself]
      exact not_present_zero
    rw [hrecursive.mapEntry_missing habsent] at ht
    cases ht
  · rw [if_neg hzero, if_pos rfl] at hself
    have htable : (s.tabledWith virt s.dir).tableOf (PAGE_DIRECTORY_INDEX virt).toNat = some s.dir := by
      rw [tableOf_some]
      show Present ((s.tabledWith virt s.dir).ram s.dir _) ∧ frameOf ((s.tabledWith virt s.dir).ram s.dir _) = s.dir
      rw [hself]
      exact ⟨hpresent, hframe⟩
    rw [hrecursive.mapEntry htable] at ht
    obtain rfl := Option.some.inj ht
    have hlast : (s.tabledWith virt s.dir).ram s.dir 1023 = s.ram s.dir 1023 := tabledWith_last hi
    refine ⟨by rw [placed_dir]; rfl, ?_, ?_⟩
    · rw [placed_present (hself ▸ hpresent), hself]
    · rw [placed_present (hlast ▸ h.present), hlast]
      exact h.present

/-! ### When one translation changes -/

/-- The table of the page is there and is ready for it, or the first free frame is. The frame
of a block is a 32-bit address's. -/
def Mappable (s : VMM) (phys virt : Addr) : Prop :=
  if Present (s.ram s.dir (PAGE_DIRECTORY_INDEX virt).toNat) then
    s.TableReady (PAGE_DIRECTORY_INDEX virt).toNat (frameAt phys)
  else ∃ f, s.pmm.frees.head? = some f ∧
    s.FrameReady (PAGE_TABLE_INDEX virt).toNat (frameAt phys) (f % 2 ^ 20)

/-- `mapPage` changes the one translation. -/
def MapsOne (s : VMM) (phys virt : Addr) : Prop := ∃ t, s.mapPage phys virt = some t ∧ MapsOnly s t phys virt

theorem entryFor_aligned (hphys : phys.toNat % 4096 = 0) : EntryOf (entryFor phys) (frameAt phys) := by
  have hentry := entryFor_entryOf (frameAt_lt phys)
  rwa [address_of_aligned hphys] at hentry

theorem Recursive.mapsOne_table (h : s.Recursive) (hphys : phys.toNat % 4096 = 0) (hv : Outside virt)
    (hunmapped : s.page (PAGE_DIRECTORY_INDEX virt).toNat (PAGE_TABLE_INDEX virt).toNat = none)
    (hpresent : Present (s.ram s.dir (PAGE_DIRECTORY_INDEX virt).toNat)) :
    s.MapsOne phys virt ↔ s.TableReady (PAGE_DIRECTORY_INDEX virt).toNat (frameAt phys) := by
  obtain ⟨hsmall, habsent⟩ := page_none.mp hunmapped hpresent
  have hmap : s.mapPage phys virt = _ := h.mapPage_table hv (tableOf_some.mpr ⟨hpresent, rfl⟩)
  rw [placed, if_neg habsent] at hmap
  have hiff := h.updated_iff hv.index.1 (tableIndex_lt virt) ⟨hpresent, hsmall⟩ habsent (entryFor_aligned hphys)
  rw [← hiff, ← mapsOnly_iff hphys hv.1, MapsOne, hmap]
  simp

/-- A page that is still unmapped is not mapped. -/
theorem not_mapsOne (hphys : phys.toNat % 4096 = 0) (hv : Outside virt) {t : VMM} (hmap : s.mapPage phys virt = some t)
    (hnone : t.page (PAGE_DIRECTORY_INDEX virt).toNat (PAGE_TABLE_INDEX virt).toNat = none) : ¬s.MapsOne phys virt := by
  intro ⟨t', ht', hmaps⟩
  obtain rfl := Option.some.inj (hmap.symm.trans ht')
  have hmapped := ((mapsOnly_iff hphys hv.1).mp hmaps).mapped
  rw [hnone] at hmapped
  cases hmapped

theorem Recursive.not_mapsOne_directory (h : s.Recursive) (hphys : phys.toNat % 4096 = 0) (hv : Outside virt)
    (habsent : ¬Present (s.ram s.dir (PAGE_DIRECTORY_INDEX virt).toNat)) (hT : s.dir < 2 ^ 20)
    (hmap : s.mapPage phys virt = (s.tabledWith virt s.dir).mapEntry phys virt) : ¬s.MapsOne phys virt := by
  intro ⟨t, ht, hmaps⟩
  obtain ⟨htdir, hentry, hlast⟩ := h.mapEntry_directory hv hT (hmap.symm.trans ht)
  exact not_updated_directory hv.index.1 habsent htdir (entryFor_entryOf hT) hentry hlast
    ((mapsOnly_iff hphys hv.1).mp hmaps)

/-- The frame of a new table that is not the directory has to be ready. -/
theorem Recursive.mapsOne_newTable (h : s.Recursive) (hphys : phys.toNat % 4096 = 0) (hv : Outside virt)
    (habsent : ¬Present (s.ram s.dir (PAGE_DIRECTORY_INDEX virt).toNat)) (hT : T < 2 ^ 20) (hnull : T ≠ 0)
    (hdir : T ≠ s.dir) (hmap : s.mapPage phys virt = (s.tabledWith virt T).mapEntry phys virt) :
    s.MapsOne phys virt ↔ s.FrameReady (PAGE_TABLE_INDEX virt).toNat (frameAt phys) T := by
  have hi := hv.index.1
  have hpde := entryFor_entryOf hT
  have hpte := entryFor_aligned hphys
  have hnew := newTable_placed (s := s) virt phys hT hdir
  have htable : (s.tabledWith virt T).tableOf (PAGE_DIRECTORY_INDEX virt).toNat = some T :=
    tableOf_withTable hpde.table.1 hpde.frame hdir
  rw [(h.tabledWith hi).mapEntry htable] at hmap
  constructor
  · intro ⟨t, ht, hmaps⟩
    obtain rfl := Option.some.inj (hmap.symm.trans ht)
    exact hnew.ready hi (tableIndex_lt virt) habsent hpde hpte hnull hdir ((mapsOnly_iff hphys hv.1).mp hmaps)
  · intro hready
    exact ⟨_, hmap, (mapsOnly_iff hphys hv.1).mpr (hnew.updated habsent hpde hpte hready)⟩

theorem Recursive.mapsOne_frame (h : s.Recursive) (hphys : phys.toNat % 4096 = 0) (hv : Outside virt)
    (habsent : ¬Present (s.ram s.dir (PAGE_DIRECTORY_INDEX virt).toNat)) :
    s.MapsOne phys virt ↔ ∃ f, s.pmm.frees.head? = some f ∧
      s.FrameReady (PAGE_TABLE_INDEX virt).toNat (frameAt phys) (f % 2 ^ 20) := by
  cases hfree : s.pmm.frees with
  | nil =>
    have hmap : s.mapPage phys virt = _ := h.mapPage_exhausted hv (tableOf_none.mpr habsent) hfree
    exact iff_of_false (not_mapsOne hphys hv hmap (page_absent habsent)) (by simp)
  | cons f free =>
    have hmap : s.mapPage phys virt = _ := h.mapPage_frame hv habsent hfree
    have hlt : f % 2 ^ 20 < 2 ^ 20 := Nat.mod_lt _ (by decide)
    simp only [List.head?_cons, Option.some.injEq, exists_eq_left']
    by_cases hnull : f % 2 ^ 20 = 0
    · rw [if_pos hnull] at hmap
      have hstill : s.took.page (PAGE_DIRECTORY_INDEX virt).toNat (PAGE_TABLE_INDEX virt).toNat = none :=
        page_absent habsent
      exact iff_of_false (not_mapsOne hphys hv hmap hstill) fun hready => hready.null hnull
    · rw [if_neg hnull] at hmap
      by_cases hdir : f % 2 ^ 20 = s.dir
      · rw [hdir] at hlt hmap ⊢
        exact iff_of_false (h.not_mapsOne_directory hphys hv habsent hlt hmap) fun hready => hready.directory rfl
      · exact h.mapsOne_newTable hphys hv habsent hlt hnull hdir hmap

/-- **`mapPage` changes one translation exactly where the table is ready for the page.** The
page is unmapped, outside the kernel's and outside the window. -/
theorem maps_only_iff (h : s.Recursive) (hphys : phys.toNat % 4096 = 0) (hv : Outside virt)
    (hunmapped : s.translation virt = none) : s.MapsOne phys virt ↔ s.Mappable phys virt := by
  have hpage : s.page (PAGE_DIRECTORY_INDEX virt).toNat (PAGE_TABLE_INDEX virt).toNat = none :=
    Option.map_eq_none_iff.mp hunmapped
  rw [Mappable]
  split
  · rename_i hpresent
    exact h.mapsOne_table hphys hv hpage hpresent
  · rename_i habsent
    exact h.mapsOne_frame hphys hv habsent

/-- After the boot, a page and its table, in a frame that held zeros. -/
theorem maps_only_iff_booted : (booted fun _ _ => 0).MapsOne 0x500000 0x400000 := by
  have htabled := booted_tabled fun _ _ => 0
  have hfree : (booted fun _ _ => 0).pmm.frees.head? = some 1024 := by decide +kernel
  have hunused : ∀ j, ¬(booted fun _ _ => 0).Uses (.table j) 1024 := by
    intro j
    exact htabled.unused (PMM.frees_clear (List.mem_of_mem_head? hfree)) trivial
  apply (maps_only_iff htabled.recursive (by decide) (by decide) (by decide)).mpr
  rw [Mappable, if_neg (by decide)]
  refine ⟨1024, hfree, by decide, by decide, ?_, ?_, ?_, ?_, ?_⟩
  · exact fun j hj => htabled.ne_dir hj rfl
  · intro w _ _ _
    simp [booted, Present]
  · exact fun hk => absurd rfl hk
  · exact fun _ j hj => absurd hj (hunused j)
  · exact fun _ j hj => absurd hj (hunused j)

/-- The machine after the boot; the first free frame holds an entry. -/
def staleFrame : VMM := booted fun f w => if f = 1024 ∧ w = 1 then 0x700007 else 0

/-- A page of a new table that was not mapped is mapped now, to what the frame held. -/
theorem neighbour_mapped :
    (staleFrame.Recursive ∧ (∃ f < staleFrame.pmm.maxBlocks.toNat, staleFrame.pmm.bit f = false) ∧
      Outside 0x400000 ∧ staleFrame.translation 0x400000 = none) ∧ ¬staleFrame.MapsOne 0x500000 0x400000 := by
  have hrecursive := (booted_tabled fun f w => if f = 1024 ∧ w = 1 then 0x700007 else 0).recursive
  have hfree : staleFrame.pmm.frees.head? = some 1024 := by decide +kernel
  have hclear := PMM.frees_clear (List.mem_of_mem_head? hfree)
  refine ⟨⟨hrecursive, ⟨1024, by decide, hclear⟩, by decide, by decide⟩, fun hmaps => ?_⟩
  have hframe : staleFrame.MapsOne 0x500000 0x400000 ↔ _ :=
    Recursive.mapsOne_frame hrecursive (by decide) (by decide) (by decide)
  obtain ⟨f, hf, hready⟩ := hframe.mp hmaps
  obtain rfl := Option.some.inj (hfree.symm.trans hf)
  exact hready.clean 1 (by omega) (by omega) (by decide) (by decide)

end MapPage

end VMM

end UntitledOS.Memory
