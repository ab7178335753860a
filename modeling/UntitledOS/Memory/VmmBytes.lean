import UntitledOS.Memory.VmmWhole
import UntitledOS.Memory.VmmTranslate
import UntitledOS.Lib.Fields

/-! Bytes of mapped pages.

A load or store of a byte goes to a byte of a word of a frame. While frames are
mapped exclusively two addresses meet in one byte only if they are the same
(`Exclusive.byte_inj`), a store to a page changes no entry (`Exclusive.store`), and an
allocation changes no page that is there (`Exclusive.allocPage_pages`). -/
namespace UntitledOS.Memory
open Lib

namespace VMM

/-- The load of a byte, or a page fault. -/
def readByte (v : Addr) (s : VMM) : Option u8 :=
  (s.translate v).map fun a => Fields.byte (v.toNat % 4) (s.ram a.1 a.2)

/-- The store of a byte, or a page fault. -/
def writeByte (v : Addr) (x : u8) (s : VMM) : Option VMM :=
  (s.translate v).map fun a => s.setWord a.1 a.2 (Fields.setByte (v.toNat % 4) x (s.ram a.1 a.2))

/-- The page of an address. -/
def pageOf (v : Addr) : Addr := BitVec.ofNat 32 (v.toNat / 4096 * 4096)

theorem pageOf_toNat (v : Addr) : (pageOf v).toNat = v.toNat / 4096 * 4096 := by
  have := v.isLt
  rw [pageOf, BitVec.toNat_ofNat, Nat.mod_eq_of_lt (by omega)]

/-- The bytes of a page are mapped together. -/
theorem translate_offset (s : VMM) (v : Addr) :
    s.translate v = (s.translate (pageOf v)).map fun a => (a.1, v.toNat % 4096 / 4) := by
  have hdir : PAGE_DIRECTORY_INDEX (pageOf v) = PAGE_DIRECTORY_INDEX v := by
    apply BitVec.eq_of_toNat_eq
    rw [dirIndex_toNat, dirIndex_toNat, pageOf_toNat]
    omega
  have htable : PAGE_TABLE_INDEX (pageOf v) = PAGE_TABLE_INDEX v := by
    apply BitVec.eq_of_toNat_eq
    rw [tableIndex_toNat, tableIndex_toNat, pageOf_toNat]
    omega
  rw [translate_page, translate_page, hdir, htable, Option.map_map, word_toNat]
  rfl

/-! ### Pages in use -/

section Pages
variable {s : VMM} {i k f : Nat}

/-- The page is mapped to the frame. -/
def Backs (s : VMM) (page : Addr) (f : Nat) : Prop :=
  Outside page ∧ ∃ entry, s.entryOf page = some entry ∧ Present entry ∧ frameOf entry = f

theorem Backs.translate {page : Addr} (h : s.Tabled) (hpage : s.Backs page f) : s.translate page = some (f, 0) := by
  obtain ⟨hout, entry, hentry, hpresent, rfl⟩ := hpage
  exact h.translate_entry hout hentry hpresent

/-- A mapped page is a use of its frame. -/
theorem Backs.uses {page : Addr} (h : s.Tabled) (hpage : s.Backs page f) :
    s.Uses (.page (PAGE_DIRECTORY_INDEX page).toNat (PAGE_TABLE_INDEX page).toNat) f := by
  obtain ⟨hout, entry, hentry, hpresent, hframe⟩ := hpage
  obtain ⟨T, htable, rfl⟩ := Option.map_eq_some_iff.mp hentry
  obtain ⟨hthere, rfl⟩ := tableOf_some.mp htable
  exact ⟨⟨hout.index.1, hthere, h.plain _ hout.index.1 hout.index.2 hthere⟩, tableIndex_lt page, hpresent, hframe⟩

/-- Pages mapped to one frame are one page. -/
theorem Exclusive.backs_inj (h : s.Exclusive) (hs : s.Tabled) {p q : Addr} (hp : s.Backs p f) (hq : s.Backs q f) :
    p = q := by
  have hsame := h.once _ _ f (hp.uses hs) (hq.uses hs)
  injection hsame with hdir htable
  exact hp.1.eq hq.1 hdir htable

/-- A frame mapped as a page holds no entries. -/
theorem Exclusive.page_inner (h : s.Exclusive) (hf : s.Uses (.page i k) f) {u : Use} (hu : u.Inner) : ¬s.Uses u f := by
  intro huse
  cases h.once _ _ f huse hf
  exact hu

/-- Words of a page are no words of the directory or of a table. -/
theorem Exclusive.entries_setWord (h : s.Exclusive) (hf : s.Uses (.page i k) f) (w : Nat) (x : u32) :
    (∀ j, (s.setWord f w x).ram s.dir j = s.ram s.dir j) ∧
      ∀ j < 1023, IsTable (s.ram s.dir j) → ∀ l,
        (s.setWord f w x).ram (frameOf (s.ram s.dir j)) l = s.ram (frameOf (s.ram s.dir j)) l := by
  constructor
  · intro j
    rw [setWord_ram, if_neg fun hc => h.page_inner hf (u := .directory) trivial hc.1.symm]
  · intro j hj htable l
    rw [setWord_ram, if_neg fun hc => h.page_inner hf (u := .table j) trivial ⟨hj, htable, hc.1⟩]

theorem Exclusive.uses_store (h : s.Exclusive) (hf : s.Uses (.page i k) f) (w : Nat) (x : u32) (u : Use) (g : Nat) :
    (s.setWord f w x).Uses u g ↔ s.Uses u g := by
  obtain ⟨hdir, htables⟩ := h.entries_setWord hf w x
  cases u with
  | directory => rfl
  | table j => simp only [Uses, setWord_dir, hdir]
  | page j l =>
    simp only [Uses, setWord_dir, hdir]
    constructor
    · rintro ⟨⟨hj, htable⟩, hrest⟩
      rw [htables j hj htable] at hrest
      exact ⟨⟨hj, htable⟩, hrest⟩
    · rintro ⟨⟨hj, htable⟩, hrest⟩
      rw [← htables j hj htable] at hrest
      exact ⟨⟨hj, htable⟩, hrest⟩

/-- A store to a page keeps frames exclusive. -/
theorem Exclusive.store (h : s.Exclusive) (hf : s.Uses (.page i k) f) (w : Nat) (x : u32) :
    (s.setWord f w x).Exclusive := by
  have hdir := (h.entries_setWord hf w x).1
  have huses := h.uses_store hf w x
  constructor
  · constructor
    · rw [setWord_dir, hdir]
      exact h.recursive.present
    · rw [setWord_dir, hdir]
      exact h.recursive.small
    · rw [setWord_dir, hdir]
      exact h.recursive.self
  · intro j hj hkernel hpresent
    rw [setWord_dir, hdir] at hpresent ⊢
    exact h.plain j hj hkernel hpresent
  · intro u v g hu hv
    exact h.once u v g ((huses u g).mp hu) ((huses v g).mp hv)
  · intro u g hu
    exact h.taken u g ((huses u g).mp hu)
  · exact h.size

/-- A store to a page leaves every entry as it is. -/
theorem Exclusive.entryOf_store (h : s.Exclusive) (hf : s.Uses (.page i k) f) (w : Nat) (x : u32) :
    (∀ j, (s.setWord f w x).tableOf j = s.tableOf j) ∧
      ∀ {page : Addr}, Outside page → (s.setWord f w x).entryOf page = s.entryOf page := by
  obtain ⟨hdir, htables⟩ := h.entries_setWord hf w x
  have htableOf : ∀ j, (s.setWord f w x).tableOf j = s.tableOf j := by
    intro j
    simp only [tableOf, setWord_dir, hdir]
  refine ⟨htableOf, fun {page} hout => ?_⟩
  rw [entryOf, entryOf, htableOf]
  cases htable : s.tableOf (PAGE_DIRECTORY_INDEX page).toNat with
  | none => rfl
  | some T =>
    obtain ⟨hthere, rfl⟩ := tableOf_some.mp htable
    have hplain := h.plain _ hout.index.1 hout.index.2 hthere
    rw [Option.map_some, Option.map_some, htables _ hout.index.1 ⟨hthere, hplain⟩]

/-- An allocation leaves the pages that are there as they are. -/
theorem Exclusive.allocPage_pages (h : s.Exclusive) (hs : s.Tabled) {t : VMM} {v : Addr} (hv : Outside v)
    (ht : s.allocPage v = some (t, v)) (hf : s.Uses (.page i k) f) (w : Nat) : t.ram f w = s.ram f w := by
  have hdir : f ≠ s.dir := fun hdir => h.page_inner hf (u := .directory) trivial hdir
  cases htable : s.tableOf (PAGE_DIRECTORY_INDEX v).toNat with
  | some T =>
    rw [hs.allocPage_table hv htable] at ht
    obtain rfl := congrArg Prod.fst (Option.some.inj ht)
    have hT : f ≠ T := fun he => h.page_inner hf (u := .table _) trivial (he ▸ hs.table hv.index.1 hv.index.2 htable)
    dsimp only [placed]
    split
    · rfl
    · rw [setWord_ram, if_neg fun hc => hT hc.1]
      rfl
  | none =>
    cases hfree : s.pmm.frees.tail with
    | nil =>
      rw [hs.allocPage_exhausted hv htable hfree] at ht
      obtain rfl := congrArg Prod.fst (Option.some.inj ht)
      rfl
    | cons T free =>
      rw [hs.allocPage_new hv htable hfree] at ht
      obtain rfl := congrArg Prod.fst (Option.some.inj ht)
      -- the new table was free, the page's frame is taken
      have hT : f ≠ T := by
        rintro rfl
        have hmem : f ∈ s.pmm.frees := List.mem_of_mem_tail (hfree ▸ List.mem_cons_self ..)
        have hclear := PMM.frees_clear hmem
        rw [h.taken _ f hf] at hclear
        cases hclear
      have hold := hs.took.tabledWith_ram (v := v) ((took_frees s).trans hfree) (f := f) hdir hT
      dsimp only [placed]
      split
      · exact hold w
      · rw [setWord_ram, if_neg fun hc => hT hc.1]
        exact hold w

end Pages

/-! ### Bytes -/

section Bytes
variable {s : VMM} {f : Nat} {v w : Addr}

theorem Backs.translate_byte (h : s.Tabled) (hpage : s.Backs (pageOf v) f) :
    s.translate v = some (f, v.toNat % 4096 / 4) := by
  rw [translate_offset, hpage.translate h]
  rfl

/-- Addresses that meet in a byte are the same. -/
theorem Exclusive.byte_inj (h : s.Exclusive) (hs : s.Tabled) {g : Nat} (hv : s.Backs (pageOf v) f)
    (hw : s.Backs (pageOf w) g) (hsame : s.translate v = s.translate w) (hbyte : v.toNat % 4 = w.toNat % 4) :
    v = w := by
  rw [hv.translate_byte hs, hw.translate_byte hs, Option.some.injEq, Prod.mk.injEq] at hsame
  obtain ⟨rfl, hword⟩ := hsame
  have hpage := congrArg BitVec.toNat (h.backs_inj hs hv hw)
  rw [pageOf_toNat, pageOf_toNat] at hpage
  apply BitVec.eq_of_toNat_eq
  omega

/-- A byte stored is that byte, and no other. -/
theorem Exclusive.readByte_writeByte (h : s.Exclusive) (hs : s.Tabled) (hv : s.Backs (pageOf v) f) (x : u8) :
    ∃ t, s.writeByte v x = some t ∧ t = s.setWord f (v.toNat % 4096 / 4) (Fields.setByte (v.toNat % 4) x
        (s.ram f (v.toNat % 4096 / 4))) ∧
      ∀ {g : Nat} {w : Addr}, s.Backs (pageOf w) g → t.readByte w = if w = v then some x else s.readByte w := by
  have htranslate := hv.translate_byte hs
  refine ⟨_, by rw [writeByte, htranslate]; rfl, rfl, fun {g w} hw => ?_⟩
  have hstore := h.store (hv.uses hs) (v.toNat % 4096 / 4)
    (Fields.setByte (v.toNat % 4) x (s.ram f (v.toNat % 4096 / 4)))
  have hentries := (h.entryOf_store (hv.uses hs) (v.toNat % 4096 / 4)
    (Fields.setByte (v.toNat % 4) x (s.ram f (v.toNat % 4096 / 4)))).2 hw.1
  generalize ht : s.setWord f (v.toNat % 4096 / 4) (Fields.setByte (v.toNat % 4) x (s.ram f (v.toNat % 4096 / 4))) = t
    at hstore hentries ⊢
  have hstill : t.Backs (pageOf w) g := by
    rw [Backs, hentries]
    exact hw
  have htabled : t.Tabled := hstore.tabled (ht ▸ hs.zero)
  rw [readByte, readByte, hstill.translate_byte htabled, hw.translate_byte hs, Option.map_some, Option.map_some, ← ht,
    setWord_ram]
  by_cases hword : g = f ∧ w.toNat % 4096 / 4 = v.toNat % 4096 / 4
  · rw [if_pos hword, Fields.byte_setByte (by omega) (by omega)]
    by_cases hwv : w = v
    · rw [hwv, if_pos rfl, if_pos rfl]
    · have hbyte : w.toNat % 4 ≠ v.toNat % 4 := by
        intro hbyte
        refine hwv (h.byte_inj hs hw hv ?_ hbyte)
        rw [hw.translate_byte hs, htranslate, hword.1, hword.2]
      rw [if_neg hbyte, if_neg hwv, hword.1, hword.2]
  · have hwv : w ≠ v := by
      rintro rfl
      have hsame := hw.translate_byte hs
      rw [htranslate, Option.some.injEq, Prod.mk.injEq] at hsame
      exact hword ⟨hsame.1.symm, rfl⟩
    rw [if_neg hword, if_neg hwv]

end Bytes

end VMM

end UntitledOS.Memory
