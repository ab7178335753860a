import UntitledOS.Filesystem.Fat12RoundTrip
import UntitledOS.Filesystem.Fat12Runs
import UntitledOS.Filesystem.Fat12Lookup

/-! The root directory as a log of files.

A call of `writetest` puts its entry behind those there are and never looks for one of the
same name, and `open` takes the first entry of a name. So what the driver keeps is a log of
names and contents in which the first of a name counts (`Log.get`). While there are slots
and clusters left, every call appends to it (`Shelved.write`), and at the end of any number
of calls a name is read as the log has it or not found (`files_stored`), and the names are
listed in the order of the calls (`files_listed`). -/
namespace UntitledOS.Filesystem
open Lib Y

namespace FAT12

/-- The files that were stored, in this order: the eleven characters of the name, and the content. -/
abbrev Log := List (List u8 × List u8)

/-- What is kept under a name: the first content stored under it. -/
def Log.get (log : Log) (dn : List u8) : Option (List u8) := (log.find? fun file => file.1 = dn).map Prod.snd

/-- The file a call stores. -/
def Call.file (c : Call) : Option (List u8 × List u8) :=
  (dosName c.filename).map fun dn => (dn, (List.range c.len).map c.buffer)

/-- The slots that are not free, which are those that `list` goes through. -/
def used (d : Disk) : List (Nat × Nat) := slots.filter fun slot => slotByte floppy d slot 0 ≠ 0

/-- The ones a name can be found in: not deleted, and without attributes. -/
def visible (d : Disk) : List (Nat × Nat) :=
  (used d).filter fun slot => slotByte floppy d slot 0 ≠ 0xE5 ∧ slotByte floppy d slot 11 = 0

/-- The slot holds the file: its name, its length, and its content on a chain of clusters. -/
structure Stores (d : Disk) (L : File → List Nat) (slot : Nat × Nat) (file : List u8 × List u8) : Prop where
  bears : Bears floppy d file.1 slot
  length : (size (d (19 + slot.1)) slot.2).toNat = file.2.length
  nonempty : L (.inl slot) ≠ []
  content : file.2 <+: (L (.inl slot)).flatMap (clusterBytes d)

/-- The volume keeps the files of the log, and no slot in use has a free one in front. -/
structure Shelved (inner : Nat → Option Nat) (d : Disk) (L : File → List Nat) (log : Log) : Prop where
  wellFormed : WellFormed inner d L
  compact : used d <+: slots
  stored : List.Forall₂ (Stores d L) (visible d) log

/-- What a call does to the root directory and the clusters: one more entry. -/
structure Appends (c : Call) (slot : Nat × Nat) (d d' : Disk) : Prop where
  used : used d' = used d ++ [slot]
  free : free d' = (free d).drop (needed c.len)
  bears : ∀ dn, dosName c.filename = some dn → Bears floppy d' dn slot
  kept : ∀ slot' ∈ FAT12.used d, ∀ k < 32, slotByte floppy d' slot' k = slotByte floppy d slot' k

variable {inner : Nat → Option Nat} {d d' d₀ : Disk} {L L₀ : File → List Nat} {log : Log} {slot : Nat × Nat}
  {dn : List u8}

theorem mem_used : slot ∈ used d ↔ slot ∈ slots ∧ slotByte floppy d slot 0 ≠ 0 := by
  rw [used, List.mem_filter, decide_eq_true_eq]

/-! ### Looking up -/

/-- Two lists whose elements go together, searched for what goes together. -/
theorem find_forall₂ {α β : Type*} {R : α → β → Prop} {p : α → Bool} {q : β → Bool} {xs : List α} {ys : List β}
    (h : List.Forall₂ R xs ys) (hpq : ∀ x y, R x y → p x = q y) :
    xs.find? p = none ∧ ys.find? q = none ∨ ∃ x y, xs.find? p = some x ∧ ys.find? q = some y ∧ R x y := by
  induction h with
  | nil => exact .inl ⟨rfl, rfl⟩
  | @cons x y xs ys hxy _ ih =>
    cases hx : p x with
    | true =>
      exact .inr ⟨x, y, List.find?_cons_of_pos hx, List.find?_cons_of_pos (hpq x y hxy ▸ hx), hxy⟩
    | false =>
      have hy : q y = false := hpq x y hxy ▸ hx
      rw [List.find?_cons_of_neg (by simp [hx]), List.find?_cons_of_neg (by simp [hy])]
      exact ih

/-- A name is found in a visible slot or nowhere. -/
theorem find_visible (hzero : 0 ∉ dn) (hdeleted : dn.head? ≠ some 0xE5) (hlen : dn.length = 11) :
    slots.find? (Bears floppy d dn ·) = (visible d).find? (Bears floppy d dn ·) := by
  rw [visible, used, List.filter_filter, List.find?_filter]
  apply List.find?_congr
  intro slot hslot
  rw [decide_eq_decide]
  constructor
  · intro hbears
    obtain ⟨huse, hattributes⟩ := bears_inUse hzero hdeleted hlen hslot hbears
    simp only [Bool.and_eq_true, decide_eq_true_eq]
    exact ⟨⟨⟨huse.2.2, hattributes⟩, huse.2.1⟩, hbears⟩
  · intro h
    simp only [Bool.and_eq_true, decide_eq_true_eq] at h
    exact h.2

theorem Stores.bears_iff {file : List u8 × List u8} (h : Stores d L slot file) :
    Bears floppy d dn slot ↔ file.1 = dn := by
  rw [Bears, h.bears]
  exact ⟨List.append_cancel_right, congrArg (· ++ [0])⟩

/-- The file in a slot is opened at the start of its chain. -/
theorem Stores.opened {file : List u8 × List u8} (h : Stores d L slot file) (hwf : WellFormed inner d L)
    {name : List u8} (hname : ValidName name) (hdn : dosName name = some dn)
    (hfind : slots.find? (Bears floppy d dn ·) = some slot) (after : Nat → List u8) (stack : Fin 3 → FILE) :
    ∃ f first rest, «open» floppy after stack name d = some f ∧ f.flags = FS_FILE ∧
      f.fileLength.toNat = file.2.length ∧ f.eof = 0 ∧ f.currentCluster.toNat = first ∧
      Chain 0 (next d) first (first :: rest) ∧ L (.inl slot) = first :: rest := by
  obtain ⟨dn', hdn', hlen, hzero, hdeleted⟩ := hname.dosName
  obtain rfl : dn = dn' := Option.some.inj (hdn.symm.trans hdn')
  have hslot : slot ∈ slots := List.mem_of_find?_eq_some hfind
  obtain ⟨huse, -⟩ := bears_inUse hzero hdeleted hlen hslot (by simpa using List.find?_some hfind)
  have hchain := hwf.files.chain (.inl slot)
  rw [head, if_pos huse, Option.getD_some] at hchain
  obtain ⟨first, rest, hL⟩ := List.exists_cons_of_ne_nil h.nonempty
  have hfirst : (firstClusterLow (d (19 + slot.1)) slot.2).toNat = first := by
    rw [hL] at hchain
    exact hchain.head_eq
  rw [hfirst, hL] at hchain
  have hlt := (firstClusterLow (d (19 + slot.1)) slot.2).isLt
  have hstart : (fileAt stack name d slot).currentCluster.toNat = first := by
    rw [← hfirst, fileAt, BitVec.toNat_setWidth]
    omega
  exact ⟨_, first, rest, open_eq hname.tokens hdn hlen hzero hfind after stack, rfl, h.length, rfl, hstart, hchain, hL⟩

/-- A name is opened as the log has it, or not found. -/
theorem Shelved.opened (h : Shelved inner d L log) {name : List u8} (hname : ValidName name)
    (hdn : dosName name = some dn) (after : Nat → List u8) (stack : Fin 3 → FILE) :
    match Log.get log dn with
    | some content => ∃ f first rest, «open» floppy after stack name d = some f ∧ f.flags = FS_FILE ∧
        f.fileLength.toNat = content.length ∧ f.eof = 0 ∧ f.currentCluster.toNat = first ∧
        Chain 0 (next d) first (first :: rest) ∧ (∀ c ∈ first :: rest, c ≤ 2848) ∧
        content <+: (first :: rest).flatMap (clusterBytes d)
    | none => found floppy after name d = some none := by
  obtain ⟨dn', hdn', hlen, hzero, hdeleted⟩ := hname.dosName
  obtain rfl : dn = dn' := Option.some.inj (hdn.symm.trans hdn')
  have hvisible := find_visible (d := d) hzero hdeleted hlen
  have hpair : ∀ slot file, Stores d L slot file → decide (Bears floppy d dn slot) = decide (file.1 = dn) :=
    fun slot file hstores => decide_eq_decide.mpr hstores.bears_iff
  rcases find_forall₂ h.stored hpair with
    ⟨hnone, hmissing⟩ | ⟨slot, file, hslot, hfile, hstores⟩
  · rw [Log.get, hmissing, Option.map_none]
    show found floppy after name d = some none
    rw [found_bears floppy after d hdn hzero, hvisible, hnone]
  · rw [Log.get, hfile, Option.map_some]
    obtain ⟨f, first, rest, hopen, hflags, hlength, heof, hfirst, hchain, hL⟩ :=
      hstores.opened h.wellFormed hname hdn (hvisible.trans hslot) after stack
    refine ⟨f, first, rest, hopen, hflags, hlength, heof, hfirst, hchain, fun c hc => ?_, hL ▸ hstores.content⟩
    exact (h.wellFormed.used (.inl slot) c (hL ▸ hc)).2.1

/-- A name is read as the log has it, or not found. -/
theorem Shelved.get (h : Shelved inner d L log) {name : List u8} (hname : ValidName name)
    (hdn : dosName name = some dn) (after : Nat → List u8) (stack : Fin 3 → FILE) :
    match Log.get log dn with
    | some content => Reads floppy after stack name content d
    | none => found floppy after name d = some none := by
  have hopened := h.opened hname hdn after stack
  cases hget : Log.get log dn with
  | none =>
    rw [hget] at hopened
    exact hopened
  | some content =>
    rw [hget] at hopened
    obtain ⟨f, first, rest, hopen, hflags, hlength, heof, hfirst, hchain, hlast, hcontent⟩ := hopened
    have hle := hlast first (List.mem_cons_self ..)
    exact ⟨f, hopen, hflags, hlength, _, _, readAll_chain hchain hfirst (by omega) heof, hcontent⟩

/-! ### One more file -/

/-- What bears a name is in use. -/
theorem slotByte_bears (hbears : Bears floppy d dn slot) (hlen : dn.length = 11) (hzero : 0 ∉ dn) :
    slotByte floppy d slot 0 ≠ 0 ∧ attributes (d (19 + slot.1)) slot.2 = 0 := by
  obtain ⟨hname, hattributes⟩ := (bears_iff hlen).mp hbears
  have hhead : (nameBytes floppy d slot)[0]? = some (slotByte floppy d slot 0) := slotByte_nameBytes (by decide)
  rw [hname] at hhead
  refine ⟨?_, hattributes⟩
  intro hfree
  exact hzero (List.mem_of_getElem? (hfree ▸ hhead))

theorem firstFree_some (hlt : (used d).length < 224) :
    ∃ slot, firstFree floppy d = some slot := by
  have hlength : slots.length = 224 := by decide +kernel
  rw [← Option.isSome_iff_exists, firstFree, List.find?_isSome]
  by_contra hnone
  push Not at hnone
  have hall : used d = slots := List.filter_eq_self.mpr fun slot hslot => by simpa using hnone slot hslot
  rw [hall] at hlt
  omega

/-- The first free slot comes behind those in use. -/
theorem used_split (hcompact : used d <+: slots) (hslot : firstFree floppy d = some slot) :
    ∃ post, slots = used d ++ slot :: post ∧ ∀ slot' ∈ post, slotByte floppy d slot' 0 = 0 := by
  obtain ⟨rest, hrest⟩ := hcompact
  have hunused : ∀ slot' ∈ rest, slotByte floppy d slot' 0 = 0 := by
    -- what is in use is all in front
    have hfilter : rest.filter (fun slot => slotByte floppy d slot 0 ≠ 0) = [] := by
      have hsplit := congrArg (List.filter fun slot => slotByte floppy d slot 0 ≠ 0) hrest
      rw [List.filter_append, ← used] at hsplit
      have hidem : (used d).filter (fun slot => slotByte floppy d slot 0 ≠ 0) = used d :=
        List.filter_eq_self.mpr fun slot' hslot' => decide_eq_true (mem_used.mp hslot').2
      rw [hidem] at hsplit
      exact List.append_cancel_left (hsplit.trans (List.append_nil _).symm)
    intro slot' hslot'
    by_contra hused
    exact List.filter_eq_nil_iff.mp hfilter slot' hslot' (decide_eq_true hused)
  have hfirst : firstFree floppy d = rest.head? := by
    rw [firstFree, ← hrest, List.find?_append, List.find?_eq_none.mpr fun slot' hslot' => ?_, Option.none_or]
    · cases rest with
      | nil => rfl
      | cons slot' rest =>
        exact List.find?_cons_of_pos (decide_eq_true (hunused slot' (List.mem_cons_self ..)))
    · rw [decide_eq_true_eq]
      exact (mem_used.mp hslot').2
  rw [hslot] at hfirst
  obtain ⟨post, rfl⟩ := List.head?_eq_some_iff.mp hfirst.symm
  exact ⟨post, hrest.symm, fun slot' hslot' => hunused slot' (List.mem_cons_of_mem _ hslot')⟩

section Writing
variable {buffer : Nat → u8} {e : DIRECTORY} {S : List Nat}

theorem slots_nodup : slots.Nodup := List.Nodup.product List.nodup_range List.nodup_range

/-- The new entry bears its name. -/
theorem Written.bears (hw : Written buffer e slot S d d') (hslot : slot ∈ slots) (hlen : e.filename.length = 11)
    (hattributes : e.attributes = 0) : Bears floppy d' e.filename slot := by
  have hbytes : (List.range 12).map (slotByte floppy d' slot) = (List.range 12).map fun k => e.bytes[k]?.getD 0 := by
    apply List.map_congr_left
    intro k hk
    have hk := List.mem_range.mp hk
    rw [hw.entry slot hslot k (by omega), if_pos rfl]
  rw [Bears, hbytes, bytes_name hlen, hattributes]

/-- The clusters of the new file are free no longer, and the others are what they were. -/
theorem Written.free {n : Nat} (hw : Written buffer e slot ((free d).take n) d d') (hd : Layout d) :
    FAT12.free d' = (FAT12.free d).drop n := by
  have hsmall : ∀ k ∈ (FAT12.free d).take n, 0 < k ∧ k < 0xFF8 := by
    intro k hk
    obtain ⟨hlow, hhigh, -⟩ := mem_free hd (List.mem_of_mem_take hk)
    omega
  have hentry : ∀ k ∈ List.range 341, decide (fatEntry d' k = 0) =
      (decide (k ∉ (FAT12.free d).take n) && decide (fatEntry d k = 0)) := by
    intro k hk
    have hk := List.mem_range.mp hk
    by_cases hmem : k ∈ (FAT12.free d).take n
    · have hused := hw.linked.used hsmall k hmem
      rw [decide_eq_false hused, decide_eq_false (not_not.mpr hmem), Bool.false_and]
    · rw [hw.other k (by omega) hmem, decide_eq_true hmem, Bool.true_and]
  have hsplit := List.take_append_drop n (FAT12.free d)
  have hnodup : ((FAT12.free d).take n ++ (FAT12.free d).drop n).Nodup := hsplit.symm ▸ free_nodup
  rw [FAT12.free, List.filter_congr hentry, ← List.filter_filter, ← FAT12.free]
  conv_lhs => rw [← hsplit, List.filter_append]
  rw [List.filter_eq_nil_iff.mpr, List.filter_eq_self.mpr, List.nil_append]
  · intro k hk
    rw [hsplit, decide_eq_true_eq]
    exact fun hmem => List.disjoint_of_nodup_append hnodup hmem hk
  · intro k hk
    rw [hsplit, decide_eq_true_eq, not_not]
    exact hk

/-- The entry comes behind the others, and nothing else changes in the directory. -/
theorem Written.used (hw : Written buffer e slot S d d') (hcompact : used d <+: slots)
    (hslot : firstFree floppy d = some slot) (hlen : e.filename.length = 11) (hzero : 0 ∉ e.filename)
    (hattributes : e.attributes = 0) :
    FAT12.used d' = FAT12.used d ++ [slot] ∧ FAT12.used d' <+: slots ∧
      ∀ slot' ∈ FAT12.used d, ∀ k < 32, slotByte floppy d' slot' k = slotByte floppy d slot' k := by
  obtain ⟨post, hsplit, hpost⟩ := used_split hcompact hslot
  have hmem : slot ∈ slots := List.mem_of_find?_eq_some hslot
  have hnodup : (FAT12.used d ++ slot :: post).Nodup := hsplit ▸ slots_nodup
  have hother : ∀ slot' ∈ slots, slot' ≠ slot → ∀ k < 32, slotByte floppy d' slot' k = slotByte floppy d slot' k := by
    intro slot' hslot' hne k hk
    rw [hw.entry slot' hslot' k hk, if_neg hne]
  have hkept : ∀ slot' ∈ FAT12.used d, ∀ k < 32, slotByte floppy d' slot' k = slotByte floppy d slot' k := by
    intro slot' hslot'
    refine hother slot' (mem_used.mp hslot').1 ?_
    rintro rfl
    exact List.disjoint_of_nodup_append hnodup hslot' (List.mem_cons_self ..)
  have hself : slotByte floppy d' slot 0 ≠ 0 :=
    (slotByte_bears (hw.bears hmem hlen hattributes) hlen hzero).1
  have hused : FAT12.used d' = FAT12.used d ++ [slot] := by
    rw [FAT12.used, hsplit, List.filter_append, List.filter_cons, if_pos (decide_eq_true hself),
      List.filter_eq_self.mpr, List.filter_eq_nil_iff.mpr]
    · intro slot' hslot'
      have hne : slot' ≠ slot := by
        rintro rfl
        exact (List.nodup_cons.mp (List.nodup_append.mp hnodup).2.1).1 hslot'
      have hmem' : slot' ∈ slots := hsplit ▸ List.mem_append_right _ (List.mem_cons_of_mem _ hslot')
      rw [decide_eq_true_eq, not_not, hother slot' hmem' hne 0 (by decide)]
      exact hpost slot' hslot'
    · intro slot' hslot'
      rw [decide_eq_true_eq, hkept slot' hslot' 0 (by decide)]
      exact (mem_used.mp hslot').2
  refine ⟨hused, ⟨post, ?_⟩, hkept⟩
  rw [hused, hsplit, List.append_assoc, List.singleton_append]

/-- What held a file holds it still. -/
theorem Stores.kept {slot' : Nat × Nat} {file : List u8 × List u8} (h : Stores d L slot' file)
    (hwf : WellFormed inner d L) (hw : Written buffer e slot S d d') (hfree : ∀ k ∈ S, fatEntry d k = 0)
    (hne : slot' ≠ slot) (hkept : ∀ k < 32, slotByte floppy d' slot' k = slotByte floppy d slot' k) :
    Stores d' (Function.update L (.inl slot) S) slot' file := by
  have hL : Function.update L (.inl slot) S (.inl slot') = L (.inl slot') :=
    Function.update_of_ne (fun heq => hne (Sum.inl.inj heq)) ..
  have hsize : size (d' (19 + slot'.1)) slot'.2 = size (d (19 + slot'.1)) slot'.2 :=
    congrArg₂ (· ++ ·) (congrArg₂ Packed.word (hkept 30 (by decide)) (hkept 31 (by decide)))
      (congrArg₂ Packed.word (hkept 28 (by decide)) (hkept 29 (by decide)))
  have hbytes : (L (.inl slot')).flatMap (clusterBytes d') = (L (.inl slot')).flatMap (clusterBytes d) := by
    apply List.flatMap_congr
    intro c hc
    rw [clusterBytes, clusterBytes, hw.kept c (hwf.used _ c hc).1 (hwf.entry_kept hw hfree hc).1]
  refine ⟨(bears_congr hkept).mpr h.bears, ?_, ?_, ?_⟩
  · rw [hsize]
    exact h.length
  · rw [hL]
    exact h.nonempty
  · rw [hL, hbytes]
    exact h.content

end Writing

/-- While there is a slot and enough clusters, a call appends its file. -/
theorem Shelved.write (h : Shelved inner d L log) {c : Call} (hname : ValidName c.filename)
    (hslots : (used d).length < 224) (hroom : needed c.len ≤ (free d).length) :
    ∃ d' L' slot, step floppy d c = some d' ∧ Shelved inner d' L' (log ++ c.file.toList) ∧ Appends c slot d d' := by
  obtain ⟨dn, hdn, hlen, hzero, hdeleted⟩ := hname.dosName
  obtain ⟨slot, hslot⟩ := firstFree_some hslots
  have hmem : slot ∈ slots := List.mem_of_find?_eq_some hslot
  have hcount : ((free d).take (needed c.len)).length = needed c.len := by
    rw [List.length_take, Nat.min_eq_left hroom]
  obtain ⟨first, rest, hS⟩ : ∃ first rest, (free d).take (needed c.len) = first :: rest := by
    apply List.exists_cons_of_length_pos
    rw [hcount]
    exact Nat.le_max_left 1 _
  have hbounds : ∀ k ∈ first :: rest, 2 ≤ k ∧ k < 341 ∧ fatEntry d k = 0 := by
    intro k hk
    rw [← hS] at hk
    exact mem_free h.wellFormed.layout (List.mem_of_mem_take hk)
  have hfree : ∀ k ∈ first :: rest, fatEntry d k = 0 := fun k hk => (hbounds k hk).2.2
  obtain ⟨d', hd', hw⟩ := writetest_written c.around c.buffer h.wellFormed.layout hdn hlen hslot (.inl hroom) hS
  have hbears : Bears floppy d' dn slot := hw.bears hmem hlen rfl
  obtain ⟨hused, hcompact, hkept⟩ := hw.used h.compact hslot hlen hzero rfl
  have hnew : ∀ slot' ∈ used d, slot' ≠ slot := by
    rintro slot' hslot' rfl
    have hzero : slotByte floppy d slot' 0 = 0 := by simpa using List.find?_some hslot
    exact (mem_used.mp hslot').2 hzero
  -- the new slot is visible, and the others are if they were
  have hvisible : visible d' = visible d ++ [slot] := by
    obtain ⟨huse, hattributes⟩ := bears_inUse hzero hdeleted hlen hmem hbears
    rw [visible, hused, List.filter_append, List.filter_cons, if_pos (decide_eq_true ⟨huse.2.2, hattributes⟩),
      List.filter_nil, visible]
    congr 1
    apply List.filter_congr
    intro slot' hslot'
    rw [hkept slot' hslot' 0 (by decide), hkept slot' hslot' 11 (by decide)]
  have hlow : (BitVec.ofNat 16 first).toNat = first := by
    have := hbounds first (List.mem_cons_self ..)
    rw [BitVec.toNat_ofNat, Nat.mod_eq_of_lt (by omega)]
  have hhead : head inner d' (.inl slot) = some (BitVec.ofNat 16 first).toNat := hw.head_self hmem hlen hzero hdeleted
  rw [hlow] at hhead
  have hwf := hw.wellFormed h.wellFormed hbounds (hS ▸ free_nodup.sublist (List.take_sublist _ _)) hhead
  have hself : Stores d' (Function.update L (.inl slot) (first :: rest)) slot
      (dn, (List.range c.len).map c.buffer) := by
    have hsmall : (free d).length ≤ 341 := (List.length_filter_le _ _).trans_eq (List.length_range ..)
    have henough := needed_enough c.len
    refine ⟨hbears, ?_, by rw [Function.update_self]; exact List.cons_ne_nil _ _, ?_⟩
    · rw [(hw.fields hmem hlen).2, newDirectory, BitVec.toNat_ofNat, List.length_map, List.length_range]
      omega
    · rw [Function.update_self, hw.stored, ← hS, hcount]
      apply List.IsPrefix.map
      rw [List.prefix_iff_eq_take, List.length_range, List.take_range, Nat.min_eq_left henough]
  have hfile : c.file = some (dn, (List.range c.len).map c.buffer) := by rw [Call.file, hdn, Option.map_some]
  refine ⟨d', _, slot, hd', ⟨hwf, hcompact, ?_⟩, ⟨hused, ?_, ?_, hkept⟩⟩
  · rw [hvisible, hfile]
    have hold := (List.forall₂_and_left (visible d) log).mpr ⟨fun _ hslot' => hslot', h.stored⟩
    refine List.rel_append (hold.imp ?_) (.cons hself .nil)
    rintro slot' file ⟨hslot', hstores⟩
    have hslot' := List.mem_of_mem_filter hslot'
    exact hstores.kept h.wellFormed hw hfree (hnew slot' hslot') (hkept slot' hslot')
  · rw [← hS] at hw
    exact hw.free h.wellFormed.layout
  · intro dn' hdn'
    obtain rfl : dn = dn' := Option.some.inj (hdn.symm.trans hdn')
    exact hbears

/-! ### Listing -/

/-- Without attributes, an entry is listed by its first twelve bytes. -/
theorem listed_congr {after : Nat → List u8} {beyond : Nat × Nat → List u8} (hslot : slot ∈ slots)
    (hattributes : slotByte floppy d slot 11 = 0)
    (h : ∀ k < 32, slotByte floppy d' slot k = slotByte floppy d slot k) :
    listed floppy after beyond d' slot = listed floppy after beyond d slot := by
  have hzero : 0 ∈ (List.range 12).map (slotByte floppy d slot) :=
    List.mem_map.mpr ⟨11, by decide, hattributes⟩
  obtain ⟨cs, rest, hsplit, hcs⟩ := List.eq_append_cons_of_mem hzero
  have hfname : ∀ d' : Disk, (∀ k < 32, slotByte floppy d' slot k = slotByte floppy d slot k) →
      fname (d' (19 + slot.1)) slot.2 (after slot.1) = some cs := by
    intro d' h
    have hmap : (List.range 12).map (slotByte floppy d' slot) = cs ++ 0 :: rest := by
      rw [← hsplit]
      apply List.map_congr_left
      intro k hk
      have hk := List.mem_range.mp hk
      exact h k (by omega)
    have hi := (mem_slots.mp hslot).2
    have hrange : List.range (512 - 32 * slot.2) = List.range 12 ++ List.range' 12 (500 - 32 * slot.2) := by
      have hsum : 512 - 32 * slot.2 = 12 + (500 - 32 * slot.2) := by omega
      rw [List.range_eq_range', List.range_eq_range', hsum, List.range'_append_1]
    rw [fname, cString_iff hcs, hrange, List.map_append, List.append_assoc]
    refine (?_ : cs ++ [0] <+: _).trans (List.prefix_append _ _)
    exact ⟨rest, by rw [List.append_assoc]; exact hmap.symm⟩
  have hbyte : attributes (d' (19 + slot.1)) slot.2 = attributes (d (19 + slot.1)) slot.2 := h 11 (by decide)
  rw [listed, listed]
  simp only [hfname d' h, hfname d fun _ _ => rfl, hbyte]

/-- A name with a short base and a full extension is listed in capitals. -/
theorem listed_typed {base ext : List u8} (hname : TypedName base ext) (hbase : base.length ≤ 7)
    (hext : ext.length = 3) (hdn : dosName (base ++ 0x2e :: ext) = some dn) (hslot : slot ∈ slots)
    (hbears : Bears floppy d dn slot) (after : Nat → List u8) {beyond : Nat × Nat → List u8}
    (hends : Terminated (beyond slot)) :
    listed floppy after beyond d slot = some ((base ++ 0x2e :: ext).map String.upper) := by
  obtain rfl := Option.some.inj ((dosName_form hname.le hext).symm.trans hdn)
  have hshort := hname.upper
  obtain ⟨hbytes, hattributes⟩ := (bears_iff hshort.length).mp hbears
  have hne : ext.map String.upper ≠ [] := by
    rw [ne_eq, List.map_eq_nil_iff]
    exact List.ne_nil_of_length_pos (by omega)
  rw [(listed_eq after beyond hshort hslot hbytes hattributes).2, listedName, List.length_map,
    if_pos ⟨by omega, hne⟩, plus_terminated hends, List.map_append, List.map_cons, List.append_assoc]
  rfl

/-- The base has room for the dot, and the extension its three characters. -/
def Listable (name : List u8) : Prop :=
  ∃ base ext, name = base ++ 0x2e :: ext ∧ TypedName base ext ∧ base.length ≤ 7 ∧ ext.length = 3

/-- No entry has attributes. -/
def Bare (d : Disk) : Prop := ∀ slot ∈ used d, slotByte floppy d slot 11 = 0

/-- The new name is listed behind the others. -/
theorem list_appends {c : Call} (h : Appends c slot d d') (hname : ValidName c.filename)
    (hlistable : Listable c.filename) (hbare : Bare d) {after : Nat → List u8} {beyond : Nat × Nat → List u8}
    (hends : Terminated (beyond slot)) {names : List (List u8)} (hlist : list floppy after beyond d = some names) :
    Bare d' ∧ list floppy after beyond d' = some (names ++ [c.filename.map String.upper]) := by
  obtain ⟨dn, hdn, hlen, hzero, hdeleted⟩ := hname.dosName
  have hbears := h.bears dn hdn
  have hslot : slot ∈ slots := by
    have hmem : slot ∈ used d' := h.used ▸ List.mem_append_right _ (List.mem_cons_self ..)
    exact (mem_used.mp hmem).1
  constructor
  · intro slot' hslot'
    rw [h.used] at hslot'
    rcases List.mem_append.mp hslot' with hold | hnew
    · rw [h.kept slot' hold 11 (by decide)]
      exact hbare slot' hold
    · rw [List.mem_singleton.mp hnew]
      exact (slotByte_bears hbears hlen hzero).2
  · have hlist : (used d).mapM (listed floppy after beyond d) = some names := hlist
    have hold : (used d).mapM (listed floppy after beyond d') = some names := by
      rw [← hlist]
      apply mapM_congr
      intro slot' hslot'
      exact listed_congr (mem_used.mp hslot').1 (hbare slot' hslot') (h.kept slot' hslot')
    obtain ⟨base, ext, hfilename, htyped, hbase, hext⟩ := hlistable
    have hnew := listed_typed htyped hbase hext (hfilename ▸ hdn) hslot hbears after hends
    show (used d').mapM (listed floppy after beyond d') = _
    rw [h.used, List.mapM_append, hold, List.mapM_cons, hnew, hfilename]
    rfl

/-! ### Any number of files -/

/-- The calls have valid names. -/
def Acceptable (cs : List Call) : Prop := ∀ c ∈ cs, ValidName c.filename

/-- There are slots and clusters for all of them. -/
structure HasRoom (d : Disk) (cs : List Call) : Prop where
  slots : (used d).length + cs.length ≤ 224
  clusters : (cs.map fun c => needed c.len).sum ≤ (free d).length

theorem HasRoom.tail {c : Call} {cs : List Call} (h : HasRoom d (c :: cs)) (hone : Appends c slot d d') :
    HasRoom d' cs := by
  obtain ⟨hslots, hclusters⟩ := h
  rw [List.length_cons] at hslots
  rw [List.map_cons, List.sum_cons] at hclusters
  constructor
  · rw [hone.used, List.length_append, List.length_singleton]
    omega
  · rw [hone.free, List.length_drop]
    omega

/-- One call after the other: each appends its file, and its name to the list. -/
theorem Shelved.writes (h : Shelved inner d L log) {cs : List Call} (hcs : Acceptable cs) (hroom : HasRoom d cs) :
    ∃ d' L', cs.foldlM (step floppy) d = some d' ∧ Shelved inner d' L' (log ++ cs.filterMap Call.file) ∧
      ((∀ c ∈ cs, Listable c.filename) → Bare d → ∀ after beyond, (∀ slot, Terminated (beyond slot)) →
        ∀ names, list floppy after beyond d = some names →
          list floppy after beyond d' = some (names ++ cs.map fun c => c.filename.map String.upper)) := by
  induction cs generalizing d L log with
  | nil =>
    refine ⟨d, L, rfl, ?_, ?_⟩
    · rw [List.filterMap_nil, List.append_nil]
      exact h
    · intro _ _ after beyond _ names hlist
      rw [List.map_nil, List.append_nil, hlist]
  | cons c cs ih =>
    have hslots := hroom.slots
    have hclusters := hroom.clusters
    rw [List.length_cons] at hslots
    rw [List.map_cons, List.sum_cons] at hclusters
    have hname := hcs c (List.mem_cons_self ..)
    obtain ⟨d₁, L₁, slot, hstep, hone, happends⟩ := h.write hname (by omega) (by omega)
    obtain ⟨d', L', hrun, hshelved, hlisted⟩ :=
      ih hone (fun c' hc' => hcs c' (List.mem_cons_of_mem _ hc')) (hroom.tail happends)
    refine ⟨d', L', ?_, ?_, ?_⟩
    · rw [List.foldlM_cons, hstep]
      exact hrun
    · have hfiles : log ++ c.file.toList ++ cs.filterMap Call.file = log ++ (c :: cs).filterMap Call.file := by
        rw [List.append_assoc, List.filterMap_cons]
        cases c.file <;> rfl
      exact hfiles ▸ hshelved
    · intro hlistable hbare after beyond hends names hlist
      obtain ⟨hbare₁, hlist₁⟩ :=
        list_appends happends hname (hlistable c (List.mem_cons_self ..)) hbare (hends slot) hlist
      rw [hlisted (fun c' hc' => hlistable c' (List.mem_cons_of_mem _ hc')) hbare₁ after beyond hends _ hlist₁,
        List.append_assoc]
      rfl

/-- **A mounted volume keeps the files of every sequence of calls there is room for**: each name is
read as the first content that was stored under it, and a name nothing was stored under is not
found. -/
theorem files_stored (h : Shelved inner d₀ L₀ log) {cs : List Call} (hcs : Acceptable cs) (hroom : HasRoom d₀ cs) :
    ∃ d L, cs.foldlM (step (mount d₀)) d₀ = some d ∧ Shelved inner d L (log ++ cs.filterMap Call.file) ∧
      ∀ name dn, ValidName name → dosName name = some dn → ∀ after stack,
        match Log.get (log ++ cs.filterMap Call.file) dn with
        | some content => Reads (mount d₀) after stack name content d
        | none => found (mount d₀) after name d = some none := by
  rw [h.wellFormed.layout.mount]
  obtain ⟨d, L, hrun, hshelved, -⟩ := h.writes hcs hroom
  exact ⟨d, L, hrun, hshelved, fun name dn hname hdn after stack => hshelved.get hname hdn after stack⟩

theorem blank_shelved : Shelved (fun _ => none) blank (fun _ => []) [] := by
  have hused : used blank = [] :=
    List.filter_eq_nil_iff.mpr fun slot hslot => by rw [decide_eq_true_eq, not_not]; exact blank_empty slot hslot
  refine ⟨blank_wellFormed, hused ▸ List.nil_prefix, ?_⟩
  rw [visible, hused]
  exact .nil

/-- `OLD.TXT`. -/
def oldName : List u8 := [0x4f, 0x4c, 0x44, 0x2e, 0x54, 0x58, 0x54]

theorem oldName_valid : ValidName oldName :=
  ⟨[0x4f, 0x4c, 0x44], [0x54, 0x58, 0x54], rfl, by decide, by decide, rfl, by decide, by decide⟩

/-- `NEW.TXT` is stored twice, and `OLD.TXT` between. -/
def threeCalls : List Call :=
  [⟨around, newName, fun _ => 0x58, 3⟩, ⟨around, oldName, fun _ => 0x59, 2⟩, ⟨around, newName, fun _ => 0x5a, 3⟩]

theorem threeCalls_acceptable : Acceptable threeCalls := by
  intro c hc
  simp only [threeCalls, List.mem_cons, List.not_mem_nil, or_false] at hc
  rcases hc with rfl | rfl | rfl
  · exact newName_valid
  · exact oldName_valid
  · exact newName_valid

theorem threeCalls_room : HasRoom blank threeCalls := ⟨by decide +kernel, by decide +kernel⟩

/-- The first content counts. -/
theorem files_stored_three : ∃ d, threeCalls.foldlM (step (mount blank)) blank = some d ∧
    Reads (mount blank) (fun _ => []) (fun _ => ⟨[], 0, 0, 0, 0, 0⟩) newName [0x58, 0x58, 0x58] d ∧
    Reads (mount blank) (fun _ => []) (fun _ => ⟨[], 0, 0, 0, 0, 0⟩) oldName [0x59, 0x59] d := by
  obtain ⟨d, -, hrun, -, hget⟩ := files_stored blank_shelved threeCalls_acceptable threeCalls_room
  have hnew := hget newName _ newName_valid rfl (fun _ => []) fun _ => ⟨[], 0, 0, 0, 0, 0⟩
  have hold := hget oldName _ oldName_valid rfl (fun _ => []) fun _ => ⟨[], 0, 0, 0, 0, 0⟩
  exact ⟨d, hrun, hnew, hold⟩

end FAT12

end UntitledOS.Filesystem
