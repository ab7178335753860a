import UntitledOS.Filesystem.Fat12Names
import UntitledOS.Filesystem.Fat12Volume

/-! Listing the root directory, and looking up what was listed.

An entry is found under the name it is listed by when it has no attributes, its extension
fills its three bytes, and a base of less than eight has a terminator behind its dot in
memory. With a shorter extension what is listed is not found, with an attribute the name
listed runs on into the bytes behind it, and the sum of base and dot, which nothing ends,
takes along what its block held before (`list_agrees`). A name
that `writetest` stores comes back in capitals when its extension has three characters and
its base less than eight, or its base eight and its extension two, where the dot is stored
as one of the eleven bytes (`new_listed`). -/
namespace UntitledOS.Filesystem
open Lib Y

namespace FAT12

/-! ### Entries -/

section Entries
variable {m : MOUNT_INFO} {after : Nat → List u8} {beyond : Nat × Nat → List u8} {d : Disk} {slot slot' : Nat × Nat}
  {base ext : List u8}

/-- The eleven bytes of a name. -/
def nameBytes (m : MOUNT_INFO) (d : Disk) (slot : Nat × Nat) : List u8 := (List.range 11).map (slotByte m d slot)

theorem nameBytes_length : (nameBytes m d slot).length = 11 := by
  rw [nameBytes, List.length_map, List.length_range]

theorem bears_iff {dn : List u8} (hlen : dn.length = 11) :
    Bears m d dn slot ↔ nameBytes m d slot = dn ∧ attributes (d (m.rootOffset + slot.1)) slot.2 = 0 := by
  have htwelve : (List.range 12).map (slotByte m d slot) = nameBytes m d slot ++ [slotByte m d slot 11] := by
    rw [nameBytes, List.range_succ, List.map_append]
    rfl
  rw [Bears, htwelve]
  constructor
  · intro h
    obtain ⟨hname, hlast⟩ := List.append_inj h (by rw [nameBytes_length, hlen])
    exact ⟨hname, (List.cons.inj hlast).1⟩
  · rintro ⟨rfl, hattributes⟩
    exact congrArg (nameBytes m d slot ++ [·]) hattributes

/-- The entry has an 8.3 name. A deleted one may have one too. -/
def Named (m : MOUNT_INFO) (d : Disk) (slot : Nat × Nat) : Prop :=
  slot ∈ slots ∧ ∃ base ext, ShortName base ext ∧ nameBytes m d slot = padded base ext

/-- Every entry in use, which is neither free nor deleted, has an 8.3 name. -/
def ValidRoot (m : MOUNT_INFO) (d : Disk) : Prop :=
  ∀ slot ∈ slots, slotByte m d slot 0 ≠ 0 → slotByte m d slot 0 ≠ 0xE5 → Named m d slot

/-- No two entries have the same name. -/
def Distinct (m : MOUNT_INFO) (d : Disk) : Prop :=
  ∀ slot slot', Named m d slot → slot' ∈ slots → nameBytes m d slot' = nameBytes m d slot → slot' = slot

/-- The slot that `directory` finds for a name. -/
def found (m : MOUNT_INFO) (after : Nat → List u8) (dirName : List u8) (d : Disk) : Option (Option (Nat × Nat)) :=
  (dosName dirName).map fun dosName => slots.find? fun (sector, i) =>
    fname (d (m.rootOffset + sector)) i (after sector) = some dosName

/-- The file that `directory` makes of it. -/
def opened (m : MOUNT_INFO) (file : FILE) (dirName : List u8) (d : Disk) : Option (Nat × Nat) → FILE
  | some (sector, i) =>
    let buf := d (m.rootOffset + sector)
    { file with
      name := dirName
      id := 0
      currentCluster := (firstClusterLow buf i).setWidth 32
      eof := 0
      fileLength := size buf i
      flags := if attributes buf i = 0x10 then FS_DIRECTORY else FS_FILE }
  | none => {file with flags := FS_INVALID}

theorem directory_found (m : MOUNT_INFO) (after : Nat → List u8) (file : FILE) (dirName : List u8) (d : Disk) :
    directory m after file dirName d = (found m after dirName d).map (opened m file dirName d) := by
  cases hname : dosName dirName with
  | none => rw [directory, found, hname, Option.map_none, Option.map_none, Option.map_none]
  | some dn =>
    rw [directory, found, hname, Option.map_some, Option.map_some, Option.map_some]
    generalize slots.find? (fun (sector, i) =>
      decide (fname (d (m.rootOffset + sector)) i (after sector) = some dn)) = r
    cases r <;> rfl

/-- A name is found, at an entry with these eleven bytes. -/
def Finds (m : MOUNT_INFO) (after : Nat → List u8) (d : Disk) (name bytes : List u8) : Prop :=
  ∃ slot, found m after name d = some (some slot) ∧ nameBytes m d slot = bytes

/-- Listing and opening agree: every entry with a name is listed, and one that is not a
directory is found under the name it is listed by. -/
def ListAgrees (m : MOUNT_INFO) (after : Nat → List u8) (beyond : Nat × Nat → List u8) (d : Disk) : Prop :=
  ∃ names, list m after beyond d = some names ∧ ∀ slot, Named m d slot → ∃ name ∈ names,
    listed m after beyond d slot = some name ∧
    (attributes (d (m.rootOffset + slot.1)) slot.2 ≠ 0x10 → Finds m after d name (nameBytes m d slot))

/-- The names of all entries end somewhere, and entries that are not directories have no
attributes, an extension that fills its three bytes, and a terminator in the memory behind
their dot, if the base leaves room for one. -/
def Plain (m : MOUNT_INFO) (after : Nat → List u8) (beyond : Nat × Nat → List u8) (d : Disk) : Prop :=
  (∀ slot ∈ slots, slotByte m d slot 0 ≠ 0 →
    (fname (d (m.rootOffset + slot.1)) slot.2 (after slot.1)).isSome) ∧
  ∀ slot, Named m d slot → attributes (d (m.rootOffset + slot.1)) slot.2 ≠ 0x10 →
    attributes (d (m.rootOffset + slot.1)) slot.2 = 0 ∧ slotByte m d slot 10 ≠ 0x20 ∧
      (slotByte m d slot 7 = 0x20 → Terminated (beyond slot))

/-- What an entry without attributes is listed as. -/
theorem listed_eq (after : Nat → List u8) (beyond : Nat × Nat → List u8) (h : ShortName base ext) (hslot : slot ∈ slots)
    (hname : nameBytes m d slot = padded base ext)
    (hattributes : attributes (d (m.rootOffset + slot.1)) slot.2 = 0) :
    fname (d (m.rootOffset + slot.1)) slot.2 (after slot.1) = some (padded base ext) ∧
    listed m after beyond d slot = some (listedName (beyond slot) base ext) := by
  have hfname := (fname_iff h.length h.nonzero hslot (after slot.1)).mpr
    ((bears_iff h.length).mpr ⟨hname, hattributes⟩)
  refine ⟨hfname, ?_⟩
  rw [listed, hfname, Option.bind_some, hattributes, if_neg (by decide), if_pos rfl, h.tokens, listedName]
  by_cases hlt : base.length < 8
  · by_cases hext : ext = []
    · simp [hlt, hext]
    · simp [hlt, hext, plus]
  · simp [hlt]

theorem slotByte_nameBytes {k : Nat} (hk : k < 11) : (nameBytes m d slot)[k]? = some (slotByte m d slot k) := by
  rw [nameBytes, List.getElem?_map, List.getElem?_range hk]
  rfl

/-- An entry that a name finds bears it. -/
theorem bears_of_found {name : List u8} (hslot : found m after name d = some (some slot)) :
    ∃ dn, dosName name = some dn ∧
      fname (d (m.rootOffset + slot.1)) slot.2 (after slot.1) = some dn ∧ slot ∈ slots := by
  obtain ⟨dn, hdn, hfind⟩ := Option.map_eq_some_iff.mp hslot
  exact ⟨dn, hdn, by simpa using List.find?_some hfind, List.mem_of_find?_eq_some hfind⟩

/-- The base leaves a space exactly if it has less than eight characters. -/
theorem eighth_iff (h : ShortName base ext) (hname : nameBytes m d slot = padded base ext) :
    slotByte m d slot 7 = 0x20 ↔ base.length < 8 := by
  rw [← h.padded_eighth, ← hname, slotByte_nameBytes (by decide), Option.some.injEq]

/-- An entry without attributes, with an extension of three characters and nothing but a terminator
behind its dot, is found under the name it is listed by. -/
theorem finds_listed (h : ShortName base ext) (hext : ext.length = 3) (hslot : slot ∈ slots)
    (hname : nameBytes m d slot = padded base ext)
    (hattributes : attributes (d (m.rootOffset + slot.1)) slot.2 = 0)
    (hends : base.length < 8 → Terminated (beyond slot)) :
    Finds m after d (listedName (beyond slot) base ext) (nameBytes m d slot) := by
  obtain ⟨hfname, -⟩ := listed_eq after beyond h hslot hname hattributes
  have hfind : (slots.find? fun (sector, i) =>
      decide (fname (d (m.rootOffset + sector)) i (after sector) = some (padded base ext))).isSome := by
    rw [List.find?_isSome]
    exact ⟨slot, hslot, decide_eq_true hfname⟩
  obtain ⟨slot', hslot'⟩ := Option.isSome_iff_exists.mp hfind
  have hfound : found m after (listedName (beyond slot) base ext) d = some (some slot') := by
    rw [found, h.dosName_listed hext hends, Option.map_some, hslot']
  have hmem := List.mem_of_find?_eq_some hslot'
  have hfname' : fname (d (m.rootOffset + slot'.1)) slot'.2 (after slot'.1) = some (padded base ext) := by
    simpa using List.find?_some hslot'
  have hbears := (fname_iff h.length h.nonzero hmem _).mp hfname'
  exact ⟨slot', hfound, ((bears_iff h.length).mp hbears).1.trans hname.symm⟩

theorem mem_fname {buf : Nat → u8} {i : Nat} {after cs : List u8} (h : fname buf i after = some cs) : 0 ∉ cs :=
  (Buffer.cString_some h).1

/-- And if an entry of which there is only one is found under the name it is listed by, this is
how it looks. -/
theorem of_finds_listed (hdistinct : Distinct m d) (hslot : slot ∈ slots) (h : ShortName base ext)
    (hname : nameBytes m d slot = padded base ext) {name : List u8}
    (hlisted : listed m after beyond d slot = some name) (hfinds : Finds m after d name (nameBytes m d slot)) :
    attributes (d (m.rootOffset + slot.1)) slot.2 = 0 ∧ ext.length = 3 ∧
      (base.length < 8 → Terminated (beyond slot)) := by
  obtain ⟨slot', hfound, hsame⟩ := hfinds
  obtain ⟨dn, hdn, hfname, hslot'⟩ := bears_of_found hfound
  obtain rfl := hdistinct slot slot' ⟨hslot, base, ext, h, hname⟩ hslot' hsame
  obtain ⟨hlen, hlast⟩ := dosName_last hdn
  have hbears := (fname_iff hlen (mem_fname hfname) hslot' _).mp hfname
  obtain ⟨hdn', hattributes⟩ := (bears_iff hlen).mp hbears
  obtain ⟨-, hlisted'⟩ := listed_eq after beyond h hslot' hname hattributes
  obtain rfl := Option.some.inj (hlisted.symm.trans hlisted')
  rw [← hdn', hname] at hdn hlast
  have hext : ext.length = 3 := by
    obtain ⟨c, hc, hchar⟩ := h.listed_last (beyond slot')
    rw [List.getLast?_map, hc, Option.map_some, hchar.2.2.2] at hlast
    apply h.padded_last.mp
    rw [hlast]
    exact fun hspace => hchar.2.1 (Option.some.inj hspace)
  exact ⟨hattributes, hext, fun hlt => h.terminated_of_dosName hext hlt hdn⟩

theorem mapM_isSome {α β : Type*} {f : α → Option β} {l : List α} :
    (∃ ys, l.mapM f = some ys) ↔ ∀ a ∈ l, (f a).isSome := by
  induction l with
  | nil => simp
  | cons a l ih =>
    rw [List.forall_mem_cons, ← ih, List.mapM_cons]
    cases f a with
    | none => simp
    | some b => cases l.mapM f <;> simp

theorem mapM_congr {α β : Type*} {f g : α → Option β} {l : List α} (h : ∀ a ∈ l, f a = g a) : l.mapM f = l.mapM g := by
  induction l with
  | nil => rfl
  | cons a l ih =>
    rw [List.mapM_cons, List.mapM_cons, h a (List.mem_cons_self ..), ih fun a ha => h a (List.mem_cons_of_mem _ ha)]

theorem mem_of_mapM {α β : Type*} {f : α → Option β} {l : List α} {ys : List β} (h : l.mapM f = some ys) {a : α}
    (ha : a ∈ l) : ∃ b ∈ ys, f a = some b := by
  induction l generalizing ys with
  | nil => cases ha
  | cons a' l ih =>
    rw [List.mapM_cons] at h
    obtain ⟨b, hb, h⟩ := Option.bind_eq_some_iff.mp h
    obtain ⟨rest, hrest, h⟩ := Option.bind_eq_some_iff.mp h
    obtain rfl := Option.some.inj h
    rcases List.mem_cons.mp ha with rfl | ha
    · exact ⟨b, List.mem_cons_self .., hb⟩
    · obtain ⟨b', hb', hfa⟩ := ih hrest ha
      exact ⟨b', List.mem_cons_of_mem _ hb', hfa⟩

theorem mem_listed {slot : Nat × Nat} :
    slot ∈ slots.filter (fun (sector, i) => d (m.rootOffset + sector) (32 * i) ≠ 0) ↔
      slot ∈ slots ∧ slotByte m d slot 0 ≠ 0 := by
  rw [List.mem_filter, decide_eq_true_eq]
  rfl

/-- The C string of an entry starts with the entry's first byte. -/
theorem fname_head {after cs : List u8} (hslot : slot ∈ slots)
    (h : fname (d (m.rootOffset + slot.1)) slot.2 after = some cs) (hfirst : slotByte m d slot 0 ≠ 0) :
    ∃ rest, cs = slotByte m d slot 0 :: rest := by
  have hi := (mem_slots.mp hslot).2
  obtain ⟨-, rest, hbytes⟩ := Buffer.cString_some h
  have hlen : 512 - 32 * slot.2 = 512 - 32 * slot.2 - 1 + 1 := by omega
  rw [hlen, List.range_succ_eq_map, List.map_cons, List.cons_append] at hbytes
  cases cs with
  | nil => exact absurd (List.cons.inj hbytes).1 hfirst
  | cons c cs => exact ⟨cs, by rw [← (List.cons.inj hbytes).1]; rfl⟩

theorem Named.head (h : Named m d slot) : slotByte m d slot 0 ≠ 0 ∧ slotByte m d slot 0 ≠ 0x20 := by
  obtain ⟨-, base, ext, h, hname⟩ := h
  obtain ⟨c, base, rfl⟩ := List.exists_cons_of_length_pos h.pos
  have hfirst : slotByte m d slot 0 = c := by
    have hhead : (nameBytes m d slot)[0]? = some (slotByte m d slot 0) := slotByte_nameBytes (by decide)
    rw [hname] at hhead
    exact (Option.some.inj hhead).symm
  have hchar := h.chars c (List.mem_append_left _ (List.mem_cons_self ..))
  exact hfirst ▸ ⟨hchar.1, hchar.2.1⟩

/-- An entry has a name to list when the bytes of its name end. -/
theorem listed_isSome (hvalid : ValidRoot m d) (hslot : slot ∈ slots) (hfirst : slotByte m d slot 0 ≠ 0) :
    (listed m after beyond d slot).isSome ↔
      (fname (d (m.rootOffset + slot.1)) slot.2 (after slot.1)).isSome := by
  rw [listed]
  cases hfname : fname (d (m.rootOffset + slot.1)) slot.2 (after slot.1) with
  | none => rfl
  | some cs =>
    obtain ⟨rest, rfl⟩ := fname_head hslot hfname hfirst
    have hspace : slotByte m d slot 0 ≠ 0x20 := by
      by_cases hdeleted : slotByte m d slot 0 = 0xE5
      · rw [hdeleted]
        decide
      · exact (hvalid slot hslot hfirst hdeleted).head.2
    obtain ⟨t, ts, hts⟩ := List.exists_cons_of_ne_nil (tokens_ne_nil hspace rest)
    rw [Option.bind_some, hts]
    simp only [Option.isSome_some, iff_true]
    split
    · rfl
    · split
      · split
        · simp
        · rfl
      · rfl

theorem listAgrees_of_plain (hvalid : ValidRoot m d) (hplain : Plain m after beyond d) :
    ListAgrees m after beyond d := by
  obtain ⟨hends, hnames⟩ := hplain
  have hsome : ∀ slot ∈ slots.filter (fun (sector, i) => d (m.rootOffset + sector) (32 * i) ≠ 0),
      (listed m after beyond d slot).isSome := by
    intro slot hslot
    obtain ⟨hslot, hfirst⟩ := mem_listed.mp hslot
    exact (listed_isSome hvalid hslot hfirst).mpr (hends slot hslot hfirst)
  obtain ⟨names, hlist⟩ := mapM_isSome.mpr hsome
  refine ⟨names, hlist, fun slot hnamed => ?_⟩
  obtain ⟨name, hmem, hlisted⟩ := mem_of_mapM hlist (mem_listed.mpr ⟨hnamed.1, hnamed.head.1⟩)
  refine ⟨name, hmem, hlisted, fun hfile => ?_⟩
  obtain ⟨hattributes, hlast, hends⟩ := hnames slot hnamed hfile
  obtain ⟨hslot, base, ext, h, hname⟩ := hnamed
  have hext : ext.length = 3 := by
    rw [← h.padded_last, ← hname, slotByte_nameBytes (by decide)]
    exact fun hspace => hlast (Option.some.inj hspace)
  obtain ⟨-, hlisted'⟩ := listed_eq after beyond h hslot hname hattributes
  obtain rfl := Option.some.inj (hlisted.symm.trans hlisted')
  exact finds_listed h hext hslot hname hattributes fun hlt => hends ((eighth_iff h hname).mpr hlt)

theorem plain_of_listAgrees (hvalid : ValidRoot m d) (hdistinct : Distinct m d)
    (hagrees : ListAgrees m after beyond d) : Plain m after beyond d := by
  obtain ⟨names, hlist, hall⟩ := hagrees
  constructor
  · intro slot hslot hfirst
    have hsome := mapM_isSome.mp ⟨names, hlist⟩ slot (mem_listed.mpr ⟨hslot, hfirst⟩)
    exact (listed_isSome hvalid hslot hfirst).mp hsome
  · intro slot hnamed hfile
    obtain ⟨name, -, hlisted, hfinds⟩ := hall slot hnamed
    obtain ⟨hslot, base, ext, h, hname⟩ := hnamed
    obtain ⟨hattributes, hext, hends⟩ := of_finds_listed hdistinct hslot h hname hlisted (hfinds hfile)
    refine ⟨hattributes, fun hspace => ?_, fun hspace => hends ((eighth_iff h hname).mp hspace)⟩
    have hlast := h.padded_last.mpr hext
    rw [← hname, slotByte_nameBytes (by decide)] at hlast
    exact hlast (congrArg some hspace)

end Entries

/-! ### A new entry -/

section New
variable {m : MOUNT_INFO} {after : Nat → List u8} {beyond : Nat × Nat → List u8} {s : Surroundings} {len : Nat}
  {d d' : Disk} {slot : Nat × Nat} {S : List Nat} {name dn base ext : List u8}

/-- A file of this length gets an entry in the slot and these clusters, and neither their data nor
their entries go to the sector of the slot. -/
structure Creates (m : MOUNT_INFO) (s : Surroundings) (len : Nat) (d : Disk) (slot : Nat × Nat) (S : List Nat) :
    Prop where
  free : firstFree m d = some slot
  clusters : findSectors m s.behind (if len % SECTOR_SIZE = 0 then len / SECTOR_SIZE else len / SECTOR_SIZE + 1) d =
    some S
  nonempty : S ≠ []
  elsewhere : ∀ c ∈ S, m.rootOffset + slot.1 ≠ 1 + (c + c / 2) / 512 ∧ m.rootOffset + slot.1 ≠ 31 + c

theorem Creates.bears (h : Creates m s len d slot S) (hname : dosName name = some dn) (hdn : dn.length = 11)
    (buffer : Nat → u8) : ∃ d', writetest m s name buffer len d = some d' ∧ Bears m d' dn slot := by
  obtain ⟨first, rest, rfl⟩ := List.exists_cons_of_ne_nil h.nonempty
  have hmem : slot ∈ slots := List.mem_of_find?_eq_some h.free
  have hwrite := writetest_something buffer hname h.clusters h.free
  refine ⟨_, hwrite, ?_⟩
  generalize he : newDirectory s dn first len = e
  have hfilename : e.filename = dn := he ▸ rfl
  have hlen : e.filename.length = 11 := hfilename ▸ hdn
  -- the slot's sector is as the first write left it
  have hsector : filed m e slot (first :: rest) buffer d (m.rootOffset + slot.1) =
      writeSector (m.rootOffset + slot.1) (putEntry e slot.2 (d (m.rootOffset + slot.1))) d
        (m.rootOffset + slot.1) := by
    rw [filed, writeChunks_sector buffer fun c hc => (h.elsewhere c hc).2,
      updateFAT_sector fun c hc => (h.elsewhere c hc).1]
  have hbytes : (List.range 12).map (slotByte m (filed m e slot (first :: rest) buffer d) slot) =
      (List.range 12).map fun k => e.bytes[k]?.getD 0 := by
    apply List.map_congr_left
    intro k hk
    have hk := List.mem_range.mp hk
    have hput := slotByte_put (m := m) (d := d) hlen hmem hmem (show k < 32 by omega)
    rw [if_pos rfl] at hput
    rw [slotByte, hsector]
    exact hput
  rw [Bears, hbytes, bytes_name hlen, hfilename, ← he]
  rfl

/-- The name the slot is listed by, here and among the others. -/
def ListedAs (m : MOUNT_INFO) (after : Nat → List u8) (beyond : Nat × Nat → List u8) (d : Disk) (slot : Nat × Nat)
    (name : List u8) : Prop :=
  listed m after beyond d slot = some name ∧ ∀ names, list m after beyond d = some names → name ∈ names

theorem Bears.listedAs (hbears : Bears m d dn slot) (hslot : slot ∈ slots) (hlen : dn.length = 11) (hzero : 0 ∉ dn) :
    ListedAs m after beyond d slot name ↔ listed m after beyond d slot = some name := by
  refine ⟨And.left, fun hlisted => ⟨hlisted, fun names hnames => ?_⟩⟩
  have hfirst : slotByte m d slot 0 ≠ 0 := by
    have hhead : (nameBytes m d slot)[0]? = some (slotByte m d slot 0) := slotByte_nameBytes (by decide)
    rw [((bears_iff hlen).mp hbears).1] at hhead
    intro hfree
    exact hzero (List.mem_of_getElem? (hfree ▸ hhead))
  obtain ⟨name', hmem, hlisted'⟩ := mem_of_mapM hnames (mem_listed.mpr ⟨hslot, hfirst⟩)
  obtain rfl := Option.some.inj (hlisted.symm.trans hlisted')
  exact hmem

/-- Eleven bytes without a space are listed as they are. -/
theorem Bears.listed_word (hbears : Bears m d dn slot) (hslot : slot ∈ slots) (hlen : dn.length = 11)
    (hchars : 0 ∉ dn ∧ 0x20 ∉ dn) : listed m after beyond d slot = some dn := by
  obtain ⟨hzero, hspace⟩ := hchars
  have hne : dn ≠ [] := List.ne_nil_of_length_pos (by omega)
  have hattributes := ((bears_iff hlen).mp hbears).2
  rw [listed, (fname_iff hlen hzero hslot _).mpr hbears, Option.bind_some, hattributes, if_neg (by decide),
    if_pos rfl, String.tokens_run hspace, if_neg hne]
  rfl

/-- A file is listed by a name exactly if this is what the bytes of its entry are listed as. -/
theorem Creates.listed_iff (h : Creates m s len d slot S) (hname : dosName name = some dn) (hlen : dn.length = 11)
    (hzero : 0 ∉ dn) {shown upper : List u8}
    (hshown : ∀ d', Bears m d' dn slot → listed m after beyond d' slot = some shown) (buffer : Nat → u8) :
    (∃ d', writetest m s name buffer len d = some d' ∧ ListedAs m after beyond d' slot upper) ↔ shown = upper := by
  have hslot : slot ∈ slots := List.mem_of_find?_eq_some h.free
  obtain ⟨d₁, hwrite, hbears⟩ := h.bears hname hlen buffer
  constructor
  · rintro ⟨d', hwrite', hlisted⟩
    obtain rfl := Option.some.inj (hwrite.symm.trans hwrite')
    exact Option.some.inj ((hshown d₁ hbears).symm.trans hlisted.1)
  · rintro rfl
    exact ⟨d₁, hwrite, (hbears.listedAs hslot hlen hzero).mpr (hshown d₁ hbears)⟩

/-- With three characters behind it, the dot is left out of the bytes of the entry, and is listed
where the base has room for it. So is what the memory has behind it. -/
theorem new_listed_filled (h : Creates m s len d slot S) (hname : TypedName base ext) (hext : ext.length = 3)
    (buffer : Nat → u8) :
    (∃ d', writetest m s (typed base ext) buffer len d = some d' ∧
      ListedAs m after beyond d' slot ((typed base ext).map String.upper)) ↔
      base.length ≤ 7 ∧ Terminated (beyond slot) := by
  have hslot : slot ∈ slots := List.mem_of_find?_eq_some h.free
  have hshort := hname.upper
  have hne : ext ≠ [] := List.ne_nil_of_length_pos (by omega)
  have htyped : typed base ext = base ++ 0x2e :: ext := by rw [typed, if_neg hne]
  have hdn : dosName (typed base ext) = some (padded (base.map String.upper) (ext.map String.upper)) := by
    rw [htyped, dosName_eq hname.le hext, padded, List.length_map, List.length_map, hext, Nat.sub_self,
      List.replicate_zero, List.append_nil]
  have hshown : ∀ d', Bears m d' (padded (base.map String.upper) (ext.map String.upper)) slot →
      listed m after beyond d' slot =
        some (listedName (beyond slot) (base.map String.upper) (ext.map String.upper)) := by
    intro d' hbears
    obtain ⟨hbytes, hattributes⟩ := (bears_iff hshort.length).mp hbears
    exact (listed_eq after beyond hshort hslot hbytes hattributes).2
  rw [h.listed_iff hdn hshort.length hshort.nonzero hshown buffer, htyped, listedName, List.length_map]
  constructor
  · intro heq
    have hlens := congrArg List.length heq
    split at hlens
    · rename_i hshorter
      refine ⟨Nat.le_of_lt_succ hshorter.1, terminated_iff.mpr (List.eq_nil_of_length_eq_zero ?_)⟩
      simp only [plus, List.length_append, List.length_map, List.length_cons, List.length_nil] at hlens
      omega
    · simp only [List.length_append, List.length_map, List.length_cons] at hlens
      omega
  · rintro ⟨hbase, hends⟩
    have hmap : ext.map String.upper ≠ [] := fun hnil => hne (List.map_eq_nil_iff.mp hnil)
    rw [if_pos ⟨by omega, hmap⟩, plus_terminated hends, List.map_append, List.map_cons, List.append_assoc]
    rfl

/-- With fewer, the dot is one of the bytes, and listed if there are eleven. -/
theorem new_listed_undotted (h : Creates m s len d slot S) (hname : TypedName base ext) (hext : ext.length ≠ 3)
    (buffer : Nat → u8) :
    (∃ d', writetest m s (typed base ext) buffer len d = some d' ∧
      ListedAs m after beyond d' slot ((typed base ext).map String.upper)) ↔ (typed base ext).length = 11 := by
  have hslot : slot ∈ slots := List.mem_of_find?_eq_some h.free
  have hmap : ((typed base ext).map String.upper).length = (typed base ext).length := List.length_map ..
  have hdn := dosName_undotted fun i _ => hname.undotted hext i
  by_cases hlong : 8 ≤ (typed base ext).length
  · rw [if_pos hlong] at hdn
    generalize hbytes : ((typed base ext).map String.upper).take 8 ++
      ((typed base ext).map String.upper).drop ((typed base ext).length - 3) = dn at hdn
    have hsub : ∀ c ∈ dn, c ∈ (typed base ext).map String.upper := by
      intro c hc
      rw [← hbytes] at hc
      rcases List.mem_append.mp hc with hc | hc
      · exact List.mem_of_mem_take hc
      · exact List.mem_of_mem_drop hc
    have hlen : dn.length = 11 := (dosName_last hdn).1
    have hchars : 0 ∉ dn ∧ 0x20 ∉ dn :=
      ⟨fun hc => (hname.chars_upper _ (hsub _ hc)).1 rfl, fun hc => (hname.chars_upper _ (hsub _ hc)).2 rfl⟩
    rw [h.listed_iff hdn hlen hchars.1 (fun d' hbears => hbears.listed_word hslot hlen hchars) buffer]
    constructor
    · intro heq
      rw [← hmap, ← heq, hlen]
    · intro heleven
      rw [← hbytes, heleven]
      exact List.take_append_drop 8 _
  · rw [if_neg hlong] at hdn
    constructor
    · rintro ⟨d', hwrite, -⟩
      rw [writetest, hdn] at hwrite
      cases hwrite
    · omega

/-- A new file is listed under its name in capitals when the dot is left out of the bytes of its
entry, has room in the list and a terminator behind it there, or is one of eleven bytes. -/
theorem new_listed (h : Creates m s len d slot S) (hname : TypedName base ext) (buffer : Nat → u8) :
    (∃ d', writetest m s (typed base ext) buffer len d = some d' ∧
      ListedAs m after beyond d' slot ((typed base ext).map String.upper)) ↔
      base.length ≤ 7 ∧ ext.length = 3 ∧ Terminated (beyond slot) ∨ base.length = 8 ∧ ext.length = 2 := by
  have hle := hname.le
  have hext_le := hname.ext_le
  by_cases hext : ext.length = 3
  · rw [new_listed_filled h hname hext buffer, hext]
    simp
  · have hlength := typed_length base ext
    rw [new_listed_undotted h hname hext buffer, hlength]
    have hsplit : base.length + (if ext = [] then 0 else ext.length + 1) = 11 ↔ base.length = 8 ∧ ext.length = 2 := by
      split
      · rename_i hnil
        simp only [hnil, List.length_nil]
        omega
      · omega
    rw [hsplit]
    exact ⟨.inr, fun h => h.resolve_left fun hfilled => hext hfilled.2.1⟩

end New

/-- **Listing and opening agree when every entry that is not a directory has no attributes, an
extension of three characters and a terminator behind its dot**, and for distinct names only then; a
new file is listed under its name in capitals exactly when its entry has the dot where the list puts
it, and nothing comes along. -/
theorem list_agrees {m : MOUNT_INFO} {d : Disk} (hvalid : ValidRoot m d) (after : Nat → List u8)
    (beyond : Nat × Nat → List u8) :
    (Plain m after beyond d → ListAgrees m after beyond d) ∧
      (Distinct m d → ListAgrees m after beyond d → Plain m after beyond d) ∧
      ∀ s buffer len slot S base ext, Creates m s len d slot S → TypedName base ext →
        ((∃ d', writetest m s (typed base ext) buffer len d = some d' ∧
          ListedAs m after beyond d' slot ((typed base ext).map String.upper)) ↔
            base.length ≤ 7 ∧ ext.length = 3 ∧ Terminated (beyond slot) ∨ base.length = 8 ∧ ext.length = 2) :=
  ⟨listAgrees_of_plain hvalid, plain_of_listAgrees hvalid,
    fun _ buffer _ _ _ _ _ h hname => new_listed h hname buffer⟩

/-! ### Volumes to try -/

/-- An entry of five bytes in cluster 2. -/
def fileEntry (filename : List u8) (attributes : u8) : DIRECTORY where
  filename := filename
  attributes := attributes
  windowsNTRESERVED := 0
  creationTimeMS := 0
  creationTime := 0
  creationDate := 0
  lastAccessedDate := 0
  firstClusterHi := 0
  lastModifiedTime := 0
  lastModifiedDate := 0
  firstClusterLow := 2
  size := 5

/-- One file, `README.TXT`. -/
def readme (attributes : u8) : Disk := image (fun k => if k = 0 then 0xFF0 else if k < 3 then 0xFFF else 0)
  (fileEntry (padded [0x52, 0x45, 0x41, 0x44, 0x4d, 0x45] [0x54, 0x58, 0x54]) attributes).bytes

/-- The other slots are free. -/
theorem readme_free (attributes : u8) :
    ∀ slot ∈ slots, slot ≠ (0, 0) → slotByte floppy (readme attributes) slot 0 = 0 := by
  rintro ⟨sector, i⟩ hslot hne
  have hlen :
      (fileEntry (padded [0x52, 0x45, 0x41, 0x44, 0x4d, 0x45] [0x54, 0x58, 0x54]) attributes).bytes.length = 32 :=
    bytes_length rfl
  show image _ _ (19 + sector) (32 * i + 0) = 0
  rw [image, if_neg (by omega), if_neg (by omega)]
  by_cases hsector : sector = 0
  · have hi : i ≠ 0 := fun hi => hne (by rw [hsector, hi])
    rw [if_pos (by omega), List.getElem?_eq_none (by omega)]
    rfl
  · rw [if_neg (by omega)]

/-- It has a name. -/
theorem readme_named (attributes : u8) {slot : Nat × Nat} : Named floppy (readme attributes) slot ↔ slot = (0, 0) := by
  have hname : ShortName [0x52, 0x45, 0x41, 0x44, 0x4d, 0x45] [0x54, 0x58, 0x54] := by
    refine ⟨by decide, by decide, by decide, ?_⟩
    simp [NameChar]
    decide
  constructor
  · intro h
    by_contra hne
    exact h.head.1 (readme_free attributes slot h.1 hne)
  · rintro rfl
    exact ⟨by decide, _, _, hname, rfl⟩

theorem readme_valid (attributes : u8) : ValidRoot floppy (readme attributes) := by
  intro slot hslot hfirst _
  by_contra hnot
  exact hfirst (readme_free attributes slot hslot fun heq => hnot ((readme_named attributes).mpr heq))

theorem readme_distinct (attributes : u8) : Distinct floppy (readme attributes) := by
  intro slot slot' hslot hslot' hsame
  have hslot'' : Named floppy (readme attributes) slot' :=
    ⟨hslot', hslot.2.imp fun base => Exists.imp fun ext h => ⟨h.1, hsame.trans h.2⟩⟩
  rw [(readme_named attributes).mp hslot, (readme_named attributes).mp hslot'']

/-- Without attributes it is found, and `NEW.TXT` is listed behind it. -/
theorem list_agrees_readme :
    ListAgrees floppy (fun _ => []) (fun _ => [0]) (readme 0) ∧ Plain floppy (fun _ => []) (fun _ => [0]) (readme 0) ∧
      ∃ d', writetest floppy around newName (fun _ => 0x58) 3 (readme 0) = some d' ∧
        ListedAs floppy (fun _ => []) (fun _ => [0]) d' (0, 1) (newName.map String.upper) := by
  have h := list_agrees (readme_valid 0) (fun _ => []) fun _ => [0]
  have hplain : Plain floppy (fun _ => []) (fun _ => [0]) (readme 0) := by
    constructor
    · decide +kernel
    · intro slot hslot _
      rw [(readme_named 0).mp hslot]
      decide +kernel
  have hcreates : Creates floppy around 3 (readme 0) (0, 1) [3] :=
    ⟨by decide +kernel, by decide +kernel, by decide, by decide⟩
  have hnew : TypedName [0x4e, 0x45, 0x57] [0x54, 0x58, 0x54] := ⟨by decide, by decide, by decide, by decide⟩
  have hlisted := (h.2.2 around (fun _ => 0x58) 3 (0, 1) [3] _ _ hcreates hnew).mpr (.inl ⟨by decide, rfl, rfl⟩)
  exact ⟨h.1 hplain, h.2.1 (readme_distinct 0) (h.1 hplain), hlisted⟩

/-- With the archive attribute, `README.TXT` is listed with its padding and a twelfth character,
and nothing is found under that. Without it, nothing is found either if there is an `X` in the
memory behind the dot. -/
theorem readme_not_found :
    ValidRoot floppy (readme 0x20) ∧
      list floppy (fun _ => []) (fun _ => []) (readme 0x20) =
        some [padded [0x52, 0x45, 0x41, 0x44, 0x4d, 0x45] [0x54, 0x58, 0x54] ++ [0x20]] ∧
      found floppy (fun _ => []) (padded [0x52, 0x45, 0x41, 0x44, 0x4d, 0x45] [0x54, 0x58, 0x54] ++ [0x20])
        (readme 0x20) = some none ∧
      ¬ListAgrees floppy (fun _ => []) (fun _ => []) (readme 0x20) ∧
      ValidRoot floppy (readme 0) ∧ ¬ListAgrees floppy (fun _ => []) (fun _ => [0x58]) (readme 0) := by
  refine ⟨readme_valid 0x20, by decide +kernel, by decide +kernel, fun h => ?_, readme_valid 0, fun h => ?_⟩
  · have hplain := plain_of_listAgrees (readme_valid 0x20) (readme_distinct 0x20) h
    have hattributes := (hplain.2 (0, 0) ((readme_named 0x20).mpr rfl) (by decide +kernel)).1
    exact absurd hattributes (by decide +kernel)
  · have hplain := plain_of_listAgrees (readme_valid 0) (readme_distinct 0) h
    have hends := (hplain.2 (0, 0) ((readme_named 0).mpr rfl) (by decide +kernel)).2.2 (by decide +kernel)
    exact absurd hends (by decide)

end FAT12

end UntitledOS.Filesystem
