import UntitledOS.Filesystem.Fat12Search

/-! Names, and the root directory.

The driver stores a name padded to eleven characters (`dosName_eq`) and looks for it by
comparing a C string, which runs over the attributes: an entry is found under a name when
its eleven characters are the name's and its attributes are zero (`fname_iff`). So an
entry is found under the name and its fields are those of its bytes (`open_eq`), and
putting an entry into a slot changes that slot alone (`slotByte_put`). -/
namespace UntitledOS.Filesystem
open Lib Y

namespace FAT12

/-! ### Names -/

/-- An 8.3 name with an extension of three characters. -/
def ValidName (name : List u8) : Prop :=
  ∃ base ext : List u8, name = base ++ 0x2e :: ext ∧ 0 < base.length ∧ base.length ≤ 8 ∧ ext.length = 3 ∧
    (∀ c ∈ base ++ ext, c ≠ 0 ∧ c ≠ 0x5c) ∧ base.head? ≠ some 0xE5

/-- The first loop stops at the last dot. -/
theorem dosBase_eq {upper todo ext : List u8} (done dosName : List u8) (hupper : upper = done ++ todo ++ 0x2e :: ext)
    (hext : ext.length = 3) {n : Nat} (hn : todo.length ≤ n) (hlen : done.length + todo.length ≤ dosName.length) :
    dosBase upper done.length n dosName =
      some (dosName.take done.length ++ todo ++ dosName.drop (done.length + todo.length)) := by
  induction todo generalizing done n dosName with
  | nil =>
    have hlast : upper[done.length]? = some 0x2e := by simp [hupper]
    have hend : ((done.length : Nat) : Int) = upper.length - 4 := by simp [hupper, hext]
    cases n with
    | zero => simp [dosBase]
    | succ n =>
      rw [dosBase, hlast, Option.bind_some, if_pos ⟨rfl, hend⟩]
      simp
  | cons c todo ih =>
    rw [List.length_cons] at hn hlen
    obtain ⟨n, rfl⟩ : ∃ m, n = m + 1 := ⟨n - 1, by omega⟩
    have hnext : upper[done.length]? = some c := by simp [hupper]
    have hgo : ¬(c = 0x2e ∧ ((done.length : Nat) : Int) = upper.length - 4) := by
      rintro ⟨-, hend⟩
      simp only [hupper, List.length_append, List.length_cons, hext] at hend
      omega
    have hrest := ih (done ++ [c]) (dosName.set done.length c) (by simp [hupper]) (show todo.length ≤ n by omega)
      (by rw [List.length_append, List.length_set, List.length_singleton]; omega)
    rw [List.length_append, List.length_singleton] at hrest
    rw [dosBase, hnext, Option.bind_some, if_neg hgo, hrest, Buffer.set_stretch (by omega)]

/-- The second loop puts the last three characters in their places. -/
theorem dosExtension_eq {upper ext : List u8} (pre dosName : List u8) (hupper : upper = pre ++ ext)
    (hext : ext.length = 3)
    (hlen : dosName.length = 11) : dosExtension upper 0 3 dosName = some (dosName.take 8 ++ ext) := by
  obtain ⟨a, b, c, rfl⟩ := List.length_eq_three.mp hext
  have hlast : ∀ i < 3, (if i < upper.length then upper[upper.length - i - 1]? else none) =
      [a, b, c][3 - i - 1]? := by
    intro i hi
    have hpos : pre.length + 3 - i - 1 = pre.length + (3 - i - 1) := by omega
    rw [hupper, List.length_append, hext, if_pos (by omega), hpos, List.getElem?_append_right (by omega),
      Nat.add_sub_cancel_left]
  have hset : ((dosName.set 10 c).set 9 b).set 8 a = dosName.take 8 ++ [a, b, c] := by
    have hsplit := List.take_append_drop 8 dosName
    have htake : (dosName.take 8).length = 8 := by
      rw [List.length_take]
      omega
    obtain ⟨x, y, z, hdrop⟩ := List.length_eq_three.mp (show (dosName.drop 8).length = 3 by
      rw [List.length_drop]
      omega)
    rw [hdrop] at hsplit
    rw [← hsplit, List.take_left' htake]
    simp [htake]
  simp only [dosExtension, hlast 0 (by decide), hlast (0 + 1) (by decide), hlast (0 + 1 + 1) (by decide)]
  simp [hset]

/-- The eleven characters of a name. -/
theorem dosName_eq {base ext : List u8} (hbase : base.length ≤ 8) (hext : ext.length = 3) :
    dosName (base ++ 0x2e :: ext) =
      some (base.map String.upper ++ List.replicate (8 - base.length) 0x20 ++ ext.map String.upper) := by
  have hmap : (base ++ 0x2e :: ext).map String.upper =
      base.map String.upper ++ 0x2e :: ext.map String.upper := by
    rw [List.map_append, List.map_cons]
    rfl
  have hexts : (ext.map String.upper).length = 3 := by rw [List.length_map, hext]
  have hbases : (base.map String.upper).length ≤ 8 := by rw [List.length_map]; exact hbase
  have hfirst := dosBase_eq [] (List.replicate 11 0x20) hmap hexts hbases
    (by rw [List.length_replicate, List.length_nil]; omega)
  have hlen : (base.map String.upper ++ List.replicate (11 - base.length) (0x20 : u8)).length = 11 := by
    rw [List.length_append, List.length_map, List.length_replicate]
    omega
  have hsecond := dosExtension_eq (base.map String.upper ++ [0x2e]) _
    (hmap.trans (List.append_assoc _ [0x2e] _).symm) hexts hlen
  simp only [List.length_nil, List.take_zero, List.nil_append, Nat.zero_add, List.length_map,
    List.drop_replicate] at hfirst
  rw [dosName, hfirst, Option.bind_some, hsecond, List.take_append, List.length_map,
    List.take_of_length_le (by simpa using hbase), List.take_replicate]
  congr 4
  omega

theorem upper_ne {c : u8} (h : c ≠ 0) : String.upper c ≠ 0 := by
  unfold String.upper
  split
  · rintro hc
    bv_omega
  · exact h

theorem ValidName.dosName {name : List u8} (h : ValidName name) :
    ∃ dn, dosName name = some dn ∧ dn.length = 11 ∧ 0 ∉ dn ∧ dn.head? ≠ some 0xE5 := by
  obtain ⟨base, ext, rfl, hpos, hbase, hext, hchars, hhead⟩ := h
  refine ⟨_, dosName_eq hbase hext, ?_, ?_, ?_⟩
  · simp [hext]
    omega
  · simp only [List.mem_append, List.mem_map, List.mem_replicate, not_or]
    refine ⟨⟨?_, ?_⟩, ?_⟩
    · rintro ⟨c, hc, hzero⟩
      exact upper_ne (hchars c (List.mem_append_left _ hc)).1 hzero
    · rintro ⟨-, hzero⟩
      exact absurd hzero (by decide)
    · rintro ⟨c, hc, hzero⟩
      exact upper_ne (hchars c (List.mem_append_right _ hc)).1 hzero
  · obtain ⟨c, base, rfl⟩ := List.exists_cons_of_length_pos hpos
    intro heq
    apply hhead
    simp only [List.map_cons, List.cons_append, List.head?_cons, Option.some.injEq] at heq ⊢
    unfold String.upper at heq
    split at heq
    · bv_omega
    · exact heq

/-- `split` finds one token. -/
theorem ValidName.tokens {name : List u8} (h : ValidName name) : (String.tokens 0x5c name).length = 1 := by
  obtain ⟨base, ext, rfl, -, -, -, hchars, -⟩ := h
  have hfree : (0x5c : u8) ∉ base ++ 0x2e :: ext := by
    intro hmem
    rcases List.mem_append.mp hmem with hmem | hmem
    · exact (hchars _ (List.mem_append_left _ hmem)).2 rfl
    · rcases List.mem_cons.mp hmem with heq | hmem
      · exact absurd heq (by decide)
      · exact (hchars _ (List.mem_append_right _ hmem)).2 rfl
  rw [String.tokens_run hfree, if_neg (by simp)]
  rfl

/-! ### Slots -/

variable {m : MOUNT_INFO} {d : Disk}

theorem mem_slots {slot : Nat × Nat} : slot ∈ slots ↔ slot.1 < 14 ∧ slot.2 < 16 := by
  rw [slots, List.mem_product, List.mem_range, List.mem_range]

/-- The bytes of the entry in a slot. -/
def slotByte (m : MOUNT_INFO) (d : Disk) (slot : Nat × Nat) (k : Nat) : u8 :=
  d (m.rootOffset + slot.1) (32 * slot.2 + k)

/-- The slot that `writetest` takes: nothing was ever in it. -/
def firstFree (m : MOUNT_INFO) (d : Disk) : Option (Nat × Nat) :=
  slots.find? fun slot => slotByte m d slot 0 = 0

/-- The entry is found under a name: its characters are the name's, and its attributes are zero. -/
def Bears (m : MOUNT_INFO) (d : Disk) (dosName : List u8) (slot : Nat × Nat) : Prop :=
  (List.range 12).map (slotByte m d slot) = dosName ++ [0]

instance (m : MOUNT_INFO) (d : Disk) (dosName : List u8) (slot : Nat × Nat) : Decidable (Bears m d dosName slot) :=
  inferInstanceAs (Decidable (_ = _))

theorem cString_iff {b cs : List u8} (h : 0 ∉ cs) : Buffer.cString b = some cs ↔ cs ++ [0] <+: b := by
  constructor
  · intro hcs
    obtain ⟨-, rest, rfl⟩ := Buffer.cString_some hcs
    exact ⟨rest, List.append_assoc ..⟩
  · rintro ⟨rest, rfl⟩
    rw [List.append_assoc]
    exact Buffer.cString_append h

/-- The comparison of `directory`, whatever lies behind the sector. -/
theorem fname_iff {dosName : List u8} (hlen : dosName.length = 11) (hzero : 0 ∉ dosName) {slot : Nat × Nat}
    (hslot : slot ∈ slots) (after : List u8) :
    fname (d (m.rootOffset + slot.1)) slot.2 after = some dosName ↔ Bears m d dosName slot := by
  have hi := (mem_slots.mp hslot).2
  have htwelve : ((List.range 12).map (slotByte m d slot)).length = (dosName ++ [0]).length := by
    rw [List.length_map, List.length_range, List.length_append, hlen, List.length_singleton]
  have hsplit : (List.range (512 - 32 * slot.2)).map (fun k => d (m.rootOffset + slot.1) (32 * slot.2 + k)) ++ after =
      (List.range 12).map (slotByte m d slot) ++
        ((List.range' 12 (500 - 32 * slot.2)).map (slotByte m d slot) ++ after) := by
    have hrange : List.range (512 - 32 * slot.2) = List.range 12 ++ List.range' 12 (500 - 32 * slot.2) := by
      have hsum : 512 - 32 * slot.2 = 12 + (500 - 32 * slot.2) := by omega
      rw [List.range_eq_range', List.range_eq_range', hsum, List.range'_append_1]
    rw [hrange, List.map_append, List.append_assoc]
    rfl
  rw [fname, cString_iff hzero, hsplit, List.prefix_iff_eq_take, List.take_left' htwelve, Bears]
  exact eq_comm

/-- What `open` finds: the fields of the first entry under the name. -/
theorem open_eq {name dosName : List u8} (htokens : (String.tokens 0x5c name).length = 1)
    (hname : FAT12.dosName name = some dosName) (hlen : dosName.length = 11) (hzero : 0 ∉ dosName)
    {slot : Nat × Nat} (hslot : slots.find? (Bears m d dosName ·) = some slot) (after : Nat → List u8)
    (stack : Fin 3 → FILE) :
    «open» m after stack name d = some { stack 1 with
      name := name
      id := 0
      currentCluster := (firstClusterLow (d (m.rootOffset + slot.1)) slot.2).setWidth 32
      eof := 0
      fileLength := size (d (m.rootOffset + slot.1)) slot.2
      flags := FS_FILE } := by
  have hfind {p : Nat × Nat → Bool} (hp : ∀ slot ∈ slots, p slot = decide (Bears m d dosName slot)) :
      slots.find? p = some slot := by
    rw [← hslot]
    exact List.find?_congr hp
  have hbears : Bears m d dosName slot := by simpa using List.find?_some hslot
  have hattributes : attributes (d (m.rootOffset + slot.1)) slot.2 = 0 := by
    have hlast := congrArg (·[11]?) hbears
    rw [← hlen] at hlast
    simpa [attributes, slotByte, hlen] using hlast
  obtain ⟨sector, i⟩ := slot
  simp only [«open», if_pos htokens, directory, hname, Option.map_some]
  rw [hfind fun slot hmem => decide_eq_decide.mpr (fname_iff hlen hzero hmem _)]
  simp only [hattributes]
  rfl

/-! ### A new entry -/

theorem bytes_length {e : DIRECTORY} (h : e.filename.length = 11) : e.bytes.length = 32 := by
  simp [DIRECTORY.bytes, bytes16, bytes32, h]

/-- The entry goes to its slot, and the other slots keep their bytes. -/
theorem slotByte_put {e : DIRECTORY} (he : e.filename.length = 11) {slot slot' : Nat × Nat} (hslot : slot ∈ slots)
    (hslot' : slot' ∈ slots) {k : Nat} (hk : k < 32) :
    slotByte m (writeSector (m.rootOffset + slot.1) (putEntry e slot.2 (d (m.rootOffset + slot.1))) d) slot' k =
      if slot' = slot then e.bytes[k]?.getD 0 else slotByte m d slot' k := by
  have hlen := bytes_length he
  have hi := (mem_slots.mp hslot).2
  have hi' := (mem_slots.mp hslot').2
  unfold slotByte writeSector putEntry
  by_cases hsame : slot' = slot
  · have hpos : 32 * slot.2 + k - 32 * slot.2 = k := Nat.add_sub_cancel_left ..
    rw [if_pos hsame, hsame, if_pos ⟨rfl, by omega⟩, if_pos (Nat.le_add_right ..), hpos,
      List.getElem?_eq_getElem (by omega)]
    rfl
  · rw [if_neg hsame]
    split
    · rename_i hsector
      have hne : slot'.2 ≠ slot.2 := fun heq => hsame (Prod.ext (by omega) heq)
      rw [hsector.1]
      split
      · rw [List.getElem?_eq_none (by omega)]
        rfl
      · rfl
    · rfl

/-- The name and the attributes come first. -/
theorem bytes_name {e : DIRECTORY} (he : e.filename.length = 11) :
    (List.range 12).map (fun k => e.bytes[k]?.getD 0) = e.filename ++ [e.attributes] := by
  have hprefix : e.filename ++ [e.attributes] <+: e.bytes := by simp [DIRECTORY.bytes]
  obtain ⟨rest, hrest⟩ := hprefix
  have hlen : (e.filename ++ [e.attributes]).length = 12 := by
    rw [List.length_append, he, List.length_singleton]
  apply List.ext_getElem
  · rw [List.length_map, List.length_range, hlen]
  · intro k hk hk'
    rw [List.getElem_map, List.getElem_range, ← hrest, List.getElem?_append_left hk', List.getElem?_eq_getElem hk']
    rfl

/-- The cluster and the size come last. -/
theorem bytes_last {e : DIRECTORY} (he : e.filename.length = 11) (k : Nat) :
    e.bytes[26 + k]? = (bytes16 e.firstClusterLow ++ bytes32 e.size)[k]? := by
  have hlen : (e.filename ++ [e.attributes, e.windowsNTRESERVED, e.creationTimeMS] ++ bytes16 e.creationTime ++
      bytes16 e.creationDate ++ bytes16 e.lastAccessedDate ++ bytes16 e.firstClusterHi ++
      bytes16 e.lastModifiedTime ++ bytes16 e.lastModifiedDate).length = 26 := by
    simp [bytes16, he]
  rw [DIRECTORY.bytes, List.append_assoc, List.getElem?_append_right (by omega), hlen, Nat.add_sub_cancel_left]

theorem word_of_words (w : u32) :
    Packed.word ((w >>> 16).setWidth 8) ((w >>> 24).setWidth 8) ++
      Packed.word (w.setWidth 8) ((w >>> 8).setWidth 8) = w := by
  apply BitVec.eq_of_getLsbD_eq
  intro i hi
  simp only [Packed.word, BitVec.getLsbD_append]
  interval_cases i <;> simp

/-- The cluster and the size in a slot that holds an entry. -/
theorem fields_of_bytes {e : DIRECTORY} (he : e.filename.length = 11) {slot : Nat × Nat}
    (hbytes : ∀ k < 32, slotByte m d slot k = e.bytes[k]?.getD 0) :
    firstClusterLow (d (m.rootOffset + slot.1)) slot.2 = e.firstClusterLow ∧
      size (d (m.rootOffset + slot.1)) slot.2 = e.size := by
  have hbyte : ∀ k < 6, slotByte m d slot (26 + k) = (bytes16 e.firstClusterLow ++ bytes32 e.size)[k]?.getD 0 := by
    intro k hk
    rw [hbytes (26 + k) (by omega), bytes_last he]
  have hcluster : firstClusterLow (d (m.rootOffset + slot.1)) slot.2 =
      Packed.word (e.firstClusterLow.setWidth 8) ((e.firstClusterLow >>> 8).setWidth 8) :=
    congrArg₂ Packed.word (hbyte 0 (by decide)) (hbyte 1 (by decide))
  have hsize : size (d (m.rootOffset + slot.1)) slot.2 =
      Packed.word ((e.size >>> 16).setWidth 8) ((e.size >>> 24).setWidth 8) ++
        Packed.word (e.size.setWidth 8) ((e.size >>> 8).setWidth 8) :=
    congrArg₂ (· ++ ·) (congrArg₂ Packed.word (hbyte 4 (by decide)) (hbyte 5 (by decide)))
      (congrArg₂ Packed.word (hbyte 2 (by decide)) (hbyte 3 (by decide)))
  exact ⟨hcluster.trans (Packed.word_bytes _), hsize.trans (word_of_words _)⟩

end FAT12

end UntitledOS.Filesystem
