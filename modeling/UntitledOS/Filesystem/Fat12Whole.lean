import UntitledOS.Filesystem.Fat12Located
import UntitledOS.Filesystem.Fat12RoundTrip

/-! A file is written whole, or it is not.

`writetest` takes as many clusters as were located, be they fewer than it needs, and the
entry with the full size is on the disk before anything else. So it keeps to all or nothing
where it writes nothing, and otherwise only where every position located turns out to be a
cluster of the new chain (`whole_or_nothing`): the chain of a file that is whole for any
content can have no other clusters than those the chunks went to (`located_eq`). -/
namespace UntitledOS.Filesystem
open Lib

namespace FAT12

/-- From `d` to `d'`, a slot that was free got the entry of a file of this size, whose chain has the
clusters `cs`, as many as it takes, with the content in them. -/
structure Whole (d d' : Disk) (name : List u8) (buffer : Nat → u8) (len : Nat) (slot : Nat × Nat) (cs : List Nat) :
    Prop where
  mem : slot ∈ slots
  free : slotByte floppy d slot 0 = 0
  named : dosName name = some (nameBytes floppy d' slot)
  sized : (size (d' (floppy.rootOffset + slot.1)) slot.2).toNat = len
  chain : Chain 0 (next d') (firstClusterLow (d' (floppy.rootOffset + slot.1)) slot.2).toNat cs
  count : cs.length = (len + 511) / 512
  inside : ∀ c ∈ cs, 2 ≤ c ∧ c ≤ 2848
  data : (List.range len).map buffer <+: cs.flatMap (clusterBytes d')

/-- Whatever is written, the file is there as a whole or the disk is as it was, and it is as it was
if there are not enough free clusters or no free slot. -/
def WholeOrNothing (s : Surroundings) (name : List u8) (len : Nat) (d : Disk) : Prop :=
  ∀ buffer, ∃ d', writetest (mount d) s name buffer len d = some d' ∧
    ((∃ slot cs, Whole d d' name buffer len slot cs) ∨ d' = d) ∧
    (¬HasFree d ((len + 511) / 512) ∨ firstFree (mount d) d = none → d' = d)

/-- The positions located are clusters enough, all different, and the links turn them into a chain. -/
structure Fillable (d : Disk) (S : List Nat) (n : Nat) : Prop where
  count : S.length = n
  nodup : S.Nodup
  inside : ∀ c ∈ S, 2 ≤ c
  links : Links d S
  free : HasFree d n

/-! ### Linking over what was there -/

section Linking
variable {d : Disk} {S : List Nat}

/-- What becomes of each entry. -/
theorem updateFAT_suffix (hS : Numbered S) (hnodup : S.Nodup) {c : Nat} {rest : List Nat} (h : (c :: rest) <:+ S) :
    fatEntry (updateFAT S d) c = fatEntry d c ||| (linkValue rest &&& entryMask c) := by
  induction S generalizing d with
  | nil => exact absurd (List.eq_nil_of_suffix_nil h) (List.cons_ne_nil _ _)
  | cons k S ih =>
    obtain ⟨hnew, hnodup'⟩ := List.nodup_cons.mp hnodup
    rcases List.suffix_cons_iff.mp h with heq | htail
    · obtain ⟨rfl, rfl⟩ := List.cons.inj heq
      exact updateFAT_head hS hnew
    · have hkept := fatEntry_link_rest (d := d) hS hnew c (htail.subset (List.mem_cons_self ..))
      rw [updateFAT_cons, ih hS.tail hnodup' htail, hkept]

/-- The last link leaves the low bits set, so that it is the end of the chain only as the mark. -/
theorem last_mark {e : u16} {c : Nat} (he : e ||| (0xFFF &&& entryMask c) < 0x1000)
    (hend : e ||| (0xFFF &&& entryMask c) ≥ 0xFF8 ∨ e ||| (0xFFF &&& entryMask c) = 0) :
    e ||| (0xFFF &&& entryMask c) = 0xFFF := by
  have hlow : (e ||| (0xFFF &&& entryMask c)) &&& 0xF = 0xF := by
    unfold entryMask
    apply BitVec.eq_of_getLsbD_eq
    intro i hi
    split
    · split <;> interval_cases i <;> simp
    · interval_cases i <;> simp
  generalize e ||| (0xFFF &&& entryMask c) = v at *
  have hmod : v.toNat % 16 = 15 := by
    have htoNat := congrArg BitVec.toNat hlow
    rw [BitVec.toNat_and] at htoNat
    exact (Nat.and_two_pow_sub_one_eq_mod v.toNat 4).symm.trans htoNat
  rcases hend with hge | hzero
  · have hge : 0xFF8 ≤ v.toNat := hge
    have hlt : v.toNat < 0x1000 := he
    exact BitVec.eq_of_toNat_eq (show v.toNat = 0xFFF by omega)
  · rw [hzero] at hmod
    cases hmod

/-- Clusters that the links make a chain of are linked. -/
theorem linked_of_chain {u : Disk} {p : Nat} (hchain : Chain 0 (next u) p S)
    (hentry : ∀ c rest, (c :: rest) <:+ S → fatEntry u c = fatEntry d c ||| (linkValue rest &&& entryMask c)) :
    Linked u S := by
  induction S generalizing p with
  | nil => trivial
  | cons c rest ih =>
    obtain rfl := hchain.head_eq
    have htail := hchain.tail
    refine ⟨?_, ih htail fun c' rest' h => hentry c' rest' (h.trans (List.suffix_cons ..))⟩
    cases rest with
    | nil =>
      have hlast := next_eq_zero.mp (htail.eq_nil_iff.mp rfl)
      have hself := hentry p [] (List.suffix_refl _)
      have hlt := Packed.entry_lt (fatByte u) p
      rw [← fatEntry] at hlt
      rw [hself] at hlast hlt ⊢
      exact last_mark hlt hlast
    | cons c rest =>
      obtain hnext := htail.head_eq
      have hne := htail.head_ne
      rw [next] at hnext
      by_cases hge : fatEntry u p ≥ 0xFF8
      · rw [if_pos hge] at hnext
        exact absurd hnext.symm hne
      · rw [if_neg hge] at hnext
        rw [linkValue, ← hnext, BitVec.ofNat_toNat, BitVec.setWidth_eq]

end Linking

/-! ### What is written -/

section Filed
variable {d : Disk} {e : DIRECTORY} {slot : Nat × Nat} {S : List Nat} {buffer : Nat → u8}

/-- The links are those that `updateFAT` makes. -/
theorem filed_next (hS : ∀ c ∈ S, c < 342) {c : Nat} (hc : c < 4096) :
    next (filed floppy e slot S buffer d) c = next (updateFAT S d) c := by
  have hput : ∀ s < 13, writeSector (floppy.rootOffset + slot.1)
      (putEntry e slot.2 (d (floppy.rootOffset + slot.1))) d s = d s := by
    intro s hs
    funext k
    have hroot : s ≠ floppy.rootOffset + slot.1 := by
      show s ≠ 19 + slot.1
      omega
    rw [writeSector, if_neg fun h => hroot h.1]
  apply next_congr
  refine fatEntry_congr (fun s _ hs => ?_) hc
  rw [filed, writeChunks_sector buffer fun c _ => by omega]
  by_cases hfirst : s = 1
  · rw [hfirst]
    exact updateFAT_congr hS (hput 1 (by decide))
  · rw [updateFAT_first hS hfirst, updateFAT_first hS hfirst, hput s hs]

/-- The entry is in its slot. -/
theorem filed_entry (hS : ∀ c ∈ S, c < 342) (hslot : slot ∈ slots) (he : e.filename.length = 11)
    (hclear : ∀ c ∈ S, floppy.rootOffset + slot.1 ≠ 31 + c) {k : Nat} (hk : k < 32) :
    slotByte floppy (filed floppy e slot S buffer d) slot k = e.bytes[k]?.getD 0 := by
  rw [filed_slot hS (by decide) he hslot hslot hclear hk, if_pos rfl]

theorem filed_name (hS : ∀ c ∈ S, c < 342) (hslot : slot ∈ slots) (he : e.filename.length = 11)
    (hclear : ∀ c ∈ S, floppy.rootOffset + slot.1 ≠ 31 + c) (hattributes : e.attributes = 0) :
    nameBytes floppy (filed floppy e slot S buffer d) slot = e.filename := by
  have hbytes : (List.range 12).map (slotByte floppy (filed floppy e slot S buffer d) slot) = e.filename ++ [0] := by
    rw [← hattributes, ← bytes_name he]
    apply List.map_congr_left
    intro k hk
    have := List.mem_range.mp hk
    exact filed_entry hS hslot he hclear (by omega)
  exact ((bears_iff he).mp hbytes).1

/-- Bytes of a flat list of clusters. -/
theorem flatMap_clusterBytes (d : Disk) (cs : List Nat) (j : Nat) :
    (cs.flatMap (clusterBytes d))[512 * j]? = cs[j]?.map fun c => d (31 + c) 0 := by
  induction cs generalizing j with
  | nil => rfl
  | cons c cs ih =>
    have hlen : (clusterBytes d c).length = 512 := by rw [clusterBytes, List.length_map, List.length_range]
    rw [List.flatMap_cons]
    cases j with
    | zero =>
      rw [List.getElem?_append_left (by rw [hlen]; decide), clusterBytes, List.getElem?_map, Nat.mul_zero,
        List.getElem?_range (by decide), List.getElem?_cons_zero]
      rfl
    | succ j =>
      have hsum : 512 * (j + 1) - (clusterBytes d c).length = 512 * j := by
        rw [hlen]
        omega
      rw [List.getElem?_append_right (by rw [hlen]; omega), hsum, ih, List.getElem?_cons_succ]

end Filed

/-! ### Necessity -/

/-- Content that no name is made of. -/
def Quiet (buffer : Nat → u8) : Prop := ∀ k, k % 32 = 1 → buffer k = 0

/-- A single byte that is not zero, at the start of a chunk. -/
def marked (j : Nat) (k : Nat) : u8 := if k = 512 * j then 1 else 0

theorem quiet_zero : Quiet fun _ => 0 := fun _ _ => rfl

theorem quiet_marked (j : Nat) : Quiet (marked j) := fun k hk => if_neg (by omega)

section Necessity
variable {d : Disk} {e : DIRECTORY} {slot slot' : Nat × Nat} {S cs : List Nat} {buffer : Nat → u8} {name dn : List u8}
  {len : Nat}

theorem mem_nameBytes {m : MOUNT_INFO} {k : Nat} (hk : k < 11) : slotByte m d slot k ∈ nameBytes m d slot :=
  List.mem_map.mpr ⟨k, List.mem_range.mpr hk, rfl⟩

/-- With such content, only the slot that was taken can have the name, and no chunk went over it. -/
theorem Whole.slot_eq (h : Whole d (filed floppy e slot S buffer d) name buffer len slot' cs) (hquiet : Quiet buffer)
    (hS : ∀ c ∈ S, c < 342) (hslot : slot ∈ slots) (he : e.filename.length = 11) (hdn : dosName name = some dn)
    (hzero : 0 ∉ dn) : slot' = slot ∧ ∀ c ∈ S, floppy.rootOffset + slot.1 ≠ 31 + c := by
  have hnamed : nameBytes floppy (filed floppy e slot S buffer d) slot' = dn :=
    Option.some.inj (h.named.symm.trans hdn)
  have hdata : ∀ c ∈ S, floppy.rootOffset + slot'.1 ≠ 31 + c := by
    intro c hc hover
    obtain ⟨i, -, -, hbyte⟩ := filed_chunk hc
    have hlt := (mem_slots.mp h.mem).2
    have hbyte : slotByte floppy (filed floppy e slot S buffer d) slot' 1 = 0 := by
      rw [slotByte, hover, hbyte _ _ _ _ _ _ (by omega)]
      exact hquiet _ (by omega)
    exact hzero (hnamed ▸ hbyte ▸ mem_nameBytes (by decide))
  have heq : slot' = slot := by
    by_contra hne
    have hbyte : slotByte floppy (filed floppy e slot S buffer d) slot' 0 = 0 := by
      rw [filed_slot hS (by decide) he hslot h.mem hdata (by decide), if_neg hne]
      exact h.free
    exact hzero (hnamed ▸ hbyte ▸ mem_nameBytes (by decide))
  exact ⟨heq, heq ▸ hdata⟩

/-- If for any content the file is whole or nothing has changed, no chunk went over the entry. -/
theorem filed_clear (h : ∀ buffer, (∃ slot' cs, Whole d (filed floppy e slot S buffer d) name buffer len slot' cs) ∨
      filed floppy e slot S buffer d = d)
    (hS : ∀ c ∈ S, c < 342) (hslot : slot ∈ slots) (he : e.filename.length = 11) (hdn : dosName name = some dn)
    (hzero : 0 ∉ dn) : ∀ c ∈ S, floppy.rootOffset + slot.1 ≠ 31 + c := by
  intro c hc hover
  obtain ⟨i, -, -, hbyte⟩ := filed_chunk hc
  have hsame : ∀ buffer, Quiet buffer → filed floppy e slot S buffer d = d := by
    intro buffer hquiet
    refine (h buffer).resolve_left ?_
    rintro ⟨slot', cs, hwhole⟩
    exact (hwhole.slot_eq hquiet hS hslot he hdn hzero).2 c hc hover
  have hbytes := congrFun (congrFun ((hsame _ quiet_zero).trans (hsame _ (quiet_marked i)).symm) (31 + c)) 0
  rw [hbyte _ _ _ _ _ _ (by decide), hbyte _ _ _ _ _ _ (by decide), marked, if_pos (Nat.add_zero _)] at hbytes
  exact absurd hbytes (by decide)

/-- Where no chunk goes over the entry, something has changed. -/
theorem filed_ne (hS : ∀ c ∈ S, c < 342) (hslot : slot ∈ slots) (hfree : slotByte floppy d slot 0 = 0)
    (he : e.filename.length = 11) (hattributes : e.attributes = 0) (hzero : 0 ∉ e.filename)
    (hclear : ∀ c ∈ S, floppy.rootOffset + slot.1 ≠ 31 + c) : filed floppy e slot S buffer d ≠ d := by
  intro hsame
  have hname : nameBytes floppy (filed floppy e slot S buffer d) slot = e.filename :=
    filed_name hS hslot he hclear hattributes
  rw [hsame] at hname
  exact hzero (hname ▸ hfree ▸ mem_nameBytes (by decide))

/-- The chain of the entry is the one that the links make. -/
theorem Whole.linked (h : Whole d (filed floppy e slot S buffer d) name buffer len slot cs) (hS : ∀ c ∈ S, c < 342)
    (he : e.filename.length = 11) (hclear : ∀ c ∈ S, floppy.rootOffset + slot.1 ≠ 31 + c) :
    Chain 0 (next (updateFAT S d)) e.firstClusterLow.toNat cs := by
  have hentry : ∀ k < 32, slotByte floppy (filed floppy e slot S buffer d) slot k = e.bytes[k]?.getD 0 :=
    fun k hk => filed_entry hS h.mem he hclear hk
  have hfields := fields_of_bytes he hentry
  have hchain := h.chain
  rw [hfields.1] at hchain
  refine hchain.congr fun c hc => (filed_next hS ?_).symm
  have := (h.inside c hc).2
  omega

/-- Every cluster of the chain starts with the first byte of its chunk. -/
theorem Whole.chunk {d' : Disk} (h : Whole d d' name buffer len slot cs) {j c : Nat} (hc : cs[j]? = some c) :
    d' (31 + c) 0 = buffer (512 * j) := by
  have hj := (List.getElem?_eq_some_iff.mp hc).1
  rw [h.count] at hj
  have hin : 512 * j < ((List.range len).map buffer).length := by
    rw [List.length_map, List.length_range]
    omega
  obtain ⟨after, hafter⟩ := h.data
  have hbyte := flatMap_clusterBytes d' cs j
  rw [← hafter, List.getElem?_append_left hin, hc, List.getElem?_map, List.getElem?_range (by omega)] at hbyte
  exact (Option.some.inj hbyte).symm

/-- If the file is whole for any content, its chain is what was located. -/
theorem located_eq (h : ∀ buffer, ∃ slot' cs, Whole d (filed floppy e slot S buffer d) name buffer len slot' cs)
    (hS : ∀ c ∈ S, c < 342) (hcount : S.length ≤ (len + 511) / 512) (hslot : slot ∈ slots) (he : e.filename.length = 11)
    (hdn : dosName name = some dn) (hzero : 0 ∉ dn) : S.length = (len + 511) / 512 ∧ S.Nodup ∧ (∀ c ∈ S, 2 ≤ c) ∧
      Chain 0 (next (updateFAT S d)) e.firstClusterLow.toNat S := by
  have hquiet : ∀ buffer, Quiet buffer → ∃ cs, Whole d (filed floppy e slot S buffer d) name buffer len slot cs ∧
      Chain 0 (next (updateFAT S d)) e.firstClusterLow.toNat cs := by
    intro buffer hbuffer
    obtain ⟨slot', cs, hwhole⟩ := h buffer
    obtain ⟨rfl, hclear⟩ := hwhole.slot_eq hbuffer hS hslot he hdn hzero
    exact ⟨cs, hwhole, hwhole.linked hS he hclear⟩
  obtain ⟨cs, hwhole, hchain⟩ := hquiet _ quiet_zero
  -- the byte that marks a chunk is in the cluster of that place, so this is where the chunk went
  have hplace : ∀ j c : Nat, cs[j]? = some c → S[j]? = some c ∧ ∀ i, S[i]? = some c → i ≤ j := by
    intro j c hc
    obtain ⟨cs', hwhole', hchain'⟩ := hquiet _ (quiet_marked j)
    obtain rfl := hchain.unique hchain'
    have hbyte := hwhole.chunk hc
    have hbyte' := hwhole'.chunk hc
    rw [marked, if_pos rfl] at hbyte'
    by_cases hmem : c ∈ S
    · obtain ⟨i, hi, hlast, hchunk⟩ := filed_chunk hmem
      rw [hchunk _ _ _ _ _ _ (by decide), marked] at hbyte'
      split at hbyte'
      · rename_i heq
        obtain rfl : i = j := by omega
        exact ⟨hi, hlast⟩
      · exact absurd hbyte' (by decide)
    · have hlow := (hwhole.inside c (List.mem_of_getElem? hc)).1
      have hroot : 31 + c ≠ floppy.rootOffset + slot.1 := by
        have := (mem_slots.mp hslot).1
        show 31 + c ≠ 19 + slot.1
        omega
      have hdata : ∀ c' ∈ S, 31 + c ≠ 31 + c' := fun c' hc' heq => hmem (Nat.add_left_cancel heq ▸ hc')
      rw [filed_other hS (by omega) hroot hdata] at hbyte hbyte'
      exact absurd (hbyte.symm.trans hbyte') (by decide)
  obtain rfl : cs = S := by
    apply List.ext_getElem?
    intro j
    cases hc : cs[j]? with
    | none =>
      have hle := List.getElem?_eq_none_iff.mp hc
      rw [hwhole.count] at hle
      exact (List.getElem?_eq_none (by omega)).symm
    | some c => exact (hplace j c hc).1.symm
  refine ⟨hwhole.count, ?_, fun c hc => (hwhole.inside c hc).1, hchain⟩
  rw [List.nodup_iff_getElem?_ne_getElem?]
  intro i j hij hj heq
  obtain ⟨c, hc⟩ : ∃ c, cs[j]? = some c := ⟨_, List.getElem?_eq_getElem hj⟩
  have hle := (hplace i c (heq.trans hc)).2 j hc
  omega

end Necessity

/-! ### All or nothing -/

section Files
variable {d : Disk} {name dn : List u8} {len first : Nat} {rest : List Nat} {slot : Nat × Nat} {s : Surroundings}

theorem needed_eq (hpos : 1 ≤ len) : needed len = (len + 511) / 512 := by
  rw [needed, SECTOR_SIZE]
  split <;> omega

/-- Clusters that can be filled hold the file. -/
theorem Fillable.whole (h : Fillable d (first :: rest) ((len + 511) / 512)) (hS : ∀ c ∈ first :: rest, c < 342)
    (hslot : slot ∈ slots) (hfree : slotByte floppy d slot 0 = 0) (hdn : dosName name = some dn) (hlen : dn.length = 11)
    (hmax : len < 2 ^ 31) (buffer : Nat → u8) :
    Whole d (filed floppy (newDirectory s dn first len) slot (first :: rest) buffer d) name buffer len slot
      (first :: rest) := by
  have hbounds : ∀ c ∈ first :: rest, 2 ≤ c ∧ c < 342 := fun c hc => ⟨h.inside c hc, hS c hc⟩
  have hfirst : (newDirectory s dn first len).firstClusterLow.toNat = first := by
    have := hS first (List.mem_cons_self ..)
    rw [newDirectory, BitVec.toNat_ofNat]
    omega
  have hsize : (newDirectory s dn first len).size.toNat = len := by
    rw [newDirectory, BitVec.toNat_ofNat, Nat.mod_eq_of_lt (by omega)]
  generalize he : newDirectory s dn first len = e at hfirst hsize ⊢
  have hfilename : e.filename = dn := he ▸ rfl
  have hlen' : e.filename.length = 11 := hfilename ▸ hlen
  have hw : Written buffer e slot (first :: rest) d (filed floppy e slot (first :: rest) buffer d) :=
    written buffer hlen' hslot hbounds h.nodup h.links
  obtain ⟨hcluster, hfileSize⟩ := hw.fields hslot hlen'
  have hclear : ∀ c ∈ first :: rest, floppy.rootOffset + slot.1 ≠ 31 + c := by
    intro c hc
    have := h.inside c hc
    have := (mem_slots.mp hslot).1
    show 19 + slot.1 ≠ 31 + c
    omega
  have hnumber : ∀ c ∈ first :: rest, 0 < c ∧ c < 0xFF8 := by
    intro c hc
    have := hbounds c hc
    omega
  refine ⟨hslot, hfree, ?_, ?_, ?_, h.count, fun c hc => ?_, ?_⟩
  · rw [filed_name hS hslot hlen' hclear (he ▸ rfl), hfilename]
    exact hdn
  · exact (congrArg BitVec.toNat hfileSize).trans hsize
  · have hstart : (firstClusterLow (filed floppy e slot (first :: rest) buffer d (floppy.rootOffset + slot.1))
        slot.2).toNat = first := (congrArg BitVec.toNat hcluster).trans hfirst
    rw [hstart]
    exact hw.linked.chain hnumber
  · have := hbounds c hc
    omega
  · rw [hw.stored, h.count]
    apply List.IsPrefix.map
    rw [List.prefix_iff_eq_take, List.length_range, List.take_range, Nat.min_eq_left (by omega)]

/-- If whatever is written is whole or nothing, and nothing only for want of room, the clusters can be
filled. -/
theorem fillable_of_filed {S : List Nat} (hS : ∀ c ∈ S, c < 342) (hcount : S.length ≤ (len + 511) / 512)
    (hmem : slot ∈ slots) (hfree : slotByte floppy d slot 0 = 0) (hdn : dosName name = some dn)
    (hlen : dn.length = 11) (hzero : 0 ∉ dn)
    (h : ∀ buffer,
      ((∃ slot' cs, Whole d (filed floppy (newDirectory s dn first len) slot S buffer d) name buffer len slot' cs) ∨
        filed floppy (newDirectory s dn first len) slot S buffer d = d) ∧
      (¬HasFree d ((len + 511) / 512) ∨ some slot = none →
        filed floppy (newDirectory s dn first len) slot S buffer d = d)) :
    Fillable d S ((len + 511) / 512) := by
  have hclear := filed_clear (fun buffer => (h buffer).1) hS hmem hlen hdn hzero
  have hne : ∀ buffer, filed floppy (newDirectory s dn first len) slot S buffer d ≠ d :=
    fun buffer => filed_ne hS hmem hfree hlen rfl hzero hclear
  obtain ⟨hcount, hnodup, hinside, hchain⟩ :=
    located_eq (fun buffer => (h buffer).1.resolve_right (hne buffer)) hS hcount hmem hlen hdn hzero
  have hnumbered : Numbered S := numbered_of_lt fun c hc => (hS c hc).trans (by decide)
  have hlinked := linked_of_chain hchain fun c rest hsuffix => updateFAT_suffix hnumbered hnodup hsuffix
  refine ⟨hcount, hnodup, hinside, (updateFAT_links hnumbered hnodup).mp hlinked, ?_⟩
  by_contra hfew
  exact hne (fun _ => 0) ((h fun _ => 0).2 (.inl hfew))

/-- **A file is written whole or not at all exactly if** the search fits a page, and nothing is written
or all that was located is a chain of clusters enough. -/
theorem whole_or_nothing (hd : Layout d) (hname : ValidName name) (hpos : 1 ≤ len) (hmax : len < 2 ^ 31)
    (s : Surroundings) : WholeOrNothing s name len d ↔
      (located (mount d) s.behind ((len + 511) / 512) d).length ≤ 1024 ∧
      (firstFree (mount d) d = none ∨ located (mount d) s.behind ((len + 511) / 512) d = [] ∨
        Fillable d (located (mount d) s.behind ((len + 511) / 512) d) ((len + 511) / 512)) := by
  obtain ⟨dn, hdn, hlen, hzero, -⟩ := hname.dosName
  obtain ⟨behind, rtc, w⟩ := s
  rw [hd.mount, ← needed_eq hpos]
  have hS : ∀ c ∈ located floppy behind (needed len) d, c < 342 := located_lt _ _ _
  have hcount : (located floppy behind (needed len) d).length ≤ (len + 511) / 512 := needed_eq hpos ▸ located_length ..
  rcases writetest_cases floppy hdn behind len d with ⟨hpage, hnothing, hwrite⟩ | ⟨hpage, hwrite⟩ |
    ⟨first, rest, slot, hfirst, hpage, hslot, hwrite⟩
  · refine iff_of_true (fun buffer => ⟨d, ?_, .inr rfl, fun _ => rfl⟩) ⟨hpage, ?_⟩
    · rw [hd.mount, hwrite]
    · exact hnothing.elim (fun hnil => .inr (.inl hnil)) .inl
  · refine iff_of_false (fun h => ?_) fun h => hpage h.1
    obtain ⟨d', hd', -⟩ := h fun _ => 0
    rw [hd.mount, hwrite] at hd'
    cases hd'
  · have hmem : slot ∈ slots := List.mem_of_find?_eq_some hslot
    have hfree : slotByte floppy d slot 0 = 0 := by simpa using List.find?_some hslot
    rw [hfirst] at hS hcount
    rw [hfirst, and_iff_right hpage, hslot, or_iff_right (Option.some_ne_none slot),
      or_iff_right (List.cons_ne_nil first rest), needed_eq hpos]
    simp only [WholeOrNothing, hd.mount, hwrite, Option.some.injEq, exists_eq_left', hslot]
    constructor
    · exact fillable_of_filed hS hcount hmem hfree hdn hlen hzero
    · intro h buffer
      refine ⟨.inl ⟨slot, _, h.whole hS hmem hfree hdn hlen hmax buffer⟩, ?_⟩
      rintro (hfew | hnone)
      · exact absurd h.free hfew
      · cases hnone

end Files

/-- Three bytes on an empty volume. -/
theorem whole_or_nothing_blank : WholeOrNothing around newName 3 blank := by
  have hlocated : located (mount blank) around.behind ((3 + 511) / 512) blank = [2] := by decide +kernel
  have hlinks : Links blank [2] := ⟨by decide +kernel, trivial⟩
  have hroom : HasFree blank 1 := by
    refine ⟨[2], by decide, fun k hk => ?_, le_refl 1⟩
    have hfree := List.mem_filter.mp blank_free
    obtain rfl := List.mem_singleton.mp hk
    exact ⟨by decide, by decide, by simpa using hfree.2⟩
  have hfillable : Fillable blank [2] 1 := ⟨rfl, by decide, by decide, hlinks, hroom⟩
  refine (whole_or_nothing blank_wellFormed.layout newName_valid (by decide) (by decide) around).mpr ?_
  rw [hlocated]
  exact ⟨by decide, .inr (.inr hfillable)⟩

/-- All clusters but one are in use. -/
def nearlyFull : Disk := image (fun k => if k = 2 then 0 else 0xFFF) []

/-- Six hundred bytes do not fit into one cluster, and get it. -/
theorem one_cluster_for_two : ∃ d name len, WellFormed (fun _ => none) d (fun _ => []) ∧ ValidName name ∧ 1 ≤ len ∧
    len < 2 ^ 31 ∧ ¬WholeOrNothing around name len d := by
  refine ⟨nearlyFull, newName, 600, image_wellFormed (by decide) (by decide), newName_valid, by decide, by decide, ?_⟩
  intro h
  obtain ⟨dn, hdn, hlen, hzero, -⟩ := newName_valid.dosName
  have hlocated : located (mount nearlyFull) around.behind (needed 600) nearlyFull = [2] := by decide +kernel
  have hfound := findSectors_located (mount nearlyFull) around.behind nearlyFull
    (if 600 % SECTOR_SIZE = 0 then 600 / SECTOR_SIZE else 600 / SECTOR_SIZE + 1)
  rw [← needed, hlocated, if_pos (show [2].length ≤ 1024 by decide)] at hfound
  have hslot : firstFree (mount nearlyFull) nearlyFull = some (0, 0) := by decide +kernel
  have hmem : (0, 0) ∈ slots := by decide
  have hwrite : ∀ buffer, writetest (mount nearlyFull) around newName buffer 600 nearlyFull =
      some (filed (mount nearlyFull) (newDirectory around dn 2 600) (0, 0) [2] buffer nearlyFull) :=
    fun buffer => writetest_something buffer hdn hfound hslot
  simp only [WholeOrNothing, hwrite, hslot, Option.some.injEq, exists_eq_left'] at h
  have hfillable : Fillable nearlyFull [2] ((600 + 511) / 512) :=
    fillable_of_filed (by decide) (by decide) hmem (image_empty _ _ hmem) hdn hlen hzero h
  exact absurd hfillable.count (by decide)

end FAT12

end UntitledOS.Filesystem
