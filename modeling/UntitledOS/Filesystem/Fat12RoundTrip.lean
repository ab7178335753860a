import UntitledOS.Filesystem.Fat12Volume

/-! A file that was written is read back.

`open` gives the first entry under the name, which is the new one unless an entry in front
of it bears the same name. As long as the search for clusters ends in the first sector of
the FAT, a call and its reading agree exactly when no such entry hides the new file, or
hides it behind the same content (`reads_back`). Past that sector the positions found are no
clusters, and the file comes back cut short (`second_sector_lost`). -/
namespace UntitledOS.Filesystem
open Lib Y

namespace FAT12

/-- `open` gives a file of that length, and reading it to its end delivers the content first. -/
def Reads (m : MOUNT_INFO) (after : Nat → List u8) (stack : Fin 3 → FILE) (name content : List u8) (d : Disk) : Prop :=
  ∃ file, «open» m after stack name d = some file ∧ file.flags = FS_FILE ∧ file.fileLength.toNat = content.length ∧
    ∃ fuel bytes, readAll d fuel file = some bytes ∧ content <+: bytes

/-- What was written is what is read. -/
def RoundTrip (m : MOUNT_INFO) (s : Surroundings) (after : Nat → List u8) (stack : Fin 3 → FILE) (name : List u8)
    (buffer : Nat → u8) (len : Nat) (d : Disk) : Prop :=
  ∃ d', writetest m s name buffer len d = some d' ∧ Reads m after stack name ((List.range len).map buffer) d'

/-- The slots in front of the first free one. -/
def earlier (d : Disk) : List (Nat × Nat) := slots.takeWhile fun slot => slotByte floppy d slot 0 ≠ 0

/-- An entry in front of the first free slot is found under the name. -/
def Taken (d : Disk) (name : List u8) : Prop :=
  ∃ dn, dosName name = some dn ∧ ∃ slot ∈ earlier d, Bears floppy d dn slot

/-- A file that is not empty has a cluster. Volume labels and directories have no size. -/
def Sized (d : Disk) (L : File → List Nat) : Prop :=
  ∀ slot, InUse d slot → slotByte floppy d slot 11 &&& 0x18 = 0 → size (d (19 + slot.1)) slot.2 ≠ 0 →
    L (.inl slot) ≠ []

/-- There are so many free clusters on the volume. -/
def HasFree (d : Disk) (n : Nat) : Prop :=
  ∃ S : List Nat, S.Nodup ∧ (∀ k ∈ S, 2 ≤ k ∧ k ≤ 2848 ∧ fatEntry d k = 0) ∧ n ≤ S.length

variable {d d' : Disk}

theorem needed_enough (len : Nat) : len ≤ 512 * needed len := by
  have hdiv := Nat.div_add_mod len 512
  have hmod := Nat.mod_lt len (show 0 < 512 by decide)
  rw [needed, SECTOR_SIZE]
  by_cases hexact : len % 512 = 0
  · rw [if_pos hexact]
    omega
  · rw [if_neg hexact]
    omega

/-! ### Reading elsewhere -/

/-- Reading a chain depends on its entries and its clusters only. -/
theorem readAll_congr {cs : List Nat} (fuel : Nat) (file : FILE)
    (h : Chain 0 (next d) file.currentCluster.toNat (file.currentCluster.toNat :: cs))
    (hsmall : file.currentCluster.toNat < 2 ^ 31)
    (heq : ∀ k ∈ file.currentCluster.toNat :: cs, fatEntry d' k = fatEntry d k ∧ d' (31 + k) = d (31 + k))
    (heof : file.eof = 0) : readAll d' fuel file = readAll d fuel file := by
  induction fuel generalizing cs file with
  | zero => rfl
  | succ fuel ih =>
    obtain ⟨hentry, hsector⟩ := heq _ (List.mem_cons_self ..)
    have hnext := next_congr hentry
    have hbytes : clusterBytes d' file.currentCluster.toNat = clusterBytes d file.currentCluster.toNat := by
      rw [clusterBytes, clusterBytes, hsector]
    cases cs with
    | nil =>
      have hlast := h.tail.eq_nil_iff.mp rfl
      rw [readAll_last hsmall hlast, readAll_last hsmall (hnext.trans hlast), hbytes]
    | cons c cs =>
      obtain rfl : next d file.currentCluster.toNat = c := h.tail.head_eq
      have hgo := h.tail.head_ne
      have hlt := next_lt d file.currentCluster.toNat
      have htoNat := toNat_next d file.currentCluster.toNat
      have hrest := ih {file with currentCluster := BitVec.ofNat 32 (next d file.currentCluster.toNat)}
        (by rw [htoNat]; exact h.tail) (by rw [htoNat]; omega)
        (fun k hk => heq k (List.mem_cons_of_mem _ (htoNat ▸ hk))) heof
      rw [readAll_next hsmall hgo heof, readAll_next hsmall (hnext ▸ hgo) heof, hnext, hbytes, hrest]

/-- Reading comes to an end. -/
def Ends (d : Disk) (file : FILE) : Prop := ∃ fuel bytes, readAll d fuel file = some bytes

/-- Where two FATs differ in entries that lead to an end only, reading ends in both or in none. -/
theorem Ends.congr {S : List Nat} (hsame : ∀ k < 4096, k ∉ S → fatEntry d' k = fatEntry d k)
    (hends : ∀ file : FILE, file.currentCluster.toNat ∈ S → file.eof = 0 → Ends d' file) (file : FILE)
    (hlt : file.currentCluster.toNat < 4096) (heof : file.eof = 0) (h : Ends d file) : Ends d' file := by
  obtain ⟨fuel, bytes, h⟩ := h
  induction fuel generalizing file bytes with
  | zero => cases h
  | succ fuel ih =>
    by_cases hmem : file.currentCluster.toNat ∈ S
    · exact hends file hmem heof
    · have hnext := next_congr (hsame _ hlt hmem)
      by_cases hlast : next d file.currentCluster.toNat = 0
      · exact ⟨1, _, readAll_last (by omega) (hnext.trans hlast) 0⟩
      · rw [readAll_next (by omega) hlast heof] at h
        obtain ⟨rest, hrest, -⟩ := Option.map_eq_some_iff.mp h
        have hlt' := next_lt d file.currentCluster.toNat
        obtain ⟨fuel', bytes', hgo⟩ :=
          ih {file with currentCluster := BitVec.ofNat 32 (next d file.currentCluster.toNat)}
          (by rw [toNat_next]; omega) heof rest hrest
        have hstep := readAll_next (by omega) (show next d' file.currentCluster.toNat ≠ 0 by rw [hnext]; exact hlast)
          heof fuel'
        rw [hnext, hgo] at hstep
        exact ⟨fuel' + 1, _, hstep⟩

/-! ### The entry that is found -/

section Found
variable {buffer : Nat → u8} {e : DIRECTORY} {slot : Nat × Nat} {S : List Nat} {dn : List u8}

theorem slots_split (hslot : firstFree floppy d = some slot) : ∃ post, slots = earlier d ++ slot :: post := by
  obtain ⟨hzero, pre, post, hsplit, hpre⟩ := List.find?_eq_some_iff_append.mp hslot
  have hzero : slotByte floppy d slot 0 = 0 := by simpa using hzero
  have hearlier : earlier d = pre := by
    rw [earlier, hsplit, List.takeWhile_append_of_pos (by simpa using hpre),
      List.takeWhile_cons_of_neg (by simp [hzero]),
      List.append_nil]
  exact ⟨post, by rw [hearlier, hsplit]⟩

theorem bears_congr {slot' : Nat × Nat} (h : ∀ k < 32, slotByte floppy d' slot' k = slotByte floppy d slot' k) :
    Bears floppy d' dn slot' ↔ Bears floppy d dn slot' := by
  have hmap : (List.range 12).map (slotByte floppy d' slot') = (List.range 12).map (slotByte floppy d slot') := by
    apply List.map_congr_left
    intro k hk
    have := List.mem_range.mp hk
    exact h k (by omega)
  rw [Bears, Bears, hmap]

/-- The slots in front keep their bytes. -/
theorem Written.earlier_kept (hw : Written buffer e slot S d d') (hslot : firstFree floppy d = some slot)
    {slot' : Nat × Nat} (hslot' : slot' ∈ earlier d) {k : Nat} (hk : k < 32) :
    slotByte floppy d' slot' k = slotByte floppy d slot' k := by
  have hzero : slotByte floppy d slot 0 = 0 := by simpa using List.find?_some hslot
  have hused : slotByte floppy d slot' 0 ≠ 0 := by simpa using List.mem_takeWhile_imp hslot'
  have hne : slot' ≠ slot := by
    rintro rfl
    exact hused hzero
  have hmem : slot' ∈ slots := (List.takeWhile_sublist _).subset hslot'
  rw [hw.entry slot' hmem k hk, if_neg hne]

/-- After a file was written under a name, the first entry in front that bears the name is
found, and the file's own if there is none. -/
theorem Written.find (hw : Written buffer e slot S d d') (dn : List u8) (hslot : firstFree floppy d = some slot)
    (he : e.filename = dn) (hlen : dn.length = 11) (hattributes : e.attributes = 0) :
    slots.find? (Bears floppy d' dn ·) = ((earlier d).find? (Bears floppy d dn ·)).or (some slot) := by
  obtain ⟨post, hsplit⟩ := slots_split hslot
  have hmem : slot ∈ slots := List.mem_of_find?_eq_some hslot
  have hearlier : (earlier d).find? (Bears floppy d' dn ·) = (earlier d).find? (Bears floppy d dn ·) := by
    apply List.find?_congr
    intro slot' hslot'
    exact decide_eq_decide.mpr (bears_congr fun k hk => hw.earlier_kept hslot hslot' hk)
  have hself : Bears floppy d' dn slot := by
    have hmap : (List.range 12).map (slotByte floppy d' slot) = (List.range 12).map fun k => e.bytes[k]?.getD 0 := by
      apply List.map_congr_left
      intro k hk
      have := List.mem_range.mp hk
      rw [hw.entry slot hmem k (by omega), if_pos rfl]
    rw [Bears, hmap, bytes_name (he ▸ hlen), he, hattributes]
  rw [hsplit, List.find?_append, hearlier, List.find?_cons_of_pos (by simpa using hself)]

/-- The cluster and the size of the new entry. -/
theorem Written.fields (hw : Written buffer e slot S d d') (hmem : slot ∈ slots) (he : e.filename.length = 11) :
    firstClusterLow (d' (19 + slot.1)) slot.2 = e.firstClusterLow ∧ size (d' (19 + slot.1)) slot.2 = e.size := by
  have hbytes : ∀ k < 32, slotByte floppy d' slot k = e.bytes[k]?.getD 0 := by
    intro k hk
    rw [hw.entry slot hmem k hk, if_pos rfl]
  have hfields := fields_of_bytes he hbytes
  exact hfields

end Found

section Reading
variable {name dn : List u8} {s : Surroundings} {buffer : Nat → u8} {len first : Nat} {rest : List Nat}
  {slot : Nat × Nat} (after : Nat → List u8) (stack : Fin 3 → FILE)

/-- What `open` gives for an entry. -/
def fileAt (stack : Fin 3 → FILE) (name : List u8) (d : Disk) (slot : Nat × Nat) : FILE :=
  { stack 1 with
    name := name
    id := 0
    currentCluster := (firstClusterLow (d (19 + slot.1)) slot.2).setWidth 32
    eof := 0
    fileLength := size (d (19 + slot.1)) slot.2
    flags := FS_FILE }

/-- A new file is found, and read back. -/
theorem Written.reads (hw : Written buffer (newDirectory s dn first len) slot (first :: rest) d d')
    (hname : ValidName name) (hdn : dosName name = some dn) (hslot : firstFree floppy d = some slot)
    (hlen : len < 2 ^ 31) (hcount : (first :: rest).length = needed len)
    (hS : ∀ k ∈ first :: rest, 0 < k ∧ k < 0xFF8) (hnew : ¬Taken d name) :
    Reads floppy after stack name ((List.range len).map buffer) d' := by
  obtain ⟨dn', hdn', hchars, hzero, -⟩ := hname.dosName
  obtain rfl : dn = dn' := Option.some.inj (hdn.symm.trans hdn')
  have hmem : slot ∈ slots := List.mem_of_find?_eq_some hslot
  have hnone : (earlier d).find? (Bears floppy d dn ·) = none := by
    rw [List.find?_eq_none]
    intro slot' hslot' hbears
    exact hnew ⟨dn, hdn, slot', hslot', by simpa using hbears⟩
  have hfind := hw.find dn hslot rfl hchars rfl
  rw [hnone, Option.none_or] at hfind
  obtain ⟨hcluster, hsize⟩ := hw.fields hmem hchars
  have hopen := open_eq hname.tokens hdn hchars hzero hfind after stack
  have hfirst : ((firstClusterLow (d' (19 + slot.1)) slot.2).setWidth 32).toNat = first := by
    have := hS first (List.mem_cons_self ..)
    rw [hcluster, BitVec.toNat_setWidth, newDirectory, BitVec.toNat_ofNat]
    omega
  have hsmall : first < 2 ^ 31 := by
    have := hS first (List.mem_cons_self ..)
    omega
  have hread := readAll_chain (hw.linked.chain hS)
    (show (fileAt stack name d' slot).currentCluster.toNat = first from hfirst) hsmall rfl
  refine ⟨_, hopen, rfl, ?_, _, _, hread, ?_⟩
  · show (size (d' (19 + slot.1)) slot.2).toNat = _
    rw [hsize, newDirectory, BitVec.toNat_ofNat, List.length_map, List.length_range]
    omega
  · rw [hw.stored, hcount]
    apply List.IsPrefix.map
    rw [List.prefix_iff_eq_take, List.length_range, List.take_range, Nat.min_eq_left (needed_enough len)]

/-- An entry found under a valid name is a file's, and its attributes are zero. -/
theorem bears_inUse (hzero : 0 ∉ dn) (hdeleted : dn.head? ≠ some 0xE5) (hlen : dn.length = 11) (hslot : slot ∈ slots)
    (hbears : Bears floppy d dn slot) : InUse d slot ∧ slotByte floppy d slot 11 = 0 := by
  obtain ⟨c, cs, rfl⟩ := List.exists_cons_of_length_pos (show 0 < dn.length by omega)
  have hfirst : slotByte floppy d slot 0 = c := by
    have := congrArg (·[0]?) hbears
    simpa using this
  have hlast : slotByte floppy d slot 11 = 0 := by
    have hlen : cs.length = 10 := by simpa using hlen
    have hzero : ((c :: cs) ++ [0])[11]? = some (0 : u8) := by simp [hlen]
    have := congrArg (·[11]?) hbears
    simp only [hzero] at this
    simpa using this
  refine ⟨⟨hslot, ?_, ?_⟩, hlast⟩
  · rw [hfirst]
    rintro rfl
    exact hzero (List.mem_cons_self ..)
  · rw [hfirst]
    rintro rfl
    exact hdeleted rfl

/-- Reading from anywhere on a chain comes to an end. -/
theorem ends_linked {S : List Nat} {p : Nat} (h : Chain 0 (next d) p S) (hS : ∀ k ∈ S, 0 < k ∧ k < 0xFF8) {file : FILE}
    (hmem : file.currentCluster.toNat ∈ S) (heof : file.eof = 0) : Ends d file := by
  obtain ⟨pre, post, rfl⟩ := List.append_of_mem hmem
  have hsmall := (hS _ hmem).2
  exact ⟨_, _, readAll_chain (.cons (h.ne_null _ hmem) h.after) rfl (by omega) heof⟩

/-- An old entry of that name is found before and after, in front of the new one. -/
theorem Written.open_old (hw : Written buffer (newDirectory s dn first len) slot (first :: rest) d d')
    (hname : ValidName name) (hdn : dosName name = some dn) (hslot : firstFree floppy d = some slot) {old : Nat × Nat}
    (hold : (earlier d).find? (Bears floppy d dn ·) = some old) :
    «open» floppy after stack name d = some (fileAt stack name d old) ∧
      «open» floppy after stack name d' = some (fileAt stack name d old) := by
  obtain ⟨dn', hdn', hchars, hzero, hdeleted⟩ := hname.dosName
  obtain rfl : dn = dn' := Option.some.inj (hdn.symm.trans hdn')
  obtain ⟨post, hsplit⟩ := slots_split hslot
  have hfind : slots.find? (Bears floppy d dn ·) = some old := by
    rw [hsplit, List.find?_append, hold, Option.some_or]
  have hfind' := hw.find dn hslot rfl hchars rfl
  rw [hold, Option.some_or] at hfind'
  have hmem : old ∈ earlier d := List.mem_of_find?_eq_some hold
  have hkept : ∀ k < 32, slotByte floppy d' old k = slotByte floppy d old k :=
    fun k hk => hw.earlier_kept hslot hmem hk
  have hcluster : firstClusterLow (d' (19 + old.1)) old.2 = firstClusterLow (d (19 + old.1)) old.2 :=
    congrArg₂ Packed.word (hkept 26 (by decide)) (hkept 27 (by decide))
  have hsize : size (d' (19 + old.1)) old.2 = size (d (19 + old.1)) old.2 :=
    congrArg₂ (· ++ ·) (congrArg₂ Packed.word (hkept 30 (by decide)) (hkept 31 (by decide)))
      (congrArg₂ Packed.word (hkept 28 (by decide)) (hkept 29 (by decide)))
  have hopen' := open_eq hname.tokens hdn hchars hzero hfind' after stack
  rw [hcluster, hsize] at hopen'
  exact ⟨open_eq hname.tokens hdn hchars hzero hfind after stack, hopen'⟩

/-- An old file of that name reads as before. -/
theorem Written.reads_old {inner : Nat → Option Nat} {L : File → List Nat}
    (hw : Written buffer (newDirectory s dn first len) slot (first :: rest) d d') (h : WellFormed inner d L)
    (hsized : Sized d L) (hname : ValidName name) (hdn : dosName name = some dn)
    (hslot : firstFree floppy d = some slot) (hlen : len < 2 ^ 31)
    (hS : ∀ k ∈ first :: rest, 0 < k ∧ k < 0xFF8) (hfree : ∀ k ∈ first :: rest, fatEntry d k = 0)
    (htaken : Taken d name) :
    Reads floppy after stack name ((List.range len).map buffer) d' ↔
      Reads floppy after stack name ((List.range len).map buffer) d := by
  obtain ⟨dn', hdn', hchars, hzero, hdeleted⟩ := hname.dosName
  obtain rfl : dn = dn' := Option.some.inj (hdn.symm.trans hdn')
  obtain ⟨old, hold⟩ : ∃ old, (earlier d).find? (Bears floppy d dn ·) = some old := by
    obtain ⟨dn', hdn', slot', hslot', hbears⟩ := htaken
    obtain rfl : dn = dn' := Option.some.inj (hdn.symm.trans hdn')
    rw [← Option.isSome_iff_exists, List.find?_isSome]
    exact ⟨slot', hslot', by simpa using hbears⟩
  have hmem : old ∈ earlier d := List.mem_of_find?_eq_some hold
  obtain ⟨hopen, hopen'⟩ := hw.open_old after stack hname hdn hslot hold
  -- what `open` gives is read to the same end, or the same bytes
  obtain ⟨huse, hattributes⟩ := bears_inUse hzero hdeleted hchars ((List.takeWhile_sublist _).subset hmem)
    (by simpa using List.find?_some hold)
  have hchain := h.files.chain (.inl old)
  rw [head, if_pos huse, Option.getD_some] at hchain
  have hwide : ((firstClusterLow (d (19 + old.1)) old.2).setWidth 32).toNat =
      (firstClusterLow (d (19 + old.1)) old.2).toNat := by
    have := (firstClusterLow (d (19 + old.1)) old.2).isLt
    rw [BitVec.toNat_setWidth]
    omega
  simp only [Reads, hopen, hopen', Option.some.injEq, exists_eq_left', List.length_map, List.length_range]
  apply and_congr_right
  intro _
  apply and_congr_right
  intro hlength
  cases hL : L (.inl old) with
  | nil =>
    have hempty : size (d (19 + old.1)) old.2 = 0 := by
      by_contra hne
      exact hsized old huse (by rw [hattributes]; rfl) hne hL
    have hzero : len = 0 := by
      rw [← hlength]
      exact congrArg BitVec.toNat hempty
    have hstart := (hchain.eq_nil_iff.mp hL)
    have hlt : ((firstClusterLow (d (19 + old.1)) old.2).setWidth 32).toNat < 4096 := by
      rw [hwide, hstart]
      decide
    subst hzero
    simp only [List.range_zero, List.map_nil, List.nil_prefix, and_true]
    constructor
    · exact Ends.congr (fun k hk hmem => (hw.other k hk hmem).symm)
        (fun file hmem _ => ⟨1, _, readAll_last (by have := hS _ hmem; omega)
          (next_eq_zero.mpr (.inr (hfree _ hmem))) 0⟩) _ hlt rfl
    · exact Ends.congr hw.other (fun file hmem heof => ends_linked (hw.linked.chain hS) hS hmem heof) _ hlt rfl
  | cons c cs =>
    rw [hL] at hchain
    have hkeep : ∀ k ∈ c :: cs, fatEntry d' k = fatEntry d k ∧ d' (31 + k) = d (31 + k) := by
      intro k hk
      rw [← hL] at hk
      obtain ⟨hnot, hentry⟩ := h.entry_kept hw hfree hk
      exact ⟨hentry, hw.kept k (h.used _ k hk).1 hnot⟩
    have hc := hchain.head_eq.symm.trans hwide.symm
    rw [hc] at hkeep
    rw [← hwide, hc] at hchain
    have hsmall : (fileAt stack name d old).currentCluster.toNat < 2 ^ 31 := by
      have := (firstClusterLow (d (19 + old.1)) old.2).isLt
      rw [fileAt, hwide]
      omega
    have hsame := fun fuel => readAll_congr fuel (fileAt stack name d old) hchain hsmall hkeep rfl
    simp only [hsame]

end Reading

/-! ### The round trip -/

variable {inner : Nat → Option Nat} {L : File → List Nat}

theorem reads_back (h : WellFormed inner d L) (hsized : Sized d L) {name : List u8} (hname : ValidName name)
    {len : Nat} (hlen : len < 2 ^ 31) (hslot : firstFree (mount d) d ≠ none) (hfew : needed len ≤ (free d).length)
    (s : Surroundings) (after : Nat → List u8) (stack : Fin 3 → FILE) (buffer : Nat → u8) :
    RoundTrip (mount d) s after stack name buffer len d ↔
      (Taken d name → Reads (mount d) after stack name ((List.range len).map buffer) d) := by
  rw [h.layout.mount] at hslot ⊢
  obtain ⟨slot, hslot⟩ := Option.ne_none_iff_exists'.mp hslot
  obtain ⟨dn, hdn, hchars, -, -⟩ := hname.dosName
  have hcount : ((free d).take (needed len)).length = needed len := by
    rw [List.length_take, Nat.min_eq_left hfew]
  obtain ⟨first, rest, hS⟩ : ∃ first rest, (free d).take (needed len) = first :: rest := by
    apply List.exists_cons_of_length_pos
    rw [hcount]
    exact Nat.le_max_left 1 _
  have hbounds : ∀ k ∈ first :: rest, 2 ≤ k ∧ k < 341 ∧ fatEntry d k = 0 := by
    intro k hk
    rw [← hS] at hk
    exact mem_free h.layout (List.mem_of_mem_take hk)
  have hnumber : ∀ k ∈ first :: rest, 0 < k ∧ k < 0xFF8 := by
    intro k hk
    have := hbounds k hk
    omega
  rw [hS] at hcount
  obtain ⟨d', hd', hw⟩ := writetest_written s buffer h.layout hdn hchars hslot (.inl hfew) hS
  have hreads : RoundTrip floppy s after stack name buffer len d ↔
      Reads floppy after stack name ((List.range len).map buffer) d' := by
    rw [RoundTrip, hd']
    simp
  rw [hreads]
  by_cases htaken : Taken d name
  · rw [imp_iff_right htaken]
    exact hw.reads_old after stack h hsized hname hdn hslot hlen hnumber (fun k hk => (hbounds k hk).2.2) htaken
  · exact iff_of_true (hw.reads after stack hname hdn hslot hlen hcount hnumber htaken) fun h => absurd h htaken

/-- Seventy-nine clusters on an empty volume. -/
theorem reads_back_blank :
    RoundTrip (mount blank) around (fun _ => []) (fun _ => ⟨[], 0, 0, 0, 0, 0⟩) newName (fun _ => 0x58) 40000
      blank := by
  have hsized : Sized blank fun _ => [] := fun slot huse => absurd (blank_empty slot huse.1) huse.2.1
  have hslot : firstFree (mount blank) blank ≠ none := by decide +kernel
  have hearlier : earlier blank = [] := by decide +kernel
  have hiff := reads_back blank_wellFormed hsized newName_valid (show 40000 < 2 ^ 31 by decide) hslot
    (show needed 40000 ≤ (free blank).length by decide +kernel) around (fun _ => []) (fun _ => ⟨[], 0, 0, 0, 0, 0⟩)
    fun _ => 0x58
  refine hiff.mpr ?_
  rintro ⟨dn, hdn, slot, hslot, -⟩
  rw [hearlier] at hslot
  cases hslot

/-- On a volume whose first FAT sector is full, six hundred bytes come back as one sector,
whatever is free behind. -/
theorem second_sector_lost :
    ∃ d L name len, WellFormed (fun _ => none) d L ∧ Sized d L ∧ ValidName name ∧ len < 2 ^ 31 ∧
      firstFree (mount d) d ≠ none ∧ ¬Taken d name ∧
      HasFree d (needed len) ∧
      ¬RoundTrip (mount d) around (fun _ => []) (fun _ => ⟨[], 0, 0, 0, 0, 0⟩) name (fun _ => 0x58) len d := by
  have hsized : Sized crowded (Function.update (fun _ => []) (.inl (0, 0)) (List.range' 2 340)) := by
    intro slot huse _ _
    have hslot : slot = (0, 0) := by
      by_contra hne
      exact huse.2.1 (crowded_empty slot huse.1 hne)
    rw [hslot, Function.update_self]
    decide
  have hnew : ¬Taken crowded newName := by
    rintro ⟨dn, hdn, slot, hslot, hbears⟩
    have hearlier : ∀ slot ∈ earlier crowded, some ((List.range 12).map (slotByte floppy crowded slot)) ≠
        (dosName newName).map (· ++ [0]) := by decide +kernel
    rw [Bears] at hbears
    apply hearlier slot hslot
    rw [hdn, hbears]
    rfl
  have hwrite : ((writetest (mount crowded) around newName (fun _ => 0x58) 600 crowded).bind fun d' =>
      («open» (mount crowded) (fun _ => []) (fun _ => ⟨[], 0, 0, 0, 0, 0⟩) newName d').map fun file =>
        (file.currentCluster.toNat, next d' 1)) = some (1, 0) := by decide +kernel
  refine ⟨crowded, _, newName, 600, crowded_wellFormed, hsized, newName_valid, by decide,
    by decide +kernel, hnew, ⟨[342, 343], by decide, by decide +kernel, by decide⟩, ?_⟩
  rintro ⟨d', hd', file, hopen, -, -, fuel, bytes, hread, hprefix⟩
  rw [hd', Option.bind_some, hopen, Option.map_some, Option.some.injEq, Prod.mk.injEq] at hwrite
  obtain ⟨hcluster, hlast⟩ := hwrite
  cases fuel with
  | zero => cases hread
  | succ fuel =>
    rw [readAll_last (by rw [hcluster]; decide) (hcluster ▸ hlast)] at hread
    have hlen := hprefix.length_le
    rw [← Option.some.inj hread, clusterBytes, List.length_map, List.length_map, List.length_range,
      List.length_range] at hlen
    omega

end FAT12

end UntitledOS.Filesystem
