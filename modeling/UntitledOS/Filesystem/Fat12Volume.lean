import UntitledOS.Filesystem.Fat12Write

/-! Files on a volume.

A file is its chain of clusters. Files in the root directory are told by their slots;
what lies in subdirectories the driver never looks at, and it is any other family of
chains (`inner`). A volume is well formed when no two of the chains share a cluster and
every cluster of theirs is marked used, which is what a new file needs to be no trouble to
the others (`Written.wellFormed`, `Written.untouched`). -/
namespace UntitledOS.Filesystem
open Lib

namespace FAT12

/-- The file in a slot of the root directory, or one below it. -/
abbrev File := Nat × Nat ⊕ Nat

/-- The entry is that of a file: the slot is neither free nor deleted. -/
def InUse (d : Disk) (slot : Nat × Nat) : Prop :=
  slot ∈ slots ∧ slotByte floppy d slot 0 ≠ 0 ∧ slotByte floppy d slot 0 ≠ 0xE5

instance (d : Disk) (slot : Nat × Nat) : Decidable (InUse d slot) :=
  inferInstanceAs (Decidable (_ ∧ _))

/-- The first cluster of a file, which is 0 when it has none. -/
def head (inner : Nat → Option Nat) (d : Disk) : File → Option Nat
  | .inl slot => if InUse d slot then some (firstClusterLow (d (19 + slot.1)) slot.2).toNat else none
  | .inr k => inner k

/-- The chains of the files are `L`. -/
structure WellFormed (inner : Nat → Option Nat) (d : Disk) (L : File → List Nat) : Prop where
  layout : Layout d
  files : Family 0 (next d) (fun f => (head inner d f).getD 0) L
  used : ∀ f, ∀ c ∈ L f, 2 ≤ c ∧ c ≤ 2848 ∧ fatEntry d c ≠ 0

/-- Every file there was is as it was: its first cluster, its chain, and what is in it. -/
def Untouched (inner : Nat → Option Nat) (d d' : Disk) (L L' : File → List Nat) : Prop :=
  ∀ f h, head inner d f = some h →
    head inner d' f = some h ∧ L' f = L f ∧ ∀ c ∈ L f, d' (31 + c) = d (31 + c)

/-- The root directory has no entry of that name. -/
def New (d : Disk) (name : List u8) : Prop :=
  ∀ slot ∈ slots, some ((List.range 11).map (slotByte floppy d slot)) ≠ dosName name

instance (d : Disk) (name : List u8) : Decidable (New d name) :=
  inferInstanceAs (Decidable (∀ _ ∈ _, _))

theorem Untouched.refl (inner : Nat → Option Nat) (d : Disk) (L : File → List Nat) : Untouched inner d d L L :=
  fun _ _ h => ⟨h, rfl, fun _ _ => rfl⟩

section Writing
variable {inner : Nat → Option Nat} {d d' : Disk} {L : File → List Nat} {buffer : Nat → u8} {e : DIRECTORY}
  {slot : Nat × Nat} {S : List Nat}

/-- The other slots are as they were. -/
theorem Written.head_of_ne (hw : Written buffer e slot S d d') {f : File} (hf : f ≠ .inl slot) :
    head inner d' f = head inner d f := by
  cases f with
  | inr k => rfl
  | inl slot' =>
    have hne : slot' ≠ slot := fun heq => hf (heq ▸ rfl)
    by_cases hmem : slot' ∈ slots
    · have hbyte : ∀ k < 32, slotByte floppy d' slot' k = slotByte floppy d slot' k := by
        intro k hk
        rw [hw.entry slot' hmem k hk, if_neg hne]
      have huse : InUse d' slot' ↔ InUse d slot' := by
        rw [InUse, InUse, hbyte 0 (by decide)]
      have hcluster : firstClusterLow (d' (19 + slot'.1)) slot'.2 = firstClusterLow (d (19 + slot'.1)) slot'.2 :=
        congrArg₂ Packed.word (hbyte 26 (by decide)) (hbyte 27 (by decide))
      simp only [head, huse, hcluster]
    · rw [head, head, if_neg fun h => hmem h.1, if_neg fun h => hmem h.1]

/-- The new file starts at the cluster in its entry. -/
theorem Written.head_self (hw : Written buffer e slot S d d') (hslot : slot ∈ slots) (he : e.filename.length = 11)
    (hzero : 0 ∉ e.filename) (hdeleted : e.filename.head? ≠ some 0xE5) :
    head inner d' (.inl slot) = some e.firstClusterLow.toNat := by
  have hbyte : ∀ k < 32, slotByte floppy d' slot k = e.bytes[k]?.getD 0 := by
    intro k hk
    rw [hw.entry slot hslot k hk, if_pos rfl]
  obtain ⟨c, name, hname⟩ := List.exists_cons_of_length_pos (show 0 < e.filename.length by omega)
  have hfirst : slotByte floppy d' slot 0 = c := by
    rw [hbyte 0 (by decide), DIRECTORY.bytes, hname]
    rfl
  have huse : InUse d' slot := by
    refine ⟨hslot, ?_, ?_⟩
    · rw [hfirst]
      rintro rfl
      exact hzero (hname ▸ List.mem_cons_self ..)
    · rw [hfirst]
      rintro rfl
      exact hdeleted (hname ▸ rfl)
  have hlow : slotByte floppy d' slot 26 = e.firstClusterLow.setWidth 8 := by
    rw [hbyte 26 (by decide), bytes_last he 0]
    rfl
  have hhigh : slotByte floppy d' slot 27 = (e.firstClusterLow >>> 8).setWidth 8 := by
    rw [hbyte 27 (by decide), bytes_last he 1]
    rfl
  have hcluster : firstClusterLow (d' (19 + slot.1)) slot.2 = e.firstClusterLow :=
    (congrArg₂ Packed.word hlow hhigh).trans (Packed.word_bytes _)
  rw [head, if_pos huse, hcluster]

/-- No chain goes through a free cluster, so writing to some changes no chain's entries. -/
theorem WellFormed.entry_kept (h : WellFormed inner d L) (hw : Written buffer e slot S d d')
    (hfree : ∀ k ∈ S, fatEntry d k = 0) {f : File} {c : Nat} (hc : c ∈ L f) :
    c ∉ S ∧ fatEntry d' c = fatEntry d c := by
  obtain ⟨-, hlt, hne⟩ := h.used f c hc
  have hnot : c ∉ S := fun hmem => hne (hfree c hmem)
  exact ⟨hnot, hw.other c (by omega) hnot⟩

theorem Written.layout (hw : Written buffer e slot S d d') (h : Layout d) (hS : ∀ k ∈ S, 2 ≤ k) : Layout d' := by
  have hkeep : ∀ k < 2, fatEntry d' k = fatEntry d k := by
    intro k hk
    refine hw.other k (by omega) fun hmem => ?_
    have := hS k hmem
    omega
  refine ⟨?_, ?_, ?_⟩
  · rw [← h.mount, mount, mount, hw.boot]
  · rw [hkeep 0 (by decide)]
    exact h.media
  · rw [hkeep 1 (by decide)]
    exact h.reserved

/-- The slot that was free was no file's. -/
theorem head_firstFree (hslot : firstFree floppy d = some slot) : head inner d (.inl slot) = none := by
  have hzero : slotByte floppy d slot 0 = 0 := by simpa using List.find?_some hslot
  rw [head, if_neg fun h => h.2.1 hzero]

variable {first : Nat} {rest : List Nat}

/-- A new file in a free slot, on free clusters. -/
theorem Written.wellFormed (hw : Written buffer e slot (first :: rest) d d') (h : WellFormed inner d L)
    (hS : ∀ k ∈ first :: rest, 2 ≤ k ∧ k < 341 ∧ fatEntry d k = 0)
    (hnodup : (first :: rest).Nodup) (hhead : head inner d' (.inl slot) = some first) :
    WellFormed inner d' (Function.update L (.inl slot) (first :: rest)) := by
  have hfree : ∀ k ∈ first :: rest, fatEntry d k = 0 := fun k hk => (hS k hk).2.2
  have hnumber : ∀ k ∈ first :: rest, 0 < k ∧ k < 0xFF8 := by
    intro k hk
    have := hS k hk
    omega
  have hchain : Chain 0 (next d') first (first :: rest) := hw.linked.chain hnumber
  have hheads : (fun f => (head inner d' f).getD 0) =
      Function.update (fun f => (head inner d f).getD 0) (.inl slot) first := by
    funext f
    by_cases hf : f = .inl slot
    · rw [hf, Function.update_self, hhead]
      rfl
    · rw [Function.update_of_ne hf, hw.head_of_ne hf]
  have hnew : ∀ f, (L f).Disjoint (first :: rest) := fun f c hc hmem => (h.entry_kept hw hfree hc).1 hmem
  have hnext : ∀ f, ∀ c ∈ L f, next d' c = next d c := fun f c hc => next_congr (h.entry_kept hw hfree hc).2
  refine ⟨hw.layout h.layout fun k hk => (hS k hk).1, ?_, ?_⟩
  · rw [hheads]
    exact h.files.replace hchain hnodup hnew hnext
  · intro f c hc
    by_cases hf : f = .inl slot
    · rw [hf, Function.update_self] at hc
      have hbounds := hS c hc
      exact ⟨hbounds.1, by omega, hw.linked.used hnumber c hc⟩
    · rw [Function.update_of_ne hf] at hc
      obtain ⟨hlow, hhigh, hne⟩ := h.used f c hc
      rw [(h.entry_kept hw hfree hc).2]
      exact ⟨hlow, hhigh, hne⟩

/-- The files there were keep their chains, and what is in them. -/
theorem Written.untouched (hw : Written buffer e slot S d d') (h : WellFormed inner d L)
    (hslot : firstFree floppy d = some slot) (hfree : ∀ k ∈ S, fatEntry d k = 0) :
    Untouched inner d d' L (Function.update L (.inl slot) S) := by
  intro f first hhead
  have hne : f ≠ .inl slot := by
    rintro rfl
    rw [head_firstFree hslot] at hhead
    cases hhead
  refine ⟨?_, Function.update_of_ne hne .., ?_⟩
  · rw [hw.head_of_ne hne, hhead]
  · intro c hc
    exact hw.kept c (h.used f c hc).1 (h.entry_kept hw hfree hc).1

end Writing

/-! ### Volumes to try -/

/-- An image with these entries in both FATs, and these bytes at the start of the root directory. -/
def image (e : Nat → u16) (root : List u8) : Disk := fun s k =>
  if s = 0 then (if k = 16 then 2 else if k = 22 then 9 else 0)
  else if s < 19 then Packed.pack e (512 * ((s - 1) % 9) + k)
  else if s = 19 then root[k]?.getD 0
  else 0

theorem fatEntry_image {e : Nat → u16} (root : List u8) {k : Nat} (hk : k < 3072) (he : e k < 0x1000) :
    fatEntry (image e root) k = e k := by
  have hbyte : ∀ o < 4608, fatByte (image e root) o = Packed.pack e o := by
    intro o ho
    have hpos : 512 * ((1 + o / 512 - 1) % 9) + o % 512 = o := by omega
    rw [fatByte, image, if_neg (by omega), if_pos (by omega), hpos]
  rw [← Packed.entry_pack he]
  exact Packed.entry_congr (hbyte _ (by omega)) (hbyte _ (by omega))

theorem layout_image {e : Nat → u16} (root : List u8) (h₀ : e 0 ≠ 0 ∧ e 0 < 0x1000) (h₁ : e 1 ≠ 0 ∧ e 1 < 0x1000) :
    Layout (image e root) := by
  have hmount : mount (image e root) =
      ⟨1, (Packed.word 9 0).toNat, (2 : u8).toNat * (Packed.word 9 0).toNat + 1⟩ := rfl
  refine ⟨hmount, ?_, ?_⟩
  · rw [fatEntry_image root (by decide) h₀.2]
    exact h₀.1
  · rw [fatEntry_image root (by decide) h₁.2]
    exact h₁.1

/-- Memory full of zeros, at midnight. -/
def around : Surroundings := ⟨fun _ => 0, ⟨0, 0, 0, 1, 1, 0⟩, 0⟩

/-- `NEW.TXT`. -/
def newName : List u8 := [0x4e, 0x45, 0x57, 0x2e, 0x54, 0x58, 0x54]

theorem newName_valid : ValidName newName :=
  ⟨[0x4e, 0x45, 0x57], [0x54, 0x58, 0x54], rfl, by decide, by decide, rfl, by decide, by decide⟩

/-- An empty volume. -/
def blank : Disk := image (fun k => if k = 0 then 0xFF0 else if k = 1 then 0xFFF else 0) []

/-- One file on the clusters up to the one whose entry ends the first sector of the FAT;
the others are free. -/
def crowded : Disk := image
  (fun k => if k = 0 then 0xFF0 else if k < 2 then 0xFFF else if k < 341 then BitVec.ofNat 16 (k + 1)
    else if k = 341 then 0xFFF else 0)
  { filename := [0x4f, 0x4c, 0x44, 0x20, 0x20, 0x20, 0x20, 0x20, 0x44, 0x41, 0x54]
    attributes := 0
    windowsNTRESERVED := 0
    creationTimeMS := 0
    creationTime := 0
    creationDate := 0
    lastAccessedDate := 0
    firstClusterHi := 0
    lastModifiedTime := 0
    lastModifiedDate := 0
    firstClusterLow := 2
    size := 174080 : DIRECTORY }.bytes

theorem image_empty (e : Nat → u16) : ∀ slot ∈ slots, slotByte floppy (image e []) slot 0 = 0 := by
  intro slot _
  have hroot : 19 ≤ floppy.rootOffset + slot.1 := Nat.le_add_right 19 slot.1
  rw [slotByte, image, if_neg (by omega), if_neg (by omega)]
  split <;> rfl

/-- A volume without files. -/
theorem image_wellFormed {e : Nat → u16} (h₀ : e 0 ≠ 0 ∧ e 0 < 0x1000) (h₁ : e 1 ≠ 0 ∧ e 1 < 0x1000) :
    WellFormed (fun _ => none) (image e []) (fun _ => []) := by
  have hnone : ∀ f, head (fun _ => none) (image e []) f = none := by
    rintro (slot | k)
    · exact if_neg fun huse => huse.2.1 (image_empty e slot huse.1)
    · rfl
  have hheads : (fun f => (head (fun _ => none) (image e []) f).getD 0) = fun _ => 0 := by
    funext f
    rw [hnone f]
    rfl
  refine ⟨layout_image [] h₀ h₁, ?_, fun f c hc => absurd hc List.not_mem_nil⟩
  rw [hheads]
  exact Family.empty _

theorem blank_empty : ∀ slot ∈ slots, slotByte floppy blank slot 0 = 0 :=
  image_empty _

theorem blank_wellFormed : WellFormed (fun _ => none) blank (fun _ => []) :=
  image_wellFormed (by decide) (by decide)

theorem blank_free : 2 ∈ free blank := by
  rw [free, List.mem_filter, blank, fatEntry_image [] (by decide) (by decide)]
  decide

/-- Entries that count upwards are linked. -/
theorem linked_range' {d : Disk} {k n : Nat} (hnext : ∀ i, k ≤ i → i < k + n → fatEntry d i = BitVec.ofNat 16 (i + 1))
    (hlast : fatEntry d (k + n) = 0xFFF) : Linked d (List.range' k (n + 1)) := by
  induction n generalizing k with
  | zero => exact ⟨hlast, trivial⟩
  | succ n ih =>
    have hsum : k + (n + 1) = k + 1 + n := by omega
    refine ⟨hnext k (le_refl k) (by omega), ih (fun i hi hi' => hnext i (by omega) (by omega)) ?_⟩
    rw [← hsum, hlast]

theorem crowded_empty : ∀ slot ∈ slots, slot ≠ (0, 0) → slotByte floppy crowded slot 0 = 0 := by
  decide +kernel

theorem crowded_wellFormed :
    WellFormed (fun _ => none) crowded (Function.update (fun _ => []) (.inl (0, 0)) (List.range' 2 340)) := by
  have hlinked : Linked crowded (List.range' 2 340) := by
    apply linked_range'
    · intro i hi hi'
      have hlt : (BitVec.ofNat 16 (i + 1) : u16) < 0x1000 := by
        show (BitVec.ofNat 16 (i + 1)).toNat < 4096
        rw [BitVec.toNat_ofNat]
        omega
      rw [crowded, fatEntry_image _ (by omega)] <;> rw [if_neg (by omega), if_neg (by omega), if_pos (by omega)]
      exact hlt
    · rw [crowded, fatEntry_image _ (by decide)] <;> decide
  have hnumber : ∀ k ∈ List.range' 2 340, 0 < k ∧ k < 0xFF8 := by
    intro k hk
    have := List.mem_range'_1.mp hk
    omega
  have hheads : (fun f => (head (fun _ => none) crowded f).getD 0) =
      Function.update (fun _ => 0) (.inl (0, 0)) 2 := by
    have hfile : head (fun _ => none) crowded (.inl (0, 0)) = some 2 := by decide +kernel
    funext f
    by_cases hf : f = .inl (0, 0)
    · rw [hf, Function.update_self, hfile]
      rfl
    · rw [Function.update_of_ne hf]
      rcases f with slot | k
      · have hne : slot ≠ (0, 0) := fun heq => hf (heq ▸ rfl)
        rw [head, if_neg fun huse => huse.2.1 (crowded_empty slot huse.1 hne)]
        rfl
      · rfl
  refine ⟨layout_image _ (by decide) (by decide), ?_, ?_⟩
  · rw [hheads]
    exact (Family.empty (next crowded)).replace (hlinked.chain hnumber) List.nodup_range' (by simp)
      fun f c hc => absurd hc List.not_mem_nil
  · intro f c hc
    by_cases hf : f = .inl (0, 0)
    · rw [hf, Function.update_self] at hc
      have hrange := List.mem_range'_1.mp hc
      exact ⟨hrange.1, by omega, hlinked.used hnumber c hc⟩
    · rw [Function.update_of_ne hf] at hc
      cases hc

end FAT12

end UntitledOS.Filesystem
