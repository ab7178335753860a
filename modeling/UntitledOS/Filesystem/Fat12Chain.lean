import UntitledOS.Filesystem.Fat12
import UntitledOS.Lib.Chain

/-! Clusters linked to a chain, filled, and read back.

The FAT is one packed array, whatever sector an entry's bytes lie in. `read` looks at both
sectors of an entry that straddles them; `updateFAT` writes the first of them only, so that
a part of such an entry is all it links (`fatEntry_link`). Where no entry straddles and all
are zero this builds the chain (`updateFAT_linked`), the other entries stay as they are
(`updateFAT_other`), and reading the chain to its end delivers its sectors in order
(`readAll_chain`). -/
namespace UntitledOS.Filesystem
open Lib

namespace FAT12

/-- The bytes of the FAT. -/
def fatByte (d : Disk) (o : Nat) : u8 := d (1 + o / 512) (o % 512)

/-- The entry of a cluster. -/
def fatEntry (d : Disk) (cluster : Nat) : u16 := Packed.entry (fatByte d) cluster

/-- The entry's two bytes lie in two sectors. -/
def straddles (cluster : Nat) : Prop := (cluster + cluster / 2) % 512 = 511

instance (cluster : Nat) : Decidable (straddles cluster) :=
  inferInstanceAs (Decidable (_ = _))

/-- The bits of the entry that lie in its first sector. -/
def entryMask (cluster : Nat) : u16 :=
  if straddles cluster then (if cluster % 2 = 1 then 0xF else 0xFF) else 0xFFF

/-- The bytes in a cluster. -/
def clusterBytes (d : Disk) (cluster : Nat) : List u8 := (List.range 512).map (d (31 + cluster))

/-- Where a file goes on behind a cluster, 0 for its end. -/
def next (d : Disk) (cluster : Nat) : Nat :=
  if fatEntry d cluster ≥ 0xFF8 then 0 else (fatEntry d cluster).toNat

/-- What the entry of a cluster says, when these are the clusters behind it. -/
def linkValue : List Nat → u16
  | [] => 0xFFF
  | s2 :: _ => BitVec.ofNat 16 s2

/-- Every entry leads to the next cluster, and the last one says that it is the last. -/
def Linked (d : Disk) : List Nat → Prop
  | [] => True
  | cluster :: rest => fatEntry d cluster = linkValue rest ∧ Linked d rest

variable {d d' : Disk}

theorem fatEntry_congr (h : ∀ s, 1 ≤ s → s < 13 → d' s = d s) {cluster : Nat} (hc : cluster < 4096) :
    fatEntry d' cluster = fatEntry d cluster := by
  have hbyte : ∀ o < 6144, fatByte d' o = fatByte d o := by
    intro o ho
    rw [fatByte, fatByte, h (1 + o / 512) (by omega) (by omega)]
  exact Packed.entry_congr (hbyte _ (by omega)) (hbyte _ (by omega))

theorem next_congr {c : Nat} (h : fatEntry d' c = fatEntry d c) : next d' c = next d c := by
  rw [next, next, h]

theorem next_lt (d : Disk) (c : Nat) : next d c < 0xFF8 := by
  unfold next
  split
  · decide
  · rename_i hlt
    exact Nat.lt_of_not_le hlt

theorem next_eq_zero {c : Nat} : next d c = 0 ↔ fatEntry d c ≥ 0xFF8 ∨ fatEntry d c = 0 := by
  unfold next
  by_cases hge : fatEntry d c ≥ 0xFF8
  · rw [if_pos hge]
    exact iff_of_true rfl (.inl hge)
  · rw [if_neg hge, or_iff_right hge, BitVec.toNat_eq]
    rfl

theorem Linked.congr {S : List Nat} (h : Linked d S) (heq : ∀ k ∈ S, fatEntry d' k = fatEntry d k) :
    Linked d' S := by
  induction S with
  | nil => trivial
  | cons k rest ih =>
    have hhead : fatEntry d' k = linkValue rest := by
      rw [heq k (List.mem_cons_self ..), h.1]
    exact ⟨hhead, ih h.2 fun k hk => heq k (List.mem_cons_of_mem _ hk)⟩

/-! ### Linking -/

theorem linkValue_small {rest : List Nat} (h : ∀ k ∈ rest, k < 4096) : linkValue rest < 0x1000 := by
  cases rest with
  | nil => decide
  | cons k rest =>
    have hk : k < 4096 := h k (List.mem_cons_self ..)
    show (BitVec.ofNat 16 k).toNat < 4096
    rw [BitVec.toNat_ofNat, Nat.mod_eq_of_lt (by omega)]
    exact hk

/-- One turn of `updateFAT`. -/
def linkEntry (cluster : Nat) (v : u16) (d : Disk) : Disk :=
  writeSector (1 + (cluster + cluster / 2) / 512)
    (Packed.orWord (d (1 + (cluster + cluster / 2) / 512)) ((cluster + cluster / 2) % 512)
      (if cluster % 2 = 1 then v <<< 4 else v)) d

theorem updateFAT_cons (cluster : Nat) (rest : List Nat) (d : Disk) :
    updateFAT (cluster :: rest) d = updateFAT rest (linkEntry cluster (linkValue rest) d) := by
  cases rest with
  | nil => rfl
  | cons s2 rest =>
    have hshift : BitVec.ofNat 16 (0x10 * s2) = BitVec.ofNat 16 s2 <<< 4 := by
      apply BitVec.eq_of_toNat_eq
      rw [BitVec.toNat_shiftLeft, BitVec.toNat_ofNat, BitVec.toNat_ofNat, Nat.shiftLeft_eq, Nat.mod_mul_mod,
        Nat.mul_comm]
    rw [updateFAT, hshift]
    rfl

/-- The bytes that a mask is or-ed to, when the second one is out of reach. -/
theorem mask_low (cluster : Nat) (v : u16) (h : straddles cluster) :
    ((if cluster % 2 = 1 then (v &&& entryMask cluster) <<< 4 else v &&& entryMask cluster).setWidth 8 =
        (if cluster % 2 = 1 then v <<< 4 else v).setWidth 8) ∧
      ((if cluster % 2 = 1 then (v &&& entryMask cluster) <<< 4 else v &&& entryMask cluster) >>> 8).setWidth 8 =
        (0 : u8) := by
  unfold entryMask
  rw [if_pos h]
  constructor <;> apply BitVec.eq_of_getLsbD_eq <;> intro i hi <;> split <;> interval_cases i <;> simp

theorem and_small {v : u16} (hv : v < 0x1000) : v &&& 0xFFF = v := by
  apply BitVec.eq_of_toNat_eq
  rw [BitVec.toNat_and]
  have hlt : v.toNat < 2 ^ 12 := hv
  exact (Nat.and_two_pow_sub_one_eq_mod _ 12).trans (Nat.mod_eq_of_lt hlt)

/-- One turn links as much of the entry as lies in its first sector. -/
theorem fatByte_link (cluster : Nat) {v : u16} (hv : v < 0x1000) :
    fatByte (linkEntry cluster v d) = Packed.link (fatByte d) cluster (v &&& entryMask cluster) := by
  have hlow := mask_low cluster v
  have hwhole : ¬straddles cluster → v &&& entryMask cluster = v := by
    intro h
    rw [entryMask, if_neg h, and_small hv]
  unfold straddles at hlow hwhole
  funext b
  simp only [fatByte, linkEntry, writeSector, Packed.link, Packed.orWord]
  generalize cluster + cluster / 2 = o at hlow hwhole ⊢
  by_cases hsector : b / 512 = o / 512
  · have hfirst : b % 512 = o % 512 ↔ b = o := by omega
    have hsecond : b % 512 = o % 512 + 1 ↔ b = o + 1 := by omega
    rw [hsector, if_pos ⟨rfl, Nat.mod_lt _ (by decide)⟩]
    simp only [hfirst, hsecond]
    by_cases hlast : o % 512 = 511
    · have hnot : b ≠ o + 1 := by omega
      rw [if_neg hnot, if_neg hnot, (hlow hlast).1]
    · rw [hwhole hlast]
  · have hfirst : b ≠ o := by
      rintro rfl
      exact hsector rfl
    rw [if_neg (by omega), if_neg hfirst]
    by_cases hsecond : b = o + 1
    · rw [if_pos hsecond, (hlow (by omega)).2]
      exact BitVec.or_zero.symm
    · rw [if_neg hsecond]

theorem mask_lt {v : u16} (hv : v < 0x1000) (mask : u16) : v &&& mask < 0x1000 := by
  show (v &&& mask).toNat < 4096
  rw [BitVec.toNat_and]
  exact Nat.and_le_left.trans_lt hv

theorem fatEntry_link (cluster : Nat) {v : u16} (hv : v < 0x1000) (m : Nat) :
    fatEntry (linkEntry cluster v d) m =
      if m = cluster then fatEntry d m ||| (v &&& entryMask cluster) else fatEntry d m := by
  rw [fatEntry, fatByte_link cluster hv, Packed.entry_link (mask_lt hv _)]
  rfl

/-- The numbers of the clusters that others lead to fit an entry. -/
def Numbered : List Nat → Prop
  | [] => True
  | _ :: rest => ∀ k ∈ rest, k < 4096

theorem numbered_cons {k k' : Nat} {rest : List Nat} :
    Numbered (k :: k' :: rest) ↔ k' < 4096 ∧ Numbered (k' :: rest) := List.forall_mem_cons

theorem Numbered.tail {k : Nat} {rest : List Nat} (h : Numbered (k :: rest)) : Numbered rest := by
  cases rest with
  | nil => trivial
  | cons k' rest => exact fun m hm => h m (List.mem_cons_of_mem _ hm)

theorem numbered_of_lt {S : List Nat} (h : ∀ k ∈ S, k < 4096) : Numbered S := by
  cases S with
  | nil => trivial
  | cons k rest => exact fun m hm => h m (List.mem_cons_of_mem _ hm)

/-- The other entries stay as they are. -/
theorem updateFAT_other {S : List Nat} (hS : Numbered S) {m : Nat} (hm : m ∉ S) :
    fatEntry (updateFAT S d) m = fatEntry d m := by
  induction S generalizing d with
  | nil => rfl
  | cons k rest ih =>
    obtain ⟨hne, hm⟩ := not_or.mp (List.mem_cons.not.mp hm)
    rw [updateFAT_cons, ih hS.tail hm, fatEntry_link k (linkValue_small hS), if_neg hne]

/-- Every entry leads on as far as its first sector goes. -/
def LinkedPart (d : Disk) : List Nat → Prop
  | [] => True
  | cluster :: rest => fatEntry d cluster = linkValue rest &&& entryMask cluster ∧ LinkedPart d rest

/-- A link leaves the entries of the other clusters to link. -/
theorem fatEntry_link_rest {cluster : Nat} {rest : List Nat} (hS : Numbered (cluster :: rest)) (hnew : cluster ∉ rest) :
    ∀ m ∈ rest, fatEntry (linkEntry cluster (linkValue rest) d) m = fatEntry d m := by
  intro m hm
  have hne : m ≠ cluster := by
    rintro rfl
    exact hnew hm
  rw [fatEntry_link cluster (linkValue_small hS), if_neg hne]

/-- What `updateFAT` makes of the entries, whatever was in them. -/
theorem updateFAT_head {cluster : Nat} {rest : List Nat} (hS : Numbered (cluster :: rest)) (hnew : cluster ∉ rest) :
    fatEntry (updateFAT (cluster :: rest) d) cluster =
      fatEntry d cluster ||| (linkValue rest &&& entryMask cluster) := by
  rw [updateFAT_cons, updateFAT_other hS.tail hnew, fatEntry_link cluster (linkValue_small hS), if_pos rfl]

theorem updateFAT_part {S : List Nat} (hS : Numbered S) (hnodup : S.Nodup) (hzero : ∀ k ∈ S, fatEntry d k = 0) :
    LinkedPart (updateFAT S d) S := by
  induction S generalizing d with
  | nil => trivial
  | cons k rest ih =>
    obtain ⟨hnew, hnodup⟩ := List.nodup_cons.mp hnodup
    have hrest : ∀ m ∈ rest, fatEntry (linkEntry k (linkValue rest) d) m = 0 := by
      intro m hm
      rw [fatEntry_link_rest hS hnew m hm, hzero m (List.mem_cons_of_mem _ hm)]
    refine ⟨?_, ?_⟩
    · rw [updateFAT_head hS hnew, hzero k (List.mem_cons_self ..)]
      exact BitVec.zero_or
    · rw [updateFAT_cons]
      exact ih hS.tail hnodup hrest

/-- The clusters can be linked: their numbers fit an entry, and no entry straddles. -/
def Linkable (S : List Nat) : Prop := ∀ k ∈ S, k < 4096 ∧ ¬straddles k

theorem Linkable.numbered {S : List Nat} (h : Linkable S) : Numbered S :=
  numbered_of_lt fun k hk => (h k hk).1

theorem LinkedPart.linked {S : List Nat} (h : LinkedPart d S) (hS : Linkable S) : Linked d S := by
  induction S with
  | nil => trivial
  | cons k rest ih =>
    refine ⟨?_, ih h.2 fun m hm => hS m (List.mem_cons_of_mem _ hm)⟩
    rw [h.1, entryMask, if_neg (hS k (List.mem_cons_self ..)).2, and_small (linkValue_small hS.numbered)]

theorem updateFAT_linked {S : List Nat} (hS : Linkable S) (hnodup : S.Nodup) (hzero : ∀ k ∈ S, fatEntry d k = 0) :
    Linked (updateFAT S d) S :=
  (updateFAT_part hS.numbered hnodup hzero).linked hS

/-- Or-ed to what is there, as far as they go, the links are what the entries come to say. -/
def Links (d : Disk) : List Nat → Prop
  | [] => True
  | cluster :: rest => fatEntry d cluster ||| (linkValue rest &&& entryMask cluster) = linkValue rest ∧ Links d rest

theorem Links.congr {S : List Nat} (h : Links d S) (heq : ∀ k ∈ S, fatEntry d' k = fatEntry d k) : Links d' S := by
  induction S with
  | nil => trivial
  | cons k rest ih =>
    refine ⟨?_, ih h.2 fun k hk => heq k (List.mem_cons_of_mem _ hk)⟩
    rw [heq k (List.mem_cons_self ..)]
    exact h.1

theorem updateFAT_links {S : List Nat} (hS : Numbered S) (hnodup : S.Nodup) :
    Linked (updateFAT S d) S ↔ Links d S := by
  induction S generalizing d with
  | nil => exact Iff.rfl
  | cons k rest ih =>
    obtain ⟨hnew, hnodup⟩ := List.nodup_cons.mp hnodup
    have hrest := fatEntry_link_rest (d := d) hS hnew
    rw [Linked, updateFAT_head hS hnew, updateFAT_cons, ih hS.tail hnodup, Links]
    exact and_congr_right fun _ => ⟨fun h => h.congr fun m hm => (hrest m hm).symm, fun h => h.congr hrest⟩

/-- Only the sectors of the FAT that hold the entries are written. -/
theorem updateFAT_sector {S : List Nat} {s : Nat} (h : ∀ k ∈ S, s ≠ 1 + (k + k / 2) / 512) :
    updateFAT S d s = d s := by
  induction S generalizing d with
  | nil => rfl
  | cons k rest ih =>
    rw [updateFAT_cons, ih fun k hk => h k (List.mem_cons_of_mem _ hk)]
    funext b
    rw [linkEntry, writeSector, if_neg fun hs => h k (List.mem_cons_self ..) hs.1]

/-- The entries of the first clusters are in one sector. -/
theorem updateFAT_first {S : List Nat} (hS : ∀ k ∈ S, k < 342) {s : Nat} (hs : s ≠ 1) : updateFAT S d s = d s := by
  apply updateFAT_sector
  intro k hk
  have := hS k hk
  omega

/-! ### Filling -/

variable (buffer : Nat → u8)

theorem writeChunks_sector {S : List Nat} {j s : Nat} (h : ∀ k ∈ S, s ≠ 31 + k) :
    writeChunks buffer j S d s = d s := by
  induction S generalizing d j with
  | nil => rfl
  | cons k rest ih =>
    rw [writeChunks, ih fun k hk => h k (List.mem_cons_of_mem _ hk)]
    funext b
    have hne := h k (List.mem_cons_self ..)
    rw [writeSector, if_neg fun hs => hne (by omega)]

/-- The clusters hold the chunks from the `j`th on. -/
theorem writeChunks_stored {S : List Nat} (hnodup : S.Nodup) (j : Nat) :
    S.flatMap (clusterBytes (writeChunks buffer j S d)) =
      (List.range' (512 * j) (512 * S.length)).map buffer := by
  induction S generalizing d j with
  | nil => rfl
  | cons k rest ih =>
    obtain ⟨hnew, hnodup⟩ := List.nodup_cons.mp hnodup
    have hfirst : clusterBytes (writeChunks buffer j (k :: rest) d) k = (List.range' (512 * j) 512).map buffer := by
      rw [clusterBytes, List.range'_eq_map_range, List.map_map]
      apply List.map_congr_left
      intro b hb
      have hother : ∀ m ∈ rest, 31 + k ≠ 31 + m := by
        intro m hm heq
        exact hnew (Nat.add_left_cancel heq ▸ hm)
      rw [writeChunks, writeChunks_sector buffer hother, writeSector, if_pos ⟨by omega, List.mem_range.mp hb⟩]
      rfl
    have hlen : 512 * (k :: rest).length = 512 + 512 * rest.length := by
      rw [List.length_cons, Nat.mul_succ, Nat.add_comm]
    have hrest : rest.flatMap (clusterBytes (writeChunks buffer j (k :: rest) d)) =
        (List.range' (512 * j + 512) (512 * rest.length)).map buffer := by
      rw [← Nat.mul_succ, ← ih hnodup (j + 1), writeChunks]
    rw [List.flatMap_cons, hfirst, hrest, hlen, ← List.range'_append_1, List.map_append]

/-! ### The chain -/

/-- A linked cluster is marked used. -/
theorem Linked.used {S : List Nat} (h : Linked d S) (hS : ∀ k ∈ S, 0 < k ∧ k < 0xFF8) :
    ∀ k ∈ S, fatEntry d k ≠ 0 := by
  induction S with
  | nil =>
    intro k hk
    cases hk
  | cons first rest ih =>
    intro k hk
    rcases List.mem_cons.mp hk with rfl | hk
    · rw [h.1]
      cases rest with
      | nil => decide
      | cons s2 rest =>
        obtain ⟨hpos, hlt⟩ := hS s2 (by simp)
        intro hzero
        have htoNat := congrArg BitVec.toNat hzero
        rw [linkValue, BitVec.toNat_ofNat, Nat.mod_eq_of_lt (by omega)] at htoNat
        exact hpos.ne' htoNat
    · exact ih h.2 (fun k hk => hS k (List.mem_cons_of_mem _ hk)) k hk

/-- Linked clusters are a chain that ends. -/
theorem Linked.chain {first : Nat} {rest : List Nat} (h : Linked d (first :: rest))
    (hS : ∀ k ∈ first :: rest, 0 < k ∧ k < 0xFF8) : Chain 0 (next d) first (first :: rest) := by
  induction rest generalizing first with
  | nil =>
    have hlast : next d first = 0 := by
      rw [next, h.1]
      rfl
    have hpos := (hS first (List.mem_cons_self ..)).1
    exact .cons hpos.ne' (hlast ▸ .nil)
  | cons s2 rest ih =>
    obtain ⟨-, hlt⟩ := hS s2 (by simp)
    have hentry : (fatEntry d first).toNat = s2 := by
      rw [h.1, linkValue, BitVec.toNat_ofNat, Nat.mod_eq_of_lt (by omega)]
    have hnext : next d first = s2 := by
      have hgo : ¬fatEntry d first ≥ 0xFF8 := by
        intro hge
        have hge : 0xFF8 ≤ (fatEntry d first).toNat := hge
        omega
      rw [next, if_neg hgo, hentry]
    have hpos := (hS first (List.mem_cons_self ..)).1
    refine .cons hpos.ne' ?_
    rw [hnext]
    exact ih h.2 fun k hk => hS k (List.mem_cons_of_mem _ hk)

/-! ### Reading -/

/-- The entry that `read` looks at, through a window of two sectors. -/
def nextCluster (d : Disk) (cluster : Nat) : u16 :=
  let FATOffset := cluster + cluster / 2
  let FATSector := 1 + FATOffset / SECTOR_SIZE
  let entryOffset := FATOffset % SECTOR_SIZE
  let FAT : Nat → u8 := fun k => if k < 512 then d FATSector k else d (FATSector + 1) (k - 512)
  let nextCluster := Packed.word (FAT entryOffset) (FAT (entryOffset + 1))
  if cluster % 2 = 1 then nextCluster >>> 4 else nextCluster &&& 0xFFF

/-- It is the entry of the packed array, straddling or not. -/
theorem nextCluster_eq (d : Disk) (c : Nat) : nextCluster d c = fatEntry d c := by
  have hlow : (if (c + c / 2) % 512 < 512 then d (1 + (c + c / 2) / 512) ((c + c / 2) % 512)
      else d (1 + (c + c / 2) / 512 + 1) ((c + c / 2) % 512 - 512)) = fatByte d (c + c / 2) := by
    rw [if_pos (Nat.mod_lt _ (by decide)), fatByte]
  have hhigh : (if (c + c / 2) % 512 + 1 < 512 then d (1 + (c + c / 2) / 512) ((c + c / 2) % 512 + 1)
      else d (1 + (c + c / 2) / 512 + 1) ((c + c / 2) % 512 + 1 - 512)) = fatByte d (c + c / 2 + 1) := by
    unfold fatByte
    by_cases hlt : (c + c / 2) % 512 + 1 < 512
    · have hdiv : (c + c / 2 + 1) / 512 = (c + c / 2) / 512 := by omega
      have hmod : (c + c / 2 + 1) % 512 = (c + c / 2) % 512 + 1 := by omega
      rw [if_pos hlt, hdiv, hmod]
    · have hdiv : 1 + (c + c / 2 + 1) / 512 = 1 + (c + c / 2) / 512 + 1 := by omega
      have hmod : (c + c / 2 + 1) % 512 = (c + c / 2) % 512 + 1 - 512 := by omega
      rw [if_neg hlt, hdiv, hmod]
  have hfat : nextCluster d c = if c % 2 = 1
      then Packed.word (if (c + c / 2) % 512 < 512 then d (1 + (c + c / 2) / 512) ((c + c / 2) % 512)
        else d (1 + (c + c / 2) / 512 + 1) ((c + c / 2) % 512 - 512))
        (if (c + c / 2) % 512 + 1 < 512 then d (1 + (c + c / 2) / 512) ((c + c / 2) % 512 + 1)
        else d (1 + (c + c / 2) / 512 + 1) ((c + c / 2) % 512 + 1 - 512)) >>> 4
      else Packed.word (if (c + c / 2) % 512 < 512 then d (1 + (c + c / 2) / 512) ((c + c / 2) % 512)
        else d (1 + (c + c / 2) / 512 + 1) ((c + c / 2) % 512 - 512))
        (if (c + c / 2) % 512 + 1 < 512 then d (1 + (c + c / 2) / 512) ((c + c / 2) % 512 + 1)
        else d (1 + (c + c / 2) / 512 + 1) ((c + c / 2) % 512 + 1 - 512)) &&& 0xFFF := rfl
  rw [hfat, hlow, hhigh]
  rfl

/-- The entry that `read` looks at for a number of 32 bits, whose offset wraps. -/
def entryRead (d : Disk) (cluster : u32) : u16 :=
  let FATOffset : u32 := cluster + cluster / 2
  let FATSector := 1 + FATOffset.toNat / SECTOR_SIZE
  let entryOffset := FATOffset.toNat % SECTOR_SIZE
  let FAT : Nat → u8 := fun k => if k < 512 then d FATSector k else d (FATSector + 1) (k - 512)
  let nextCluster := Packed.word (FAT entryOffset) (FAT (entryOffset + 1))
  if cluster.toNat % 2 = 1 then nextCluster >>> 4 else nextCluster &&& 0xFFF

/-- Where `read` goes on behind a cluster, 0 for its end. -/
def ahead (d : Disk) (cluster : u32) : Nat :=
  if entryRead d cluster ≥ 0xFF8 then 0 else (entryRead d cluster).toNat

theorem read_entryRead (file : FILE) (d : Disk) :
    read file d = (if entryRead d file.currentCluster ≥ 0xFF8 then {file with eof := 1}
      else if entryRead d file.currentCluster = 0 then {file with eof := 1}
      else {file with currentCluster := (entryRead d file.currentCluster).setWidth 32},
      d (32 + file.currentCluster - 1).toNat) := by
  rw [read]
  dsimp only
  rw [← entryRead]
  split
  · rfl
  · split <;> rfl

theorem read_ahead (file : FILE) (d : Disk) :
    read file d = (if ahead d file.currentCluster = 0 then {file with eof := 1}
      else {file with currentCluster := BitVec.ofNat 32 (ahead d file.currentCluster)},
      d (32 + file.currentCluster - 1).toNat) := by
  rw [read_entryRead, ahead]
  by_cases hlast : entryRead d file.currentCluster ≥ 0xFF8
  · rw [if_pos hlast, if_pos hlast, if_pos rfl]
  · by_cases hzero : entryRead d file.currentCluster = 0
    · rw [if_neg hlast, if_pos hzero, if_neg hlast, hzero]
      rfl
    · have hnat : (entryRead d file.currentCluster).toNat ≠ 0 := fun h => hzero (BitVec.eq_of_toNat_eq h)
      rw [if_neg hlast, if_neg hzero, if_neg hlast, if_neg hnat, BitVec.ofNat_toNat]

section Small
variable {cluster : u32}

theorem physSector_eq (h : cluster.toNat < 2 ^ 31) : (32 + cluster - 1).toNat = 31 + cluster.toNat := by
  bv_omega

theorem FATOffset_eq (h : cluster.toNat < 2 ^ 31) :
    (cluster + cluster / 2).toNat = cluster.toNat + cluster.toNat / 2 := by
  have hhalf : (cluster / 2).toNat = cluster.toNat / 2 := rfl
  rw [BitVec.toNat_add, hhalf, Nat.mod_eq_of_lt (by omega)]

/-- No number that a volume has is large enough to wrap. -/
theorem ahead_eq (d : Disk) (h : cluster.toNat < 2 ^ 31) : ahead d cluster = next d cluster.toNat := by
  have hentry : entryRead d cluster = nextCluster d cluster.toNat := by
    rw [entryRead, FATOffset_eq h]
    rfl
  rw [next, ← nextCluster_eq, ahead, hentry]

end Small

theorem read_eq {file : FILE} (d : Disk) (h : file.currentCluster.toNat < 2 ^ 31) :
    read file d = (if next d file.currentCluster.toNat = 0 then {file with eof := 1}
      else {file with currentCluster := BitVec.ofNat 32 (next d file.currentCluster.toNat)},
      d (31 + file.currentCluster.toNat)) := by
  rw [read_ahead, ahead_eq d h, physSector_eq h]

theorem readAll_last {file : FILE} (hc : file.currentCluster.toNat < 2 ^ 31)
    (h : next d file.currentCluster.toNat = 0) (fuel : Nat) :
    readAll d (fuel + 1) file = some (clusterBytes d file.currentCluster.toNat) := by
  rw [readAll, read_eq d hc, if_pos h]
  rfl

theorem readAll_next {file : FILE} (hc : file.currentCluster.toNat < 2 ^ 31)
    (h : next d file.currentCluster.toNat ≠ 0) (heof : file.eof = 0) (fuel : Nat) :
    readAll d (fuel + 1) file =
      (readAll d fuel {file with currentCluster := BitVec.ofNat 32 (next d file.currentCluster.toNat)}).map
        (clusterBytes d file.currentCluster.toNat ++ ·) := by
  have hmore : ¬file.eof = 1 := by
    rw [heof]
    decide
  rw [readAll, read_eq d hc, if_neg h]
  simp only [if_neg hmore]
  rfl

theorem toNat_next (d : Disk) (c : Nat) : (BitVec.ofNat 32 (next d c)).toNat = next d c := by
  have hlt := next_lt d c
  rw [BitVec.toNat_ofNat, Nat.mod_eq_of_lt (by omega)]

/-- A chain is read to its end. -/
theorem readAll_chain {c : Nat} {rest : List Nat} (h : Chain 0 (next d) c (c :: rest)) {file : FILE}
    (hc : file.currentCluster.toNat = c) (hsmall : c < 2 ^ 31) (heof : file.eof = 0) :
    readAll d (rest.length + 1) file = some ((c :: rest).flatMap (clusterBytes d)) := by
  induction rest generalizing c file with
  | nil =>
    have hlast : next d c = 0 := h.tail.eq_nil_iff.mp rfl
    rw [← hc] at hlast hsmall
    rw [List.length_nil, readAll_last hsmall hlast, hc]
    simp
  | cons m rest ih =>
    obtain rfl : next d c = m := h.tail.head_eq
    have hgo : next d c ≠ 0 := h.tail.head_ne
    have hlt := next_lt d c
    rw [← hc] at hgo hsmall
    have hcluster : ({file with currentCluster := BitVec.ofNat 32 (next d c)} : FILE).currentCluster.toNat = next d c :=
      toNat_next d c
    have hrest := ih h.tail hcluster (by omega) heof
    rw [List.length_cons, readAll_next hsmall hgo heof, hc, hrest]
    rfl

end FAT12

end UntitledOS.Filesystem
