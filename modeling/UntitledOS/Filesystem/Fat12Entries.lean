import UntitledOS.Filesystem.Fat12Chain

/-! The encoder of the FAT against its decoder.

What `updateFAT` writes, `read` decodes, entry by entry: the two agree on a list of free
clusters exactly when every number that has to be stored fits the part of its entry that
lies in the entry's first sector (`fat_agrees`). For an entry inside a sector that is every
cluster number; an entry that straddles two sectors has room for four or eight bits, and
never for the mark of the last cluster. -/
namespace UntitledOS.Filesystem
open Lib

namespace FAT12

/-- The entries, as `read` decodes them, lead from each cluster to the next, and the last
one is the mark of the end. -/
def Decodes (d : Disk) : List Nat → Prop
  | [] => True
  | [c] => nextCluster d c ≥ 0xFF8
  | c :: c' :: rest => (nextCluster d c).toNat = c' ∧ Decodes d (c' :: rest)

/-- From `d` to `d'`, the clusters became a chain, every other entry decodes as before, and
no sector without one of their entries changed. -/
structure Agrees (d d' : Disk) (S : List Nat) : Prop where
  chain : Decodes d' S
  others : ∀ c ∉ S, nextCluster d' c = nextCluster d c
  outside : ∀ s, (∀ c ∈ S, s ≠ 1 + (c + c / 2) / 512 ∧ s ≠ 1 + (c + c / 2 + 1) / 512) → d' s = d s

/-- What each entry has to say fits the bits of it in its first sector. -/
def Fitting : List Nat → Prop
  | [] => True
  | [c] => ¬straddles c
  | c :: c' :: rest => c' ≤ (entryMask c).toNat ∧ Fitting (c' :: rest)

instance decidableFitting : ∀ S, Decidable (Fitting S)
  | [] => inferInstanceAs (Decidable True)
  | [c] => inferInstanceAs (Decidable (¬straddles c))
  | c :: c' :: rest =>
    have := decidableFitting (c' :: rest)
    inferInstanceAs (Decidable (c' ≤ (entryMask c).toNat ∧ Fitting (c' :: rest)))

/-- The mask keeps a number when the number is no larger. -/
theorem and_entryMask (c : Nat) {v : u16} : v &&& entryMask c = v ↔ v.toNat ≤ (entryMask c).toNat := by
  obtain ⟨n, hn, hmask⟩ : ∃ n < 16, (entryMask c).toNat = 2 ^ n - 1 := by
    unfold entryMask
    split
    · split
      · exact ⟨4, by decide, rfl⟩
      · exact ⟨8, by decide, rfl⟩
    · exact ⟨12, by decide, rfl⟩
  have hpow : 0 < 2 ^ n := Nat.two_pow_pos n
  rw [← BitVec.toNat_inj, BitVec.toNat_and, hmask, Nat.and_two_pow_sub_one_eq_mod, Nat.mod_eq_iff_lt hpow.ne']
  omega

theorem entryMask_lt (c : Nat) : (entryMask c).toNat < 4096 := by
  unfold entryMask
  split
  · split <;> decide
  · decide

/-- The mark of the end needs the whole entry. -/
theorem last_entryMask (c : Nat) : (0xFFF : u16) &&& entryMask c ≥ 0xFF8 ↔ ¬straddles c := by
  unfold entryMask
  split
  · split <;> simp_all
  · simp_all

theorem Decodes.numbered {d : Disk} {S : List Nat} (h : Decodes d S) : Numbered S := by
  induction S with
  | nil => trivial
  | cons c rest ih =>
    cases rest with
    | nil => exact fun k hk => absurd hk List.not_mem_nil
    | cons c' rest =>
      have hhead : c' < 4096 := by
        rw [← h.1, nextCluster_eq]
        exact Packed.entry_lt _ _
      exact numbered_cons.mpr ⟨hhead, ih h.2⟩

theorem Fitting.numbered {S : List Nat} (h : Fitting S) : Numbered S := by
  induction S with
  | nil => trivial
  | cons c rest ih =>
    cases rest with
    | nil => exact fun k hk => absurd hk List.not_mem_nil
    | cons c' rest => exact numbered_cons.mpr ⟨h.1.trans_lt (entryMask_lt c), ih h.2⟩

/-- Entries that were linked as far as they go decode when all of it went. -/
theorem LinkedPart.decodes_iff {d : Disk} {S : List Nat} (h : LinkedPart d S) (hS : Numbered S) :
    Decodes d S ↔ Fitting S := by
  induction S with
  | nil => exact Iff.rfl
  | cons c rest ih =>
    cases rest with
    | nil =>
      rw [Decodes, Fitting, nextCluster_eq, h.1]
      exact last_entryMask c
    | cons c' rest =>
      have hc' : (BitVec.ofNat 16 c').toNat = c' := by
        have := hS c' (List.mem_cons_self ..)
        rw [BitVec.toNat_ofNat, Nat.mod_eq_of_lt (by omega)]
      have hhead : (nextCluster d c).toNat = c' ↔ c' ≤ (entryMask c).toNat := by
        have hmask := and_entryMask c (v := BitVec.ofNat 16 c')
        rw [← BitVec.toNat_inj, hc'] at hmask
        rw [nextCluster_eq, h.1]
        exact hmask
      rw [Decodes, Fitting, hhead, ih h.2 hS.tail]

/-- **The encoder and the decoder agree exactly where every number fits.** -/
theorem fat_agrees {d : Disk} {S : List Nat} (hnodup : S.Nodup) (hzero : ∀ c ∈ S, nextCluster d c = 0) :
    Agrees d (updateFAT S d) S ↔ Fitting S := by
  have hzero : ∀ c ∈ S, fatEntry d c = 0 := fun c hc => nextCluster_eq d c ▸ hzero c hc
  constructor
  · intro h
    have hS := h.chain.numbered
    exact ((updateFAT_part hS hnodup hzero).decodes_iff hS).mp h.chain
  · intro h
    have hS := h.numbered
    refine ⟨((updateFAT_part hS hnodup hzero).decodes_iff hS).mpr h, ?_, ?_⟩
    · intro c hc
      rw [nextCluster_eq, nextCluster_eq, updateFAT_other hS hc]
    · intro s hs
      exact updateFAT_sector fun c hc => (hs c hc).1

/-- Three clusters of an empty FAT, out of order, the middle one next to its sector's end. -/
theorem fat_agrees_three : Agrees (fun _ _ => 0) (updateFAT [2, 340, 3] fun _ _ => 0) [2, 340, 3] :=
  (fat_agrees (by decide) (by decide)).mpr (by decide)

/-- The entry of cluster 341 straddles the first two sectors: written as the last of a
chain, it says that the chain goes on at cluster 15. -/
theorem entry_cut : ¬Agrees (fun _ _ => 0) (updateFAT [341] fun _ _ => 0) [341] := by
  intro h
  have hlast : nextCluster (updateFAT [341] fun _ _ => 0) 341 = 0x00F := by decide
  have hchain : nextCluster (updateFAT [341] fun _ _ => 0) 341 ≥ 0xFF8 := h.chain
  rw [hlast] at hchain
  exact absurd hchain (by decide)

end FAT12

end UntitledOS.Filesystem
