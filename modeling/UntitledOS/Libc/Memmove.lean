import UntitledOS.Lib.Move
import UntitledOS.Types

/-! `memmove.cpp`, on the memory of the machine.

The ranges may overlap. Copying upwards is right when the destination lies below the
source, and downwards when it does not, so `memmove` moves every byte and changes no other
(`memmove_moves`). -/
namespace UntitledOS.Libc
open Lib

/-- `dst[i] = src[i]`, for `n` indices from `i` up. -/
def copyUp (dst src : Addr) (i : Nat) : Nat → (Addr → u8) → Addr → u8
  | 0, memory => memory
  | n + 1, memory =>
    copyUp dst src (i + 1) n
      (Function.update memory (dst + BitVec.ofNat 32 i) (memory (src + BitVec.ofNat 32 i)))

/-- `dst[i-1] = src[i-1]`, for `i` from `n` down. -/
def copyDown (dst src : Addr) : Nat → (Addr → u8) → Addr → u8
  | 0, memory => memory
  | n + 1, memory =>
    copyDown dst src n (Function.update memory (dst + BitVec.ofNat 32 n) (memory (src + BitVec.ofNat 32 n)))

/-- The pointer returned, and the memory then. -/
def memmove (dst src : Addr) (size : u32) (memory : Addr → u8) : Addr × (Addr → u8) :=
  (dst, if dst < src then copyUp dst src 0 size.toNat memory else copyDown dst src size.toNat memory)

/-! ### The loops -/

/-- The address of a byte of a range. -/
def byteAt (base : Addr) (i : Nat) : Addr := base + BitVec.ofNat 32 i

theorem copyUp_eq (dst src : Addr) (i n : Nat) (memory : Addr → u8) :
    copyUp dst src i n memory = move (byteAt dst) (byteAt src) memory (List.range' i n) := by
  induction n generalizing i memory with
  | zero => rfl
  | succ n ih =>
    rw [copyUp, ih, List.range'_succ, move_cons]
    rfl

theorem copyDown_eq (dst src : Addr) (n : Nat) (memory : Addr → u8) :
    copyDown dst src n memory = move (byteAt dst) (byteAt src) memory (List.range n).reverse := by
  induction n generalizing memory with
  | zero => rfl
  | succ n ih =>
    rw [copyDown, ih, List.range_succ, List.reverse_append, List.reverse_singleton, List.singleton_append, move_cons]
    rfl

theorem toNat_byteAt {base : Addr} {i n : Nat} (h : base.toNat + n ≤ 2 ^ 32) (hi : i < n) :
    (byteAt base i).toNat = base.toNat + i := by
  rw [byteAt, BitVec.toNat_add, BitVec.toNat_ofNat]
  omega

section Ranges
variable {dst src : Addr} {n i j : Nat}

theorem byteAt_ne (h : dst.toNat + n ≤ 2 ^ 32) (hi : i < n) (hj : j < n) (hne : i ≠ j) :
    byteAt dst i ≠ byteAt dst j := by
  intro heq
  have hnat := congrArg BitVec.toNat heq
  rw [toNat_byteAt h hi, toNat_byteAt h hj] at hnat
  omega

/-- Upwards, what is written lies below what is still to be read, and downwards above. -/
theorem byteAt_ne_source (hdst : dst.toNat + n ≤ 2 ^ 32) (hsrc : src.toNat + n ≤ 2 ^ 32) (hi : i < n) (hj : j < n)
    (h : dst < src ∧ i < j ∨ ¬dst < src ∧ j < i) : byteAt dst i ≠ byteAt src j := by
  intro heq
  have hnat := congrArg BitVec.toNat heq
  rw [toNat_byteAt hdst hi, toNat_byteAt hsrc hj] at hnat
  rw [BitVec.lt_def] at h
  omega

end Ranges

/-- The order in which the bytes are moved. No byte is written twice, or before it is read. -/
structure Order (dst src : Addr) (n : Nat) (ks : List Nat) : Prop where
  mem : ∀ k, k ∈ ks ↔ k < n
  writes : ks.Pairwise fun k l => byteAt dst k ≠ byteAt dst l
  reads : ks.Pairwise fun k l => byteAt dst k ≠ byteAt src l

theorem memmove_order {dst src : Addr} {size : u32} (hdst : dst.toNat + size.toNat ≤ 2 ^ 32)
    (hsrc : src.toNat + size.toNat ≤ 2 ^ 32) (memory : Addr → u8) :
    ∃ ks, Order dst src size.toNat ks ∧
      (memmove dst src size memory).2 = move (byteAt dst) (byteAt src) memory ks := by
  by_cases hlt : dst < src
  · refine ⟨List.range' 0 size.toNat, ⟨by simp, ?_, ?_⟩, by rw [memmove, if_pos hlt, copyUp_eq]⟩
    all_goals
      refine List.Pairwise.imp_of_mem ?_ (List.pairwise_lt_range' ..)
      intro k l hk hl hkl
      rw [List.mem_range'_1] at hk hl
    · exact byteAt_ne hdst (by omega) (by omega) (by omega)
    · exact byteAt_ne_source hdst hsrc (by omega) (by omega) (Or.inl ⟨hlt, hkl⟩)
  · refine ⟨(List.range size.toNat).reverse, ⟨by simp, ?_, ?_⟩, by rw [memmove, if_neg hlt, copyDown_eq]⟩
    all_goals
      refine List.pairwise_reverse.mpr (List.Pairwise.imp_of_mem ?_ List.pairwise_lt_range)
      intro k l hk hl hkl
      rw [List.mem_range] at hk hl
    · exact byteAt_ne hdst hl hk (by omega)
    · exact byteAt_ne_source hdst hsrc hl hk (Or.inr ⟨hlt, hkl⟩)

/-- **Whatever the ranges share, every byte is moved, and no other one changes.** -/
theorem memmove_moves (dst src : Addr) (size : u32) (memory : Addr → u8)
    (hdst : dst.toNat + size.toNat ≤ 2 ^ 32) (hsrc : src.toNat + size.toNat ≤ 2 ^ 32) :
    (memmove dst src size memory).1 = dst ∧
      (∀ i < size, (memmove dst src size memory).2 (dst + i) = memory (src + i)) ∧
      ∀ a : Addr, ¬(dst.toNat ≤ a.toNat ∧ a.toNat < dst.toNat + size.toNat) →
        (memmove dst src size memory).2 a = memory a := by
  obtain ⟨ks, horder, hmove⟩ := memmove_order hdst hsrc memory
  refine ⟨rfl, ?_, ?_⟩
  · intro i hi
    have hbyte := move_moved horder.writes horder.reads memory ((horder.mem i.toNat).mpr hi)
    rw [byteAt, byteAt, BitVec.ofNat_toNat, BitVec.setWidth_eq] at hbyte
    rw [hmove, hbyte]
  · intro a ha
    rw [hmove]
    refine move_outside (fun k hk heq => ha ?_) memory
    have hk := (horder.mem k).mp hk
    rw [heq, toNat_byteAt hdst hk]
    omega

/-- A range moved up by one byte, over itself. -/
theorem memmove_moves_up :
    (memmove 0x101 0x100 3 (·.setWidth 8)).2 0x103 = 0x02 ∧ (memmove 0x101 0x100 3 (·.setWidth 8)).2 0x104 = 0x04 := by
  obtain ⟨-, hmoved, houtside⟩ := memmove_moves 0x101 0x100 3 (·.setWidth 8) (by decide) (by decide)
  exact ⟨hmoved 2 (by decide), houtside 0x104 (by decide)⟩

end UntitledOS.Libc
