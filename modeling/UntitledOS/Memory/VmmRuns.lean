import UntitledOS.Memory.VmmUses

/-! Runs of the page allocator.

A page allocated takes one frame, and a second one if its table is missing. Two things
can go wrong on the way. A new table is cleared in its first word only, so what its
frame held before may map frames; and when memory is exhausted the block is null, which
`mapPage` does not test for, so frame 0 is mapped. A page is allocated *cleanly* when
neither happens (`Clean`), and in every run of clean allocations frames are mapped
exclusively (`frames_mapped_once`). -/
namespace UntitledOS.Memory
open Lib

namespace VMM

/-- What callers promise of an address: a page outside the kernel's 4 MiB and outside
the window of the page tables. -/
def Outside (address : Addr) : Prop :=
  address.toNat % 4096 = 0 ∧ PAGE_DIRECTORY_INDEX address ≠ 768 ∧ PAGE_DIRECTORY_INDEX address ≠ 1023

instance (address : Addr) : Decidable (Outside address) :=
  inferInstanceAs (Decidable (address.toNat % 4096 = 0 ∧ PAGE_DIRECTORY_INDEX address ≠ 768 ∧
    PAGE_DIRECTORY_INDEX address ≠ 1023))

/-- The frame that would become the table of a page holds no present entry, first word
apart. -/
def TableClean (address : Addr) (s : VMM) : Prop :=
  ¬ Present (s.ram s.dir (PAGE_DIRECTORY_INDEX address).toNat) →
    s.pmm.allocBlock.1.allocBlock.2 ≠ 0 →
      ∀ k < 1024, k ≠ 0 → ¬ Present (s.ram (frameAt s.pmm.allocBlock.1.allocBlock.2) k)

/-- The block that would be mapped at an unmapped page of a table is not null, or frame
0 is to spare. -/
def BlockClean (address : Addr) (s : VMM) : Prop :=
  Present (s.ram s.dir (PAGE_DIRECTORY_INDEX address).toNat) →
    ¬ Present (s.ram (frameOf (s.ram s.dir (PAGE_DIRECTORY_INDEX address).toNat))
      (PAGE_TABLE_INDEX address).toNat) →
      s.pmm.allocBlock.2 = 0 → Spare {s with pmm := s.pmm.allocBlock.1} 0

/-- The allocation of a page at `address` is clean. -/
def Clean (address : Addr) (s : VMM) : Prop := TableClean address s ∧ BlockClean address s

/-! ### One page -/

section Page
variable {s : VMM}

/-- A call of `allocBlock` in an exclusive state: memory is exhausted, or a frame nobody
uses is now taken. -/
theorem Exclusive.allocBlock (h : s.Exclusive) :
    s.pmm.allocBlock = (s.pmm, 0) ∨
      ∃ frame pmm, s.pmm.allocBlock = (pmm, BitVec.ofNat 32 (frame * 4096)) ∧ frame < 2 ^ 20 ∧
        Exclusive {s with pmm := pmm} ∧ Spare {s with pmm := pmm} frame ∧
        ∀ f, s.Spare f → f ≠ frame ∧ Spare {s with pmm := pmm} f := by
  rcases PMM.allocBlock_cases h.size with hnull | ⟨frame, hclear, _, hsmall, hsome⟩
  · exact .inl hnull
  · have hbit : ∀ f, PMM.bit {s.pmm.mmapSet frame with usedBlocks := s.pmm.usedBlocks + 1} f =
        (decide (f = frame) || s.pmm.bit f) := fun f => s.pmm.bit_mmapSet frame f
    have hunused : ∀ u, ¬ s.Uses u frame := by
      intro u hu
      have := h.taken u frame hu
      rw [hclear] at this
      exact Bool.false_ne_true this
    refine .inr ⟨frame, _, hsome, hsmall, h.grow ?_ rfl, ⟨fun u hu => ?_, ?_⟩, ?_⟩
    · intro f htaken
      rw [hbit, htaken, Bool.or_true]
    · exact hunused u ((s.uses_pmm _ u _).mp hu)
    · show PMM.bit _ _ = true
      rw [hbit, decide_eq_true rfl, Bool.true_or]
    · intro f hf
      refine ⟨?_, fun u hu => hf.unused u ((s.uses_pmm _ u _).mp hu), ?_⟩
      · rintro rfl
        have := hf.taken
        rw [hclear] at this
        exact Bool.false_ne_true this
      · show PMM.bit _ _ = true
        rw [hbit, hf.taken, Bool.or_true]

/-- `mapEntry` in a table that is there, with a frame to spare unless nothing is written. -/
theorem Exclusive.mapEntry (h : s.Exclusive) {virt : Addr} {frame : Nat}
    (hi : (PAGE_DIRECTORY_INDEX virt).toNat < 1023)
    (htable : IsTable (s.ram s.dir (PAGE_DIRECTORY_INDEX virt).toNat)) (hsmall : frame < 2 ^ 20)
    (hspare : ¬ Present (s.ram (frameOf (s.ram s.dir (PAGE_DIRECTORY_INDEX virt).toNat))
      (PAGE_TABLE_INDEX virt).toNat) → s.Spare frame) :
    ∃ t, s.mapEntry (BitVec.ofNat 32 (frame * 4096)) virt = some t ∧ t.Exclusive := by
  have htranslate := h.recursive.translate_tableEntry (dirIndex_lt virt) (tableIndex_lt virt)
  rw [if_pos htable.1] at htranslate
  obtain ⟨_, _, hframe⟩ := entryFor_spec hsmall
  simp only [VMM.mapEntry, read, write, htranslate, Option.map_some, Option.bind_some]
  split
  · exact ⟨s, rfl, h⟩
  · rename_i habsent
    refine ⟨_, rfl, h.addPage hi htable ?_⟩
    rw [hframe]
    exact hspare habsent

/-- The two stores of `mapPage` for a new table. -/
theorem Recursive.writeTable (h : s.Recursive) {i : u32} {entry : u32} (hi : i.toNat < 1023)
    (hentry : Present entry) :
    ((s.write (dirEntry i) entry).bind fun s => s.write (tableEntry i 0) 0) =
      some (Exclusive.withTable s i.toNat entry) := by
  have hlast : (s.setWord s.dir i.toNat entry).ram s.dir 1023 = s.ram s.dir 1023 := by
    rw [setWord_ram, if_neg fun hc => by omega]
  have hself : (s.setWord s.dir i.toNat entry).ram s.dir i.toNat = entry := by
    rw [setWord_ram, if_pos ⟨rfl, rfl⟩]
  have hrecursive : (s.setWord s.dir i.toNat entry).Recursive := by
    refine ⟨?_, ?_, ?_⟩ <;> rw [setWord_dir, hlast]
    · exact h.present
    · exact h.small
    · exact h.self
  have hdir := h.translate_dirEntry (show i.toNat < 1024 by omega)
  have htable := hrecursive.translate_tableEntry (show i.toNat < 1024 by omega)
    (show (0 : u32).toNat < 1024 by decide)
  rw [setWord_dir, hself, if_pos hentry] at htable
  rw [write, hdir, Option.map_some, Option.bind_some, write, htable]
  rfl

/-- A page mapped through a new table: one spare frame becomes the table, another the
page. -/
theorem Exclusive.mapNew (h : s.Exclusive) {virt : Addr} {f frame : Nat}
    (hi : (PAGE_DIRECTORY_INDEX virt).toNat < 1023) (hf : f < 2 ^ 20) (hsmall : frame < 2 ^ 20)
    (hspare : s.Spare f) (hempty : ∀ k < 1024, k ≠ 0 → ¬ Present (s.ram f k))
    (hblock : s.Spare frame) (hne : frame ≠ f) :
    ∃ t, ((s.write (dirEntry (PAGE_DIRECTORY_INDEX virt)) (entryFor (BitVec.ofNat 32 (f * 4096)))).bind
        fun s => (s.write (tableEntry (PAGE_DIRECTORY_INDEX virt) 0) 0).bind fun s =>
          s.mapEntry (BitVec.ofNat 32 (frame * 4096)) virt) = some t ∧ t.Exclusive := by
  obtain ⟨hentry, hlarge, hframe⟩ := entryFor_spec hf
  rw [← hframe] at hspare hempty hne
  have hnew := h.addTable hi hlarge hspare hempty
  have hself := withTable_dir (i := (PAGE_DIRECTORY_INDEX virt).toNat) hspare.ne_dir
    (PAGE_DIRECTORY_INDEX virt).toNat
  rw [if_pos rfl] at hself
  have hstill : (withTable s (PAGE_DIRECTORY_INDEX virt).toNat
      (entryFor (BitVec.ofNat 32 (f * 4096)))).Spare frame := by
    refine ⟨fun u hu => ?_, hblock.taken⟩
    rcases h.uses_withTable hspare hempty hu with ⟨_, he⟩ | hu
    · exact hne he
    · exact hblock.unused u hu
  rw [← Option.bind_assoc, h.recursive.writeTable hi hentry, Option.bind_some]
  refine hnew.mapEntry hi ?_ hsmall fun _ => hstill
  show IsTable ((withTable s _ _).ram s.dir _)
  rw [hself]
  exact ⟨hentry, hlarge⟩

/-- `mapPage`: it does not fault, and frames stay exclusive if what it maps or makes a
table is to spare. -/
theorem Exclusive.mapPage (h : s.Exclusive) {virt : Addr} (hout : Outside virt) {frame : Nat}
    (hsmall : frame < 2 ^ 20)
    (hpage : Present (s.ram s.dir (PAGE_DIRECTORY_INDEX virt).toNat) →
      ¬ Present (s.ram (frameOf (s.ram s.dir (PAGE_DIRECTORY_INDEX virt).toNat))
        (PAGE_TABLE_INDEX virt).toNat) → s.Spare frame)
    (htable : ¬ Present (s.ram s.dir (PAGE_DIRECTORY_INDEX virt).toNat) → s.pmm.allocBlock.2 ≠ 0 →
      s.Spare frame ∧ ∀ k < 1024, k ≠ 0 → ¬ Present (s.ram (frameAt s.pmm.allocBlock.2) k)) :
    ∃ t, s.mapPage (BitVec.ofNat 32 (frame * 4096)) virt = some t ∧ t.Exclusive := by
  obtain ⟨_, hkernel, hlast⟩ := hout
  have hi : (PAGE_DIRECTORY_INDEX virt).toNat < 1023 := by
    have := dirIndex_lt virt
    have : (PAGE_DIRECTORY_INDEX virt).toNat ≠ 1023 := fun he => hlast (BitVec.eq_of_toNat_eq he)
    omega
  have hpde : s.read (dirEntry (PAGE_DIRECTORY_INDEX virt)) =
      some (s.ram s.dir (PAGE_DIRECTORY_INDEX virt).toNat) := by
    rw [read, h.recursive.translate_dirEntry (by omega)]
    rfl
  simp only [VMM.mapPage, hpde, Option.bind_some]
  by_cases hpresent : Present (s.ram s.dir (PAGE_DIRECTORY_INDEX virt).toNat)
  · rw [if_pos hpresent]
    have hplain := h.plain _ hi (fun he => hkernel (BitVec.eq_of_toNat_eq he)) hpresent
    exact h.mapEntry hi ⟨hpresent, hplain⟩ hsmall (hpage hpresent)
  · rw [if_neg hpresent]
    rcases h.allocBlock with hnull | ⟨f, pmm, hsome, hf, hexclusive, hspare, hkeep⟩
    · rw [hnull]
      exact ⟨_, rfl, h.grow (fun _ htaken => htaken) rfl⟩
    · rw [hsome] at htable ⊢
      by_cases hzero : BitVec.ofNat 32 (f * 4096) = 0
      · exact ⟨_, if_pos hzero, hexclusive⟩
      · rw [if_neg hzero]
        obtain ⟨hblock, hempty⟩ := htable hpresent hzero
        rw [frameAt_address hf] at hempty
        obtain ⟨hne, hblock⟩ := hkeep frame hblock
        exact hexclusive.mapNew hi hf hsmall hspare hempty hblock hne

/-- **A clean allocation of a page keeps frames exclusive.** -/
theorem Exclusive.allocPage (h : s.Exclusive) {address : Addr} (hout : Outside address)
    (hclean : Clean address s) : ∃ t, s.allocPage address = some (t, address) ∧ t.Exclusive := by
  obtain ⟨htable, hblock⟩ := hclean
  unfold TableClean at htable
  unfold BlockClean at hblock
  rw [VMM.allocPage]
  rcases h.allocBlock with hnull | ⟨f, pmm, hsome, hf, hexclusive, hspare, _⟩
  · -- no block: the page table's frame is not there either
    rw [hnull] at htable hblock ⊢
    have hold : Exclusive {s with pmm := s.pmm} := h
    obtain ⟨t, ht, hexclusive⟩ := hold.mapPage hout (show 0 < 2 ^ 20 by decide)
      (fun hpresent habsent => hblock hpresent habsent rfl)
      (fun _ hsome => absurd (by rw [hnull]) hsome)
    exact ⟨t, by rw [show (0 : Addr) = BitVec.ofNat 32 (0 * 4096) from rfl, ht]; rfl, hexclusive⟩
  · rw [hsome] at htable ⊢
    obtain ⟨t, ht, hexclusive⟩ := hexclusive.mapPage hout hf (fun _ _ => hspare)
      (fun habsent hsome => ⟨hspare, htable habsent hsome⟩)
    exact ⟨t, by rw [ht]; rfl, hexclusive⟩

end Page

/-! ### Many pages -/

/-- The pages from `i` on are outside the windows and, each in the state it is allocated
in, clean. -/
def CleanFrom (address : Addr) (i : Nat) : Nat → VMM → Prop
  | 0, _ => True
  | pages + 1, s => Outside (address + 0x1000 * BitVec.ofNat 32 i) ∧
      Clean (address + 0x1000 * BitVec.ofNat 32 i) s ∧
      ∀ t, s.allocPage (address + 0x1000 * BitVec.ofNat 32 i) =
          some (t, address + 0x1000 * BitVec.ofNat 32 i) →
        CleanFrom address (i + 1) pages t

theorem Exclusive.allocPagesFrom {address : Addr} (pages : Nat) {i : Nat} {s : VMM} (h : s.Exclusive)
    (hclean : CleanFrom address i pages s) :
    ∃ t, s.allocPagesFrom address i pages = some t ∧ t.Exclusive := by
  induction pages generalizing i s with
  | zero => exact ⟨s, rfl, h⟩
  | succ pages ih =>
    obtain ⟨hout, hpage, hrest⟩ := hclean
    obtain ⟨t, ht, hexclusive⟩ := h.allocPage hout hpage
    obtain ⟨u, hu, hdone⟩ := ih hexclusive (hrest t ht)
    refine ⟨u, ?_, hdone⟩
    rw [VMM.allocPagesFrom, ht, Option.bind_some]
    exact hu

/-! ### Runs -/

inductive Call where
  | allocPage (address : Addr)
  | allocPages (pages : u32) (address : Addr)

def step (s : VMM) : Call → Option VMM
  | .allocPage address => (s.allocPage address).map Prod.fst
  | .allocPages pages address => (s.allocPages pages address).map Prod.fst

/-- A call on pages outside the windows, every allocation of which is clean. -/
def CleanCall (s : VMM) : Call → Prop
  | .allocPage address => Outside address ∧ Clean address s
  | .allocPages pages address => CleanFrom address 0 pages.toNat s

theorem Exclusive.call {s : VMM} (h : s.Exclusive) {c : Call} (hclean : s.CleanCall c) :
    ∃ t, s.step c = some t ∧ t.Exclusive := by
  cases c with
  | allocPage address =>
    obtain ⟨t, ht, hexclusive⟩ := h.allocPage hclean.1 hclean.2
    exact ⟨t, by rw [VMM.step, ht]; rfl, hexclusive⟩
  | allocPages pages address =>
    obtain ⟨t, ht, hexclusive⟩ := h.allocPagesFrom pages.toNat hclean
    exact ⟨t, by rw [VMM.step, VMM.allocPages, ht]; rfl, hexclusive⟩

/-- **Frames are mapped exclusively, in every run of clean calls, none of which faults.** -/
theorem frames_mapped_once {s t : VMM} (h : s.Exclusive) {cs : List Call}
    (hrun : Run step CleanCall s cs t) :
    t.Exclusive ∧ ∀ c, t.CleanCall c → ∃ u, t.step c = some u := by
  have hexclusive : t.Exclusive := by
    refine hrun.invariant _ (fun s c t h hclean ht => ?_) h
    obtain ⟨u, hu, hexclusive⟩ := h.call hclean
    obtain rfl := Option.some.inj (hu.symm.trans ht)
    exact hexclusive
  refine ⟨hexclusive, fun c hclean => ?_⟩
  obtain ⟨u, hu, _⟩ := hexclusive.call hclean
  exact ⟨u, hu⟩

/-- The state the boot code leaves: the kernel's 4 MiB and the directory itself, in frame
0x10A, and whatever the other frames held. -/
def booted (stale : Nat → Nat → u32) : VMM where
  ram f w :=
    if f = 0x10A then (if w = 1023 then 0x10A003 else if w = 768 then 0x87 else 0) else stale f w
  dir := 0x10A
  pmm := ⟨fun i => if i < 32 then 0xffffffff else 0, 1024, 1088⟩

theorem booted_exclusive (stale : Nat → Nat → u32) : (booted stale).Exclusive := by
  have hdir : ∀ w, (booted stale).ram (booted stale).dir w =
      if w = 1023 then 0x10A003 else if w = 768 then 0x87 else 0 := by
    intro w
    simp only [booted, if_true]
  -- the kernel's entry is large, and there is no other below the last one
  have htable : ∀ i < 1023, ¬ IsTable ((booted stale).ram (booted stale).dir i) := by
    intro i hi
    rw [hdir, if_neg (by omega)]
    split <;> decide
  have honly : ∀ u f, (booted stale).Uses u f → u = .directory ∧ f = 0x10A := by
    intro u f hu
    cases u with
    | directory => exact ⟨rfl, hu⟩
    | table i => exact absurd hu.2.1 (htable i hu.1)
    | page i k => exact absurd hu.1.2 (htable i hu.1.1)
  have hself : frameOf 0x10A003 = 0x10A := by decide
  have hbit : Bitmap.bit (fun i => if i < 32 then 0xffffffff#32 else 0) 0x10A = true := by decide
  have hsize : (1088 : u32).toNat < 2 ^ 20 + 32 := by decide
  refine ⟨⟨?_, ?_, ?_⟩, fun i hi hne hpresent => ?_, fun u v f hu hv => ?_, fun u f hu => ?_, hsize⟩
  · rw [hdir]
    decide
  · rw [hdir]
    decide
  · rw [hdir]
    exact hself
  · rw [hdir, if_neg (by omega), if_neg hne] at hpresent
    exact absurd hpresent (by decide)
  · rw [(honly u f hu).1, (honly v f hv).1]
  · rw [(honly u f hu).2]
    exact hbit

/-- A clean call, recognised by looking: no block is null. -/
def QuickCall (s : VMM) : Call → Prop
  | .allocPage address => Outside address ∧ TableClean address s ∧ s.pmm.allocBlock.2 ≠ 0
  | .allocPages _ _ => False

theorem QuickCall.clean {s : VMM} {c : Call} (h : s.QuickCall c) : s.CleanCall c := by
  cases c with
  | allocPage address =>
    obtain ⟨hout, htable, hblock⟩ := h
    exact ⟨hout, htable, fun _ _ hnull => absurd hnull hblock⟩
  | allocPages pages address => exact h.elim

instance (address : Addr) (s : VMM) : Decidable (TableClean address s) :=
  inferInstanceAs (Decidable (¬ Present (s.ram s.dir (PAGE_DIRECTORY_INDEX address).toNat) →
    s.pmm.allocBlock.1.allocBlock.2 ≠ 0 →
      ∀ k < 1024, k ≠ 0 → ¬ Present (s.ram (frameAt s.pmm.allocBlock.1.allocBlock.2) k)))

instance (s : VMM) : ∀ c, Decidable (s.QuickCall c)
  | .allocPage address => inferInstanceAs
      (Decidable (Outside address ∧ TableClean address s ∧ s.pmm.allocBlock.2 ≠ 0))
  | .allocPages _ _ => inferInstanceAs (Decidable False)

/-- Two pages of one table. -/
theorem frames_mapped_once_two :
    ∃ t, Run step CleanCall (booted fun _ _ => 0) [.allocPage 0x1000, .allocPage 0x2000] t ∧
      t.Uses (.page 0 1) 1024 ∧ t.Uses (.table 0) 1025 ∧ t.Uses (.page 0 2) 1026 ∧ t.Exclusive := by
  have hfollow : (follow step QuickCall (booted fun _ _ => 0)
      [.allocPage 0x1000, .allocPage 0x2000]).any (fun t => decide (t.Uses (.page 0 1) 1024 ∧
        t.Uses (.table 0) 1025 ∧ t.Uses (.page 0 2) 1026)) = true := by
    decide +kernel
  obtain ⟨t, ht, huses⟩ := (Option.any_eq_true _ _).mp hfollow
  obtain ⟨h₁, h₂, h₃⟩ := of_decide_eq_true huses
  have hrun := (run_iff_follow.mpr ht).weaken fun _ _ => QuickCall.clean
  exact ⟨t, hrun, h₁, h₂, h₃, (frames_mapped_once (booted_exclusive _) hrun).1⟩

/-- A call on pages outside the windows. -/
def OutsideCall : Call → Prop
  | .allocPage address => Outside address
  | .allocPages pages address => ∀ i < pages.toNat, Outside (address + 0x1000 * BitVec.ofNat 32 i)

/-- An entry left in the frame that becomes the table maps the frame of the page a second
time. -/
theorem frame_mapped_twice :
    ∃ s cs t, s.Exclusive ∧ Run step (fun _ c => OutsideCall c) s cs t ∧
      t.Uses (.page 0 1) 1024 ∧ t.Uses (.page 0 5) 1024 := by
  have hstep : (step (booted fun f w => if f = 1025 ∧ w = 5 then 0x400001 else 0)
      (.allocPage 0x1000)).any (fun t => decide (t.Uses (.page 0 1) 1024 ∧
        t.Uses (.page 0 5) 1024)) = true := by
    decide +kernel
  obtain ⟨t, ht, huses⟩ := (Option.any_eq_true _ _).mp hstep
  have hout : OutsideCall (.allocPage 0x1000) := show Outside 0x1000 by decide
  exact ⟨_, _, t, booted_exclusive _, .cons hout ht (.nil t), of_decide_eq_true huses⟩

end VMM

end UntitledOS.Memory
