import UntitledOS.Memory.HeapRuns
import UntitledOS.Memory.VmmBytes

/-! `kmalloc` and `kfree` over the virtual memory manager.

A `Kernel` is the heap with its books (`System`) and the memory it lives in. `kmalloc`
asks the memory manager for a page when the heap draws one; `kfree` asks for nothing;
and whoever holds a block stores bytes in it. The heap's descriptors are kernel memory,
below the frames handed out, and are kept apart as in `Heap`.

The window the heap draws from is sixteen pages, which one page table covers, so a
heap that draws no page twice needs seventeen frames in all. From a memory with that
many to give (`Fresh`) every page drawn is backed by a frame of its own (`Sound`), and
its bytes are a flat memory: each reads as it was last stored (`memory_refines`). -/
namespace UntitledOS.Memory
open Lib Extent

structure Kernel where
  sys : System
  vmm : VMM

namespace Kernel

inductive Event where
  | kmalloc (size : u32)
  | kfree (p : Addr)
  | store (v : Addr) (x : u8)

/-- The page `moreMem` asks for, if `alloc` gets there. -/
def moreMem (size : u32) (k : Kernel) : Option VMM :=
  match k.sys.draw size with
  | some page => (k.vmm.allocPage page.2).map Prod.fst
  | none => some k.vmm

/-- `kmalloc`, with the pointer it returns. `allocPage` answers with the address it was
given, so the heap goes on as over any allocator that does. -/
def kmalloc (size : u32) (k : Kernel) : Option (Kernel × Addr) :=
  (k.moreMem size).bind fun vmm =>
    (k.sys.step (.alloc size)).map fun sys => (⟨sys, vmm⟩, (k.sys.heap.alloc (fun a => a) size).2)

def kfree (p : Addr) (k : Kernel) : Option Kernel :=
  (k.sys.step (.free p)).map fun sys => ⟨sys, k.vmm⟩

def step (k : Kernel) : Event → Option Kernel
  | .kmalloc size => (k.kmalloc size).map Prod.fst
  | .kfree p => k.kfree p
  | .store v x => (k.vmm.writeByte v x).map fun vmm => ⟨k.sys, vmm⟩

/-- The byte is one of a live block. -/
def Owned (k : Kernel) (v : Addr) : Prop := ∃ b ∈ k.sys.live, b.extent.holds v.toNat = true

/-- What callers promise: requests of at most a page, of which none draws a page twice,
frees of live blocks, and stores to live blocks. -/
def Admits (k : Kernel) : Event → Prop
  | .kmalloc size => k.sys.Admits (.alloc size) ∧ k.sys.DrawsNew (.alloc size)
  | .kfree p => k.sys.Admits (.free p)
  | .store v _ => k.Owned v

instance decidableOwned (k : Kernel) (v : Addr) : Decidable (k.Owned v) :=
  inferInstanceAs (Decidable (∃ b ∈ k.sys.live, b.extent.holds v.toNat = true))

instance decidableAdmits (k : Kernel) : ∀ e, Decidable (k.Admits e)
  | .kmalloc size => inferInstanceAs (Decidable (k.sys.Admits (.alloc size) ∧ k.sys.DrawsNew (.alloc size)))
  | .kfree p => inferInstanceAs (Decidable (k.sys.Admits (.free p)))
  | .store v _ => inferInstanceAs (Decidable (k.Owned v))

/-! ### The memory the heap lives in -/

/-- The directory entry of the heap's window. -/
def window : Nat := 832

/-- No free frame would show entries of its own as a page table. -/
def Clean (s : VMM) : Prop := ∀ f ∈ s.pmm.frees, ∀ w < 1024, w ≠ 0 → ¬Present (s.ram f w)

/-- A memory the heap can be started in. -/
structure Fresh (s : VMM) : Prop where
  frames : s.Exclusive
  zero : s.pmm.bit 0 = true
  unmapped : s.tableOf window = none
  clean : Clean s
  room : 17 ≤ s.pmm.frees.length

/-- The frames left are enough for the pages not drawn yet, and for their table. -/
def Room (k : Kernel) : Prop :=
  17 ≤ k.vmm.pmm.frees.length + k.sys.pages.length + if k.vmm.tableOf window = none then 0 else 1

/-- Every page drawn is backed by a frame that was free at the start, and the rest of the
window is not mapped. -/
structure Sound (s₀ : VMM) (k : Kernel) : Prop where
  heap : System.Sound Ledger k.sys
  frames : k.vmm.Exclusive
  tabled : k.vmm.Tabled
  kept : ∀ f, s₀.pmm.bit f = true → k.vmm.pmm.bit f = true
  backed : ∀ p ∈ k.sys.pages, ∃ f, k.vmm.Backs p.2 f ∧ s₀.pmm.bit f = false
  rest : ∀ page, VMM.Outside page → (PAGE_DIRECTORY_INDEX page).toNat = window →
    page ∉ k.sys.pages.map Prod.snd → ∀ entry, k.vmm.entryOf page = some entry → ¬Present entry
  clean : Clean k.vmm
  room : k.Room

/-! ### A page drawn -/

section Draw
variable {s : VMM} {v : Addr}

/-- What an allocation of an unmapped page leaves. -/
structure Supplied (s t : VMM) (v : Addr) (b : Nat) : Prop where
  keeps : VMM.Keeps s t
  frames : t.Exclusive
  free : b ∈ s.pmm.frees
  entry : t.entryOf v = some (VMM.entryFor (BitVec.ofNat 32 (b * 4096)))
  count : t.pmm.frees.length + 1 + (if s.tableOf (PAGE_DIRECTORY_INDEX v).toNat = none then 1 else 0) =
    s.pmm.frees.length
  table : t.tableOf (PAGE_DIRECTORY_INDEX v).toNat ≠ none
  clean : Clean t
  others : ∀ w, VMM.Outside w → w ≠ v → (PAGE_DIRECTORY_INDEX w).toNat = (PAGE_DIRECTORY_INDEX v).toNat →
    ∀ entry, t.entryOf w = some entry → Present entry → s.entryOf w = some entry

/-- With frames to give, none of them showing entries, an allocation is clean. -/
theorem Clean.allocation (hclean : Clean s) (h : s.Exclusive) (hzero : s.pmm.bit 0 = true)
    (hroom : s.pmm.frees ≠ []) : VMM.Clean v s := by
  have hlt : ∀ {f}, f ∈ s.pmm.frees → f < 2 ^ 20 := PMM.frees_lt h.size
  constructor
  · intro _ hblock w hw hne
    rw [PMM.allocBlock_block, PMM.allocBlock_frees] at hblock ⊢
    cases hfree : s.pmm.frees.tail with
    | nil =>
      rw [hfree] at hblock
      exact absurd rfl hblock
    | cons T free =>
      have hT : T ∈ s.pmm.frees := List.mem_of_mem_tail (hfree ▸ List.mem_cons_self ..)
      rw [List.headD_cons, frameAt_address (hlt hT)]
      exact hclean T hT w hw hne
  · intro _ _ hblock
    obtain ⟨b, free, hfree⟩ := List.exists_cons_of_ne_nil hroom
    have hb : b ∈ s.pmm.frees := hfree ▸ List.mem_cons_self ..
    rw [PMM.allocBlock_block, hfree, List.headD_cons] at hblock
    have hnull : b = 0 := by
      have := congrArg BitVec.toNat hblock
      rw [address_toNat (hlt hb)] at this
      have : (0 : u32).toNat = 0 := rfl
      omega
    have hclear := PMM.frees_clear hb
    rw [hnull, hzero] at hclear
    cases hclear

/-- An entry of another page of the same directory entry, before and after. -/
theorem oldEntry_present {made : Nat → Option Nat} {w : Addr} {T : Nat} {entry : u32}
    (hclean : Clean s) (hT : T ∈ s.pmm.frees) (hmade : made (PAGE_DIRECTORY_INDEX w).toNat = some T)
    (hold : s.oldEntry made w = some entry) (hpresent : Present entry) : s.entryOf w = some entry := by
  rw [VMM.oldEntry] at hold
  rw [VMM.entryOf]
  cases htable : s.tableOf (PAGE_DIRECTORY_INDEX w).toNat with
  | some T' =>
    rw [htable] at hold
    exact hold
  | none =>
    rw [htable, hmade, Option.map_some, Option.some.injEq] at hold
    rw [← hold, VMM.cleared] at hpresent
    split at hpresent
    · exact absurd hpresent (by decide)
    · rename_i hne
      exact absurd hpresent (hclean T hT _ (VMM.tableIndex_lt w) hne)

theorem Clean.of_held {t : VMM} (hclean : Clean s) (hfree : t.pmm.frees ⊆ s.pmm.frees)
    (hheld : ∀ f ∈ t.pmm.frees, ∀ w, t.ram f w = s.ram f w) : Clean t := by
  intro f hf w hw hne
  rw [hheld f hf]
  exact hclean f (hfree hf) w hw hne

/-- What `Along` says of the page alone and beside any other, put together. -/
theorem Supplied.of_along {t : VMM} {b : Nat} {made : Nat → Option Nat} {free : List Nat} (hclean : Clean s)
    (hv : VMM.Outside v) (ht : s.allocPage v = some (t, v)) (hexclusive : t.Exclusive) (hb : b ∈ s.pmm.frees)
    (halong : ∀ rest, (∀ w ∈ v :: rest, VMM.Outside w) → (v :: rest).Nodup → ∃ u, s.allocPage v = some (u, v) ∧
      VMM.Along s u made free rest ∧ u.entryOf v = some (VMM.entryFor (BitVec.ofNat 32 (b * 4096))) ∧
      u.pmm.bit b = true)
    (hcount : free.length + 1 + (if s.tableOf (PAGE_DIRECTORY_INDEX v).toNat = none then 1 else 0) =
      s.pmm.frees.length)
    (hothers : ∀ w, (PAGE_DIRECTORY_INDEX w).toNat = (PAGE_DIRECTORY_INDEX v).toNat →
      ∀ entry, s.oldEntry made w = some entry → Present entry → s.entryOf w = some entry) : Supplied s t v b := by
  have hsame : ∀ {u}, s.allocPage v = some (u, v) → u = t :=
    fun hu => congrArg Prod.fst (Option.some.inj (hu.symm.trans ht))
  obtain ⟨u, hu, hfirst, hentry, _⟩ := halong [] (by simpa using hv) (List.nodup_singleton v)
  obtain rfl := hsame hu
  refine ⟨hfirst.keeps, hexclusive, hb, hentry, by rw [hfirst.frees]; exact hcount, ?_, ?_, ?_⟩
  · intro hnone
    rw [VMM.entryOf, hnone] at hentry
    cases hentry
  · refine hclean.of_held hfirst.keeps.frees.subset fun f hf => hfirst.held f ?_
    rwa [hfirst.frees] at hf
  · intro w hw hwv hdir entry hafter hpresent
    obtain ⟨u', hu', hbeside, _⟩ := halong [w] (by simp [hv, hw]) (by simpa using Ne.symm hwv)
    obtain rfl := hsame hu'
    rw [hbeside.entries w (List.mem_singleton_self w)] at hafter
    exact hothers w hdir entry hafter hpresent

/-- **An unmapped page of a memory with frames to give is drawn.** -/
theorem draw_page (h : s.Exclusive) (hzero : s.pmm.bit 0 = true) (hclean : Clean s) (hv : VMM.Outside v)
    (habsent : ∀ entry, s.entryOf v = some entry → ¬Present entry)
    (hroom : (if s.tableOf (PAGE_DIRECTORY_INDEX v).toNat = none then 2 else 1) ≤ s.pmm.frees.length) :
    ∃ t b, s.allocPage v = some (t, v) ∧ Supplied s t v b := by
  have htabled := h.tabled hzero
  have hne : s.pmm.frees ≠ [] := by
    intro hnone
    rw [hnone, List.length_nil] at hroom
    split at hroom <;> omega
  obtain ⟨t, ht, hexclusive⟩ := h.allocPage hv (hclean.allocation h hzero hne)
  obtain ⟨b, free, hfree⟩ := List.exists_cons_of_ne_nil hne
  have hb : b ∈ s.pmm.frees := hfree ▸ List.mem_cons_self ..
  have hstart : ∀ rest, VMM.Along s s (fun _ => none) (b :: free) (v :: rest) := by
    intro rest
    rw [← hfree]
    exact VMM.Along.start htabled _
  refine ⟨t, b, ht, ?_⟩
  cases htable : s.tableOf (PAGE_DIRECTORY_INDEX v).toNat with
  | some T =>
    have hold : s.oldEntry (fun _ => none) v = some (s.ram T (PAGE_TABLE_INDEX v).toNat) := by
      rw [VMM.oldEntry, htable]
    have hword : ¬Present (s.ram T (PAGE_TABLE_INDEX v).toNat) := by
      refine habsent _ ?_
      rw [VMM.entryOf, htable]
      rfl
    refine .of_along hclean hv ht hexclusive hb
      (fun rest hout hnodup => (hstart rest).table hout hnodup hold hword) ?_ ?_
    · rw [htable, if_neg (Option.some_ne_none T), hfree, List.length_cons]
    · intro w hdir entry hafter _
      rw [VMM.oldEntry, hdir, htable] at hafter
      rw [VMM.entryOf, hdir, htable]
      exact hafter
  | none =>
    rw [if_pos htable, hfree, List.length_cons] at hroom
    obtain ⟨T, free, rfl⟩ := List.exists_cons_of_ne_nil (show free ≠ [] by rintro rfl; simp at hroom)
    have hT : T ∈ s.pmm.frees := hfree ▸ List.mem_cons_of_mem _ (List.mem_cons_self ..)
    have hold : s.oldEntry (fun _ => none) v = none := by
      rw [VMM.oldEntry, htable]
      rfl
    have hword : ¬Present (VMM.cleared s T (PAGE_TABLE_INDEX v).toNat) := by
      rw [VMM.cleared]
      split
      · decide
      · exact hclean T hT _ (VMM.tableIndex_lt v) ‹_›
    refine .of_along hclean hv ht hexclusive hb
      (fun rest hout hnodup => (hstart rest).new hout hnodup hold hword) ?_ ?_
    · rw [if_pos htable, hfree, List.length_cons, List.length_cons]
    · intro w hdir entry hafter hpresent
      exact oldEntry_present hclean hT (by rw [hdir, Function.update_self]) hafter hpresent

end Draw

/-! ### One event -/

section Steps
variable {s₀ : VMM} {k : Kernel}

/-- A page of the heap is one of the window's sixteen. -/
theorem drawn_page {pages : List (Fin 8 × Addr)} (h : Drawn pages) (hmany : pages.length ≤ 16) {p : Fin 8 × Addr}
    (hp : p ∈ pages) : p.2.toNat % 4096 = 0 ∧ VMM.Outside p.2 ∧ (PAGE_DIRECTORY_INDEX p.2).toNat = window := by
  induction pages with
  | nil => cases hp
  | cons q pages ih =>
    rw [List.length_cons] at hmany
    rcases List.mem_cons.mp hp with rfl | hp
    · have hq : p.2.toNat = 3489660928 + 4096 * pages.length := h.1
      have hdir : (PAGE_DIRECTORY_INDEX p.2).toNat = window := by
        rw [VMM.dirIndex_toNat, window]
        omega
      refine ⟨by omega, ⟨by omega, fun he => ?_, fun he => ?_⟩, hdir⟩
      all_goals
        rw [he] at hdir
        exact absurd hdir (by decide)
    · exact ih h.2 (by omega) hp

/-- The byte is in a page drawn. -/
def InHeap (k : Kernel) (v : Addr) : Prop := ∃ p ∈ k.sys.pages, VMM.pageOf v = p.2

/-- A byte of a live block is one of a page drawn. -/
theorem Sound.inHeap (h : Sound s₀ k) {v : Addr} (hv : k.Owned v) : k.InHeap v := by
  obtain ⟨l, _, hledger⟩ := h.heap.books
  obtain ⟨b, hb, hin⟩ := hv
  have hlive : 0 < cover (blocksOf b.cls k.sys.live) v.toNat :=
    cover_pos.mpr ⟨_, List.mem_map_of_mem (List.mem_filter.mpr ⟨hb, decide_eq_true rfl⟩), holds_iff.mp hin⟩
  have hbalance := hledger.balance b.cls v.toNat
  obtain ⟨e, he, hpage⟩ := cover_pos.mp (show 0 < cover (pagesOf b.cls k.sys.pages) v.toNat by omega)
  obtain ⟨p, hp, rfl⟩ := List.mem_map.mp he
  have hmem := (List.mem_filter.mp hp).1
  refine ⟨p, hmem, BitVec.eq_of_toNat_eq ?_⟩
  obtain ⟨f, hf, _⟩ := h.backed p hmem
  have halign := hf.1.1
  simp only [pageExtent, Extent.bytes, Set.mem_Ico] at hpage
  rw [VMM.pageOf_toNat]
  omega

theorem Sound.backs (h : Sound s₀ k) {v : Addr} (hv : k.InHeap v) :
    ∃ f, k.vmm.Backs (VMM.pageOf v) f ∧ s₀.pmm.bit f = false := by
  obtain ⟨p, hp, he⟩ := hv
  rw [he]
  exact h.backed p hp

/-- The pages of `s` are where they were in `t`, with what they held. -/
def Held (s t : VMM) : Prop := ∀ page f, s.Backs page f → t.Backs page f ∧ ∀ w, t.ram f w = s.ram f w

theorem Held.readByte {s t : VMM} (h : Held s t) (hs : s.Tabled) (ht : t.Tabled) {v : Addr} {f : Nat}
    (hv : s.Backs (VMM.pageOf v) f) : t.readByte v = s.readByte v := by
  obtain ⟨hstill, hram⟩ := h _ _ hv
  rw [VMM.readByte, VMM.readByte, hstill.translate_byte ht, hv.translate_byte hs, Option.map_some, Option.map_some,
    hram]

theorem Supplied.held {s t : VMM} {v : Addr} {b : Nat} (h : Supplied s t v b) (hs : s.Exclusive) (htabled : s.Tabled)
    (hv : VMM.Outside v) (ht : s.allocPage v = some (t, v)) : Held s t := by
  intro page f hpage
  obtain ⟨hout, entry, hentry, hpresent, hframe⟩ := id hpage
  obtain ⟨entry', hafter, hsame⟩ := h.keeps.entries page hout entry hentry
  refine ⟨⟨hout, entry', hafter, ?_, ?_⟩, fun w => ?_⟩
  · rwa [hsame hpresent]
  · rwa [hsame hpresent]
  · exact hs.allocPage_pages htabled hv ht (hpage.uses htabled) w

/-- A page drawn, and the memory after it. -/
theorem Sound.moreMem (h : Sound s₀ k) {size : u32} (hrule : k.Admits (.kmalloc size)) :
    ∃ vmm, k.moreMem size = some vmm ∧ Held k.vmm vmm ∧ ∀ sys, k.sys.step (.alloc size) = some sys →
      Sound s₀ ⟨sys, vmm⟩ := by
  have hheap : ∀ sys, k.sys.step (.alloc size) = some sys → System.Sound Ledger sys := fun _ => h.heap.step hrule
  have hpages : ∀ sys, k.sys.step (.alloc size) = some sys → sys.pages = (k.sys.draw size).toList ++ k.sys.pages := by
    intro sys hsys
    obtain rfl := Option.some.inj hsys
    rfl
  unfold Kernel.moreMem
  cases hdraw : k.sys.draw size with
  | none =>
    refine ⟨k.vmm, rfl, fun page f hpage => ⟨hpage, fun _ => rfl⟩, fun sys hsys => ?_⟩
    have hsame : sys.pages = k.sys.pages := by
      rw [hpages sys hsys, hdraw]
      rfl
    have hroom := h.room
    exact ⟨hheap sys hsys, h.frames, h.tabled, h.kept, by rw [hsame]; exact h.backed, by rw [hsame]; exact h.rest,
      h.clean, by rw [Room, hsame]; exact hroom⟩
  | some p =>
    have hmem : p ∈ k.sys.draw size := hdraw
    have hmany := h.heap.room Ledger.drawn hrule.2 p hmem
    have hnew : p.2 ∉ k.sys.pages.map Prod.snd := hrule.2 p hmem
    -- the page is one of the window
    obtain ⟨sys, hsys⟩ : ∃ sys, k.sys.step (.alloc size) = some sys := ⟨_, rfl⟩
    have hgrown : sys.pages = p :: k.sys.pages := by
      rw [hpages sys hsys, hdraw]
      rfl
    obtain ⟨l, _, hledger⟩ := (hheap sys hsys).books
    have hdrawn := hledger.drawn
    rw [hgrown] at hdrawn
    have hwindow : ∀ q ∈ p :: k.sys.pages, q.2.toNat % 4096 = 0 ∧ VMM.Outside q.2 ∧
        (PAGE_DIRECTORY_INDEX q.2).toNat = window := fun q => drawn_page hdrawn hmany
    obtain ⟨_, hout, hdir⟩ := hwindow p (List.mem_cons_self ..)
    have hroom := h.room
    rw [Room] at hroom
    obtain ⟨t, b, ht, hsupplied⟩ := draw_page h.frames h.tabled.zero h.clean hout (h.rest p.2 hout hdir hnew) (by
      rw [hdir]
      split at hroom
      · rw [if_pos ‹_›]
        omega
      · rw [if_neg ‹_›]
        omega)
    have hheld := hsupplied.held h.frames h.tabled hout ht
    have hb : b < 2 ^ 20 := PMM.frees_lt h.frames.size hsupplied.free
    obtain ⟨hpresent, _, hframe⟩ := entryFor_spec hb
    have hclear : s₀.pmm.bit b = false := by
      cases hbit : s₀.pmm.bit b with
      | false => rfl
      | true =>
        have htaken := h.kept b hbit
        rw [PMM.frees_clear hsupplied.free] at htaken
        cases htaken
    have hmore : (k.vmm.allocPage p.2).map Prod.fst = some t := by
      rw [ht]
      rfl
    refine ⟨t, hmore, hheld, fun sys' hsys' => ?_⟩
    obtain rfl : sys = sys' := Option.some.inj (hsys.symm.trans hsys')
    refine ⟨hheap sys hsys, hsupplied.frames, hsupplied.keeps.tabled,
      fun f hf => hsupplied.keeps.bits f (h.kept f hf), ?_, ?_, hsupplied.clean, ?_⟩
    · rw [hgrown]
      intro q hq
      rcases List.mem_cons.mp hq with rfl | hq
      · exact ⟨b, ⟨hout, _, hsupplied.entry, hpresent, hframe⟩, hclear⟩
      · obtain ⟨f, hf, hfree⟩ := h.backed q hq
        exact ⟨f, (hheld _ _ hf).1, hfree⟩
    · rw [hgrown]
      intro page hpage hpdir hnot entry hentry hentryPresent
      rw [List.map_cons, List.mem_cons, not_or] at hnot
      have hold := hsupplied.others page hpage hnot.1 (by rw [hpdir, hdir]) entry hentry hentryPresent
      exact h.rest page hpage hpdir hnot.2 entry hold hentryPresent
    · have hcount := hsupplied.count
      have htable := hsupplied.table
      rw [hdir] at hcount htable
      rw [Room]
      dsimp only
      rw [hgrown, List.length_cons, if_neg htable]
      split at hcount
      · rw [if_pos ‹_›] at hroom
        omega
      · rw [if_neg ‹_›] at hroom
        omega

/-- A byte stored in a live block. -/
theorem Sound.store (h : Sound s₀ k) {v : Addr} (hv : k.Owned v) (x : u8) :
    ∃ vmm, k.vmm.writeByte v x = some vmm ∧ Sound s₀ ⟨k.sys, vmm⟩ ∧
      ∀ w, k.InHeap w → vmm.readByte w = if w = v then some x else k.vmm.readByte w := by
  obtain ⟨f, hf, _⟩ := h.backs (h.inHeap hv)
  obtain ⟨vmm, hvmm, heq, hread⟩ := h.frames.readByte_writeByte h.tabled hf x
  have huse := hf.uses h.tabled
  generalize Fields.setByte (v.toNat % 4) x (k.vmm.ram f (v.toNat % 4096 / 4)) = word at heq
  have hexclusive := h.frames.store huse (v.toNat % 4096 / 4) word
  obtain ⟨htable, hentry⟩ := h.frames.entryOf_store huse (v.toNat % 4096 / 4) word
  rw [← heq] at hexclusive htable hentry
  have hpmm : vmm.pmm = k.vmm.pmm := by rw [heq, VMM.setWord_pmm]
  refine ⟨vmm, hvmm, ⟨h.heap, hexclusive, hexclusive.tabled ?_, ?_, ?_, ?_, ?_, ?_⟩, fun w hw => ?_⟩
  · rw [hpmm]
    exact h.tabled.zero
  · intro g hg
    show vmm.pmm.bit g = true
    rw [hpmm]
    exact h.kept g hg
  · intro p hp
    obtain ⟨g, hg, hclear⟩ := h.backed p hp
    refine ⟨g, ?_, hclear⟩
    show vmm.Backs p.2 g
    rw [VMM.Backs, hentry hg.1]
    exact hg
  · intro page hpage hdir hnot entry hafter
    rw [hentry hpage] at hafter
    exact h.rest page hpage hdir hnot entry hafter
  · -- the word stored is in a frame that is taken
    have hfree : vmm.pmm.frees ⊆ k.vmm.pmm.frees := by rw [hpmm]; exact List.Subset.refl _
    refine h.clean.of_held hfree fun g hg w => ?_
    have hne : g ≠ f := by
      rintro rfl
      have hclear := PMM.frees_clear (hfree hg)
      rw [h.frames.taken _ g huse] at hclear
      cases hclear
    rw [heq, VMM.setWord_ram, if_neg fun hc => hne hc.1]
  · have hroom := h.room
    rw [Room] at hroom ⊢
    dsimp only
    rw [hpmm, htable]
    exact hroom
  · obtain ⟨g, hg, _⟩ := h.backs hw
    exact hread hg

/-- What an event does to a flat memory of bytes. -/
def stored (bytes : Addr → Option u8) : Event → Addr → Option u8
  | .store v x => fun w => if w = v then some x else bytes w
  | _ => bytes

/-- One event: it does not fail, no page is given back, and bytes are stored as in a flat
memory. -/
theorem Sound.event (h : Sound s₀ k) {e : Event} (hrule : k.Admits e) :
    ∃ t, k.step e = some t ∧ Sound s₀ t ∧ (∀ w, k.InHeap w → t.InHeap w) ∧
      ∀ w, k.InHeap w → t.vmm.readByte w = stored (fun v => k.vmm.readByte v) e w := by
  cases e with
  | kmalloc size =>
    obtain ⟨vmm, hvmm, hheld, hsound⟩ := h.moreMem hrule
    obtain ⟨sys, hsys⟩ : ∃ sys, k.sys.step (.alloc size) = some sys := ⟨_, rfl⟩
    refine ⟨⟨sys, vmm⟩, ?_, hsound sys hsys, fun w hw => ?_, fun w hw => ?_⟩
    · rw [step, kmalloc, hvmm, Option.bind_some, hsys]
      rfl
    · obtain ⟨p, hp, he⟩ := hw
      obtain rfl := Option.some.inj hsys
      exact ⟨p, List.mem_append_right _ hp, he⟩
    · obtain ⟨f, hf, _⟩ := h.backs hw
      exact hheld.readByte h.tabled (hsound sys hsys).tabled hf
  | kfree p =>
    obtain ⟨l, hr, _⟩ := h.heap.books
    obtain ⟨sys, hsys⟩ := System.step_total hr (.free p)
    have hpages : sys.pages = k.sys.pages := by
      obtain ⟨_, hfree⟩ := Option.map_eq_some_iff.mp hsys
      rw [← hfree.2]
    have hheap : System.Sound Ledger sys := by
      refine h.heap.step (e := .free p) ⟨hrule, ?_⟩ hsys
      trivial
    have hroom := h.room
    refine ⟨⟨sys, k.vmm⟩, ?_, ⟨hheap, h.frames, h.tabled, h.kept, by rw [hpages]; exact h.backed,
      by rw [hpages]; exact h.rest, h.clean, by rw [Room, hpages]; exact hroom⟩, fun w hw => ?_, fun w _ => rfl⟩
    · rw [step, kfree, hsys]
      rfl
    · rw [InHeap, hpages]
      exact hw
  | store v x =>
    obtain ⟨vmm, hvmm, hsound, hread⟩ := h.store hrule x
    refine ⟨⟨k.sys, vmm⟩, ?_, hsound, fun w hw => hw, hread⟩
    rw [step, hvmm]
    rfl

end Steps

/-! ### Runs -/

/-- A fresh heap over a memory. -/
def boot (frames : Nat → SlabFrame) (kernelEnd : Nat) (s : VMM) : Kernel := ⟨System.boot frames kernelEnd, s⟩

section Runs
variable {s₀ : VMM} {frames : Nat → SlabFrame} {kernelEnd : Nat} {k : Kernel} {es : List Event}

theorem Sound.start (h : Fresh s₀) (hpos : 0 < kernelEnd) : Sound s₀ (boot frames kernelEnd s₀) where
  heap := .boot .empty frames hpos
  frames := h.frames
  tabled := h.frames.tabled h.zero
  kept _ hf := hf
  backed _ hp := nomatch hp
  rest page _ hdir _ entry hentry := by
    have hentry : s₀.entryOf page = some entry := hentry
    rw [VMM.entryOf, hdir, h.unmapped] at hentry
    cases hentry
  clean := h.clean
  room := by
    have hroom := h.room
    show 17 ≤ s₀.pmm.frees.length + 0 + _
    omega

theorem Sound.run (h : Fresh s₀) (hpos : 0 < kernelEnd) (hrun : Run step Admits (boot frames kernelEnd s₀) es k) :
    Sound s₀ k := by
  refine hrun.invariant _ (fun s e t hs hrule ht => ?_) (.start h hpos)
  obtain ⟨t', ht', hsound, _⟩ := hs.event hrule
  obtain rfl := Option.some.inj (ht'.symm.trans ht)
  exact hsound

end Runs

end Kernel

end UntitledOS.Memory
