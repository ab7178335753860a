import UntitledOS.Memory.VmmTables

/-! Allocations that are whole.

`allocPage` and `allocPages` always answer with the address they were given. That is right
where every page was given a free frame of its own (`Whole`), and where the address is null
and nothing was changed. When it happens is read off the state before the call: every entry
of a requested page is absent, in the tables that are there and in the frames that become
tables, and the free frames, in the allocator's order, are enough for pages and tables
(`Granted`). Elsewhere the answer is wrong (`whole_iff`), or an entry somewhere named a free
frame before the call (`Stale`), and a page got that one. -/
namespace UntitledOS.Memory
open Lib

namespace VMM

/-- Pages allocated one after the other. -/
def allocEach : List Addr → VMM → Option VMM
  | [], s => some s
  | v :: rest, s => (s.allocPage v).bind fun r => allocEach rest r.1

def Call.address : Call → Addr
  | .allocPage address => address
  | .allocPages _ address => address

/-- The pages requested. -/
def Call.pages : Call → List Addr
  | .allocPage address => [address]
  | .allocPages pages address => (List.range pages.toNat).map fun i => address + 0x1000 * BitVec.ofNat 32 i

/-- The range of pages does not wrap. -/
def Call.Fits : Call → Prop
  | .allocPage _ => True
  | .allocPages pages address => address.toNat + 4096 * pages.toNat ≤ 2 ^ 32

def answer (s : VMM) : Call → Option (VMM × Addr)
  | .allocPage address => s.allocPage address
  | .allocPages pages address => s.allocPages pages address

/-- Every page is mapped to a frame of its own, which was free and is taken now. -/
def Whole (s t : VMM) (pages : List Addr) : Prop :=
  ∃ frames : List Nat, List.Forall₂ (fun v f => t.translate v = some (f, 0)) pages frames ∧ frames.Nodup ∧
    ∀ f ∈ frames, s.pmm.bit f = false ∧ t.pmm.bit f = true

/-- The call answers with the address, and was whole, or with null, and changed nothing. -/
def AllOrNothing (s : VMM) (c : Call) : Prop :=
  ∃ t ret, s.answer c = some (t, ret) ∧ ((ret = c.address ∧ Whole s t c.pages) ∨ (ret = 0 ∧ t = s))

/-! ### The condition -/

/-- The entry of a page before the call, in the table that is there or was made since. -/
def oldEntry (s : VMM) (made : Nat → Option Nat) (v : Addr) : Option u32 :=
  match s.tableOf (PAGE_DIRECTORY_INDEX v).toNat with
  | some T => some (s.ram T (PAGE_TABLE_INDEX v).toNat)
  | none => (made (PAGE_DIRECTORY_INDEX v).toNat).map fun T => cleared s T (PAGE_TABLE_INDEX v).toNat

/-- Pages take the free frames in order: one each, and the one behind it if the table is
missing; and no entry is present where they are to be entered. -/
def Granted (s : VMM) (made : Nat → Option Nat) : List Addr → List Nat → Prop
  | [], _ => True
  | v :: rest, free =>
    match s.oldEntry made v, free with
    | some entry, _ :: free => ¬Present entry ∧ Granted s made rest free
    | none, _ :: T :: free => ¬Present (cleared s T (PAGE_TABLE_INDEX v).toNat) ∧
        Granted s (Function.update made (PAGE_DIRECTORY_INDEX v).toNat (some T)) rest free
    | _, _ => False

instance decidableGranted (s : VMM) : ∀ made pages free, Decidable (Granted s made pages free)
  | _, [], _ => inferInstanceAs (Decidable True)
  | made, v :: rest, free =>
    match hold : s.oldEntry made v, free with
    | some entry, _ :: free =>
      have := decidableGranted s made rest free
      decidable_of_iff (¬Present entry ∧ Granted s made rest free) (by simp only [Granted, hold])
    | none, _ :: T :: free =>
      have := decidableGranted s (Function.update made (PAGE_DIRECTORY_INDEX v).toNat (some T)) rest free
      decidable_of_iff (¬Present (cleared s T (PAGE_TABLE_INDEX v).toNat) ∧
        Granted s (Function.update made (PAGE_DIRECTORY_INDEX v).toNat (some T)) rest free)
        (by simp only [Granted, hold])
    | some _, [] | none, [] | none, [_] => .isFalse (by simp only [Granted, hold, not_false_eq_true])

/-- Null is the address, memory is exhausted, and no page has a table with room for it. -/
def Refused (s : VMM) (c : Call) : Prop :=
  c.address = 0 ∧ s.pmm.frees = [] ∧ ∀ v ∈ c.pages, ∀ entry, s.entryOf v = some entry → Present entry

/-- An entry in a page table, or in a free frame behind its first word, names a free
frame. -/
def Stale (s : VMM) : Prop :=
  ∃ T k, ((∃ i, s.tableOf i = some T) ∨ T ∈ s.pmm.frees ∧ k ≠ 0) ∧ Present (s.ram T k) ∧
    s.pmm.bit (frameOf (s.ram T k)) = false

/-! ### Pages -/

theorem allocPagesFrom_eq (address : Addr) (n i : Nat) (s : VMM) :
    s.allocPagesFrom address i n =
      allocEach ((List.range' i n).map fun i => address + 0x1000 * BitVec.ofNat 32 i) s := by
  induction n generalizing i s with
  | zero => rfl
  | succ n ih =>
    rw [allocPagesFrom, List.range'_succ, List.map_cons, allocEach]
    congr 1
    funext r
    exact ih (i + 1) r.1

theorem answer_eq (s : VMM) (c : Call) : s.answer c = (allocEach c.pages s).map (·, c.address) := by
  cases c with
  | allocPage address =>
    rw [answer, Call.pages, Call.address]
    simp only [allocEach, VMM.allocPage, Option.map_bind, Option.bind_map]
    cases mapPage s.pmm.allocBlock.2 address {s with pmm := s.pmm.allocBlock.1} <;> rfl
  | allocPages pages address =>
    rw [answer, allocPages, allocPagesFrom_eq, ← List.range_eq_range']
    rfl

/-- Pages of a call are told apart. -/
theorem Call.nodup {c : Call} (h : c.Fits) : c.pages.Nodup := by
  cases c with
  | allocPage address => exact List.nodup_singleton _
  | allocPages pages address =>
    have hfits : address.toNat + 4096 * pages.toNat ≤ 2 ^ 32 := h
    apply List.Nodup.map_on _ List.nodup_range
    intro i hi j hj hsame
    have hi := List.mem_range.mp hi
    have hj := List.mem_range.mp hj
    have htoNat : ∀ m < pages.toNat, (address + 0x1000 * BitVec.ofNat 32 m).toNat = address.toNat + 4096 * m := by
      intro m hm
      rw [BitVec.toNat_add, BitVec.toNat_mul, BitVec.toNat_ofNat]
      show (address.toNat + 4096 * (m % 2 ^ 32) % 2 ^ 32) % 2 ^ 32 = _
      omega
    have hnat := congrArg BitVec.toNat hsame
    rw [htoNat i hi, htoNat j hj] at hnat
    omega

theorem OutsideCall.pages {c : Call} (h : OutsideCall c) : ∀ v ∈ c.pages, Outside v := by
  intro v hv
  cases c with
  | allocPage address =>
    rw [List.mem_singleton.mp hv]
    exact h
  | allocPages pages address =>
    obtain ⟨i, hi, rfl⟩ := List.mem_map.mp hv
    exact h i (List.mem_range.mp hi)

/-- Where a page is mapped is what its entry says. -/
theorem Tabled.translate {s : VMM} (h : s.Tabled) {v : Addr} (hv : Outside v) :
    s.translate v = (s.entryOf v).bind fun entry => if Present entry then some (frameOf entry, 0) else none := by
  have hword : ((v &&& 0xfff) >>> 2).toNat = 0 := by
    rw [word_toNat, hv.1]
  rw [VMM.translate, hword]
  by_cases hpresent : Present (s.ram s.dir (PAGE_DIRECTORY_INDEX v).toNat)
  · have hlarge := h.plain _ hv.index.1 hv.index.2 hpresent
    have htable : s.tableOf (PAGE_DIRECTORY_INDEX v).toNat = some _ := tableOf_some.mpr ⟨hpresent, rfl⟩
    rw [if_neg (not_not.mpr hpresent), if_neg hlarge, entryOf, htable]
    rfl
  · rw [if_pos hpresent, entryOf, tableOf_none.mpr hpresent]
    rfl

/-- An entry for a frame, and where it leads. -/
theorem Tabled.translate_entry {s : VMM} (h : s.Tabled) {v : Addr} (hv : Outside v) {e : u32}
    (hentry : s.entryOf v = some e) (hpresent : Present e) : s.translate v = some (frameOf e, 0) := by
  rw [h.translate hv, hentry, Option.bind_some, if_pos hpresent]

/-! ### Along the pages -/

theorem Keeps.each {pages : List Addr} (hout : ∀ v ∈ pages, Outside v) {s : VMM} (h : s.Tabled) :
    ∃ t, allocEach pages s = some t ∧ Keeps s t := by
  induction pages generalizing s with
  | nil => exact ⟨s, rfl, Keeps.refl h⟩
  | cons v rest ih =>
    obtain ⟨u, hu, hkeeps⟩ := h.allocPage (hout v (List.mem_cons_self ..))
    obtain ⟨t, ht, hrest⟩ := ih (fun w hw => hout w (List.mem_cons_of_mem _ hw)) hkeeps.tabled
    refine ⟨t, ?_, hkeeps.trans hrest⟩
    rw [allocEach, hu, Option.bind_some]
    exact ht

theorem stale_cleared {s : VMM} {T k : Nat} (hT : T ∈ s.pmm.frees) (hpresent : Present (cleared s T k))
    (hfree : s.pmm.bit (frameOf (cleared s T k)) = false) : Stale s := by
  unfold cleared at hpresent hfree
  split at hpresent
  · exact absurd hpresent (by decide)
  · rename_i hk
    rw [if_neg hk] at hfree
    exact ⟨T, k, .inr ⟨hT, hk⟩, hpresent, hfree⟩

/-- On the way from `s`, at `u`, before the pages `rest`: the free frames left, and what the
entries of these pages are, in tables of `s` or made since. -/
structure Along (s u : VMM) (made : Nat → Option Nat) (free : List Nat) (rest : List Addr) : Prop where
  keeps : Keeps s u
  frees : u.pmm.frees = free
  entries : ∀ w ∈ rest, u.entryOf w = s.oldEntry made w
  held : ∀ f ∈ free, ∀ k, u.ram f k = s.ram f k
  made : ∀ i T, made i = some T → T ∈ s.pmm.frees

theorem Along.start {s : VMM} (h : s.Tabled) (rest : List Addr) :
    Along s s (fun _ => none) s.pmm.frees rest where
  keeps := Keeps.refl h
  frees := rfl
  entries w _ := by
    rw [entryOf, oldEntry]
    cases s.tableOf (PAGE_DIRECTORY_INDEX w).toNat <;> rfl
  held _ _ _ := rfl
  made _ _ h := nomatch h

section Steps
variable {s u : VMM} {made : Nat → Option Nat} {free : List Nat} {v : Addr} {rest : List Addr}

/-- The next page is given the next frame, through a table that is there. -/
theorem Along.table {b : Nat} {entry : u32} (h : Along s u made (b :: free) (v :: rest))
    (hout : ∀ w ∈ v :: rest, Outside w) (hnodup : (v :: rest).Nodup) (hold : s.oldEntry made v = some entry)
    (habsent : ¬Present entry) : ∃ t, u.allocPage v = some (t, v) ∧ Along s t made free rest ∧
      t.entryOf v = some (entryFor (BitVec.ofNat 32 (b * 4096))) ∧ t.pmm.bit b = true := by
  have hv := hout v (List.mem_cons_self ..)
  have htabled := h.keeps.tabled
  have hentry := h.entries v (List.mem_cons_self ..)
  rw [hold, entryOf, Option.map_eq_some_iff] at hentry
  obtain ⟨T, htable, hword⟩ := hentry
  have huse := htabled.table hv.index.1 hv.index.2 htable
  have hstep := htabled.allocPage_table hv htable
  rw [PMM.allocBlock_block, h.frees, List.headD_cons] at hstep
  have habsent' : ¬Present (u.took.ram T (PAGE_TABLE_INDEX v).toNat) := hword ▸ habsent
  have hplaced : ∀ w, Outside w → (placed u.took T (PAGE_TABLE_INDEX v).toNat (BitVec.ofNat 32 (b * 4096))).entryOf w =
      if w = v then some (entryFor (BitVec.ofNat 32 (b * 4096))) else u.entryOf w := by
    intro w hw
    rw [htabled.took.entryOf_placed hv hw htable]
    simp only [habsent', not_false_eq_true, and_true, entryOf_took]
  refine ⟨_, hstep, ⟨?_, ?_, ?_, ?_, h.made⟩, ?_, ?_⟩
  · exact h.keeps.trans ((Keeps.took htabled).trans (Keeps.placed htabled.took hv htable _))
  · rw [placed_pmm, took_frees, h.frees, List.tail_cons]
  · intro w hw
    have hne : w ≠ v := ne_of_mem_of_not_mem hw (List.nodup_cons.mp hnodup).1
    rw [hplaced w (hout w (List.mem_cons_of_mem _ hw)), if_neg hne]
    exact h.entries w (List.mem_cons_of_mem _ hw)
  · intro f hf k
    -- a free frame is not the table written to
    have hclear : u.pmm.bit f = false := PMM.frees_clear (h.frees ▸ List.mem_cons_of_mem _ hf)
    have hT : f ≠ T := by
      rintro rfl
      exact htabled.unused hclear (u := .table _) trivial huse
    rw [placed, if_neg habsent', setWord_ram, if_neg fun hc => hT hc.1]
    exact h.held f (List.mem_cons_of_mem _ hf) k
  · rw [hplaced v hv, if_pos rfl]
  · rw [placed_pmm]
    show u.pmm.allocBlock.1.bit b = true
    rw [PMM.bit_allocBlock, h.frees]
    simp

theorem tableOf_of_oldEntry (hold : s.oldEntry made v = none) : s.tableOf (PAGE_DIRECTORY_INDEX v).toNat = none := by
  rw [oldEntry] at hold
  split at hold
  · cases hold
  · assumption

/-- The state in which the next page's table was made. -/
theorem Along.missing {b T : Nat} (h : Along s u made (b :: T :: free) (v :: rest))
    (hold : s.oldEntry made v = none) : u.tableOf (PAGE_DIRECTORY_INDEX v).toNat = none ∧
      u.took.pmm.frees = T :: free ∧ ∀ k, cleared u.took T k = cleared s T k := by
  have hentry := h.entries v (List.mem_cons_self ..)
  rw [hold, entryOf, Option.map_eq_none_iff] at hentry
  refine ⟨hentry, ?_, fun k => ?_⟩
  · rw [took_frees, h.frees, List.tail_cons]
  · show (if k = 0 then 0 else u.ram T k) = _
    rw [h.held T (by simp), cleared]

/-- The next page is given the next frame, and the one behind it becomes its table. -/
theorem Along.new {b T : Nat} (h : Along s u made (b :: T :: free) (v :: rest))
    (hout : ∀ w ∈ v :: rest, Outside w) (hnodup : (v :: rest).Nodup) (hold : s.oldEntry made v = none)
    (habsent : ¬Present (cleared s T (PAGE_TABLE_INDEX v).toNat)) : ∃ t, u.allocPage v = some (t, v) ∧
      Along s t (Function.update made (PAGE_DIRECTORY_INDEX v).toNat (some T)) free rest ∧
      t.entryOf v = some (entryFor (BitVec.ofNat 32 (b * 4096))) ∧ t.pmm.bit b = true := by
  have hv := hout v (List.mem_cons_self ..)
  have htabled := h.keeps.tabled
  obtain ⟨hmissing, hfree, hcleared⟩ := h.missing hold
  have hnew := htabled.took.tabledWith hv hfree
  have htable := htabled.took.tableOf_tabledWith (v := v) hfree
  have hstep := htabled.allocPage_new hv hmissing ((took_frees u).symm.trans hfree)
  rw [PMM.allocBlock_block, h.frees, List.headD_cons] at hstep
  have habsent' : ¬Present ((u.took.tabledWith v T).ram T (PAGE_TABLE_INDEX v).toNat) := by
    have hentry := htabled.took.entryOf_tabledWith (v := v) hfree hv
    rw [entryOf, htable, if_pos rfl, hcleared, Option.map_some] at hentry
    rwa [Option.some.inj hentry]
  have hplaced : ∀ w, Outside w →
      (placed (u.took.tabledWith v T) T (PAGE_TABLE_INDEX v).toNat (BitVec.ofNat 32 (b * 4096))).entryOf w =
        if w = v then some (entryFor (BitVec.ofNat 32 (b * 4096)))
        else if (PAGE_DIRECTORY_INDEX w).toNat = (PAGE_DIRECTORY_INDEX v).toNat
        then some (cleared s T (PAGE_TABLE_INDEX w).toNat) else u.entryOf w := by
    intro w hw
    rw [hnew.entryOf_placed hv hw htable, htabled.took.entryOf_tabledWith hfree hw, hcleared]
    simp only [habsent', not_false_eq_true, and_true, entryOf_took]
  have hnone := tableOf_of_oldEntry hold
  have hT : T ∈ s.pmm.frees := h.keeps.frees.subset (by rw [h.frees]; simp)
  have hnodupFree := u.pmm.frees_nodup
  rw [h.frees, List.nodup_cons, List.nodup_cons] at hnodupFree
  refine ⟨_, hstep, ⟨?_, ?_, ?_, ?_, ?_⟩, ?_, ?_⟩
  · refine h.keeps.trans ((Keeps.took htabled).trans ?_)
    exact (Keeps.tabledWith htabled.took hv hmissing hfree).trans (Keeps.placed hnew hv htable _)
  · rw [placed_pmm]
    show u.took.took.pmm.frees = free
    rw [took_frees, hfree, List.tail_cons]
  · intro w hw
    have hne : w ≠ v := ne_of_mem_of_not_mem hw (List.nodup_cons.mp hnodup).1
    rw [hplaced w (hout w (List.mem_cons_of_mem _ hw)), if_neg hne, oldEntry]
    by_cases hdir : (PAGE_DIRECTORY_INDEX w).toNat = (PAGE_DIRECTORY_INDEX v).toNat
    · rw [if_pos hdir, hdir, hnone, Function.update_self]
      rfl
    · rw [if_neg hdir, Function.update_of_ne hdir, h.entries w (List.mem_cons_of_mem _ hw), oldEntry]
  · intro f hf k
    have hclear : u.pmm.bit f = false :=
      PMM.frees_clear (h.frees ▸ List.mem_cons_of_mem _ (List.mem_cons_of_mem _ hf))
    have hne : f ≠ T := by
      rintro rfl
      exact hnodupFree.2.1 hf
    have hdir : f ≠ u.dir := fun hdir => htabled.unused hclear (u := .directory) trivial hdir
    rw [placed, if_neg habsent', setWord_ram, if_neg fun hc => hne hc.1, htabled.took.tabledWith_ram hfree hdir hne]
    exact h.held f (List.mem_cons_of_mem _ (List.mem_cons_of_mem _ hf)) k
  · intro i T' hT'
    by_cases hi : i = (PAGE_DIRECTORY_INDEX v).toNat
    · rw [hi, Function.update_self] at hT'
      exact Option.some.inj hT' ▸ hT
    · rw [Function.update_of_ne hi] at hT'
      exact h.made i T' hT'
  · rw [hplaced v hv, if_pos rfl]
  · rw [placed_pmm]
    apply bit_took
    show u.pmm.allocBlock.1.bit b = true
    rw [PMM.bit_allocBlock, h.frees]
    simp

/-- Pages that are granted frames get them, in order. -/
theorem Along.whole (h : Along s u made free rest) (hout : ∀ w ∈ rest, Outside w) (hnodup : rest.Nodup)
    (hgranted : Granted s made rest free) : ∃ t frames, allocEach rest u = some t ∧ Keeps u t ∧
      List.Forall₂ (fun v f => t.translate v = some (f, 0)) rest frames ∧ frames.Sublist free ∧
      ∀ f ∈ frames, t.pmm.bit f = true := by
  induction rest generalizing u made free with
  | nil => exact ⟨u, [], rfl, Keeps.refl h.keeps.tabled, .nil, List.nil_sublist _, by simp⟩
  | cons v rest ih =>
    have hv := hout v (List.mem_cons_self ..)
    have hout' : ∀ w ∈ rest, Outside w := fun w hw => hout w (List.mem_cons_of_mem _ hw)
    -- whichever way the page was given its frame, the others follow
    have hstep : ∀ {b : Nat} {free' : List Nat} {made' : Nat → Option Nat} {u' : VMM}, u.allocPage v = some (u', v) →
        Along s u' made' free' rest → u'.entryOf v = some (entryFor (BitVec.ofNat 32 (b * 4096))) →
        u'.pmm.bit b = true → Keeps u u' → b ∈ u.pmm.frees → (b :: free').Sublist free →
        Granted s made' rest free' → ∃ t frames, allocEach (v :: rest) u = some t ∧ Keeps u t ∧
          List.Forall₂ (fun v f => t.translate v = some (f, 0)) (v :: rest) frames ∧ frames.Sublist free ∧
          ∀ f ∈ frames, t.pmm.bit f = true := by
      intro b free' made' u' hu' halong hentry hbit hkeeps hb hsub hgranted
      obtain ⟨t, frames, ht, hrest, hmapped, hframes, htaken⟩ := ih halong hout' hnodup.tail hgranted
      obtain ⟨hpresent, _, hframe⟩ := entryFor_spec (PMM.frees_lt h.keeps.tabled.size hb)
      obtain ⟨e, he, hsame⟩ := hrest.entries v hv _ hentry
      rw [hsame hpresent] at he
      have htranslate := hrest.tabled.translate_entry hv he hpresent
      rw [hframe] at htranslate
      refine ⟨t, b :: frames, ?_, hkeeps.trans hrest, .cons htranslate hmapped, ?_, ?_⟩
      · rw [allocEach, hu', Option.bind_some]
        exact ht
      · exact (hframes.cons_cons b).trans hsub
      · intro f hf
        rcases List.mem_cons.mp hf with rfl | hf
        · exact hrest.bits _ hbit
        · exact htaken f hf
    obtain ⟨u', hu', hkeeps⟩ := h.keeps.tabled.allocPage hv
    cases hold : s.oldEntry made v with
    | some entry =>
      cases free with
      | nil =>
        simp only [Granted, hold] at hgranted
      | cons b free =>
        simp only [Granted, hold] at hgranted
        obtain ⟨habsent, hgranted⟩ := hgranted
        obtain ⟨t, ht, halong, hentry, hbit⟩ := h.table hout hnodup hold habsent
        obtain rfl : u' = t := congrArg Prod.fst (Option.some.inj (hu'.symm.trans ht))
        exact hstep ht halong hentry hbit hkeeps (h.frees ▸ List.mem_cons_self ..) (List.Sublist.refl _) hgranted
    | none =>
      match free with
      | [] | [_] => simp only [Granted, hold] at hgranted
      | b :: T :: free =>
        simp only [Granted, hold] at hgranted
        obtain ⟨habsent, hgranted⟩ := hgranted
        obtain ⟨t, ht, halong, hentry, hbit⟩ := h.new hout hnodup hold habsent
        obtain rfl : u' = t := congrArg Prod.fst (Option.some.inj (hu'.symm.trans ht))
        exact hstep ht halong hentry hbit hkeeps (h.frees ▸ List.mem_cons_self ..)
          ((List.sublist_cons_self _ _).cons_cons b) hgranted

/-- An entry that is present stays, and maps its page to the frame it names. -/
theorem Keeps.present {t : VMM} (h : Keeps u t) (hv : Outside v) {e : u32} (hentry : u.entryOf v = some e)
    (hpresent : Present e) : t.translate v = some (frameOf e, 0) := by
  obtain ⟨e', he', hsame⟩ := h.entries v hv e hentry
  rw [hsame hpresent] at he'
  exact h.tabled.translate_entry hv he' hpresent

/-- The state behind the next page, and what the others leave of it. -/
theorem allocEach_cons {t : VMM} (h : u.Tabled) (hout : ∀ w ∈ v :: rest, Outside w)
    (ht : allocEach (v :: rest) u = some t) :
    ∃ u', u.allocPage v = some (u', v) ∧ allocEach rest u' = some t ∧ Keeps u u' ∧ Keeps u' t := by
  obtain ⟨u', hu', hkeeps⟩ := h.allocPage (hout v (List.mem_cons_self ..))
  obtain ⟨t', ht', hrest⟩ := Keeps.each (fun w hw => hout w (List.mem_cons_of_mem _ hw)) hkeeps.tabled
  rw [allocEach, hu', Option.bind_some] at ht
  obtain rfl : t' = t := Option.some.inj (ht'.symm.trans ht)
  exact ⟨u', hu', ht, hkeeps, hrest⟩

/-- An old entry that is present was somewhere in the memory of `s`. -/
theorem Along.stale (h : Along s u made free rest) {e : u32} (hold : s.oldEntry made v = some e)
    (hpresent : Present e) (hfree : s.pmm.bit (frameOf e) = false) : Stale s := by
  unfold oldEntry at hold
  split at hold
  · rename_i T htable
    obtain rfl := Option.some.inj hold
    exact ⟨T, _, .inl ⟨_, htable⟩, hpresent, hfree⟩
  · obtain ⟨T, hT, rfl⟩ := Option.map_eq_some_iff.mp hold
    exact stale_cleared (h.made _ T hT) hpresent hfree

section Spoilt
variable {t u' : VMM}

/-- With no block, a page that has a table is mapped to frame 0. -/
theorem Along.mapped_null (h : Along s u made [] (v :: rest)) (hv : Outside v) (hu' : u.allocPage v = some (u', v))
    (hrest : Keeps u' t) {e : u32} (hentry : u.entryOf v = some e) (habsent : ¬Present e) :
    t.translate v = some (0, 0) := by
  have htabled := h.keeps.tabled
  obtain ⟨T, htable, rfl⟩ := Option.map_eq_some_iff.mp hentry
  have hstep := htabled.allocPage_table hv htable
  rw [PMM.allocBlock_block, h.frees, List.headD_nil] at hstep
  obtain rfl := congrArg Prod.fst (Option.some.inj (hu'.symm.trans hstep))
  obtain ⟨hnull, _, hframe⟩ := entryFor_spec (show 0 < 2 ^ 20 by decide)
  have hentry' := htabled.took.entryOf_placed hv hv htable (BitVec.ofNat 32 (0 * 4096))
  rw [if_pos ⟨rfl, habsent⟩] at hentry'
  rw [hrest.present hv hentry' hnull, hframe]

/-- With no frame for its table, a page stays unmapped. -/
theorem Along.unmapped (h : Along s u made free (v :: rest)) (hv : Outside v) (hu' : u.allocPage v = some (u', v))
    (hrest : Keeps u' t) (hnone : free.tail = []) (hmissing : u.tableOf (PAGE_DIRECTORY_INDEX v).toNat = none) :
    t.translate v = none := by
  have htail : u.pmm.frees.tail = [] := by rw [h.frees, hnone]
  have hstep := h.keeps.tabled.allocPage_exhausted hv hmissing htail
  obtain rfl := congrArg Prod.fst (Option.some.inj (hu'.symm.trans hstep))
  have hentry : u.took.entryOf v = none := by
    rw [entryOf_took, entryOf, hmissing]
    rfl
  rw [hrest.tabled.translate hv, hrest.missing ((took_frees u).trans htail) v hv hentry]
  rfl

/-- A page whose new table has an entry for it is mapped to what that names. -/
theorem Along.mapped_old {b T : Nat} (h : Along s u made (b :: T :: free) (v :: rest)) (hv : Outside v)
    (hu' : u.allocPage v = some (u', v)) (hrest : Keeps u' t) (hold : s.oldEntry made v = none)
    (hpresent : Present (cleared s T (PAGE_TABLE_INDEX v).toNat)) :
    t.translate v = some (frameOf (cleared s T (PAGE_TABLE_INDEX v).toNat), 0) := by
  have htabled := h.keeps.tabled
  obtain ⟨hmissing, hfree, hcleared⟩ := h.missing hold
  have hstep := htabled.allocPage_new hv hmissing ((took_frees u).symm.trans hfree)
  obtain rfl := congrArg Prod.fst (Option.some.inj (hu'.symm.trans hstep))
  have hentry' := htabled.took.entryOf_tabledWith (v := v) hfree hv
  rw [if_pos rfl, hcleared] at hentry'
  have hkept := (Keeps.placed (htabled.took.tabledWith hv hfree) hv
    (htabled.took.tableOf_tabledWith hfree) u.pmm.allocBlock.2).trans hrest
  exact hkept.present hv hentry' hpresent

/-- Where pages are not granted frames, one of them ends up with none, with frame 0, or with
a frame an old entry named. -/
theorem Along.spoilt (h : Along s u made free rest) (hzero : s.pmm.bit 0 = true)
    (hout : ∀ w ∈ rest, Outside w) (hnodup : rest.Nodup) (hnot : ¬Granted s made rest free)
    (ht : allocEach rest u = some t) :
    ∃ v ∈ rest, ∀ f, t.translate v = some (f, 0) → s.pmm.bit f = false → Stale s := by
  induction rest generalizing u made free with
  | nil => exact absurd trivial hnot
  | cons v rest ih =>
    have hv := hout v (List.mem_cons_self ..)
    have hout' : ∀ w ∈ rest, Outside w := fun w hw => hout w (List.mem_cons_of_mem _ hw)
    obtain ⟨u', hu', hrun, hkeeps, hrest⟩ := allocEach_cons h.keeps.tabled hout ht
    have hlater : ∀ {made' free'}, Along s u' made' free' rest → ¬Granted s made' rest free' →
        ∃ v' ∈ v :: rest, ∀ f, t.translate v' = some (f, 0) → s.pmm.bit f = false → Stale s := by
      intro made' free' halong hnot
      obtain ⟨w, hw, hspoilt⟩ := ih halong hout' hnodup.tail hnot hrun
      exact ⟨w, List.mem_cons_of_mem _ hw, hspoilt⟩
    have hentry := h.entries v (List.mem_cons_self ..)
    cases hold : s.oldEntry made v with
    | some e =>
      rw [hold] at hentry
      by_cases hpresent : Present e
      · -- the page is mapped already
        refine ⟨v, List.mem_cons_self .., fun f hf hclear => ?_⟩
        rw [(hkeeps.trans hrest).present hv hentry hpresent] at hf
        obtain rfl := congrArg Prod.fst (Option.some.inj hf)
        exact h.stale hold hpresent hclear
      · cases free with
        | nil =>
          refine ⟨v, List.mem_cons_self .., fun f hf hclear => ?_⟩
          rw [h.mapped_null hv hu' hrest hentry hpresent] at hf
          obtain rfl : 0 = f := congrArg Prod.fst (Option.some.inj hf)
          rw [hzero] at hclear
          cases hclear
        | cons b free =>
          simp only [Granted, hold, hpresent, not_false_eq_true, true_and] at hnot
          obtain ⟨t', ht', halong, _⟩ := h.table hout hnodup hold hpresent
          obtain rfl : u' = t' := congrArg Prod.fst (Option.some.inj (hu'.symm.trans ht'))
          exact hlater halong hnot
    | none =>
      rw [hold, entryOf, Option.map_eq_none_iff] at hentry
      by_cases hshort : free.tail = []
      · refine ⟨v, List.mem_cons_self .., fun f hf _ => ?_⟩
        rw [h.unmapped hv hu' hrest hshort hentry] at hf
        cases hf
      · have hne : free ≠ [] := fun hnil => hshort (by rw [hnil]; rfl)
        obtain ⟨b, free, rfl⟩ := List.exists_cons_of_ne_nil hne
        obtain ⟨T, free, rfl⟩ := List.exists_cons_of_ne_nil hshort
        by_cases hpresent : Present (cleared s T (PAGE_TABLE_INDEX v).toNat)
        · refine ⟨v, List.mem_cons_self .., fun f hf hclear => ?_⟩
          rw [h.mapped_old hv hu' hrest hold hpresent] at hf
          obtain rfl := congrArg Prod.fst (Option.some.inj hf)
          have hT : T ∈ s.pmm.frees := h.keeps.frees.subset (by rw [h.frees]; simp)
          exact stale_cleared hT hpresent hclear
        · simp only [Granted, hold, hpresent, not_false_eq_true, true_and] at hnot
          obtain ⟨t', ht', halong, _⟩ := h.new hout hnodup hold hpresent
          obtain rfl : u' = t' := congrArg Prod.fst (Option.some.inj (hu'.symm.trans ht'))
          exact hlater halong hnot

end Spoilt

end Steps

/-! ### Nothing changed -/

section Exhausted
variable {s t : VMM} {pages : List Addr}

theorem took_exhausted (h : s.pmm.frees = []) : s.took = s := by
  rw [took, PMM.allocBlock_nil h]

/-- With memory exhausted, the requested pages that have a table end up with an entry. -/
theorem Tabled.exhausted (h : s.Tabled) (hnone : s.pmm.frees = []) (hout : ∀ v ∈ pages, Outside v)
    (ht : allocEach pages s = some t) {v : Addr} (hv : v ∈ pages) {e : u32} (hentry : s.entryOf v = some e) :
    ∃ e', t.entryOf v = some e' ∧ Present e' := by
  induction pages generalizing s e with
  | nil => cases hv
  | cons w rest ih =>
    obtain ⟨u, hu, hrun, hkeeps, hrest⟩ := allocEach_cons h hout ht
    rcases List.mem_cons.mp hv with rfl | hv
    · obtain ⟨T, htable, rfl⟩ := Option.map_eq_some_iff.mp hentry
      have hvout := hout v (List.mem_cons_self ..)
      have hstep := h.allocPage_table hvout htable
      obtain rfl := congrArg Prod.fst (Option.some.inj (hu.symm.trans hstep))
      have hplaced := h.took.entryOf_placed hvout hvout htable s.pmm.allocBlock.2
      have hnow : ∃ e, (VMM.placed s.took T (PAGE_TABLE_INDEX v).toNat s.pmm.allocBlock.2).entryOf v = some e ∧
          Present e := by
        by_cases hpresent : Present (s.took.ram T (PAGE_TABLE_INDEX v).toNat)
        · rw [if_neg fun hc => hc.2 hpresent] at hplaced
          exact ⟨_, hplaced.trans hentry, hpresent⟩
        · have hblock : s.pmm.allocBlock.2 = BitVec.ofNat 32 (0 * 4096) := by
            rw [PMM.allocBlock_block, hnone]
            rfl
          rw [if_pos ⟨rfl, hpresent⟩] at hplaced
          refine ⟨_, hplaced, ?_⟩
          rw [hblock]
          exact (entryFor_spec (by decide)).1
      obtain ⟨e, he, hpresent⟩ := hnow
      obtain ⟨e', he', hsame⟩ := hrest.entries v hvout e he
      exact ⟨e', he', hsame hpresent ▸ hpresent⟩
    · obtain ⟨e', he', _⟩ := hkeeps.entries v (hout v (List.mem_cons_of_mem _ hv)) e hentry
      have hnone' : u.pmm.frees = [] := List.suffix_nil.mp (hnone ▸ hkeeps.frees)
      exact ih hkeeps.tabled hnone' (fun w hw => hout w (List.mem_cons_of_mem _ hw)) hrun hv he'

/-- A refused call changes nothing. -/
theorem Tabled.refused (h : s.Tabled) (hnone : s.pmm.frees = []) (hout : ∀ v ∈ pages, Outside v)
    (hfull : ∀ v ∈ pages, ∀ e, s.entryOf v = some e → Present e) : allocEach pages s = some s := by
  induction pages with
  | nil => rfl
  | cons v rest ih =>
    have hv := hout v (List.mem_cons_self ..)
    have hstep : s.allocPage v = some (s, v) := by
      cases htable : s.tableOf (PAGE_DIRECTORY_INDEX v).toNat with
      | some T =>
        have hpresent := hfull v (List.mem_cons_self ..) (s.ram T (PAGE_TABLE_INDEX v).toNat)
          (by rw [entryOf, htable]; rfl)
        rw [h.allocPage_table hv htable, took_exhausted hnone, VMM.placed, if_pos hpresent]
      | none => rw [h.allocPage_exhausted hv htable (by rw [hnone]; rfl), took_exhausted hnone]
    rw [allocEach, hstep, Option.bind_some]
    exact ih (fun w hw => hout w (List.mem_cons_of_mem _ hw)) fun w hw => hfull w (List.mem_cons_of_mem _ hw)

/-- A call that changes nothing found memory exhausted. -/
theorem Tabled.unchanged {v : Addr} {rest : List Addr} (h : s.Tabled) (hout : ∀ w ∈ v :: rest, Outside w)
    (ht : allocEach (v :: rest) s = some s) : s.pmm.frees = [] := by
  cases hfree : s.pmm.frees with
  | nil => rfl
  | cons b free =>
    obtain ⟨u, hu, hrun, -, hrest⟩ := allocEach_cons h hout ht
    obtain ⟨u', hu', hkeeps⟩ := h.allocPage_took (hout v (List.mem_cons_self ..))
    obtain rfl : u' = u := congrArg Prod.fst (Option.some.inj (hu'.symm.trans hu))
    have hclear : s.pmm.bit b = false := PMM.frees_clear (hfree ▸ List.mem_cons_self ..)
    have htaken : s.took.pmm.bit b = true := by
      show s.pmm.allocBlock.1.bit b = true
      rw [PMM.bit_allocBlock, hfree]
      simp
    rw [(hkeeps.trans hrest).bits b htaken] at hclear
    cases hclear

end Exhausted

/-! ### Calls -/

theorem whole_of_granted {s : VMM} (h : s.Tabled) {pages : List Addr} (hout : ∀ v ∈ pages, Outside v)
    (hnodup : pages.Nodup) (hgranted : Granted s (fun _ => none) pages s.pmm.frees) :
    ∃ t, allocEach pages s = some t ∧ Whole s t pages := by
  obtain ⟨t, frames, ht, -, hmapped, hsub, htaken⟩ := (Along.start h pages).whole hout hnodup hgranted
  refine ⟨t, ht, frames, hmapped, s.pmm.frees_nodup.sublist hsub, fun f hf => ?_⟩
  exact ⟨PMM.frees_clear (hsub.subset hf), htaken f hf⟩

theorem granted_of_whole {s t : VMM} (h : s.Tabled) {pages : List Addr} (hout : ∀ v ∈ pages, Outside v)
    (hnodup : pages.Nodup) (ht : allocEach pages s = some t) (hwhole : Whole s t pages) :
    Granted s (fun _ => none) pages s.pmm.frees ∨ Stale s := by
  by_cases hgranted : Granted s (fun _ => none) pages s.pmm.frees
  · exact .inl hgranted
  · obtain ⟨v, hv, hspoilt⟩ := (Along.start h pages).spoilt h.zero hout hnodup hgranted ht
    obtain ⟨frames, hmapped, -, hfree⟩ := hwhole
    obtain ⟨hlen, hget⟩ := List.forall₂_iff_get.mp hmapped
    obtain ⟨i, hi, rfl⟩ := List.getElem_of_mem hv
    have hi' : i < frames.length := hlen ▸ hi
    exact .inr (hspoilt frames[i] (hget i hi hi') (hfree _ (List.getElem_mem hi')).1)

/-- **Which calls are whole, or change nothing.** A call on pages of its own is where they
are granted frames, or it is refused; and in no other state, unless an old entry names a free
frame. -/
theorem allocation_whole {s : VMM} {c : Call} (h : s.Tabled) (hout : OutsideCall c) (hfits : c.Fits) :
    (Granted s (fun _ => none) c.pages s.pmm.frees ∨ s.Refused c → s.AllOrNothing c) ∧
      (s.AllOrNothing c → Granted s (fun _ => none) c.pages s.pmm.frees ∨ s.Refused c ∨ s.Stale) := by
  have hpages := hout.pages
  have hnodup := Call.nodup hfits
  constructor
  · rintro (hgranted | ⟨haddress, hnone, hfull⟩)
    · obtain ⟨t, ht, hwhole⟩ := whole_of_granted h hpages hnodup hgranted
      refine ⟨t, c.address, ?_, .inl ⟨rfl, hwhole⟩⟩
      rw [answer_eq, ht]
      rfl
    · refine ⟨s, c.address, ?_, .inr ⟨haddress, rfl⟩⟩
      rw [answer_eq, h.refused hnone hpages hfull]
      rfl
  · rintro ⟨t, ret, hanswer, hcases⟩
    rw [answer_eq, Option.map_eq_some_iff] at hanswer
    obtain ⟨t', ht, heq⟩ := hanswer
    obtain ⟨rfl, rfl⟩ := Prod.mk.inj heq
    rcases hcases with ⟨-, hwhole⟩ | ⟨haddress, rfl⟩
    · exact (granted_of_whole h hpages hnodup ht hwhole).imp_right .inr
    · cases hc : c.pages with
      | nil => exact .inl trivial
      | cons v rest =>
        rw [hc] at ht hpages
        have hnone := h.unchanged hpages ht
        refine .inr (.inl ⟨haddress, hnone, fun w hw e he => ?_⟩)
        rw [hc] at hw
        obtain ⟨e', he', hpresent⟩ := h.exhausted hnone hpages ht hw he
        obtain rfl := Option.some.inj (he.symm.trans he')
        exact hpresent

theorem booted_tabled (stale : Nat → Nat → u32) : (booted stale).Tabled :=
  (booted_exclusive stale).tabled (by
    show Bitmap.bit (fun i => if i < 32 then 0xffffffff#32 else 0) 0 = true
    decide)

/-- Three pages after the boot, the last one in the next table. -/
theorem allocation_whole_three :
    (booted fun _ _ => 0).AllOrNothing (.allocPages 3 0x3FE000) := by
  have hout : OutsideCall (.allocPages 3 0x3FE000) := by
    show ∀ i < 3, Outside (0x3FE000 + 0x1000 * BitVec.ofNat 32 i)
    decide
  have hfits : Call.Fits (.allocPages 3 0x3FE000) := by
    show (0x3FE000 : Addr).toNat + 4096 * (3 : u32).toNat ≤ 2 ^ 32
    decide
  apply (allocation_whole (booted_tabled _) hout hfits).1
  left
  show Granted _ _ [0x3FE000, 0x3FF000, 0x400000] _
  decide +kernel

/-- The machine after the boot, with every frame in use. -/
def exhausted : VMM :=
  {booted fun _ _ => 0 with pmm := {(booted fun _ _ => 0).pmm with usedBlocks := 1088}}

/-- With memory exhausted, the answer is the address of a page that is not mapped. -/
theorem page_missing : ¬exhausted.AllOrNothing (.allocPage 0x1000) := by
  have hbit : ∀ f, (booted fun _ _ => 0).pmm.bit f = true → exhausted.pmm.bit f = true := fun _ hf => hf
  have htabled : exhausted.Tabled := (booted_tabled _).grow hbit rfl
  have hout : Outside 0x1000 := by decide
  have hfrees : exhausted.pmm.frees = [] := rfl
  have htable : exhausted.tableOf (PAGE_DIRECTORY_INDEX 0x1000).toNat = none := by decide
  have hstep := htabled.allocPage_exhausted hout htable (by rw [hfrees]; rfl)
  rw [took_exhausted hfrees] at hstep
  rintro ⟨t, ret, hanswer, hcases⟩
  obtain ⟨rfl, rfl⟩ := Prod.mk.inj (Option.some.inj (hstep.symm.trans hanswer))
  rcases hcases with ⟨-, frames, hmapped, -⟩ | ⟨hnull, -⟩
  · have hunmapped : exhausted.translate 0x1000 = none := by decide
    obtain ⟨f, -, htranslate, -⟩ := List.forall₂_cons_left_iff.mp hmapped
    rw [hunmapped] at htranslate
    cases htranslate
  · exact absurd hnull (by decide)

end VMM

end UntitledOS.Memory
