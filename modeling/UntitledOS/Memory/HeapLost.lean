import UntitledOS.Memory.HeapRuns

/-! Blocks that the heap loses.

`free` drops what is in front of the frame it found: the younger blocks of the class. They
stay live, but a later `free` of one of them finds nothing (`Dropped`). The ledger goes on
as if such a block were live for good, so its bytes are never handed out again, whether it
is freed or not (`dropped_never_reused`). -/
namespace UntitledOS.Memory
open Lib Extent

/-! ### Order -/

/-- Behind an element that does not occur earlier. -/
theorem sublist_behind {α : Type*} {p : α} {as bs cs ds : List α} (h : (as ++ p :: bs).Sublist (cs ++ p :: ds))
    (hp : p ∉ cs) : bs.Sublist ds := by
  have hbehind : (p :: bs).Sublist (cs ++ p :: ds) := (List.sublist_append_right as _).trans h
  clear h
  induction cs with
  | nil => exact List.cons_sublist_cons.mp hbehind
  | cons c cs ih =>
    rw [List.mem_cons, not_or] at hp
    rcases List.cons_sublist_cons'.mp hbehind with hbehind | ⟨rfl, _⟩
    · exact ih hp.2 hbehind
    · exact absurd rfl hp.1

theorem sublist_without {α : Type*} {p : α} {as bs cs : List α} (h : as.Sublist (bs ++ p :: cs)) (hp : p ∉ as) :
    as.Sublist (bs ++ cs) := by
  obtain ⟨xs, ys, rfl, hxs, hys⟩ := List.sublist_append_iff.mp h
  refine hxs.append ?_
  rcases List.sublist_cons_iff.mp hys with hys | ⟨r, rfl, _⟩
  · exact hys
  · exact absurd (List.mem_append_right _ (List.mem_cons_self ..)) hp

/-- The addresses of a class's live blocks. -/
def addrsOf (i : Fin 8) (live : List Block) : List Addr := (live.filter (·.cls = i)).map Block.addr

theorem addrsOf_append (i : Fin 8) (a b : List Block) : addrsOf i (a ++ b) = addrsOf i a ++ addrsOf i b := by
  rw [addrsOf, List.filter_append, List.map_append]
  rfl

theorem addrsOf_cons (i : Fin 8) (b : Block) (live : List Block) :
    addrsOf i (b :: live) = if b.cls = i then b.addr :: addrsOf i live else addrsOf i live := by
  by_cases hb : b.cls = i
  · rw [addrsOf, List.filter_cons_of_pos (by simpa using hb), List.map_cons, if_pos hb]
    rfl
  · rw [addrsOf, List.filter_cons_of_neg (by simpa using hb), if_neg hb]
    rfl

/-- The ledger, with every alloced list in the order of the live blocks, the last one
handed out first. -/
structure Ordered (live : List Block) (pages : List (Fin 8 × Addr)) (l : Lists) : Prop
    extends Ledger live pages l where
  order : ∀ i, ((l (.alloced i)).map Span.start).Sublist (addrsOf i live)

namespace Ordered

variable {live : List Block} {pages : List (Fin 8 × Addr)} {l : Lists} {i : Fin 8}

theorem empty : Ordered [] [] fun _ => [] := ⟨Ledger.empty, fun _ => List.Sublist.refl _⟩

theorem refill (h : Ordered live pages l) (hempty : l (.free i) = []) {a : Addr}
    (ha : a.toNat = heapStart.toNat + 4096 * pages.length) :
    Ordered live ((i, a) :: pages) (l.refill i a) := by
  refine ⟨h.toLedger.refill hempty ha, fun j => ?_⟩
  rw [Lists.refill_alloced]
  exact h.order j

theorem take (h : Ordered live pages l) (hsome : l (.free i) ≠ []) :
    Ordered (⟨(l.take i).2, i⟩ :: live) pages (l.take i).1 := by
  obtain ⟨f, fs, hf⟩ := List.exists_cons_of_ne_nil hsome
  obtain ⟨⟨g, hg, hi⟩, hj⟩ := Lists.take_alloced hf
  refine ⟨h.toLedger.take hsome, fun j => ?_⟩
  rw [Lists.take_start hf, addrsOf_cons]
  by_cases hji : j = i
  · subst hji
    rw [hi, if_pos rfl, List.map_cons, hg]
    exact (h.order j).cons_cons _
  · rw [hj j hji, if_neg (Ne.symm hji)]
    exact h.order j

theorem release (h : Ordered live pages l) {p : Addr} (hp : ∃ b ∈ live, b.addr = p) :
    Ordered (live.eraseP (·.addr = p)) pages (l.release p) := by
  refine ⟨h.toLedger.release hp, fun j => ?_⟩
  obtain ⟨b, a, c, rfl, hlive, herase, hfront⟩ := Ledger.split_live hp
  have hmem : b ∈ live := by
    rw [hlive]
    exact List.mem_append_right _ (List.mem_cons_self ..)
  have horder := h.order j
  rw [hlive, addrsOf_append, addrsOf_cons] at horder
  rw [herase, addrsOf_append]
  rcases h.toLedger.release_live hmem with ⟨hsame, hnone⟩ | ⟨pre, f, post, hsplit, hb, hr⟩
  · rw [hsame]
    split at horder
    · refine sublist_without horder fun hstart => ?_
      obtain ⟨s, hs, hstart⟩ := List.mem_map.mp hstart
      exact hnone j s hs hstart
    · exact horder
  · rw [hr, Lists.release_alloced]
    split
    · rename_i hj
      subst hj
      have hfirst : b.addr ∉ addrsOf b.cls a := by
        intro hstart
        obtain ⟨d, hd, hstart⟩ := List.mem_map.mp hstart
        exact hfront d (List.mem_filter.mp hd).1 hstart
      rw [if_pos rfl, hsplit, List.map_append, List.map_cons, hb] at horder
      exact (sublist_behind horder hfirst).trans (List.sublist_append_right ..)
    · rename_i hj
      rwa [if_neg (Ne.symm hj)] at horder

end Ordered

/-! ### Dropped blocks -/

/-- A live block that is on no alloced list. -/
structure Dropped (b : Block) (live : List Block) (pages : List (Fin 8 × Addr)) (l : Lists) : Prop
    extends Ledger live pages l where
  live : b ∈ live
  unlisted : ∀ i, ∀ s ∈ l (.alloced i), s.start ≠ b.addr

/-- A block that was dropped and freed: nothing changes if it is counted as live. -/
abbrev Lost (b : Block) (live : List Block) : List (Fin 8 × Addr) → Lists → Prop := Dropped b (b :: live)

/-- A younger block of the class is dropped when a block is found and freed: the list goes
on behind the frame found. -/
theorem Ordered.drops {live younger older : List Block} {pages : List (Fin 8 × Addr)} {l : Lists} {a b : Block}
    (h : Ordered live pages l) (hlive : live = younger ++ a :: older) (hb : b ∈ younger) (hcls : b.cls = a.cls)
    (hlisted : ∃ i, ∃ f ∈ l (.alloced i), f.start = a.addr) :
    Dropped b (live.eraseP (·.addr = a.addr)) pages (l.release a.addr) := by
  have hmem : a ∈ live := by
    rw [hlive]
    exact List.mem_append_right _ (List.mem_cons_self ..)
  have hmem' : b ∈ live := by
    rw [hlive]
    exact List.mem_append_left _ hb
  -- the addresses of the class, younger ones, the block's own and older ones
  have hnodup : (addrsOf a.cls live).Nodup := h.nodup.sublist (List.Sublist.map _ List.filter_sublist)
  rw [hlive, addrsOf_append, addrsOf_cons, if_pos rfl] at hnodup
  have hapart := (List.nodup_append.mp hnodup).2.2
  have hyounger : b.addr ∈ addrsOf a.cls younger :=
    List.mem_map_of_mem (List.mem_filter.mpr ⟨hb, by simpa using hcls⟩)
  have hne : b.addr ≠ a.addr := hapart _ hyounger _ (List.mem_cons_self ..)
  refine ⟨h.toLedger.release ⟨a, hmem, rfl⟩, (List.mem_eraseP_of_neg (by simpa using hne)).mpr hmem', ?_⟩
  rcases h.toLedger.release_live hmem with ⟨_, hnone⟩ | ⟨pre, f, post, hsplit, ha, hr⟩
  · obtain ⟨i, f, hf, hstart⟩ := hlisted
    exact absurd hstart (hnone i f hf)
  · intro j g hg hstart
    rw [hr, Lists.release_alloced] at hg
    split at hg
    · -- behind the frame found are older blocks only
      have horder := h.order a.cls
      rw [hlive, addrsOf_append, addrsOf_cons, if_pos rfl, hsplit, List.map_append, List.map_cons, ha] at horder
      have hfirst : a.addr ∉ addrsOf a.cls younger := fun hagain =>
        hapart _ hagain _ (List.mem_cons_self ..) rfl
      have holder : b.addr ∈ addrsOf a.cls older :=
        (sublist_behind horder hfirst).subset (hstart ▸ List.mem_map_of_mem hg)
      exact hapart _ hyounger _ (List.mem_cons_of_mem _ holder) rfl
    · rename_i hj
      have hsame := h.addr_inj (h.listed j g hg) hmem' hstart
      exact hj ((congrArg Block.cls hsame).trans hcls)

theorem Ledger.perm {live live' : List Block} {pages : List (Fin 8 × Addr)} {l : Lists} (h : Ledger live pages l)
    (hperm : live.Perm live') : Ledger live' pages l := by
  refine ⟨h.framed, h.drawn, fun i x => ?_, fun i s hs => hperm.mem_iff.mp (h.listed i s hs), h.distinct⟩
  have hcover : cover (blocksOf i live') x = cover (blocksOf i live) x :=
    ((hperm.filter _).map _).symm.countP_eq _
  rw [hcover]
  exact h.balance i x

namespace Dropped

variable {live : List Block} {pages : List (Fin 8 × Addr)} {l : Lists} {i : Fin 8} {b : Block}

theorem perm {live' : List Block} (h : Dropped b live pages l) (hperm : live.Perm live') :
    Dropped b live' pages l :=
  ⟨h.toLedger.perm hperm, hperm.mem_iff.mp h.live, h.unlisted⟩

theorem refill (h : Dropped b live pages l) (hempty : l (.free i) = []) {a : Addr}
    (ha : a.toNat = heapStart.toNat + 4096 * pages.length) :
    Dropped b live ((i, a) :: pages) (l.refill i a) := by
  refine ⟨h.toLedger.refill hempty ha, h.live, fun j => ?_⟩
  rw [Lists.refill_alloced]
  exact h.unlisted j

theorem take (h : Dropped b live pages l) (hsome : l (.free i) ≠ []) :
    Dropped b (⟨(l.take i).2, i⟩ :: live) pages (l.take i).1 := by
  have hledger := h.toLedger.take hsome
  refine ⟨hledger, List.mem_cons_of_mem _ h.live, fun j s hs => ?_⟩
  obtain ⟨f, fs, hf⟩ := List.exists_cons_of_ne_nil hsome
  obtain ⟨⟨g, hg, hi⟩, hj⟩ := Lists.take_alloced hf
  have hnew : (l.take i).2 ≠ b.addr := by
    have hnodup := hledger.nodup
    rw [List.map_cons, List.nodup_cons] at hnodup
    intro heq
    exact hnodup.1 (List.mem_map.mpr ⟨b, h.live, heq.symm⟩)
  by_cases hji : j = i
  · subst hji
    rw [hi] at hs
    rcases List.mem_cons.mp hs with rfl | hs
    · rwa [hg, ← Lists.take_start hf]
    · exact h.unlisted j s hs
  · rw [hj j hji] at hs
    exact h.unlisted j s hs

/-- Another block is given back. -/
theorem release (h : Dropped b live pages l) {p : Addr} (hp : ∃ c ∈ live, c.addr = p) (hne : p ≠ b.addr) :
    Dropped b (live.eraseP (·.addr = p)) pages (l.release p) := by
  refine ⟨h.toLedger.release hp, ?_, fun j s hs => ?_⟩
  · exact (List.mem_eraseP_of_neg (by simpa using hne.symm)).mpr h.live
  · rcases Lists.release_cases p l with ⟨hsame, _⟩ | ⟨i, pre, f, post, hsplit, _, hr⟩
    · rw [hsame] at hs
      exact h.unlisted j s hs
    · rw [hr, Lists.release_alloced] at hs
      split at hs
      · rename_i hj
        subst hj
        refine h.unlisted j s ?_
        rw [hsplit]
        exact List.mem_append_right _ (List.mem_cons_of_mem _ hs)
      · exact h.unlisted j s hs

/-- The block itself is given back, in vain. -/
theorem release_self (h : Dropped b live pages l) :
    Lost b (live.eraseP (·.addr = b.addr)) pages (l.release b.addr) ∧ l.holder b.addr = none := by
  have hnone : l.holder b.addr = none := by
    refine List.find?_eq_none.mpr fun i _ hi => ?_
    obtain ⟨s, hs, he⟩ := List.any_eq_true.mp hi
    exact h.unlisted i s hs (by simpa using he)
  obtain ⟨c, as, cs, hc, hlive, herase, _⟩ := Ledger.split_live ⟨b, h.live, rfl⟩
  have hmem : c ∈ live := by
    rw [hlive]
    exact List.mem_append_right _ (List.mem_cons_self ..)
  obtain rfl : c = b := h.addr_inj hmem h.live hc
  refine ⟨?_, hnone⟩
  rw [Lists.release, hnone, herase]
  refine h.perm ?_
  rw [hlive]
  exact List.perm_middle

end Dropped

/-! ### Over runs -/

namespace System

/-- `free` finds the address. -/
def Listed (s : System) (p : Addr) : Prop := ∃ i, (s.heap.findFrame p i).join.isSome

instance (s : System) (p : Addr) : Decidable (s.Listed p) :=
  inferInstanceAs (Decidable (∃ i, (s.heap.findFrame p i).join.isSome))

section Runs
variable {s t u : System} {es : List Event} {b : Block}

theorem listed_iff {l : Lists} (hr : s.heap.Represents l) {p : Addr} :
    s.Listed p ↔ ∃ i, ∃ f ∈ l (.alloced i), f.start = p := by
  obtain ⟨L, ht⟩ := hr
  refine exists_congr fun i => ?_
  rw [ht.findFrame, Option.join_some, List.find?_isSome, ← ht.span]
  simp

theorem Sound.ordered {e : Event} (h : Sound Ordered s) (hrule : s.Admits e ∧ s.DrawsNew e)
    (ht : s.step e = some t) : Sound Ordered t := by
  cases e with
  | alloc size => exact h.alloc Ordered.refill Ordered.take (h.room (·.drawn) hrule.2) ht
  | free p => exact h.free ht fun l _ hordered => hordered.release hrule.1

/-- A lost block stays lost. -/
theorem Sound.lost {e : Event} (h : Sound (Lost b) s) (hrule : s.Admits e ∧ s.DrawsNew e)
    (ht : s.step e = some t) : Sound (Lost b) t := by
  cases e with
  | alloc size =>
    refine h.alloc Dropped.refill (fun hlost hsome => ?_) (h.room (·.drawn) hrule.2) ht
    exact (hlost.take hsome).perm (List.Perm.swap ..)
  | free p =>
    refine h.free ht fun l _ hlost => ?_
    obtain ⟨c, hc, hp⟩ := hrule.1
    have hne : b.addr ≠ p := by
      have hnodup := hlost.nodup
      rw [List.map_cons, List.nodup_cons] at hnodup
      intro heq
      exact hnodup.1 (List.mem_map.mpr ⟨c, hc, hp.trans heq.symm⟩)
    have hrest := hlost.release ⟨c, List.mem_cons_of_mem _ hc, hp⟩ hne.symm
    rwa [List.eraseP_cons_of_neg (by simpa using hne)] at hrest

/-- A dropped block stays dropped until it is freed, and is lost then. -/
theorem Sound.dropped {e : Event} (h : Sound (Dropped b) s) (hrule : s.Admits e ∧ s.DrawsNew e)
    (ht : s.step e = some t) : Sound (Dropped b) t ∨ Sound (Lost b) t := by
  cases e with
  | alloc size => exact .inl (h.alloc Dropped.refill Dropped.take (h.room (·.drawn) hrule.2) ht)
  | free p =>
    by_cases hp : p = b.addr
    · subst hp
      exact .inr (h.free ht fun l _ hdropped => hdropped.release_self.1)
    · exact .inl (h.free ht fun l _ hdropped => hdropped.release hrule.1 hp)

/-- From a dropped block on. -/
theorem Sound.dropped_run (h : Sound (Dropped b) s)
    (hrun : Run System.step (fun s e => s.Admits e ∧ s.DrawsNew e) s es t) :
    Sound (Dropped b) t ∨ Sound (Lost b) t := by
  refine hrun.invariant (fun t => Sound (Dropped b) t ∨ Sound (Lost b) t) ?_ (.inl h)
  rintro s e t (hdropped | hlost) hrule ht
  · exact hdropped.dropped hrule ht
  · exact .inr (hlost.lost hrule ht)

/-- A lost block overlaps with no live one. -/
theorem Sound.lost_disjoint (h : Sound (Lost b) s) : ∀ c ∈ s.live, Disjoint b.extent.bytes c.extent.bytes := by
  obtain ⟨l, _, hlost⟩ := h.books
  exact (List.pairwise_cons.mp hlost.disjoint).1

end Runs

/-- **A block whose elder is freed is never handed out again.** The younger blocks of the
class are dropped from the alloced list. Freeing one of them later changes nothing in the
heap, and no block that is handed out afterwards overlaps with it, in a run that draws no
page twice. -/
theorem dropped_never_reused (frames : Nat → SlabFrame) {kernelEnd : Nat} (hpos : 0 < kernelEnd)
    {es : List Event} {s : System}
    (hrun : Run step (fun s e => s.Admits e ∧ s.DrawsNew e) (boot frames kernelEnd) es s)
    {younger older : List Block} {a b : Block} (hlive : s.live = younger ++ a :: older) (hb : b ∈ younger)
    (hcls : b.cls = a.cls) (hlisted : s.Listed a.addr) {es' : List Event} {t : System}
    (hrun' : Run step (fun s e => s.Admits e ∧ s.DrawsNew e) s (.free a.addr :: es') t) :
    (b ∈ t.live → ∃ u, t.step (.free b.addr) = some u ∧ u.heap = t.heap) ∧
      (b ∉ t.live → ∀ es'' u, Run step (fun s e => s.Admits e ∧ s.DrawsNew e) t es'' u →
        ∀ c ∈ u.live, Disjoint b.extent.bytes c.extent.bytes) := by
  have hordered : Sound Ordered s := hrun.invariant _ (fun _ _ _ => Sound.ordered) (.boot .empty frames hpos)
  cases hrun' with
  | cons hrule hs hrun' =>
    rename_i s'
    have hdropped : Sound (Dropped b) s' :=
      hordered.free hs fun l hr hordered => hordered.drops hlive hb hcls ((listed_iff hr).mp hlisted)
    rcases hdropped.dropped_run hrun' with hdropped | hlost
    · obtain ⟨l, hr, hdropped⟩ := hdropped.books
      refine ⟨fun _ => ?_, fun hgone => absurd hdropped.live hgone⟩
      obtain ⟨u, hu, _, _, _, _, hsame⟩ := step_free hr b.addr
      exact ⟨u, hu, hsame hdropped.release_self.2⟩
    · refine ⟨fun hagain => ?_, fun _ es'' u hrun'' => ?_⟩
      · exact absurd (hlost.lost_disjoint b hagain) fun hdisjoint =>
          Set.disjoint_left.mp hdisjoint (Ledger.mem_extent b) (Ledger.mem_extent b)
      · exact (hrun''.invariant _ (fun _ _ _ => Sound.lost) hlost).lost_disjoint

/-- Two blocks of 512 bytes, the older one freed, then the younger one: of the next three,
one is the older block again, and two are new. -/
theorem dropped_never_reused_sectors :
    ∃ s t u, follow step (fun s e => s.Admits e ∧ s.DrawsNew e) (boot (fun _ => ⟨0, 0, 0⟩) 4096)
        [.alloc 512, .alloc 512] = some s ∧
      follow step (fun s e => s.Admits e ∧ s.DrawsNew e) s [.free 0xD0000000, .free 0xD0000200] = some t ∧
      follow step (fun s e => s.Admits e ∧ s.DrawsNew e) t [.alloc 512, .alloc 512, .alloc 512] = some u ∧
      u.live = [⟨0xD0000600, 4⟩, ⟨0xD0000400, 4⟩, ⟨0xD0000000, 4⟩] ∧
      ∀ c ∈ u.live, Disjoint (Block.extent ⟨0xD0000200, 4⟩).bytes c.extent.bytes := by
  have hfollow : ((follow step (fun s e => s.Admits e ∧ s.DrawsNew e) (boot (fun _ => ⟨0, 0, 0⟩) 4096)
      [.alloc 512, .alloc 512]).bind fun s =>
        (follow step (fun s e => s.Admits e ∧ s.DrawsNew e) s [.free 0xD0000000, .free 0xD0000200]).bind fun t =>
          (follow step (fun s e => s.Admits e ∧ s.DrawsNew e) t [.alloc 512, .alloc 512, .alloc 512]).map fun u =>
            (s.live, decide (s.Listed 0xD0000000), t.live, u.live)) =
      some ([⟨0xD0000200, 4⟩, ⟨0xD0000000, 4⟩], true, [],
        [⟨0xD0000600, 4⟩, ⟨0xD0000400, 4⟩, ⟨0xD0000000, 4⟩]) := by
    decide +kernel
  obtain ⟨s, hs, hfollow⟩ := Option.bind_eq_some_iff.mp hfollow
  obtain ⟨t, ht, hfollow⟩ := Option.bind_eq_some_iff.mp hfollow
  obtain ⟨u, hu, hall⟩ := Option.map_eq_some_iff.mp hfollow
  obtain ⟨hslive, hrest⟩ := Prod.mk.inj hall
  obtain ⟨hlisted, hrest⟩ := Prod.mk.inj hrest
  obtain ⟨htlive, hulive⟩ := Prod.mk.inj hrest
  refine ⟨s, t, u, hs, ht, hu, hulive, ?_⟩
  have hlive : s.live = [⟨0xD0000200, 4⟩] ++ ⟨0xD0000000, 4⟩ :: [] := hslive
  have hlost := dropped_never_reused (fun _ => ⟨0, 0, 0⟩) (by decide) (run_iff_follow.mpr hs) hlive
    (List.mem_singleton_self _) rfl (of_decide_eq_true hlisted) (run_iff_follow.mpr ht)
  refine hlost.2 ?_ _ u (run_iff_follow.mpr hu)
  rw [htlive]
  exact List.not_mem_nil

end System

end UntitledOS.Memory
