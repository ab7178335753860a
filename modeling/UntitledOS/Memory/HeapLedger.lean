import UntitledOS.Memory.HeapFrames
import UntitledOS.Lib.Extent

/-! The ledger of the heap's bytes.

Each class's live blocks, free frames and drawn pages are byte ranges, and every
operation on the lists moves ranges or cuts them: a refill puts a page on the free
list, a `take` turns the front of a free frame into a live block, a `release` turns
a live block back into a free frame. So the number of times a class's ranges cover
a byte changes only as its pages do (`refill_balance`, `take_balance`,
`release_balance`).

`Ledger` is what follows for the whole heap as long as no page is drawn twice. Blocks
may be missing from the alloced lists, so the books balance as an inequality: some of
the drawn bytes may be lost. `Kept` is the ledger when nothing is lost. -/
namespace UntitledOS.Memory
open Lib Extent

/-! ### Ranges -/

/-- A block handed out, with the class it came from. -/
structure Block where
  addr : Addr
  cls : Fin 8
deriving DecidableEq

def Block.extent (b : Block) : Extent := ⟨b.addr.toNat, b.addr.toNat + frameSize b.cls⟩

def Span.extent (s : Span) : Extent := ⟨s.start.toNat, s.fin.toNat + 1⟩

/-- The page drawn for a class. -/
def pageExtent (p : Fin 8 × Addr) : Extent := ⟨p.2.toNat, p.2.toNat + 4096⟩

/-- The live blocks of class `i`. -/
def blocksOf (i : Fin 8) (live : List Block) : List Extent :=
  (live.filter (·.cls = i)).map Block.extent

/-- The pages drawn for class `i`. -/
def pagesOf (i : Fin 8) (pages : List (Fin 8 × Addr)) : List Extent :=
  (pages.filter (·.1 = i)).map pageExtent

namespace Lists

def freeOf (i : Fin 8) (l : Lists) : List Extent := (l (.free i)).map Span.extent

def allocedOf (i : Fin 8) (l : Lists) : List Extent := (l (.alloced i)).map Span.extent

end Lists

/-! ### Balance -/

section Balance
variable (i j : Fin 8) (x : Nat)

theorem blocksOf_append (a b : List Block) : blocksOf i (a ++ b) = blocksOf i a ++ blocksOf i b := by
  rw [blocksOf, List.filter_append, List.map_append]
  rfl

/-- One more of some class. -/
theorem cover_class {α : Type*} (cls : α → Fin 8) (extent : α → Extent) (a : α) (as : List α) :
    cover (((a :: as).filter (cls · = j)).map extent) x =
      (if cls a = j then cover [extent a] x else 0) + cover ((as.filter (cls · = j)).map extent) x := by
  by_cases ha : cls a = j
  · rw [List.filter_cons_of_pos (by simpa using ha), List.map_cons, cover_cons, if_pos ha]
  · rw [List.filter_cons_of_neg (by simpa using ha), if_neg ha, Nat.zero_add]

theorem cover_block (b : Block) (live : List Block) :
    cover (blocksOf j (b :: live)) x =
      (if b.cls = j then cover [b.extent] x else 0) + cover (blocksOf j live) x :=
  cover_class j x Block.cls Block.extent b live

theorem cover_page (p : Fin 8 × Addr) (pages : List (Fin 8 × Addr)) :
    cover (pagesOf j (p :: pages)) x =
      (if p.1 = j then cover [pageExtent p] x else 0) + cover (pagesOf j pages) x :=
  cover_class j x Prod.fst pageExtent p pages

/-- What a free list covers after it was replaced. -/
theorem cover_free (l : Lists) (fs as : List Span) :
    cover (Lists.freeOf j (Function.update (Function.update l (.free i) fs) (.alloced i) as)) x =
      if i = j then cover (fs.map Span.extent) x else cover (l.freeOf j) x := by
  unfold Lists.freeOf
  rw [Function.update_of_ne (Place.free_ne_alloced j i)]
  by_cases hj : i = j
  · subst hj
    rw [Function.update_self, if_pos rfl]
  · rw [Function.update_of_ne (by simpa using Ne.symm hj), if_neg hj]

variable {l : Lists} {i}

/-- A page drawn is a page on the free list. -/
theorem refill_balance (hempty : l (.free i) = []) {a : Addr} (halign : 4096 ∣ a.toNat)
    (habove : heapStart.toNat ≤ a.toNat) (pages : List (Fin 8 × Addr)) :
    cover ((l.refill i a).freeOf j) x + cover (pagesOf j pages) x =
      cover (l.freeOf j) x + cover (pagesOf j ((i, a) :: pages)) x := by
  have hext : Span.extent ⟨a, a + 0x1000 - 1⟩ = pageExtent (i, a) := by
    rw [Span.extent, (isFrame_page i a halign habove).2]
    rfl
  rw [cover_page, Lists.refill, if_pos hempty]
  unfold Lists.freeOf
  by_cases hj : i = j
  · subst hj
    rw [Function.update_self, hempty, List.map_singleton, hext, if_pos rfl, List.map_nil, cover_nil,
      Nat.zero_add]
  · rw [Function.update_of_ne (by simpa using Ne.symm hj), if_neg hj, Nat.zero_add]

/-- The block taken is the part of the free frame that went. -/
theorem take_balance (hframed : l.Framed) {f : Span} {fs : List Span} (hf : l (.free i) = f :: fs)
    (live : List Block) :
    cover (blocksOf j (⟨f.start, i⟩ :: live)) x + cover ((l.take i).1.freeOf j) x =
      cover (blocksOf j live) x + cover (l.freeOf j) x := by
  have hframe : IsFrame i f := by
    refine hframed.free i f ?_
    rw [hf]
    exact List.mem_cons_self ..
  have hfree : i = j → cover (l.freeOf j) x = cover [f.extent] x + cover (fs.map Span.extent) x := by
    rintro rfl
    rw [Lists.freeOf, hf, List.map_cons, cover_cons]
  rw [cover_block]
  rcases Lists.take_cases hf with ⟨hcut, ht⟩ | ⟨hcut, ht⟩ <;> rw [ht, cover_free]
  · obtain ⟨_, _, _, hrest⟩ := hframe.cut hcut
    have hsize := hframe.size_le
    split
    · have hcover := cover_cut (Nat.le_add_right f.start.toNat (frameSize i)) hsize x
      have hleft : (f.rest i).extent = ⟨f.start.toNat + frameSize i, f.fin.toNat + 1⟩ := by
        rw [Span.extent, hrest]
        rfl
      rw [hfree ‹_›, List.map_cons, hleft, cover_cons ⟨_, _⟩ (fs.map Span.extent)]
      simp only [Block.extent, Span.extent] at hcover ⊢
      omega
    · omega
  · split
    · have hwhole : Block.extent ⟨f.start, i⟩ = f.extent := by
        rw [Block.extent, Span.extent, hframe.single hcut]
      rw [hfree ‹_›, hwhole]
      omega
    · omega

/-- The frame moved is the block given back. -/
theorem release_balance {f : Span} {post : List Span} {a c : List Block}
    (hfin : f.fin.toNat + 1 = f.start.toNat + frameSize i) :
    cover (blocksOf j (a ++ c)) x + cover (Lists.freeOf j (Function.update
        (Function.update l (.alloced i) post) (.free i) (f :: l (.free i)))) x =
      cover (blocksOf j (a ++ ⟨f.start, i⟩ :: c)) x + cover (l.freeOf j) x := by
  have hext : Block.extent ⟨f.start, i⟩ = f.extent := by
    rw [Block.extent, Span.extent, hfin]
  rw [Function.update_comm (Place.alloced_ne_free i i), cover_free, blocksOf_append, blocksOf_append,
    cover_append, cover_append, cover_block, hext]
  split
  · rename_i hj
    subst hj
    rw [List.map_cons, cover_cons, Lists.freeOf]
    omega
  · omega

end Balance

/-! ### Pages -/

/-- The pages drawn, the last one first: one after the other from the start of the heap. -/
def Drawn : List (Fin 8 × Addr) → Prop
  | [] => True
  | p :: pages => p.2.toNat = heapStart.toNat + 4096 * pages.length ∧ Drawn pages

theorem Drawn.mem {pages : List (Fin 8 × Addr)} (h : Drawn pages) {k : Nat} (hk : k < pages.length) :
    ∃ p ∈ pages, p.2.toNat = heapStart.toNat + 4096 * k := by
  induction pages with
  | nil => exact absurd hk (Nat.not_lt_zero k)
  | cons p pages ih =>
    rcases Nat.lt_succ_iff_lt_or_eq.mp hk with hlt | rfl
    · obtain ⟨q, hq, hk⟩ := ih h.2 hlt
      exact ⟨q, List.mem_cons_of_mem _ hq, hk⟩
    · exact ⟨p, List.mem_cons_self .., h.1⟩

theorem Drawn.below {pages : List (Fin 8 × Addr)} (h : Drawn pages) {p : Fin 8 × Addr} (hp : p ∈ pages) :
    p.2.toNat < heapStart.toNat + 4096 * pages.length := by
  induction pages with
  | nil => exact absurd hp List.not_mem_nil
  | cons q pages ih =>
    rw [List.length_cons]
    rcases List.mem_cons.mp hp with rfl | hp
    · have := h.1
      omega
    · have := ih h.2 hp
      omega

/-- Pages drawn this way do not overlap. -/
theorem Drawn.cover {pages : List (Fin 8 × Addr)} (h : Drawn pages) (x : Nat) :
    cover (pages.map pageExtent) x ≤ 1 ∧
      (0 < cover (pages.map pageExtent) x → x < heapStart.toNat + 4096 * pages.length) := by
  induction pages with
  | nil => simp
  | cons p pages ih =>
    obtain ⟨hone, hbelow⟩ := ih h.2
    have hp := h.1
    rw [List.map_cons, cover_cons, cover_single, List.length_cons]
    rw [pageExtent]
    dsimp only
    split_ifs <;> omega

/-! ### The ledger -/

/-- The books of a heap no page of which was drawn twice: no class covers a byte more
often than its pages do. Every frame on an alloced list is a live block of its class;
the converse may fail. -/
structure Ledger (live : List Block) (pages : List (Fin 8 × Addr)) (l : Lists) : Prop where
  framed : l.Framed
  drawn : Drawn pages
  balance : ∀ i x, cover (blocksOf i live) x + cover (l.freeOf i) x ≤ cover (pagesOf i pages) x
  listed : ∀ i, ∀ s ∈ l (.alloced i), ⟨s.start, i⟩ ∈ live
  distinct : ∀ i, ((l (.alloced i)).map Span.start).Nodup

namespace Ledger

variable {live : List Block} {pages : List (Fin 8 × Addr)} {l : Lists} {i : Fin 8}

theorem empty : Ledger [] [] fun _ => [] where
  framed := ⟨fun _ _ hs => absurd hs List.not_mem_nil, fun _ _ hs => absurd hs List.not_mem_nil⟩
  drawn := trivial
  balance := fun _ _ => Nat.le_refl _
  listed := fun _ _ hs => absurd hs List.not_mem_nil
  distinct := fun _ => List.nodup_nil

/-- All classes together cover no byte twice. -/
theorem cover_le_one (h : Ledger live pages l) (x : Nat) :
    cover (live.map Block.extent) x + ∑ i, cover (l.freeOf i) x ≤ 1 := by
  have hpages := (h.drawn.cover x).1
  rw [← sum_cover Block.cls Block.extent live x, ← Finset.sum_add_distrib]
  rw [← sum_cover Prod.fst pageExtent pages x] at hpages
  exact (Finset.sum_le_sum fun i _ => h.balance i x).trans hpages

/-- **Live blocks do not overlap.** -/
theorem disjoint (h : Ledger live pages l) :
    live.Pairwise fun b c => Disjoint b.extent.bytes c.extent.bytes := by
  have := disjoint_of_cover fun x => (Nat.le_add_right _ _).trans (h.cover_le_one x)
  rwa [List.pairwise_map] at this

theorem mem_extent (b : Block) : b.addr.toNat ∈ b.extent.bytes := by
  have := frameSize_pos b.cls
  simp only [Block.extent, Extent.bytes, Set.mem_Ico]
  omega

/-- A live block is known by its address. -/
theorem nodup (h : Ledger live pages l) : (live.map Block.addr).Nodup := by
  rw [List.Nodup, List.pairwise_map]
  refine h.disjoint.imp ?_
  intro b c hd he
  have hc : c.addr.toNat ∈ c.extent.bytes := mem_extent c
  rw [← he] at hc
  exact Set.disjoint_left.mp hd (mem_extent b) hc

theorem addr_inj (h : Ledger live pages l) {b c : Block} (hb : b ∈ live) (hc : c ∈ live)
    (he : b.addr = c.addr) : b = c :=
  List.inj_on_of_nodup_map h.nodup hb hc he

theorem refill (h : Ledger live pages l) (hempty : l (.free i) = []) {a : Addr}
    (ha : a.toNat = heapStart.toNat + 4096 * pages.length) :
    Ledger live ((i, a) :: pages) (l.refill i a) := by
  have halign : 4096 ∣ a.toNat := by
    rw [ha]
    exact Nat.dvd_add (by decide) (Nat.dvd_mul_right _ _)
  have habove : heapStart.toNat ≤ a.toNat := by omega
  have halloced := fun j => Lists.refill_alloced i j a l
  refine ⟨h.framed.refill halign habove, ⟨ha, h.drawn⟩, fun j x => ?_, fun j s hs => ?_, fun j => ?_⟩
  · have hdelta := refill_balance j x hempty halign habove pages
    have := h.balance j x
    omega
  · exact h.listed j s (halloced j ▸ hs)
  · rw [halloced]
    exact h.distinct j

theorem take (h : Ledger live pages l) (hsome : l (.free i) ≠ []) :
    Ledger (⟨(l.take i).2, i⟩ :: live) pages (l.take i).1 := by
  obtain ⟨f, fs, hf⟩ := List.exists_cons_of_ne_nil hsome
  have hmem : f ∈ l (.free i) := by
    rw [hf]
    exact List.mem_cons_self ..
  -- no alloced frame of the class starts where the free frame does
  have hnew : f.start ∉ (l (.alloced i)).map Span.start := by
    intro hstart
    obtain ⟨s, hs, he⟩ := List.mem_map.mp hstart
    have hlive : 0 < cover (live.map Block.extent) f.start.toNat :=
      cover_pos.mpr ⟨_, List.mem_map_of_mem (h.listed i s hs), he ▸ mem_extent _⟩
    have hfree : 0 < ∑ i, cover (l.freeOf i) f.start.toNat := by
      refine Finset.sum_pos_iff.mpr ⟨i, Finset.mem_univ i, cover_pos.mpr
        ⟨f.extent, List.mem_map_of_mem hmem, ?_⟩⟩
      have := (h.framed.free i f hmem).ordered
      simp only [Span.extent, Extent.bytes, Set.mem_Ico]
      omega
    have := h.cover_le_one f.start.toNat
    omega
  obtain ⟨⟨g, hg, hi⟩, hj⟩ := Lists.take_alloced hf
  rw [Lists.take_start hf]
  refine ⟨h.framed.take, h.drawn, fun j x => ?_, fun j s hs => ?_, fun j => ?_⟩
  · rw [take_balance j x h.framed hf]
    exact h.balance j x
  · by_cases hji : j = i
    · subst hji
      rw [hi] at hs
      rcases List.mem_cons.mp hs with rfl | hs
      · rw [hg]
        exact List.mem_cons_self ..
      · exact List.mem_cons_of_mem _ (h.listed j s hs)
    · rw [hj j hji] at hs
      exact List.mem_cons_of_mem _ (h.listed j s hs)
  · by_cases hji : j = i
    · subst hji
      rw [hi, List.map_cons, hg]
      exact List.nodup_cons.mpr ⟨hnew, h.distinct j⟩
    · rw [hj j hji]
      exact h.distinct j

/-- Where the block at a live address is, and what giving it back leaves. -/
theorem split_live {p : Addr} (hp : ∃ b ∈ live, b.addr = p) :
    ∃ b a c, b.addr = p ∧ live = a ++ b :: c ∧ live.eraseP (·.addr = p) = a ++ c ∧
      ∀ d ∈ a, d.addr ≠ p := by
  obtain ⟨b₀, hmem, hb₀⟩ := hp
  have hfound : ∃ b a c, (∀ d ∈ a, ¬ decide (d.addr = p) = true) ∧ decide (b.addr = p) = true ∧
      live = a ++ b :: c ∧ live.eraseP (·.addr = p) = a ++ c :=
    List.exists_of_eraseP hmem (by simpa using hb₀)
  obtain ⟨b, a, c, hfront, hb, hlive, herase⟩ := hfound
  exact ⟨b, a, c, by simpa using hb, hlive, herase, fun d hd => by simpa using hfront d hd⟩

/-- Giving back a live block: it is found on its class's list, or not at all. -/
theorem release_live (h : Ledger live pages l) {b : Block} (hb : b ∈ live) :
    (l.release b.addr = l ∧ ∀ i, ∀ s ∈ l (.alloced i), s.start ≠ b.addr) ∨
      ∃ pre f post, l (.alloced b.cls) = pre ++ f :: post ∧ f.start = b.addr ∧
        l.release b.addr = Function.update (Function.update l (.alloced b.cls) post) (.free b.cls)
          (f :: l (.free b.cls)) := by
  rcases Lists.release_cases b.addr l with hnone | ⟨i, pre, f, post, hsplit, hf, hr⟩
  · exact .inl hnone
  · have hfmem : f ∈ l (.alloced i) := by
      rw [hsplit]
      exact List.mem_append_right _ (List.mem_cons_self ..)
    obtain rfl : b = ⟨f.start, i⟩ := h.addr_inj hb (h.listed i f hfmem) hf.symm
    exact .inr ⟨pre, f, post, hsplit, rfl, hr⟩

/-- Giving back a live block, found on its list or not. -/
theorem release (h : Ledger live pages l) {p : Addr} (hp : ∃ b ∈ live, b.addr = p) :
    Ledger (live.eraseP (·.addr = p)) pages (l.release p) := by
  obtain ⟨b, a, c, hbp, hlive, herase, _⟩ := split_live hp
  have hmem : b ∈ live := by
    rw [hlive]
    exact List.mem_append_right _ (List.mem_cons_self ..)
  have hstay : ∀ d ∈ live, d.addr ≠ p → d ∈ a ++ c := by
    intro d hd hne
    rw [hlive] at hd
    rcases List.mem_append.mp hd with hd | hd
    · exact List.mem_append_left _ hd
    · rcases List.mem_cons.mp hd with rfl | hd
      · exact absurd hbp hne
      · exact List.mem_append_right _ hd
  rw [herase]
  subst hbp
  rcases h.release_live hmem with ⟨hsame, hnone⟩ | ⟨pre, f, post, hsplit, hb, hr⟩
  · rw [hsame]
    refine ⟨h.framed, h.drawn, fun j x => ?_, fun j s hs => ?_, h.distinct⟩
    · have hfull := h.balance j x
      rw [hlive, blocksOf_append, cover_append, cover_block] at hfull
      rw [blocksOf_append, cover_append]
      omega
    · exact hstay _ (h.listed j s hs) (hnone j s hs)
  · obtain ⟨p, i⟩ := b
    obtain rfl : f.start = p := hb
    dsimp only at hsplit hr hstay ⊢
    have hfmem : f ∈ l (.alloced i) := by
      rw [hsplit]
      exact List.mem_append_right _ (List.mem_cons_self ..)
    have hnodup := h.distinct i
    rw [hsplit, List.map_append, List.map_cons] at hnodup
    have hpost := List.nodup_cons.mp (hnodup.sublist (List.sublist_append_right ..))
    have halloced : ∀ j, l.release f.start (.alloced j) = if j = i then post else l (.alloced j) := by
      intro j
      rw [hr, Lists.release_alloced]
    refine ⟨h.framed.release f.start, h.drawn, fun j x => ?_, fun j s hs => ?_, fun j => ?_⟩
    · rw [hr, release_balance j x (h.framed.alloced i f hfmem).2, ← hlive]
      exact h.balance j x
    · rw [halloced] at hs
      split at hs
      · rename_i hj
        subst hj
        have hs' : s ∈ l (.alloced j) := by
          rw [hsplit]
          exact List.mem_append_right _ (List.mem_cons_of_mem _ hs)
        refine hstay _ (h.listed j s hs') fun he => hpost.1 ?_
        rw [← he]
        exact List.mem_map_of_mem hs
      · rename_i hj
        refine hstay _ (h.listed j s hs) fun he => hj ?_
        have := h.addr_inj (h.listed j s hs) hmem he
        exact congrArg Block.cls this
    · rw [halloced]
      split
      · exact hpost.2
      · exact h.distinct j

end Ledger

/-! ### Nothing lost -/

/-- The ledger balances exactly, and every alloced list is the live blocks of its
class, the last one handed out first. -/
structure Kept (live : List Block) (pages : List (Fin 8 × Addr)) (l : Lists) : Prop
    extends Ledger live pages l where
  exact : ∀ i x, cover (blocksOf i live) x + cover (l.freeOf i) x = cover (pagesOf i pages) x
  alloced : ∀ i, (l (.alloced i)).map Span.start = (live.filter (·.cls = i)).map Block.addr

namespace Kept

variable {live : List Block} {pages : List (Fin 8 × Addr)} {l : Lists} {i : Fin 8}

theorem empty : Kept [] [] fun _ => [] :=
  ⟨Ledger.empty, fun _ _ => rfl, fun _ => rfl⟩

theorem allocedOf_eq (h : Kept live pages l) (i : Fin 8) : l.allocedOf i = blocksOf i live := by
  have hext : l.allocedOf i = ((l (.alloced i)).map Span.start).map fun a : Addr =>
      ⟨a.toNat, a.toNat + frameSize i⟩ := by
    rw [List.map_map]
    refine List.map_congr_left fun s hs => ?_
    rw [Span.extent, (h.framed.alloced i s hs).2]
    rfl
  rw [hext, h.alloced, List.map_map]
  refine List.map_congr_left fun b hb => ?_
  have hcls : b.cls = i := by simpa using (List.mem_filter.mp hb).2
  rw [Block.extent, hcls]
  rfl

/-- The frames of a class tile the pages drawn for it. -/
theorem tiles (h : Kept live pages l) (i : Fin 8) :
    Tiles (l.freeOf i ++ l.allocedOf i) (pagesOf i pages) := by
  refine tiles_of_cover (fun x => ?_) fun x => ?_
  · rw [cover_append, h.allocedOf_eq, Nat.add_comm, h.exact]
  · refine le_trans ?_ (h.drawn.cover x).1
    rw [← sum_cover Prod.fst pageExtent pages x]
    have hone : ∀ j ∈ Finset.univ, 0 ≤ cover (pagesOf j pages) x := fun j _ => Nat.zero_le _
    exact Finset.single_le_sum hone (Finset.mem_univ i)

theorem refill (h : Kept live pages l) (hempty : l (.free i) = []) {a : Addr}
    (ha : a.toNat = heapStart.toNat + 4096 * pages.length) :
    Kept live ((i, a) :: pages) (l.refill i a) := by
  have halign : 4096 ∣ a.toNat := by
    rw [ha]
    exact Nat.dvd_add (by decide) (Nat.dvd_mul_right _ _)
  refine ⟨h.toLedger.refill hempty ha, fun j x => ?_, fun j => ?_⟩
  · have hdelta := refill_balance j x hempty halign (by omega) pages
    have := h.exact j x
    omega
  · rw [Lists.refill_alloced]
    exact h.alloced j

theorem take (h : Kept live pages l) (hsome : l (.free i) ≠ []) :
    Kept (⟨(l.take i).2, i⟩ :: live) pages (l.take i).1 := by
  obtain ⟨f, fs, hf⟩ := List.exists_cons_of_ne_nil hsome
  obtain ⟨⟨g, hg, hi⟩, hj⟩ := Lists.take_alloced hf
  refine ⟨h.toLedger.take hsome, fun j x => ?_, fun j => ?_⟩
  · rw [Lists.take_start hf, take_balance j x h.framed hf]
    exact h.exact j x
  · rw [Lists.take_start hf]
    by_cases hji : j = i
    · subst hji
      rw [hi, List.map_cons, List.filter_cons_of_pos (by simp), List.map_cons, hg, h.alloced]
    · rw [hj j hji, List.filter_cons_of_neg (by simpa using Ne.symm hji), h.alloced]

/-- The head of an alloced list is what its address finds. -/
theorem release_head_eq (h : Kept live pages l) {f : Span} {post : List Span} (hi : l (.alloced i) = f :: post) :
    l.release f.start = Function.update (Function.update l (.alloced i) post) (.free i) (f :: l (.free i)) := by
  have hfmem : f ∈ l (.alloced i) := by
    rw [hi]
    exact List.mem_cons_self ..
  rcases h.toLedger.release_live (h.listed i f hfmem) with ⟨_, hnone⟩ | ⟨pre, g, rest, hsplit, hg, hr⟩
  · exact absurd rfl (hnone i f hfmem)
  · dsimp only at hsplit hg hr
    -- the list starts with the frame found, since no other starts where it does
    have hnodup := h.distinct i
    rw [hsplit] at hi
    rcases pre with _ | ⟨q, pre⟩
    · obtain ⟨rfl, rfl⟩ := List.cons.inj hi
      exact hr
    · obtain ⟨rfl, rfl⟩ := List.cons.inj hi
      rw [hsplit, List.cons_append, List.map_cons, List.nodup_cons, List.map_append,
        List.map_cons, hg] at hnodup
      exact absurd (List.mem_append_right _ (List.mem_cons_self ..)) hnodup.1

/-- Giving back the block at the head of its list. -/
theorem release_head (h : Kept live pages l) {f : Span} {post : List Span} (hi : l (.alloced i) = f :: post) :
    Kept (live.eraseP (·.addr = f.start)) pages (l.release f.start) := by
  have hfmem : f ∈ l (.alloced i) := by
    rw [hi]
    exact List.mem_cons_self ..
  have hlisted := h.listed i f hfmem
  have hrelease := h.release_head_eq hi
  obtain ⟨b, a, c, hb, hlive, herase, hfront⟩ := Ledger.split_live ⟨_, hlisted, rfl⟩
  have hbmem : b ∈ live := by
    rw [hlive]
    exact List.mem_append_right _ (List.mem_cons_self ..)
  obtain rfl : b = ⟨f.start, i⟩ := h.addr_inj hbmem hlisted hb
  refine ⟨h.toLedger.release ⟨_, hlisted, rfl⟩, fun j x => ?_, fun j => ?_⟩
  · rw [herase, hrelease, release_balance j x (h.framed.alloced i f hfmem).2, ← hlive]
    exact h.exact j x
  · have halloced := h.alloced j
    rw [hlive, List.filter_append] at halloced
    rw [herase, hrelease, List.filter_append, Function.update_of_ne (Place.alloced_ne_free j i)]
    by_cases hji : j = i
    · subst hji
      -- the blocks of the class in front of the one given back: none, it is the head
      have hnone : a.filter (·.cls = j) = [] := by
        rcases hfilter : a.filter (·.cls = j) with _ | ⟨d, ds⟩
        · exact hfilter
        · rw [hfilter, hi, List.map_cons, List.cons_append, List.map_cons] at halloced
          have hda : d ∈ a.filter (·.cls = j) := by
            rw [hfilter]
            exact List.mem_cons_self ..
          exact absurd (List.cons.inj halloced).1.symm (hfront d (List.mem_filter.mp hda).1)
      rw [hnone, hi, List.nil_append, List.filter_cons_of_pos (by simp)] at halloced
      rw [hnone, Function.update_self, List.nil_append]
      exact (List.cons.inj halloced).2
    · rw [Function.update_of_ne (by simpa using hji)]
      rwa [List.filter_cons_of_neg (by simpa using Ne.symm hji)] at halloced

/-- An address that is not live is on no alloced list. -/
theorem release_stray (h : Kept live pages l) {p : Addr} (hp : ¬ ∃ b ∈ live, b.addr = p) :
    l.holder p = none := by
  refine List.find?_eq_none.mpr fun i _ hi => ?_
  obtain ⟨s, hs, he⟩ := List.any_eq_true.mp hi
  exact hp ⟨_, h.listed i s hs, by simpa using he⟩

end Kept

end UntitledOS.Memory
