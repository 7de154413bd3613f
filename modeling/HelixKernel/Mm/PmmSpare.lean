import HelixKernel.Mm.PmmBounds
import HelixKernel.Machine.Paging

/-!
The allocator's free memory as a set of pages.

`FreePage segtab out a`: the page `a` is managed by the allocator and in no
outstanding block; these are the pages of the free blocks (`PmmInv.freePage_iff`), and
`freePages` is the set of them.
`Spare s out T` says that none of them is a page of `T`, the pages somebody else
uses.  An `alloc` writes to free pages only and takes its block from them
(`alloc_pages`), so whoever owns `T` need not look further than this. -/

namespace HelixKernel

def FreePage (segtab : List PmmSegment) (out : Finset (Nat × Nat)) (a : Nat) : Prop :=
  ∃ seg ∈ segtab, ∃ x < 2 ^ seg.maxOrder, a = seg.basePtr + x * 4096 ∧
    ∀ pk ∈ out, ¬ InBlock pk.1 pk.2 a

instance (p k y : Nat) : Decidable (InBlock p k y) := inferInstanceAs (Decidable (_ ∧ _))

/-- All of these pages. -/
def freePages (segtab : List PmmSegment) (out : Finset (Nat × Nat)) : Finset Nat :=
  (segtab.flatMap fun seg => (List.range (2 ^ seg.maxOrder)).map fun x =>
    seg.basePtr + x * 4096).toFinset.filter fun a => ∀ pk ∈ out, ¬ InBlock pk.1 pk.2 a

variable {s s' : Pmm} {out : Finset (Nat × Nat)} {B : Nat → BuddySystem} {T : Nat → Prop}

theorem mem_freePages {segtab : List PmmSegment} {a : Nat} :
    a ∈ freePages segtab out ↔ FreePage segtab out a := by
  unfold freePages FreePage
  simp only [Finset.mem_filter, List.mem_toFinset, List.mem_flatMap, List.mem_map, List.mem_range]
  constructor
  · rintro ⟨⟨seg, hs, x, hx, rfl⟩, hno⟩
    exact ⟨seg, hs, x, hx, rfl, hno⟩
  · rintro ⟨seg, hs, x, hx, rfl, hno⟩
    exact ⟨⟨seg, hs, x, hx, rfl⟩, hno⟩

/-- The pages of the free blocks. -/
theorem PmmInv.freePage_iff (h : PmmInv s.mem.word s.segtab out B) (a : Nat) :
    FreePage s.segtab out a ↔
      ∃ seg ∈ s.segtab, ∃ b ∈ (B seg.basePtr).free, ∃ x ∈ b, a = seg.basePtr + x * 4096 := by
  constructor
  · rintro ⟨seg, hs, x, hx, rfl, hno⟩
    rw [← (h.segs seg hs).maxOrder] at hx
    obtain ⟨b, hb, hxb⟩ := (B seg.basePtr).tiles.cover x hx
    rcases Finset.mem_union.mp hb with hb | hb
    · exact ⟨seg, hs, b, hb, x, hxb, rfl⟩
    · have hmem := (h.out_iff _ _).mpr ⟨seg, hs, b, hb, rfl, rfl⟩
      exact absurd (inBlock_page.mpr hxb) (hno _ hmem)
  · rintro ⟨seg, hs, b, hb, x, hxb, rfl⟩
    have hw := (h.segs seg hs).within (.inl hb)
    refine ⟨seg, hs, x, hw.lt hxb, rfl, ?_⟩
    rintro ⟨p, k⟩ hpk hin
    obtain ⟨seg', hs', c, hc, rfl, rfl⟩ := (h.out_iff p k).mp hpk
    obtain ⟨rfl, y, hyb, hyc⟩ := h.overlap hs hs' hw ((h.segs seg' hs').within (.inr hc))
      ⟨_, inBlock_page.mpr hxb, hin⟩
    exact (B seg.basePtr).apart hb hc hyb hyc

theorem PmmInv.headers_iff (h : PmmInv s.mem.word s.segtab out B) (w : Writer) (a : Nat) :
    Headers s.segtab B w a ↔ w = .header ∧ FreePage s.segtab out a := by
  rw [h.freePage_iff]
  constructor
  · rintro ⟨seg, hs, hw, b, hb, x, hx, ha⟩
    exact ⟨hw, seg, hs, b, hb, x, hx, ha⟩
  · rintro ⟨hw, seg, hs, b, hb, x, hx, ha⟩
    exact ⟨seg, hs, hw, b, hb, x, hx, ha⟩

/-- Free pages depend on the regions only. -/
theorem FreePage.congr {segtab segtab' : List PmmSegment}
    (he : segtab'.map PmmSegment.region = segtab.map PmmSegment.region) {a : Nat}
    (h : FreePage segtab' out a) : FreePage segtab out a := by
  obtain ⟨seg', hs', x, hx, ha, hno⟩ := h
  have hin := List.mem_map_of_mem (f := PmmSegment.region) hs'
  rw [he] at hin
  obtain ⟨seg, hs, hreg⟩ := List.mem_map.mp hin
  have hbase : seg.basePtr = seg'.basePtr := congrArg (fun r => r.1) hreg
  have hM : seg.maxOrder = seg'.maxOrder := congrArg (fun r => r.2.2) hreg
  exact ⟨seg, hs, x, hM ▸ hx, hbase ▸ ha, hno⟩

/-- A free page outside the block `alloc` takes stays free. -/
theorem FreePage.of_track {segtab' : List PmmSegment} {p k a : Nat}
    (hreg : segtab'.map PmmSegment.region = s.segtab.map PmmSegment.region)
    (ha : FreePage s.segtab out a) (hno : ¬ InBlock p k a) : FreePage segtab' (track out p k) a := by
  obtain ⟨seg, hs, x, hx, he, hnot⟩ := FreePage.congr hreg.symm ha
  refine ⟨seg, hs, x, hx, he, fun pk hpk => ?_⟩
  unfold track at hpk
  split at hpk
  · exact hnot pk hpk
  · rcases Finset.mem_insert.mp hpk with rfl | hpk
    · exact hno
    · exact hnot pk hpk

theorem FreePage.aligned (h : PmmInv s.mem.word s.segtab out B) {a : Nat}
    (ha : FreePage s.segtab out a) : a % 4096 = 0 := by
  obtain ⟨seg, hs, x, -, rfl, -⟩ := ha
  have := (h.segs seg hs).geom.aligned
  omega

/-- What `alloc(n)` does, in terms of pages. -/
structure AllocPages (s : Pmm) (out : Finset (Nat × Nat)) (n : Nat) (s' : Pmm) (p : Nat) : Prop where
  inv : ∃ B, PmmInv s'.mem.word s'.segtab (track out p (orderFor n)) B
  null : p = 0 → s'.mem = s.mem
  aligned : p % 4096 = 0
  block : p ≠ 0 → ∀ y, InBlock p (orderFor n) y → FreePage s.segtab out (pageOf y)
  free : ∀ a, FreePage s'.segtab (track out p (orderFor n)) a → FreePage s.segtab out a
  taken : p ≠ 0 → ∀ y, InBlock p (orderFor n) y →
    ¬ FreePage s'.segtab (track out p (orderFor n)) (pageOf y)
  touch : s.mem.Touch (fun w a => w = .header ∧ FreePage s'.segtab (track out p (orderFor n)) a) s'.mem
  region : s'.segtab.map PmmSegment.region = s.segtab.map PmmSegment.region
  exhausted : p = 0 → orderFor n = 0 → ∀ a, ¬ FreePage s.segtab out a

/-- A page that meets an aligned block lies in it. -/
theorem inBlock_pageOf {p k y : Nat} (hp : p % 4096 = 0) :
    InBlock p k (pageOf y) ↔ InBlock p k y := by
  unfold InBlock pageOf
  rw [Nat.pow_add]
  generalize 2 ^ k = K
  omega

/-- Outstanding blocks are page-aligned. -/
theorem PmmInv.out_aligned (h : PmmInv s.mem.word s.segtab out B) {pk : Nat × Nat} (hpk : pk ∈ out) :
    pk.1 % 4096 = 0 := by
  obtain ⟨seg, hs, b, -, hp, -⟩ := (h.out_iff pk.1 pk.2).mp hpk
  have := (h.segs seg hs).geom.aligned
  unfold blockAddr at hp
  omega

theorem PmmInv.alloc_region (h : PmmInv s.mem.word s.segtab out B) {n p : Nat}
    (hrun : s.alloc n = .ok (s', p)) :
    s'.segtab.map PmmSegment.region = s.segtab.map PmmSegment.region :=
  ((alloc_inBounds (fun seg hs => (h.segs seg hs).geom.order) n).of_ok hrun).1

/-- **`alloc` takes its block from the free pages** and writes to those that stay free. -/
theorem alloc_pages (h : PmmInv s.mem.word s.segtab out B) (n : Nat) :
    ∃ s' p, s.alloc n = .ok (s', p) ∧ AllocPages s out n s' p := by
  obtain ⟨s', p, hrun, hcase⟩ := alloc_spec h n
  obtain ⟨B', hB', htouch⟩ := hcase.inv_touch h
  have hmap := h.alloc_region hrun
  have hsub : ∀ pk ∈ out, pk ∈ track out p (orderFor n) := by
    intro pk hpk
    unfold track
    split
    · exact hpk
    · exact Finset.mem_insert_of_mem hpk
  have hnew : p ≠ 0 → (p, orderFor n) ∈ track out p (orderFor n) := by
    intro hp
    rw [track, if_neg hp]
    exact Finset.mem_insert_self _ _
  have haligned : p % 4096 = 0 := by
    by_cases hp : p = 0
    · rw [hp]
    · exact hB'.out_aligned (hnew hp)
  refine ⟨s', p, hrun, ⟨B', hB'⟩, fun hp => ?_, haligned, fun hp y hy => ?_, fun a ha => ?_,
    fun hp y hy hfree => ?_, ?_, hmap, fun hp hn a ha => ?_⟩
  · obtain ⟨rfl, -⟩ := hcase.null h hp
    rfl
  · obtain ⟨seg, hs, b, hb, hpb, hk⟩ := (hB'.out_iff _ _).mp (hnew hp)
    have hw := (hB'.segs seg hs).within (.inr hb)
    have hpage := (inBlock_pageOf haligned).mpr hy
    have hxb : (pageOf y - seg.basePtr) / 4096 ∈ b := by
      rw [hpb, hk] at hpage
      exact (inBlock_iff.mp hpage).2
    refine FreePage.congr hmap ⟨seg, hs, _, hw.lt hxb, ?_, ?_⟩
    · have hlow : seg.basePtr ≤ pageOf y := by
        unfold InBlock at hpage
        unfold blockAddr at hpb
        omega
      have := (hB'.segs seg hs).geom.aligned
      unfold pageOf at *
      omega
    · exact fun ql hql hin => hcase.fresh h hp ql hql ⟨_, hpage, hin⟩
  · obtain ⟨seg, hs, x, hx, he, hno⟩ := ha
    exact FreePage.congr hmap ⟨seg, hs, x, hx, he, fun pk hpk => hno pk (hsub pk hpk)⟩
  · obtain ⟨-, -, -, -, -, hno⟩ := hfree
    exact hno _ (hnew hp) ((inBlock_pageOf haligned).mpr hy)
  · exact htouch.mono fun w a => (hB'.headers_iff w a).mp
  · obtain ⟨seg, hs, b, hb, -⟩ := (h.freePage_iff a).mp ha
    have := (hcase.null h hp).2 seg hs b hb
    omega

/-- The block starts with a free page. -/
theorem AllocPages.page {n p : Nat} (h : AllocPages s out n s' p) (hp : p ≠ 0) :
    FreePage s.segtab out p := by
  have hf := h.block hp p (inBlock_self _ _)
  rwa [pageOf_of_aligned h.aligned] at hf

/-- An allocation of one page leaves one free page less. -/
theorem AllocPages.card_freePages {p : Nat} (h : AllocPages s out 1 s' p) (hp : p ≠ 0) :
    (freePages s.segtab out).card = (freePages s'.segtab (track out p (orderFor 1))).card + 1 := by
  obtain ⟨B, hB⟩ := h.inv
  have hone : orderFor 1 = 0 := rfl
  have hset : freePages s.segtab out = insert p (freePages s'.segtab (track out p (orderFor 1))) := by
    ext a
    rw [Finset.mem_insert, mem_freePages, mem_freePages]
    constructor
    · intro ha
      by_cases hin : InBlock p (orderFor 1) a
      · obtain ⟨seg, hs, x, -, hx, -⟩ := FreePage.congr h.region.symm ha
        have := (hB.segs seg hs).geom.aligned
        have := h.aligned
        rw [hone] at hin
        unfold InBlock at hin
        exact .inl (by omega)
      · exact .inr (ha.of_track h.region hin)
    · rintro (rfl | ha)
      · exact h.page hp
      · exact h.free a ha
  rw [hset, Finset.card_insert_of_notMem]
  rw [mem_freePages]
  have hself := h.taken hp p (inBlock_self _ _)
  rwa [pageOf_of_aligned h.aligned] at hself

/-- One that fails finds none. -/
theorem AllocPages.freePages_empty (h : AllocPages s out 1 s' 0) :
    freePages s.segtab out = ∅ ∧ freePages s'.segtab (track out 0 (orderFor 1)) = ∅ := by
  have hnone := h.exhausted rfl rfl
  refine ⟨Finset.eq_empty_of_forall_notMem fun a ha => hnone a (mem_freePages.mp ha),
    Finset.eq_empty_of_forall_notMem fun a ha => hnone a (h.free a (mem_freePages.mp ha))⟩

theorem FreeCase.region {p k : Nat} (h : FreeCase s B p k s') :
    s'.segtab.map PmmSegment.region = s.segtab.map PmmSegment.region := by
  cases h with
  | @done l1 l2 seg seg' mem' S' b b' htab hb hp hk hto =>
    have hreg : seg'.region = seg.region := by
      unfold PmmSegment.region
      rw [hto.fields.1, hto.fields.2.1, hto.fields.2.2]
    rw [htab, List.map_append, List.map_append, List.map_cons, List.map_cons, hreg]

/-- What `free` of the outstanding block `(p, k)` does, in terms of pages. -/
structure FreePages (s : Pmm) (out : Finset (Nat × Nat)) (p k : Nat) (s' : Pmm) : Prop where
  inv : ∃ B, PmmInv s'.mem.word s'.segtab (out.erase (p, k)) B
  region : s'.segtab.map PmmSegment.region = s.segtab.map PmmSegment.region
  free : ∀ a, FreePage s'.segtab (out.erase (p, k)) a → FreePage s.segtab out a ∨ InBlock p k a
  touch : s.mem.Touch (fun w a => w = .header ∧ FreePage s'.segtab (out.erase (p, k)) a) s'.mem

/-- **`free` gives its block to the free pages** and writes to those. -/
theorem free_pages (h : PmmInv s.mem.word s.segtab out B) {p n : Nat} (hp : (p, orderFor n) ∈ out) :
    ∃ s', s.free p n = .ok s' ∧ FreePages s out p (orderFor n) s' := by
  obtain ⟨s', hrun, hcase⟩ := free_spec h hp
  obtain ⟨B', hB', htouch⟩ := hcase.inv_touch h
  refine ⟨s', hrun, ⟨B', hB'⟩, hcase.region, fun a ha => ?_, ?_⟩
  · by_cases hin : InBlock p (orderFor n) a
    · exact .inr hin
    · left
      obtain ⟨seg, hs, x, hx, he, hno⟩ := FreePage.congr hcase.region ha
      refine ⟨seg, hs, x, hx, he, fun pk hpk => ?_⟩
      by_cases hself : pk = (p, orderFor n)
      · rw [hself]
        exact hin
      · exact hno pk (Finset.mem_erase.mpr ⟨hself, hpk⟩)
  · exact htouch.mono fun w a => (hB'.headers_iff w a).mp

/-- Nobody's pages: the allocator has its invariant and its free pages avoid `T` and lie below
`2 ^ 47`, where the direct map reaches. -/
structure Spare (s : Pmm) (out : Finset (Nat × Nat)) (T : Nat → Prop) : Prop where
  inv : ∃ B, PmmInv s.mem.word s.segtab out B
  apart : ∀ a, FreePage s.segtab out a → ¬ T a
  low : ∀ a, FreePage s.segtab out a → a < 2 ^ 47

namespace Spare

theorem mono {T' : Nat → Prop} (h : Spare s out T) (hT : ∀ a, T' a → T a) : Spare s out T' :=
  ⟨h.inv, fun a ha hT' => h.apart a ha (hT a hT'), h.low⟩

theorem aligned (h : Spare s out T) {a : Nat} (ha : FreePage s.segtab out a) : a % 4096 = 0 := by
  obtain ⟨B, hB⟩ := h.inv
  exact ha.aligned hB

theorem out_aligned (h : Spare s out T) {pk : Nat × Nat} (hpk : pk ∈ out) : pk.1 % 4096 = 0 := by
  obtain ⟨B, hB⟩ := h.inv
  exact hB.out_aligned hpk

/-- The pages of an outstanding block are not free. -/
theorem not_free (h : Spare s out T) {pk : Nat × Nat} (hpk : pk ∈ out) {y : Nat}
    (hy : InBlock pk.1 pk.2 y) : ¬ FreePage s.segtab out (pageOf y) := by
  rintro ⟨-, -, -, -, -, hno⟩
  apply hno pk hpk
  rwa [inBlock_pageOf (h.out_aligned hpk)]

/-- Stores outside the free pages. -/
theorem write (h : Spare s out T) {m : Mem}
    (hm : ∀ a, m.word a ≠ s.mem.word a → ¬ FreePage s.segtab out a) :
    Spare { s with mem := m } out T := by
  obtain ⟨B, hB⟩ := h.inv
  refine ⟨⟨B, hB.frame fun seg hs b hb => ?_⟩, h.apart, h.low⟩
  by_contra hne
  exact hm _ hne ((hB.freePage_iff _).mpr ⟨seg, hs, b, hb, b.first, b.first_mem, rfl⟩)

end Spare

end HelixKernel
