import HelixKernel.Mm.PmmComplete
import HelixKernel.Mm.PmmSpare

/-!
# A block for every size

`n + 0xFFF` is a 64-bit sum: from `2 ^ 64 - 4095` on it wraps, the number of pages is 0 and
the order is 0, for `alloc` and `free` alike.

    alloc_largeEnough_iff   a block that `alloc(n)` returns holds the `n` bytes, in one
                            segment, and goes back whole, iff the sum does not wrap
                            (or no memory is free at all) -/

namespace HelixKernel

/-- Byte `y` is in a block on a free list. -/
def FreeByte (s : Pmm) (y : Nat) : Prop :=
  ∃ seg ∈ s.segtab, ∃ k a, OnFreeList s seg k a ∧ InBlock a k y

/-- The bytes reserved are a block of one segment, of the order `free(p, n)` comes to, with all
of `[p, p + n)` in it; and `free(p, n)` gives back these bytes. -/
def LargeEnough (s s' : Pmm) (p n : Nat) : Prop :=
  ∃ k, (∀ y, InBlock p k y ↔ FreeByte s y ∧ ¬ FreeByte s' y) ∧
    (∃ seg ∈ s.segtab, BlockOf seg p k) ∧ (∀ y, p ≤ y → y < p + n → InBlock p k y) ∧
    orderFor n = k ∧ ∃ s'', s'.free p n = .ok s'' ∧ ∀ y, FreeByte s'' y ↔ FreeByte s y

variable {s s' : Pmm} {out : Finset (Nat × Nat)} {B : Nat → BuddySystem}

/-- The bytes on the free lists are those of the free pages. -/
theorem PmmInv.freeByte_iff (h : PmmInv s.mem.word s.segtab out B) (y : Nat) :
    FreeByte s y ↔ FreePage s.segtab out (pageOf y) := by
  rw [h.freePage_iff]
  constructor
  · rintro ⟨seg, hs, k, a, hl, hy⟩
    obtain ⟨b, hb, rfl, rfl⟩ := (h.onFreeList_iff hs k a).mp hl
    obtain ⟨hlow, hmem⟩ := inBlock_iff.mp hy
    refine ⟨seg, hs, b, hb, _, hmem, ?_⟩
    have := (h.segs seg hs).geom.aligned
    unfold pageOf
    omega
  · rintro ⟨seg, hs, b, hb, x, hx, he⟩
    refine ⟨seg, hs, b.order, _, (h.onFreeList_iff hs _ _).mpr ⟨b, hb, rfl, rfl⟩, ?_⟩
    have := (h.segs seg hs).geom.aligned
    unfold pageOf at he
    rw [inBlock_iff, show (y - seg.basePtr) / 4096 = x by omega]
    exact ⟨by omega, hx⟩

/-- The bytes `alloc` reserves are those of its block. -/
theorem AllocPages.reserved (h : PmmInv s.mem.word s.segtab out B)
    (hreg : s'.segtab.map PmmSegment.region = s.segtab.map PmmSegment.region) {n p : Nat}
    (ha : AllocPages s out n s' p) (hp : p ≠ 0) (y : Nat) :
    InBlock p (orderFor n) y ↔ FreeByte s y ∧ ¬ FreeByte s' y := by
  obtain ⟨B', hB'⟩ := ha.inv
  rw [h.freeByte_iff, hB'.freeByte_iff]
  constructor
  · intro hy
    exact ⟨ha.block hp y hy, ha.taken hp y hy⟩
  · rintro ⟨hfree, hnot⟩
    by_contra hno
    rw [← inBlock_pageOf ha.aligned] at hno
    exact hnot (.of_track hreg hfree hno)

/-- `free` of the block gives back the same bytes. -/
theorem AllocPages.given_back (h : PmmInv s.mem.word s.segtab out B)
    (hreg : s'.segtab.map PmmSegment.region = s.segtab.map PmmSegment.region) {n p : Nat}
    (ha : AllocPages s out n s' p) (hp : p ≠ 0) (hnew : (p, orderFor n) ∉ out) :
    ∃ s'', s'.free p n = .ok s'' ∧ ∀ y, FreeByte s'' y ↔ FreeByte s y := by
  obtain ⟨B', hB'⟩ := ha.inv
  have htrack : track out p (orderFor n) = insert (p, orderFor n) out := if_neg hp
  rw [htrack] at hB'
  obtain ⟨s'', hrun, hfree⟩ := free_pages hB' (Finset.mem_insert_self _ _)
  obtain ⟨B'', hB''⟩ := hfree.inv
  rw [Finset.erase_insert hnew] at hB''
  refine ⟨s'', hrun, fun y => ?_⟩
  rw [h.freeByte_iff, hB''.freeByte_iff]
  have hreg' := hfree.region.trans hreg
  exact ⟨FreePage.congr hreg', FreePage.congr hreg'.symm⟩

/-- Beyond `2 ^ 64 - 4096` bytes the order is 0. -/
theorem orderFor_of_wrap {n : Nat} (hn : n < 2 ^ 64) (hbig : ¬ n ≤ 2 ^ 64 - 4096) :
    orderFor n = 0 := by
  have hpages : pagesFor n = 0 := by
    unfold pagesFor wrap64
    rw [Nat.shiftRight_eq_div_pow]
    omega
  unfold orderFor
  rw [hpages]
  rfl

/-- The block lies in one segment. -/
theorem AllocPages.blockOf
    (hreg : s'.segtab.map PmmSegment.region = s.segtab.map PmmSegment.region) {n p : Nat}
    (ha : AllocPages s out n s' p) (hp : p ≠ 0) : ∃ seg ∈ s.segtab, BlockOf seg p (orderFor n) := by
  obtain ⟨B', hB'⟩ := ha.inv
  have hnew : (p, orderFor n) ∈ track out p (orderFor n) := by
    rw [track, if_neg hp]
    exact Finset.mem_insert_self _ _
  obtain ⟨seg', hs', hblock⟩ := (safe_of_inv hB').outBlock _ hnew
  have hin := List.mem_map_of_mem (f := PmmSegment.region) hs'
  rw [hreg] at hin
  obtain ⟨seg, hs, he⟩ := List.mem_map.mp hin
  have hbase : seg.basePtr = seg'.basePtr := congrArg (fun r => r.1) he
  have hsize : seg.size = seg'.size := congrArg (fun r => r.2.1) he
  refine ⟨seg, hs, hblock.page, ?_, ?_, ?_⟩
  · rw [hbase]
    exact hblock.size
  · rw [hbase]
    exact hblock.low
  · rw [hbase, hsize]
    exact hblock.high

/-- Where the rounding does not wrap, a block is large enough. -/
theorem AllocPages.largeEnough (h : PmmInv s.mem.word s.segtab out B) {n p : Nat}
    (hrun : s.alloc n = .ok (s', p)) (ha : AllocPages s out n s' p) (hcase : AllocCase s n B s' p)
    (hp : p ≠ 0) (hle : n ≤ 2 ^ 64 - 4096) : LargeEnough s s' p n := by
  have hreg := h.alloc_region hrun
  have hnew : (p, orderFor n) ∉ out :=
    fun hmem => hcase.fresh h hp _ hmem ⟨p, inBlock_self _ _, inBlock_self _ _⟩
  refine ⟨orderFor n, ha.reserved h hreg hp, ha.blockOf hreg hp, fun y hlow hhigh => ?_, rfl,
    ha.given_back h hreg hp hnew⟩
  have hfits := (orderFor_le_iff hle (orderFor n)).mp (Nat.le_refl _)
  unfold InBlock
  omega

/-- Where it wraps, one page is too small. -/
theorem not_largeEnough_of_wrap {n p : Nat} (hn : n < 2 ^ 64) (hbig : ¬ n ≤ 2 ^ 64 - 4096) :
    ¬ LargeEnough s s' p n := by
  rintro ⟨k, -, -, hall, hk, -⟩
  have hend := hall (p + n - 1) (by omega) (by omega)
  rw [← hk, orderFor_of_wrap hn hbig] at hend
  unfold InBlock at hend
  omega

/-- If `alloc` finds nothing for order 0, nothing is free. -/
theorem AllocCase.nothing_free (h : PmmInv s.mem.word s.segtab out B) {n : Nat}
    (hcase : AllocCase s n B s' 0) (h0 : orderFor n = 0) : ¬ ∃ y, FreeByte s y := by
  obtain ⟨-, hsmall⟩ := hcase.null h rfl
  rintro ⟨y, seg, hs, k, a, hl, -⟩
  obtain ⟨b, hb, -⟩ := (h.onFreeList_iff hs k a).mp hl
  have := hsmall seg hs b hb
  omega

/-- **A block is always large enough** exactly where the rounding does not wrap, or nothing
is free. -/
theorem alloc_largeEnough_iff {memmap : List MemmapEntry} (hmm : WellFormedMap memmap)
    (h : Reach memmap s out) {n : Nat} (hn : n < 2 ^ 64) :
    ∃ s' p, s.alloc n = .ok (s', p) ∧
      ((p ≠ 0 → LargeEnough s s' p n) ↔ n ≤ 2 ^ 64 - 4096 ∨ ¬ ∃ y, FreeByte s y) := by
  obtain ⟨B, hB⟩ := h.inv hmm
  obtain ⟨s', p, hrun, hpages⟩ := alloc_pages hB n
  obtain ⟨s1, p1, hrun', hcase⟩ := alloc_spec hB n
  obtain ⟨rfl, rfl⟩ := Prod.mk.inj (Except.ok.inj (hrun.symm.trans hrun'))
  refine ⟨s', p, hrun, fun hlarge => ?_, fun hcond hp => ?_⟩
  · by_cases hle : n ≤ 2 ^ 64 - 4096
    · exact .inl hle
    · right
      by_cases hp : p = 0
      · subst hp
        exact hcase.nothing_free hB (orderFor_of_wrap hn hle)
      · exact absurd (hlarge hp) (not_largeEnough_of_wrap hn hle)
  · have hfree : FreeByte s p :=
      ((hpages.reserved hB (hB.alloc_region hrun) hp p).mp (inBlock_self _ _)).1
    exact hpages.largeEnough hB hrun hcase hp (hcond.resolve_right fun hno => hno ⟨p, hfree⟩)

/-- One page, while the other one is outstanding. -/
theorem alloc_largeEnough_twoPages : ∃ s, Reach twoPages s {(0x101000, 0)} ∧
    ∃ s' p, s.alloc 4096 = .ok (s', p) ∧ (p ≠ 0 → LargeEnough s s' p 4096) := by
  obtain ⟨s, hs⟩ := twoPages_run (fun _ _ _ => True) fun _ => trivial
  obtain ⟨s', p, hrun, hiff⟩ := alloc_largeEnough_iff twoPages_wellFormed hs
    (n := 4096) (by decide)
  exact ⟨s, hs, s', p, hrun, hiff.mpr (.inl (by decide))⟩

/-- The largest size there is gets one page. -/
theorem alloc_wraps : ∃ s s', Reach twoPages s ∅ ∧
    s.alloc 0xFFFFFFFFFFFFFFFF = .ok (s', 0x100000) ∧
    ¬ LargeEnough s s' 0x100000 0xFFFFFFFFFFFFFFFF :=
  ⟨_, _, @ReachWith.initialise twoPages _ zeroMem _ rfl, rfl, not_largeEnough_of_wrap (by decide) (by decide)⟩

end HelixKernel
