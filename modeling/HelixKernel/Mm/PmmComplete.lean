import HelixKernel.Mm.PmmRun
import Mathlib.Order.Bounds.Basic

/-!
# Allocation is complete

`alloc` looks only at the heads of the free lists, yet it finds room whenever
there is any: an aligned stretch of `2 ^ k` pages that no outstanding block
touches (`Candidate`) always lies in one free block (`BuddySystem.exists_free`).

    alloc(n) = null   exactly when no segment has a candidate of the least fitting order,
    otherwise         the result is a candidate of the first segment that has one.
                                                             (alloc_complete) -/

namespace HelixKernel

/-- `2 ^ k` pages at `a`, aligned to their size, within the first `2 ^ max_order` pages of `seg`,
that no outstanding block overlaps. -/
structure Candidate (seg : PmmSegment) (out : Finset (Nat × Nat)) (k a : Nat) : Prop where
  low : seg.basePtr ≤ a
  size : 2 ^ (k + 12) ∣ a - seg.basePtr
  high : a + 2 ^ (k + 12) ≤ seg.basePtr + 2 ^ (seg.maxOrder + 12)
  unused : ∀ ql ∈ out, ¬ Overlap a k ql.1 ql.2

variable {s : Pmm} {out : Finset (Nat × Nat)} {B : Nat → BuddySystem} {seg : PmmSegment}

/-- Candidates are the blocks without a used page. -/
theorem PmmInv.candidate_iff (h : PmmInv s.mem.word s.segtab out B) (hs : seg ∈ s.segtab)
    (k a : Nat) : Candidate seg out k a ↔ ∃ b : Block, b.Within seg.maxOrder ∧ b.order = k ∧
      a = blockAddr seg.basePtr b ∧ ∀ c ∈ (B seg.basePtr).used, ∀ x ∈ b, x ∉ c := by
  constructor
  · intro hc
    obtain ⟨j, hj⟩ := hc.size
    have haddr : a = blockAddr seg.basePtr ⟨k, j⟩ := by
      have hlow := hc.low
      rw [Nat.pow_add, Nat.mul_right_comm, Nat.mul_comm _ j] at hj
      simp only [blockAddr, Block.first]
      omega
    have hw : (⟨k, j⟩ : Block).Within seg.maxOrder := by
      have hhigh := hc.high
      rw [haddr, Nat.pow_add, Nat.pow_add] at hhigh
      simp only [blockAddr] at hhigh
      have hfit : (⟨k, j⟩ : Block).first + 2 ^ k ≤ 2 ^ seg.maxOrder := by omega
      refine ⟨?_, hfit⟩
      exact (Nat.pow_le_pow_iff_right (by decide)).mp (Nat.le_trans (Nat.le_add_left _ _) hfit)
    refine ⟨⟨k, j⟩, hw, rfl, haddr, fun c hcu x hx hxc => ?_⟩
    have hout := (h.out_iff _ _).mpr ⟨seg, hs, c, hcu, rfl, rfl⟩
    refine hc.unused _ hout ⟨_, ?_, inBlock_page.mpr hxc⟩
    rw [haddr]
    exact inBlock_page.mpr hx
  · rintro ⟨b, hw, rfl, rfl, hu⟩
    refine ⟨Nat.le_add_right _ _, ?_, ?_, ?_⟩
    · exact ((h.segs seg hs).geom.blockOf hw).size
    · have := hw.2
      rw [Nat.pow_add, Nat.pow_add]
      unfold blockAddr
      omega
    · rintro ⟨q, l⟩ hql ho
      obtain ⟨seg', hs', c, hc, rfl, rfl⟩ := (h.out_iff q l).mp hql
      obtain ⟨rfl, x, hx, hxc⟩ := h.overlap hs hs' hw ((h.segs seg' hs').within (.inr hc)) ho
      exact hu c hc x hx hxc

/-- A segment has a candidate exactly if it has a free block large enough. -/
theorem PmmInv.exists_candidate_iff (h : PmmInv s.mem.word s.segtab out B) (hs : seg ∈ s.segtab)
    (k : Nat) : (∃ a, Candidate seg out k a) ↔ ∃ f ∈ (B seg.basePtr).free, k ≤ f.order := by
  have hM := (h.segs seg hs).maxOrder
  constructor
  · rintro ⟨a, ha⟩
    obtain ⟨b, hw, rfl, -, hu⟩ := (h.candidate_iff hs k a).mp ha
    rw [← hM] at hw
    obtain ⟨f, hf, hle, -⟩ := (B seg.basePtr).exists_free hw hu
    exact ⟨f, hf, hle⟩
  · rintro ⟨f, hf, hle⟩
    -- the block of order k that starts where f does
    have hmem : f.first ∈ (⟨k, f.first / 2 ^ k⟩ : Block) := rfl
    have hlt : f.first < 2 ^ seg.maxOrder := ((h.segs seg hs).within (.inl hf)).lt f.first_mem
    have hk : k ≤ seg.maxOrder := Nat.le_trans hle ((h.segs seg hs).within (.inl hf)).1
    refine ⟨_, (h.candidate_iff hs k _).mpr ⟨⟨k, f.first / 2 ^ k⟩, ?_, rfl, rfl, fun c hc x hx => ?_⟩⟩
    · exact (Block.within_iff_mem hk hmem).mpr hlt
    · exact (B seg.basePtr).apart hf hc (Block.nested hmem f.first_mem hle hx)

theorem PmmInv.no_candidate (h : PmmInv s.mem.word s.segtab out B) (hs : seg ∈ s.segtab) {k : Nat}
    (hsmall : ∀ b ∈ (B seg.basePtr).free, b.order < k) (a : Nat) : ¬ Candidate seg out k a := by
  intro ha
  obtain ⟨f, hf, hle⟩ := (h.exists_candidate_iff hs k).mp ⟨a, ha⟩
  have := hsmall f hf
  omega

/-- A block `alloc` takes from `seg` was a candidate there. -/
theorem PmmInv.candidate_alloc (h : PmmInv s.mem.word s.segtab out B) (hs : seg ∈ s.segtab)
    {k : Nat} {seg' : PmmSegment} {mem' : Mem} {S' : BuddySystem} {r : Block}
    (hfrom : AllocFrom s.mem seg (B seg.basePtr) k seg' mem' S' r) :
    Candidate seg out k (blockAddr seg.basePtr r) := by
  have hr : r ∈ S'.used := hfrom.used ▸ Finset.mem_insert_self _ _
  have hw : r.Within seg.maxOrder := hfrom.fields.2.2 ▸ hfrom.inv.within (.inr hr)
  refine (h.candidate_iff hs k _).mpr ⟨r, hw, hfrom.order, rfl, fun c hc x hx hxc => ?_⟩
  have hcu : c ∈ S'.used := hfrom.used ▸ Finset.mem_insert_of_mem hc
  exact hfrom.fresh (S'.used_apart hr hcu hx hxc ▸ hc)

/-- `orderFor` is the least order whose blocks hold `n` bytes. -/
theorem orderFor_isLeast {n : Nat} (hn : n ≤ 2 ^ 64 - 4096) :
    IsLeast {k | n ≤ 2 ^ k * 4096} (orderFor n) := by
  have hiff : ∀ k, n ≤ 2 ^ k * 4096 ↔ orderFor n ≤ k := by
    intro k
    rw [orderFor_le_iff hn, Nat.pow_add]
  constructor
  · exact (hiff _).mpr (Nat.le_refl _)
  · intro k hk
    exact (hiff k).mp hk

/-- **`alloc` succeeds whenever there is room**, in the first segment that has room. -/
theorem alloc_complete {memmap : List MemmapEntry} (hmm : WellFormedMap memmap)
    (h : Reach memmap s out) {n k : Nat} (hn : n ≤ 2 ^ 64 - 4096)
    (hk : IsLeast {k | n ≤ 2 ^ k * 4096} k) :
    ∃ s' p, s.alloc n = .ok (s', p) ∧
      (p = 0 ↔ ∀ seg ∈ s.segtab, ∀ a, ¬ Candidate seg out k a) ∧
      (p ≠ 0 → ∃ l1 seg l2, s.segtab = l1 ++ seg :: l2 ∧ Candidate seg out k p ∧
        ∀ x ∈ l1, ∀ a, ¬ Candidate x out k a) ∧
      (p = 0 → s'.segtab = s.segtab ∧ s'.numUsed = s.numUsed ∧ s'.mem = s.mem) := by
  obtain ⟨B, hB⟩ := h.inv hmm
  obtain ⟨s', p, hrun, hcase⟩ := alloc_spec hB n
  obtain rfl : orderFor n = k := (orderFor_isLeast hn).unique hk
  refine ⟨s', p, hrun, ?_⟩
  by_cases hp : p = 0
  · obtain ⟨rfl, hsmall⟩ := hcase.null hB hp
    refine ⟨iff_of_true hp fun seg hs => hB.no_candidate hs (hsmall seg hs), ?_, ?_⟩
    · exact fun hne => absurd hp hne
    · exact fun _ => ⟨rfl, rfl, rfl⟩
  · cases hcase with
    | fail _ => exact absurd rfl hp
    | @found l1 l2 seg seg' mem' S' r htab hfirst hfrom =>
      have hs : seg ∈ s.segtab := by simp [htab]
      have hcand := hB.candidate_alloc hs hfrom
      refine ⟨iff_of_false hp fun hno => hno seg hs _ hcand, fun _ => ?_, fun h0 => absurd h0 hp⟩
      refine ⟨l1, seg, l2, htab, hcand, fun x hx => ?_⟩
      exact hB.no_candidate (by simp [htab, hx]) (hfirst x hx)

/-- The whole of the two pages, while the second one is outstanding. -/
theorem alloc_complete_twoPages : ∃ s, Reach twoPages s {(0x101000, 0)} ∧
    ∃ s' p, s.alloc 0x2000 = .ok (s', p) ∧
      (p = 0 ↔ ∀ seg ∈ s.segtab, ∀ a, ¬ Candidate seg {(0x101000, 0)} 1 a) := by
  obtain ⟨s, hs⟩ := twoPages_run (fun _ _ _ => True) fun _ => trivial
  have hk : IsLeast {k | 0x2000 ≤ 2 ^ k * 4096} 1 := by
    refine ⟨by decide, fun k hk => ?_⟩
    by_contra h0
    obtain rfl : k = 0 := by omega
    exact absurd hk (by decide)
  obtain ⟨s', p, hrun, hiff, -⟩ := alloc_complete twoPages_wellFormed hs (by decide) hk
  exact ⟨s, hs, s', p, hrun, hiff⟩

end HelixKernel
