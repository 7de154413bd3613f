import HelixKernel.Mm.PmmBounds
import Mathlib.Algebra.BigOperators.Group.Finset.Sigma
import Mathlib.Algebra.Order.BigOperators.Group.List
import Mathlib.Data.List.Forall2

/-!
# Page accounting

`alloc` adds the pages of the order it was asked for; `free` subtracts those of
the order its merge loop ends at.  The two balance exactly if the loop merges
nothing, that is, if the buddy of the freed block is not free (`BuddyBusy`):

    every run whose frees all find the buddy busy is accounted for, and the next
    free keeps the accounts exactly if it finds the buddy busy   (accounting) -/

namespace HelixKernel

/-- Pages of the outstanding blocks of `seg`. -/
def outPages (out : Finset (Nat × Nat)) (seg : PmmSegment) : Nat :=
  ∑ pk ∈ out with seg.basePtr ≤ pk.1 ∧ pk.1 < seg.basePtr + seg.size, 2 ^ pk.2

/-- The counters agree with the outstanding blocks and with the free lists. -/
structure Accounted (s : Pmm) (out : Finset (Nat × Nat)) : Prop where
  used : ∀ seg ∈ s.segtab, seg.pagesUsed = outPages out seg
  total : s.numUsed = (s.segtab.map PmmSegment.pagesUsed).sum
  free : ∀ seg ∈ s.segtab, ∃ xs : Nat → List Nat,
    (∀ k (_ : k < 16), Chain 0 s.mem.word seg.freeList[k] (xs k)) ∧
    ∑ k ∈ Finset.range 16, (xs k).length * 2 ^ k + seg.pagesUsed = 2 ^ seg.maxOrder

/-- The address of the buddy of the block `(p, k)` of `seg`. -/
def buddyAddr (seg : PmmSegment) (p k : Nat) : Nat :=
  seg.basePtr + ((p - seg.basePtr) ^^^ 1 <<< (k + 12))

/-- `free(p, n)` is called where the buddy of the block is not on its free list. -/
def BuddyBusy (s : Pmm) (p n : Nat) : Prop :=
  ∀ seg ∈ s.segtab, seg.basePtr ≤ p → p < seg.basePtr + seg.size → orderFor n < seg.maxOrder →
    ¬ OnFreeList s seg (orderFor n) (buddyAddr seg p (orderFor n))

/-- No subtraction of a `free` that leads from `s` to `s'` has gone below zero. -/
def NoWrap (s s' : Pmm) : Prop :=
  s'.numUsed ≤ s.numUsed ∧
  List.Forall₂ (fun seg' seg => seg'.pagesUsed ≤ seg.pagesUsed) s'.segtab s.segtab

/-! ## Lists and counters -/

/-- Adding up the cells of the sixteen lists gives the pages of the blocks. -/
theorem FreeLists.sum_cells {word : Nat → Nat} {seg : PmmSegment} {F : Finset Block}
    (h : FreeLists word seg F) (hF : ∀ b ∈ F, b.order < 16) : ∃ xs : Nat → List Nat,
      (∀ k (_ : k < 16), Chain 0 word seg.freeList[k] (xs k)) ∧
      ∑ k ∈ Finset.range 16, (xs k).length * 2 ^ k = ∑ b ∈ F, 2 ^ b.order := by
  choose xs hchain hmem using h.chain
  refine ⟨fun k => if hk : k < 16 then xs k hk else [], fun k hk => ?_, ?_⟩
  · dsimp only
    rw [dif_pos hk]
    exact hchain k hk
  · rw [← Finset.sum_fiberwise_of_maps_to fun b hb => Finset.mem_range.mpr (hF b hb)]
    refine Finset.sum_congr rfl fun k hk => ?_
    have hk := Finset.mem_range.mp hk
    have hlen : (xs k hk).length = (F.filter fun b => b.order = k).card := by
      rw [← List.toFinset_card_of_nodup (hchain k hk).nodup,
        ← Finset.card_image_of_injOn (f := blockAddr seg.basePtr)]
      · congr 1
        ext a
        simp only [List.mem_toFinset, hmem, Finset.mem_image, Finset.mem_filter]
        constructor
        · rintro ⟨b, hb, ho, rfl⟩
          exact ⟨b, ⟨hb, ho⟩, rfl⟩
        · rintro ⟨b, ⟨hb, ho⟩, rfl⟩
          exact ⟨b, hb, ho, rfl⟩
      · intro b hb c hc he
        have hb := (Finset.mem_filter.mp hb).2
        have hc := (Finset.mem_filter.mp hc).2
        exact Block.ext_first (hb.trans hc.symm) (blockAddr_inj.mp he)
    dsimp only
    rw [dif_pos hk, hlen, Finset.sum_congr rfl fun b hb => by rw [(Finset.mem_filter.mp hb).2],
      Finset.sum_const, Nat.nsmul_eq_mul]

variable {s s' : Pmm} {out : Finset (Nat × Nat)} {B : Nat → BuddySystem} {seg : PmmSegment}

theorem PmmInv.outPages_eq (h : PmmInv s.mem.word s.segtab out B) (hs : seg ∈ s.segtab) :
    outPages out seg = ∑ b ∈ (B seg.basePtr).used, 2 ^ b.order := by
  have hset : out.filter (fun pk => seg.basePtr ≤ pk.1 ∧ pk.1 < seg.basePtr + seg.size) =
      (B seg.basePtr).used.image fun b => (blockAddr seg.basePtr b, b.order) := by
    ext ⟨p, k⟩
    simp only [Finset.mem_filter, Finset.mem_image, Prod.mk.injEq, h.out_iff]
    constructor
    · rintro ⟨⟨seg', hs', b, hb, rfl, rfl⟩, hlo, hhi⟩
      have hw := (h.segs seg' hs').within (.inr hb)
      have heq : seg' = seg := by
        by_contra hne
        have hap := h.apart.forall hs' hs hne
        have := (h.segs seg' hs').geom.addr_lt hw
        unfold PmmSegment.Apart at hap
        unfold blockAddr at *
        omega
      subst heq
      exact ⟨b, hb, rfl, rfl⟩
    · rintro ⟨b, hb, rfl, rfl⟩
      have hw := (h.segs seg hs).within (.inr hb)
      exact ⟨⟨seg, hs, b, hb, rfl, rfl⟩, Nat.le_add_right _ _, (h.segs seg hs).geom.addr_lt hw⟩
  unfold outPages
  rw [hset, Finset.sum_image]
  intro b _ c _ he
  simp only [Prod.mk.injEq] at he
  exact Block.ext_first he.2 (blockAddr_inj.mp he.1)

/-- Free and outstanding pages make up the segment. -/
theorem PmmInv.sum_pages (h : PmmInv s.mem.word s.segtab out B) (hs : seg ∈ s.segtab) :
    ∑ b ∈ (B seg.basePtr).free, 2 ^ b.order + outPages out seg = 2 ^ seg.maxOrder := by
  rw [h.outPages_eq hs, (B seg.basePtr).sum_size, (h.segs seg hs).maxOrder]

theorem PmmInv.outPages_le (h : PmmInv s.mem.word s.segtab out B) (hs : seg ∈ s.segtab) :
    outPages out seg ≤ 2 ^ 15 := by
  have hsum := h.sum_pages hs
  have hpow : 2 ^ seg.maxOrder ≤ 2 ^ 15 := Nat.pow_le_pow_right (by decide) (h.segs seg hs).geom.order
  omega

/-- The free lists take care of themselves. -/
theorem PmmInv.accounted (h : PmmInv s.mem.word s.segtab out B)
    (hused : ∀ seg ∈ s.segtab, seg.pagesUsed = outPages out seg)
    (htotal : s.numUsed = (s.segtab.map PmmSegment.pagesUsed).sum) : Accounted s out where
  used := hused
  total := htotal
  free seg hs := by
    obtain ⟨xs, hchain, hsum⟩ :=
      (h.segs seg hs).lists.sum_cells fun b hb => (h.segs seg hs).order_lt (.inl hb)
    exact ⟨xs, hchain, by rw [hsum, hused seg hs, h.sum_pages hs]⟩

/-- 128 segments of at most `2 ^ 15` pages do not overflow a counter. -/
theorem PmmInv.numUsed_le (h : PmmInv s.mem.word s.segtab out B)
    (hlen : s.segtab.length ≤ maxSegtab) (ha : Accounted s out) : s.numUsed ≤ 2 ^ 22 := by
  have hle := List.sum_le_card_nsmul (s.segtab.map PmmSegment.pagesUsed) (2 ^ 15) fun u hu => by
    obtain ⟨seg, hs, rfl⟩ := List.mem_map.mp hu
    rw [ha.used seg hs]
    exact h.outPages_le hs
  rw [List.length_map, Nat.nsmul_eq_mul, ← ha.total] at hle
  have hcard : s.segtab.length * 2 ^ 15 ≤ maxSegtab * 2 ^ 15 := Nat.mul_le_mul_right _ hlen
  have hval : maxSegtab * 2 ^ 15 = 2 ^ 22 := rfl
  omega

theorem outPages_congr {seg' : PmmSegment} (hbase : seg'.basePtr = seg.basePtr)
    (hsize : seg'.size = seg.size) : outPages out seg' = outPages out seg := by
  unfold outPages
  rw [hbase, hsize]

theorem outPages_insert {p k : Nat} (hin : seg.basePtr ≤ p ∧ p < seg.basePtr + seg.size)
    (hnew : (p, k) ∉ out) : outPages (insert (p, k) out) seg = outPages out seg + 2 ^ k := by
  unfold outPages
  rw [Finset.filter_insert, if_pos hin, Finset.sum_insert, Nat.add_comm]
  exact fun hin => hnew (Finset.mem_filter.mp hin).1

theorem outPages_insert_of_not {p k : Nat} (h : ¬ (seg.basePtr ≤ p ∧ p < seg.basePtr + seg.size)) :
    outPages (insert (p, k) out) seg = outPages out seg := by
  unfold outPages
  rw [Finset.filter_insert, if_neg h]

section

variable {seg' : PmmSegment} {l1 l2 : List PmmSegment} {out' : Finset (Nat × Nat)} {p : Nat}

/-- Two segments of a table do not both hold `p`. -/
theorem PmmInv.not_holds {word : Nat → Nat} (h : PmmInv word (l1 ++ seg :: l2) out B)
    (hp : seg.basePtr ≤ p ∧ p < seg.basePtr + seg.size) :
    ∀ x, x ∈ l1 ∨ x ∈ l2 → ¬ (x.basePtr ≤ p ∧ p < x.basePtr + x.size) := by
  intro x hx
  have hap := (h.basePtr_ne x hx).1
  unfold PmmSegment.Apart at hap
  omega

/-- The accounts after a call that changes one segment. -/
theorem Accounted.replace (ha : Accounted s out) (htab : s.segtab = l1 ++ seg :: l2)
    (htab' : s'.segtab = l1 ++ seg' :: l2) (h' : PmmInv s'.mem.word s'.segtab out' B)
    (hother : ∀ x, x ∈ l1 ∨ x ∈ l2 → outPages out' x = outPages out x)
    (hseg : seg'.pagesUsed = outPages out' seg')
    (htotal : s'.numUsed + seg.pagesUsed = s.numUsed + seg'.pagesUsed) : Accounted s' out' := by
  have hold : ∀ x, x ∈ l1 ∨ x ∈ l2 → x.pagesUsed = outPages out' x := by
    intro x hx
    rw [hother x hx]
    exact ha.used x (by rw [htab]; rcases hx with hx | hx <;> simp [hx])
  refine h'.accounted (fun x hx => ?_) ?_
  · rw [htab'] at hx
    rcases List.mem_append.mp hx with hx | hx
    · exact hold x (.inl hx)
    · rcases List.mem_cons.mp hx with rfl | hx
      · exact hseg
      · exact hold x (.inr hx)
  · have hsum := ha.total
    rw [htab] at hsum
    rw [htab']
    simp only [List.map_append, List.map_cons, List.sum_append, List.sum_cons] at hsum ⊢
    omega

end

/-! ## `alloc` -/

theorem AllocCase.accounted {n p : Nat} (h : PmmInv s.mem.word s.segtab out B)
    (hlen : s.segtab.length ≤ maxSegtab) (hc : AllocCase s n B s' p) (ha : Accounted s out) :
    Accounted s' (track out p (orderFor n)) := by
  obtain ⟨B', hB'⟩ := hc.inv h
  have hfresh := hc.fresh h
  cases hc with
  | fail _ => exact hB'.accounted ha.used ha.total
  | @found l1 l2 seg seg' mem' S' r htab _ hfrom =>
    have hs : seg ∈ s.segtab := by simp [htab]
    have hne := (h.segs seg hs).geom.addr_ne_zero r
    have hr : r ∈ S'.used := hfrom.used ▸ Finset.mem_insert_self _ _
    have hw : r.Within seg.maxOrder := hfrom.fields.2.2 ▸ hfrom.inv.within (.inr hr)
    have hin : seg.basePtr ≤ blockAddr seg.basePtr r ∧
        blockAddr seg.basePtr r < seg.basePtr + seg.size :=
      ⟨Nat.le_add_right _ _, (h.segs seg hs).geom.addr_lt hw⟩
    have hnew : (blockAddr seg.basePtr r, orderFor n) ∉ out := fun hmem =>
      hfresh hne _ hmem ⟨_, inBlock_self _ _, inBlock_self _ _⟩
    have hused : seg'.pagesUsed = seg.pagesUsed + 2 ^ orderFor n := by
      have hle := h.outPages_le hs
      have hord : 2 ^ orderFor n ≤ 2 ^ 15 := by
        rw [← hfrom.order]
        exact Nat.pow_le_pow_right (by decide) (hw.1.trans (h.segs seg hs).geom.order)
      obtain ⟨fl, rfl⟩ := hfrom.eq
      rw [← ha.used seg hs] at hle
      exact wrap64_of_lt (by omega)
    rw [track, if_neg hne] at hB' ⊢
    refine ha.replace htab rfl hB' ?_ ?_ ?_
    · exact fun x hx => outPages_insert_of_not (PmmInv.not_holds (htab ▸ h) hin x hx)
    · rw [outPages_congr hfrom.fields.1 hfrom.fields.2.1, outPages_insert hin hnew, hused, ha.used seg hs]
    · have hle := h.numUsed_le hlen ha
      have hle' : outPages _ _ ≤ 2 ^ 15 := hB'.outPages_le (show seg' ∈ _ by simp)
      rw [outPages_congr hfrom.fields.1 hfrom.fields.2.1, outPages_insert hin hnew] at hle'
      show wrap64 (s.numUsed + 2 ^ orderFor n) + seg.pagesUsed = _
      rw [wrap64_of_lt (by omega), hused]
      omega

/-! ## `free` -/

theorem outPages_erase {p k : Nat} (hin : seg.basePtr ≤ p ∧ p < seg.basePtr + seg.size)
    (hmem : (p, k) ∈ out) : outPages (out.erase (p, k)) seg + 2 ^ k = outPages out seg := by
  rw [← outPages_insert hin (Finset.notMem_erase _ _), Finset.insert_erase hmem]

theorem outPages_erase_of_not {p k : Nat} (h : ¬ (seg.basePtr ≤ p ∧ p < seg.basePtr + seg.size)) :
    outPages (out.erase (p, k)) seg = outPages out seg := by
  by_cases hmem : (p, k) ∈ out
  · rw [← outPages_insert_of_not h, Finset.insert_erase hmem]
  · rw [Finset.erase_eq_of_notMem hmem]

/-- `buddyAddr` on blocks of the buddy system. -/
theorem buddyAddr_block (seg : PmmSegment) (b : Block) :
    buddyAddr seg (blockAddr seg.basePtr b) b.order = blockAddr seg.basePtr b.buddy := by
  have hrel : blockAddr seg.basePtr b - seg.basePtr = b.first * 4096 := Nat.add_sub_cancel_left _ _
  rw [buddyAddr, hrel, first_xor]
  rfl

/-- The buddy is busy exactly if the merge loop of `free` does nothing. -/
theorem PmmInv.buddyBusy_iff (h : PmmInv s.mem.word s.segtab out B) (hs : seg ∈ s.segtab) {b : Block}
    (hb : b ∈ (B seg.basePtr).used) {n : Nat} (hn : orderFor n = b.order) :
    BuddyBusy s (blockAddr seg.basePtr b) n ↔
      (b.order < seg.maxOrder → b.buddy ∉ (B seg.basePtr).free) := by
  have hw := (h.segs seg hs).within (.inr hb)
  have hin : seg.basePtr ≤ blockAddr seg.basePtr b ∧
      blockAddr seg.basePtr b < seg.basePtr + seg.size :=
    ⟨Nat.le_add_right _ _, (h.segs seg hs).geom.addr_lt hw⟩
  have hon : OnFreeList s seg b.order (blockAddr seg.basePtr b.buddy) ↔
      b.buddy ∈ (B seg.basePtr).free := by
    rw [h.onFreeList_iff hs]
    constructor
    · rintro ⟨c, hc, ho, ha⟩
      rwa [← Block.ext_first (b := c) (c := b.buddy) ho (blockAddr_inj.mp ha).symm]
    · intro hf
      exact ⟨b.buddy, hf, rfl, rfl⟩
  constructor
  · intro hbusy hM
    have := hbusy seg hs hin.1 hin.2 (hn ▸ hM)
    rwa [hn, buddyAddr_block, hon] at this
  · intro hno x hx hlo hhi hM
    obtain ⟨l1, l2, htab⟩ := List.append_of_mem hs
    have hx' : x = seg := by
      by_contra hne
      have hor : x ∈ l1 ∨ x ∈ l2 := by
        rw [htab] at hx
        rcases List.mem_append.mp hx with hx | hx
        · exact .inl hx
        · exact .inr ((List.mem_cons.mp hx).resolve_left hne)
      exact PmmInv.not_holds (htab ▸ h) hin x hor ⟨hlo, hhi⟩
    subst hx'
    rw [hn] at hM ⊢
    rw [buddyAddr_block, hon]
    exact hno hM

/-- A subtraction gives the true difference only for the true subtrahend. -/
theorem sub64_eq_sub_iff {x y z : Nat} (hx : x < 2 ^ 64) (hy : y < 2 ^ 64) (hz : z ≤ x) :
    sub64 x y = x - z ↔ y = z := by
  unfold sub64 wrap64
  rw [Nat.mod_eq_of_lt hy]
  omega

/-- **Exactly a busy buddy keeps the accounts**, and then nothing goes below zero. -/
theorem FreeCase.accounted_iff {p n : Nat} (h : PmmInv s.mem.word s.segtab out B)
    (hlen : s.segtab.length ≤ maxSegtab) (hc : FreeCase s B p (orderFor n) s')
    (ha : Accounted s out) :
    (Accounted s' (out.erase (p, orderFor n)) ↔ BuddyBusy s p n) ∧
      (BuddyBusy s p n → NoWrap s s') := by
  obtain ⟨B', hB'⟩ := hc.inv h
  cases hc with
  | @done l1 l2 seg seg' mem' S' b b' htab hb hp hk hto =>
    have hs : seg ∈ s.segtab := by simp [htab]
    have hw := (h.segs seg hs).within (.inr hb)
    have hmem : (p, orderFor n) ∈ out := (h.out_iff _ _).mpr ⟨seg, hs, b, hb, hp, hk⟩
    have hin : seg.basePtr ≤ p ∧ p < seg.basePtr + seg.size := by
      rw [hp]
      exact ⟨Nat.le_add_right _ _, (h.segs seg hs).geom.addr_lt hw⟩
    have hbusy : BuddyBusy s p n ↔ b'.order = b.order := by
      rw [hto.same, hp]
      exact h.buddyBusy_iff hs hb hk
    have herase := outPages_erase hin hmem
    have hle := h.outPages_le hs
    have htotal := h.numUsed_le hlen ha
    have hpart : seg.pagesUsed ≤ s.numUsed := by
      rw [ha.total, htab]
      simp only [List.map_append, List.map_cons, List.sum_append, List.sum_cons]
      omega
    have hused : seg'.pagesUsed = sub64 seg.pagesUsed (2 ^ b'.order) := by
      obtain ⟨fl, rfl⟩ := hto.eq
      rfl
    have hout : outPages (out.erase (p, orderFor n)) seg' = seg.pagesUsed - 2 ^ orderFor n := by
      rw [outPages_congr hto.fields.1 hto.fields.2.1, ha.used seg hs]
      omega
    have hpow : 2 ^ b'.order < 2 ^ 64 := by
      have := hto.le.2
      have := (h.segs seg hs).geom.order
      exact Nat.pow_lt_pow_right (by decide) (by omega)
    have hkle : 2 ^ orderFor n ≤ seg.pagesUsed := by
      rw [ha.used seg hs]
      omega
    have hlt : seg.pagesUsed < 2 ^ 64 := by
      rw [ha.used seg hs]
      omega
    refine ⟨?_, fun hb' => ?_⟩
    · rw [hbusy]
      constructor
      · intro ha'
        have heq := ha'.used seg' (by simp)
        rw [hused, hout, sub64_eq_sub_iff hlt hpow hkle, hk] at heq
        exact Nat.pow_right_injective (Nat.le_refl 2) heq
      · intro hsame
        rw [hsame, ← hk, sub64_of_le hkle hlt] at hused
        refine ha.replace htab rfl hB' ?_ (by rw [hused, hout]) ?_
        · exact fun x hx => outPages_erase_of_not (PmmInv.not_holds (htab ▸ h) hin x hx)
        · show sub64 s.numUsed (2 ^ b'.order) + seg.pagesUsed = _
          rw [hsame, ← hk, sub64_of_le (by omega) (by omega), hused]
          omega
    · rw [hbusy] at hb'
      rw [hb', ← hk, sub64_of_le hkle hlt] at hused
      refine ⟨?_, ?_⟩
      · show sub64 s.numUsed (2 ^ b'.order) ≤ s.numUsed
        rw [hb', ← hk, sub64_of_le (by omega) (by omega)]
        exact Nat.sub_le _ _
      · show List.Forall₂ _ (l1 ++ seg' :: l2) s.segtab
        rw [htab]
        have hrefl : ∀ l : List PmmSegment, List.Forall₂ (fun a b => a.pagesUsed ≤ b.pagesUsed) l l :=
          fun l => List.forall₂_same.mpr fun _ _ => Nat.le_refl _
        have hseg : seg'.pagesUsed ≤ seg.pagesUsed := by
          rw [hused]
          exact Nat.sub_le _ _
        exact List.rel_append (hrefl l1) (.cons hseg (hrefl l2))

/-! ## Runs -/

theorem Reach.length_le {memmap : List MemmapEntry} (hmm : WellFormedMap memmap)
    (h : Reach memmap s out) : s.segtab.length ≤ maxSegtab := by
  have hlen := congrArg List.length (h.map_region hmm.regions_lt).1
  rw [List.length_map, List.length_map] at hlen
  rw [hlen]
  exact List.length_take_le _ _

theorem initialise_accounted {memmap : List MemmapEntry} (hmm : WellFormedMap memmap) {mem : Mem}
    (h : Pmm.initialise mem memmap = .ok s) : Accounted s ∅ := by
  obtain ⟨s0, B, hrun, hB, hz, hn, -⟩ := initialise_spec hmm mem
  obtain rfl : s0 = s := by
    rw [hrun] at h
    exact Except.ok.inj h
  refine hB.accounted (fun seg hs => ?_) ?_
  · rw [hz seg hs]
    simp [outPages]
  · rw [hn]
    symm
    refine List.sum_eq_zero fun u hu => ?_
    obtain ⟨seg, hs, rfl⟩ := List.mem_map.mp hu
    exact hz seg hs

/-- **Accounting is exact while no `free` merges**, and the first merge ends it. -/
theorem accounting {memmap : List MemmapEntry} (hmm : WellFormedMap memmap)
    (h : ReachWith memmap BuddyBusy s out) : Accounted s out ∧
      ∀ p n, (p, orderFor n) ∈ out → ∃ s', s.free p n = .ok s' ∧
        (Accounted s' (out.erase (p, orderFor n)) ↔ BuddyBusy s p n) ∧
        (BuddyBusy s p n → NoWrap s s') := by
  have hacc : Accounted s out := by
    induction h with
    | initialise h => exact initialise_accounted hmm h
    | @alloc s s' out n p hs h ih =>
      obtain ⟨B, hB⟩ := hs.reach.inv hmm
      obtain ⟨s'', p', hrun, hcase⟩ := alloc_spec hB n
      rw [hrun] at h
      cases h
      exact hcase.accounted hB (hs.reach.length_le hmm) ih
    | @free s s' out p n hs hp hok h ih =>
      obtain ⟨B, hB⟩ := hs.reach.inv hmm
      obtain ⟨s'', hrun, hcase⟩ := free_spec hB hp
      rw [hrun] at h
      cases h
      exact (hcase.accounted_iff hB (hs.reach.length_le hmm) ih).1.mpr hok
    | @write s out m hs h ih =>
      obtain ⟨B, hB⟩ := hs.reach.inv hmm
      exact (hB.write h).accounted ih.used ih.total
  refine ⟨hacc, fun p n hp => ?_⟩
  obtain ⟨B, hB⟩ := h.reach.inv hmm
  obtain ⟨s', hrun, hcase⟩ := free_spec hB hp
  exact ⟨s', hrun, hcase.accounted_iff hB (h.reach.length_le hmm) hacc⟩

/-- One page taken and given back: `free` merges the two pages and subtracts both, so that
`pages_used` is `2 ^ 64 - 1` with nothing outstanding. -/
theorem not_accounted_merge : WellFormedMap twoPages ∧
    ∃ s, Reach twoPages s ∅ ∧ ¬ Accounted s ∅ := by
  refine ⟨twoPages_wellFormed, ?_⟩
  have r0 := @ReachWith.initialise twoPages (fun _ _ _ => True) zeroMem _ rfl
  have r1 := (r0.alloc (n := 1) rfl).free (p := 0x100000) (n := 1) (by decide) trivial rfl
  refine ⟨_, r1, fun ha => ?_⟩
  have hused : 2 ^ 64 - 1 = 0 := ha.used _ List.mem_cons_self
  exact absurd hused (by decide)

/-- Both pages taken, then the first one given back while its buddy is in use. -/
theorem accounting_twoPages :
    ∃ s, ReachWith twoPages BuddyBusy s {(0x101000, 0)} ∧ Accounted s {(0x101000, 0)} := by
  have r0 := @ReachWith.initialise twoPages BuddyBusy zeroMem _ rfl
  have r1 := (r0.alloc (n := 1) rfl).alloc (n := 4096) rfl
  have r2 := r1.free (p := 0x100000) (n := 1) (by decide) (fun seg hs _ _ _ ⟨_, hl⟩ => ?_) rfl
  · exact ⟨_, r2, (accounting twoPages_wellFormed r2).1⟩
  · obtain rfl := List.mem_singleton.mp hs
    exact hl.ne_null rfl

end HelixKernel
