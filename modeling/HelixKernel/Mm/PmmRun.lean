import HelixKernel.Mm.PmmInit

/-!
# Runs of the allocator

`Reach memmap s out`: `s` is reached from `initialise` by calls of `alloc` and of
`free` on outstanding blocks, with the clients writing whatever they like to the
blocks they own (and to memory the allocator does not manage) in between; `out`
are the outstanding blocks, as pairs of address and order.  `ReachWith memmap ok`
are the runs whose `free` calls are all made where `ok` holds.

Every reached state has the invariant of `PmmInv`: `Reach.inv`.  In terms of bytes
this is `Safe` (`safe_of_inv`): no two blocks, free or outstanding, overlap. -/

namespace HelixKernel

/-- Byte `y` is one of the `2 ^ k` pages at `p`. -/
def InBlock (p k y : Nat) : Prop := p ≤ y ∧ y < p + 2 ^ (k + 12)

/-- The blocks `(p, k)` and `(q, l)` share a byte. -/
def Overlap (p k q l : Nat) : Prop := ∃ y, InBlock p k y ∧ InBlock q l y

/-- A word a client may write: in a block it owns, or outside every segment. -/
def ClientWord (s : Pmm) (out : Finset (Nat × Nat)) (a : Nat) : Prop :=
  (∃ pk ∈ out, InBlock pk.1 pk.2 a) ∨
  ∀ seg ∈ s.segtab, a < seg.basePtr ∨ seg.basePtr + seg.size ≤ a

inductive ReachWith (memmap : List MemmapEntry) (ok : Pmm → Nat → Nat → Prop) :
    Pmm → Finset (Nat × Nat) → Prop
  | initialise {mem : Mem} {s : Pmm} (h : Pmm.initialise mem memmap = .ok s) :
      ReachWith memmap ok s ∅
  | alloc {s s' : Pmm} {out : Finset (Nat × Nat)} {n p : Nat} (hs : ReachWith memmap ok s out)
      (h : s.alloc n = .ok (s', p)) : ReachWith memmap ok s' (track out p (orderFor n))
  | free {s s' : Pmm} {out : Finset (Nat × Nat)} {p n : Nat} (hs : ReachWith memmap ok s out)
      (hp : (p, orderFor n) ∈ out) (hok : ok s p n) (h : s.free p n = .ok s') :
      ReachWith memmap ok s' (out.erase (p, orderFor n))
  | write {s : Pmm} {out : Finset (Nat × Nat)} {m : Mem} (hs : ReachWith memmap ok s out)
      (h : ∀ a, m.word a ≠ s.mem.word a → ClientWord s out a) :
      ReachWith memmap ok { s with mem := m } out

/-- Any run. -/
abbrev Reach (memmap : List MemmapEntry) := ReachWith memmap fun _ _ _ => True

theorem ReachWith.reach {memmap : List MemmapEntry} {ok : Pmm → Nat → Nat → Prop} {s : Pmm}
    {out : Finset (Nat × Nat)} (h : ReachWith memmap ok s out) : Reach memmap s out := by
  induction h with
  | initialise h => exact .initialise h
  | alloc _ h ih => exact .alloc ih h
  | free _ hp _ h ih => exact .free ih hp trivial h
  | write _ h ih => exact .write ih h

/-! ## Bytes and pages -/

theorem inBlock_iff {base y : Nat} {b : Block} :
    InBlock (blockAddr base b) b.order y ↔ base ≤ y ∧ (y - base) / 4096 ∈ b := by
  rw [Block.mem_iff_range]
  unfold InBlock blockAddr
  rw [Nat.pow_add]
  generalize 2 ^ b.order = K
  omega

theorem inBlock_page {base x : Nat} {b : Block} :
    InBlock (blockAddr base b) b.order (base + x * 4096) ↔ x ∈ b := by
  rw [inBlock_iff, Nat.add_sub_cancel_left, Nat.mul_div_cancel _ (by decide)]
  exact and_iff_right (Nat.le_add_right _ _)

theorem inBlock_self (p k : Nat) : InBlock p k p := by
  have := Nat.two_pow_pos (k + 12)
  unfold InBlock
  omega

section

variable {s : Pmm} {out : Finset (Nat × Nat)} {B : Nat → BuddySystem}

/-- Every byte of a block is in its segment. -/
theorem SegGeom.inBlock {seg : PmmSegment} (h : SegGeom seg) {b : Block}
    (hb : b.Within seg.maxOrder) {y : Nat} (hy : InBlock (blockAddr seg.basePtr b) b.order y) :
    seg.basePtr ≤ y ∧ y < seg.basePtr + seg.size := by
  have h1 := h.addr_le hb
  unfold InBlock at hy
  rw [Nat.pow_add] at hy
  unfold blockAddr at *
  omega

/-- Two blocks of the allocator that share a byte are in one segment and share a page. -/
theorem PmmInv.overlap (h : PmmInv s.mem.word s.segtab out B) {seg seg' : PmmSegment}
    (hs : seg ∈ s.segtab) (hs' : seg' ∈ s.segtab) {b b' : Block} (hb : b.Within seg.maxOrder)
    (hb' : b'.Within seg'.maxOrder)
    (ho : Overlap (blockAddr seg.basePtr b) b.order (blockAddr seg'.basePtr b') b'.order) :
    seg = seg' ∧ ∃ x, x ∈ b ∧ x ∈ b' := by
  obtain ⟨y, hy, hy'⟩ := ho
  have h1 := (h.segs seg hs).geom.inBlock hb hy
  have h2 := (h.segs seg' hs').geom.inBlock hb' hy'
  have heq : seg = seg' := by
    by_contra hne
    have hap := h.apart.forall hs hs' hne
    unfold PmmSegment.Apart at hap
    omega
  subst heq
  exact ⟨rfl, _, (inBlock_iff.mp hy).2, (inBlock_iff.mp hy').2⟩

/-- The header of a free block is no client's word. -/
theorem PmmInv.header_not_client (h : PmmInv s.mem.word s.segtab out B) {seg : PmmSegment}
    (hs : seg ∈ s.segtab) {b : Block} (hb : b ∈ (B seg.basePtr).free) :
    ¬ ClientWord s out (blockAddr seg.basePtr b) := by
  have hss := h.segs seg hs
  have hw := hss.within (.inl hb)
  rintro (⟨⟨p, k⟩, hpk, hy⟩ | hno)
  · obtain ⟨seg', hs', c, hc, rfl, rfl⟩ := (h.out_iff p k).mp hpk
    have hwc := (h.segs seg' hs').within (.inr hc)
    obtain ⟨rfl, x, hxb, hxc⟩ := h.overlap hs hs' hw hwc ⟨_, inBlock_self _ _, hy⟩
    exact (B seg.basePtr).apart hb hc hxb hxc
  · have h1 := hss.geom.addr_lt hw
    have h2 := hno seg hs
    unfold blockAddr at *
    omega

/-- Clients' writes leave the free lists alone. -/
theorem PmmInv.write (h : PmmInv s.mem.word s.segtab out B) {m : Mem}
    (hm : ∀ a, m.word a ≠ s.mem.word a → ClientWord s out a) : PmmInv m.word s.segtab out B := by
  refine h.frame fun seg hs b hb => ?_
  by_contra hne
  exact h.header_not_client hs hb (hm _ hne)

end

/-- **Every reached state has the invariant.** -/
theorem Reach.inv {memmap : List MemmapEntry} (hmm : WellFormedMap memmap) {s : Pmm}
    {out : Finset (Nat × Nat)} (h : Reach memmap s out) :
    ∃ B, PmmInv s.mem.word s.segtab out B := by
  induction h with
  | initialise h =>
    obtain ⟨s', B, hrun, hinv, -⟩ := initialise_spec hmm _
    rw [hrun] at h
    cases h
    exact ⟨B, hinv⟩
  | @alloc s s' out n p _ h ih =>
    obtain ⟨B, hB⟩ := ih
    obtain ⟨s'', p', hrun, hcase⟩ := alloc_spec hB n
    rw [hrun] at h
    cases h
    exact hcase.inv hB
  | @free s s' out p n _ hp _ h ih =>
    obtain ⟨B, hB⟩ := ih
    obtain ⟨s'', hrun, hcase⟩ := free_spec hB hp
    rw [hrun] at h
    cases h
    exact hcase.inv hB
  | write _ h ih =>
    obtain ⟨B, hB⟩ := ih
    exact ⟨B, hB.write h⟩

/-! ## Safety, in terms of the lists in memory -/

/-- `a` is met on `free_list[k]` of `seg`, following the pointers in memory. -/
def OnFreeList (s : Pmm) (seg : PmmSegment) (k a : Nat) : Prop :=
  ∃ _ : k < 16, Linked 0 s.mem.word seg.freeList[k] a

/-- `(a, k)` is a block of `seg`: page-aligned, aligned to its size relative to the base, and
inside the region. -/
structure BlockOf (seg : PmmSegment) (a k : Nat) : Prop where
  page : a % 4096 = 0
  size : 2 ^ (k + 12) ∣ a - seg.basePtr
  low : seg.basePtr ≤ a
  high : a + 2 ^ (k + 12) ≤ seg.basePtr + seg.size

/-- No block, free or outstanding, overlaps another. -/
structure Safe (s : Pmm) (out : Finset (Nat × Nat)) : Prop where
  chains : ∀ seg ∈ s.segtab, ∀ k (_ : k < 16), ∃ xs, Chain 0 s.mem.word seg.freeList[k] xs
  freeFree : ∀ seg ∈ s.segtab, ∀ seg' ∈ s.segtab, ∀ a k a' k', OnFreeList s seg k a →
    OnFreeList s seg' k' a' → Overlap a k a' k' → seg = seg' ∧ k = k' ∧ a = a'
  freeOut : ∀ seg ∈ s.segtab, ∀ a k, OnFreeList s seg k a → ∀ pk ∈ out, ¬ Overlap a k pk.1 pk.2
  outOut : ∀ pk ∈ out, ∀ ql ∈ out, Overlap pk.1 pk.2 ql.1 ql.2 → pk = ql
  freeBlock : ∀ seg ∈ s.segtab, ∀ a k, OnFreeList s seg k a → BlockOf seg a k
  outBlock : ∀ pk ∈ out, ∃ seg ∈ s.segtab, BlockOf seg pk.1 pk.2

theorem SegGeom.blockOf {seg : PmmSegment} (h : SegGeom seg) {b : Block}
    (hb : b.Within seg.maxOrder) : BlockOf seg (blockAddr seg.basePtr b) b.order where
  page := by
    have := h.aligned
    unfold blockAddr
    omega
  size := by
    unfold blockAddr Block.first
    rw [Nat.add_sub_cancel_left, Nat.pow_add, Nat.mul_assoc]
    exact Dvd.intro_left _ rfl
  low := Nat.le_add_right _ _
  high := by
    have := h.addr_le hb
    rwa [Nat.pow_add]

section

variable {s : Pmm} {out : Finset (Nat × Nat)} {B : Nat → BuddySystem}

/-- The lists in memory hold exactly the free blocks of the buddy system. -/
theorem PmmInv.onFreeList_iff (h : PmmInv s.mem.word s.segtab out B) {seg : PmmSegment}
    (hs : seg ∈ s.segtab) (k a : Nat) :
    OnFreeList s seg k a ↔ ∃ b ∈ (B seg.basePtr).free, b.order = k ∧ a = blockAddr seg.basePtr b := by
  constructor
  · rintro ⟨hk, hl⟩
    obtain ⟨xs, hc, hm⟩ := (h.segs seg hs).lists.chain k hk
    exact (hm a).mp ((hc.linked_iff a).mp hl)
  · rintro ⟨b, hb, rfl, rfl⟩
    have hk := (h.segs seg hs).order_lt (.inl hb)
    obtain ⟨xs, hc, hm⟩ := (h.segs seg hs).lists.chain b.order hk
    exact ⟨hk, (hc.linked_iff _).mpr ((hm _).mpr ⟨b, hb, rfl, rfl⟩)⟩

theorem safe_of_inv (h : PmmInv s.mem.word s.segtab out B) : Safe s out where
  chains seg hs k hk := by
    obtain ⟨xs, hc, -⟩ := (h.segs seg hs).lists.chain k hk
    exact ⟨xs, hc⟩
  freeFree seg hs seg' hs' a k a' k' ha ha' ho := by
    obtain ⟨b, hb, rfl, rfl⟩ := (h.onFreeList_iff hs _ _).mp ha
    obtain ⟨c, hc, rfl, rfl⟩ := (h.onFreeList_iff hs' _ _).mp ha'
    obtain ⟨rfl, x, hxb, hxc⟩ := h.overlap hs hs' ((h.segs seg hs).within (.inl hb))
      ((h.segs seg' hs').within (.inl hc)) ho
    rw [(B seg.basePtr).free_apart hb hc hxb hxc]
    exact ⟨rfl, rfl, rfl⟩
  freeOut seg hs a k ha pk hpk ho := by
    obtain ⟨b, hb, rfl, rfl⟩ := (h.onFreeList_iff hs _ _).mp ha
    obtain ⟨seg', hs', c, hc, hp, hk⟩ := (h.out_iff pk.1 pk.2).mp hpk
    rw [hp, hk] at ho
    obtain ⟨rfl, x, hxb, hxc⟩ := h.overlap hs hs' ((h.segs seg hs).within (.inl hb))
      ((h.segs seg' hs').within (.inr hc)) ho
    exact (B seg.basePtr).apart hb hc hxb hxc
  outOut pk hpk ql hql ho := by
    obtain ⟨seg, hs, b, hb, hp, hk⟩ := (h.out_iff pk.1 pk.2).mp hpk
    obtain ⟨seg', hs', c, hc, hq, hl⟩ := (h.out_iff ql.1 ql.2).mp hql
    rw [hp, hk, hq, hl] at ho
    obtain ⟨rfl, x, hxb, hxc⟩ := h.overlap hs hs' ((h.segs seg hs).within (.inr hb))
      ((h.segs seg' hs').within (.inr hc)) ho
    obtain rfl := (B seg.basePtr).used_apart hb hc hxb hxc
    exact Prod.ext (hp.trans hq.symm) (hk.trans hl.symm)
  freeBlock seg hs a k ha := by
    obtain ⟨b, hb, rfl, rfl⟩ := (h.onFreeList_iff hs _ _).mp ha
    exact (h.segs seg hs).geom.blockOf ((h.segs seg hs).within (.inl hb))
  outBlock pk hpk := by
    obtain ⟨seg, hs, b, hb, hp, hk⟩ := (h.out_iff pk.1 pk.2).mp hpk
    rw [hp, hk]
    exact ⟨seg, hs, (h.segs seg hs).geom.blockOf ((h.segs seg hs).within (.inr hb))⟩

/-- A block `alloc` hands out overlaps no outstanding one. -/
theorem AllocCase.fresh (h : PmmInv s.mem.word s.segtab out B) {s' : Pmm} {n p : Nat}
    (hc : AllocCase s n B s' p) (hp : p ≠ 0) :
    ∀ ql ∈ out, ¬ Overlap p (orderFor n) ql.1 ql.2 := by
  cases hc with
  | fail _ => exact absurd rfl hp
  | @found l1 l2 seg seg' mem' S' r htab _ hfrom =>
    rintro ⟨q, l⟩ hql ho
    have hs : seg ∈ s.segtab := by simp [htab]
    obtain ⟨seg'', hs'', c, hc, rfl, rfl⟩ := (h.out_iff q l).mp hql
    have hr : r ∈ S'.used := hfrom.used ▸ Finset.mem_insert_self _ _
    have hwr : r.Within seg.maxOrder := hfrom.fields.2.2 ▸ hfrom.inv.within (.inr hr)
    rw [← hfrom.order] at ho
    obtain ⟨rfl, x, hxr, hxc⟩ := h.overlap hs hs'' hwr ((h.segs _ hs'').within (.inr hc)) ho
    have hcu : c ∈ S'.used := hfrom.used ▸ Finset.mem_insert_of_mem hc
    exact hfrom.fresh (S'.used_apart hr hcu hxr hxc ▸ hc)

end

/-- **Safety over whole runs.**  On a well-formed map `initialise` returns; in every reachable
state no two blocks overlap, every `alloc` returns null or a block overlapping no outstanding
one, and every `free` of an outstanding block returns. -/
theorem reach_safe {memmap : List MemmapEntry} (hmm : WellFormedMap memmap) :
    (∀ mem, ∃ s, Pmm.initialise mem memmap = .ok s) ∧
    ∀ s out, Reach memmap s out → Safe s out ∧
      (∀ n, ∃ s' p, s.alloc n = .ok (s', p) ∧
        (p ≠ 0 → ∀ ql ∈ out, ¬ Overlap p (orderFor n) ql.1 ql.2)) ∧
      ∀ p n, (p, orderFor n) ∈ out → ∃ s', s.free p n = .ok s' := by
  refine ⟨fun mem => ?_, fun s out h => ?_⟩
  · obtain ⟨s, B, hrun, -⟩ := initialise_spec hmm mem
    exact ⟨s, hrun⟩
  · obtain ⟨B, hB⟩ := h.inv hmm
    refine ⟨safe_of_inv hB, fun n => ?_, fun p n hp => ?_⟩
    · obtain ⟨s', p, hrun, hcase⟩ := alloc_spec hB n
      exact ⟨s', p, hrun, hcase.fresh hB⟩
    · obtain ⟨s', hrun, -⟩ := free_spec hB hp
      exact ⟨s', hrun⟩

/-! ## A machine with two pages -/

def zeroMem : Mem := ⟨fun _ => 0, []⟩

theorem oneMiB_lt : 0x100000 < 2 ^ 64 := by decide

def twoPages : List MemmapEntry :=
  [{ base := 0x100000, length := 0x2000, type := .usable, base_lt := oneMiB_lt }]

theorem twoPages_wellFormed : WellFormedMap twoPages where
  aligned := by decide
  fits := by decide
  apart := List.pairwise_singleton _ _
  pages := by
    intro e he base length h
    rw [List.mem_singleton.mp he] at h
    cases h
    decide

/-- Both pages are allocated and the first one is freed. -/
theorem twoPages_run (ok : Pmm → Nat → Nat → Prop) (hok : ∀ s, ok s 0x100000 1) :
    ∃ s, ReachWith twoPages ok s {(0x101000, 0)} := by
  have r0 := @ReachWith.initialise twoPages ok zeroMem _ rfl
  have r1 := r0.alloc (n := 1) rfl
  have r2 := r1.alloc (n := 4096) rfl
  have r3 := r2.free (p := 0x100000) (n := 1) (by decide) (hok _) rfl
  exact ⟨_, r3⟩

theorem reach_safe_twoPages : ∃ s, Reach twoPages s {(0x101000, 0)} ∧ Safe s {(0x101000, 0)} := by
  obtain ⟨s, hs⟩ := twoPages_run (fun _ _ _ => True) fun _ => trivial
  exact ⟨s, hs, ((reach_safe twoPages_wellFormed).2 s _ hs).1⟩

end HelixKernel
