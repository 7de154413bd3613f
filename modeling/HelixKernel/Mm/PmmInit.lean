import HelixKernel.Mm.PmmInv

/-!
`mm::pmm::initialise` on a well-formed memory map: every region becomes a segment
with one free block, the largest that fits, at its base.

`WellFormedMap` is what the allocator needs of the map.  Of the entries it takes over:
page-aligned, pairwise disjoint, none past the end of the address space, and one to
`2 ^ 16 - 1` whole pages in each region that becomes a segment.  Of the others: nothing. -/

namespace HelixKernel

/-- Two entries describe disjoint memory. -/
def MemmapEntry.Apart (e f : MemmapEntry) : Prop :=
  e.base + e.length ≤ f.base ∨ f.base + f.length ≤ e.base

structure WellFormedMap (memmap : List MemmapEntry) : Prop where
  aligned : ∀ e ∈ memmap, e.type.managed = true → e.base % 4096 = 0
  fits : ∀ e ∈ memmap, e.type.managed = true → e.base + e.length ≤ 2 ^ 64
  apart : memmap.Pairwise fun e f => e.type.managed = true → f.type.managed = true → e.Apart f
  pages : ∀ e ∈ memmap, ∀ base length, e.region = some (base, length) →
    1 ≤ length / 4096 ∧ length / 4096 < 2 ^ 16

theorem region_managed {e : MemmapEntry} {bl : Nat × Nat} (h : e.region = some bl) :
    e.type.managed = true := by
  by_contra hm
  unfold MemmapEntry.region at h
  rw [if_neg hm] at h
  cases h

/-- A region is the part of its entry at or above 1 MiB, also where the entry's end wraps. -/
theorem region_span {e : MemmapEntry} {r : Nat × Nat} (h : e.region = some r) :
    r.1 = max e.base 0x100000 ∧ r.1 + r.2 = e.base + e.length := by
  have hb := e.base_lt
  have hl := e.length_lt
  unfold MemmapEntry.region wrap64 at h
  split at h
  · split at h
    · cases h
    · split at h
      · cases h
        dsimp only
        omega
      · cases h
        dsimp only
        omega
  · cases h

theorem region_bounds {e : MemmapEntry} (hfit : e.base + e.length ≤ 2 ^ 64) {base length : Nat}
    (h : e.region = some (base, length)) :
    base = max e.base 0x100000 ∧ base + length = e.base + e.length ∧ base + length < 2 ^ 64 := by
  obtain ⟨hbase, hend⟩ := region_span h
  have hlast : e.base + e.length ≠ 2 ^ 64 := by
    intro he
    have hmanaged := region_managed h
    unfold MemmapEntry.region at h
    rw [he, if_pos hmanaged, if_pos (by decide)] at h
    cases h
  dsimp only at hbase hend
  omega

/-- Adding its one block to a segment with empty lists. -/
theorem addBlock_whole (mem : Mem) {seg : PmmSegment} (hg : SegGeom seg)
    (hempty : ∀ k (_ : k < 16), seg.freeList[k] = 0) :
    ∃ fl, addBlock mem seg seg.maxOrder seg.basePtr =
        .ok (mem.store .header seg.basePtr 0, seg.withLists fl) ∧
      SegInv (mem.store .header seg.basePtr 0).word (seg.withLists fl)
        (BuddySystem.init seg.maxOrder) := by
  have hk : seg.maxOrder < 16 := by
    have := hg.order
    omega
  have hnil : FreeLists mem.word seg ∅ := ⟨fun k hk => ⟨[], hempty k hk, by simp⟩⟩
  have haddr : blockAddr seg.basePtr ⟨seg.maxOrder, 0⟩ = seg.basePtr := by
    simp [blockAddr, Block.first]
  have hpush := hnil.push (b := ⟨seg.maxOrder, 0⟩) hk (hg.addr_ne_zero _) (by simp)
  rw [haddr] at hpush
  simp only [hempty] at hpush
  refine ⟨seg.freeList.set seg.maxOrder seg.basePtr, ?_, ?_⟩
  · rw [addBlock_eq _ _ hk, hempty]
    rfl
  · exact ⟨⟨hg.aligned, hg.low, hg.order, hg.fits, hg.top⟩, rfl, hpush⟩

theorem newSegment_geom {base length : Nat} (halign : base % 4096 = 0)
    (hlow : 0x100000 ≤ base) (htop : base + length < 2 ^ 64) (hone : 1 ≤ length / 4096)
    (hmany : length / 4096 < 2 ^ 16) : SegGeom (newSegment base length) where
  aligned := halign
  low := hlow
  order := (newSegment_maxOrder_le_iff base (by omega)).mpr hmany
  fits := by
    have hfit := (newSegment_maxOrder base (show length < 2 ^ 64 by omega)).1
    show 2 ^ (newSegment base length).maxOrder * 4096 ≤ length
    generalize (newSegment base length).maxOrder = M at hfit
    rcases hfit with h | rfl <;> omega
  top := htop

theorem newSegment_freeList (base length k : Nat) (hk : k < 16) :
    (newSegment base length).freeList[k] = 0 := by
  show (Vector.replicate 16 0)[k] = 0
  simp

namespace PmmInv

variable {mem : Mem} {segtab : List PmmSegment} {B : Nat → BuddySystem}

/-- A further segment, with nothing in use. -/
theorem append (h : PmmInv mem.word segtab ∅ B) (seg : PmmSegment) {M : Nat}
    (hseg : SegInv (mem.store .header seg.basePtr 0).word seg (BuddySystem.init M))
    (hap : ∀ x ∈ segtab, x.Apart seg) :
    PmmInv (mem.store .header seg.basePtr 0).word (segtab ++ [seg]) ∅
      (Function.update B seg.basePtr (BuddySystem.init M)) ∧
    ∀ x ∈ segtab, x.basePtr ≠ seg.basePtr := by
  have hne : ∀ x ∈ segtab, x.basePtr ≠ seg.basePtr := by
    intro x hx he
    have h1 := (h.segs x hx).geom.fits
    have h2 := hseg.geom.fits
    have h3 := hap x hx
    have := Nat.two_pow_pos x.maxOrder
    have := Nat.two_pow_pos seg.maxOrder
    unfold PmmSegment.Apart at h3
    omega
  refine ⟨⟨fun x hx => ?_, ?_, fun p k => ?_⟩, hne⟩
  · rcases List.mem_append.mp hx with hx | hx
    · rw [Function.update_of_ne (hne x hx)]
      have hxs := h.segs x hx
      refine hxs.frame fun b hb => mem.store_word_ne _ _ fun he => ?_
      have h1 := hxs.geom.addr_lt (hxs.within (.inl hb))
      have h2 := hap x hx
      have h3 := hseg.geom.fits
      have := Nat.two_pow_pos seg.maxOrder
      unfold PmmSegment.Apart at h2
      unfold blockAddr at *
      omega
    · rw [List.mem_singleton.mp hx, Function.update_self]
      exact hseg
  · rw [List.pairwise_append]
    refine ⟨h.apart, List.pairwise_singleton _ _, fun x hx y hy => ?_⟩
    rw [List.mem_singleton.mp hy]
    exact hap x hx
  · refine ⟨fun hp => absurd hp (Finset.notMem_empty _), ?_⟩
    rintro ⟨x, hx, b, hb, hp⟩
    rcases List.mem_append.mp hx with hx | hx
    · rw [Function.update_of_ne (hne x hx)] at hb
      exact (h.out_iff p k).mpr ⟨x, hx, b, hb, hp⟩
    · rw [List.mem_singleton.mp hx, Function.update_self] at hb
      exact absurd hb (Finset.notMem_empty _)

end PmmInv

theorem WellFormedMap.tail {e : MemmapEntry} {rest : List MemmapEntry}
    (h : WellFormedMap (e :: rest)) : WellFormedMap rest where
  aligned f hf := h.aligned f (List.mem_cons_of_mem _ hf)
  fits f hf := h.fits f (List.mem_cons_of_mem _ hf)
  apart := (List.pairwise_cons.mp h.apart).2
  pages f hf := h.pages f (List.mem_cons_of_mem _ hf)

/-- No segment has memory of an entry still to come. -/
def Ahead (segtab : List PmmSegment) (memmap : List MemmapEntry) : Prop :=
  ∀ seg ∈ segtab, ∀ e ∈ memmap, e.type.managed = true →
    seg.basePtr + seg.size ≤ e.base ∨ e.base + e.length ≤ seg.basePtr

theorem Ahead.tail {segtab : List PmmSegment} {e : MemmapEntry} {rest : List MemmapEntry}
    (h : Ahead segtab (e :: rest)) : Ahead segtab rest :=
  fun seg hs f hf => h seg hs f (List.mem_cons_of_mem _ hf)

section

variable {mem : Mem} {segtab : List PmmSegment} {B : Nat → BuddySystem} {e : MemmapEntry}
  {rest : List MemmapEntry} {base length : Nat}

/-- **One entry** becomes a segment with one free block. -/
theorem newSegment_spec (hmm : WellFormedMap (e :: rest)) (hreg : e.region = some (base, length))
    (h : PmmInv mem.word segtab ∅ B) (hap : Ahead segtab (e :: rest)) :
    ∃ fl, addBlock mem (newSegment base length) (newSegment base length).maxOrder base =
        .ok (mem.store .header base 0, (newSegment base length).withLists fl) ∧
      PmmInv (mem.store .header base 0).word (segtab ++ [(newSegment base length).withLists fl]) ∅
        (Function.update B base (BuddySystem.init (newSegment base length).maxOrder)) ∧
      (∀ x ∈ segtab, x.basePtr ≠ base) ∧
      Ahead (segtab ++ [(newSegment base length).withLists fl]) rest := by
  have hman := region_managed hreg
  have halign := hmm.aligned e List.mem_cons_self hman
  obtain ⟨hbase, hend, htop⟩ := region_bounds (hmm.fits e List.mem_cons_self hman) hreg
  obtain ⟨hone, hmany⟩ := hmm.pages e List.mem_cons_self base length hreg
  obtain ⟨fl, hadd, hseg⟩ := addBlock_whole mem
    (newSegment_geom (by omega) (by omega) htop hone hmany) (newSegment_freeList base length)
  have hnew : ∀ x ∈ segtab, x.Apart ((newSegment base length).withLists fl) := by
    intro x hx
    have := hap x hx e List.mem_cons_self hman
    show x.basePtr + x.size ≤ base ∨ base + length ≤ x.basePtr
    omega
  obtain ⟨hinv, hne⟩ := h.append ((newSegment base length).withLists fl) hseg hnew
  refine ⟨fl, hadd, hinv, hne, fun seg hs f hf hfm => ?_⟩
  rcases List.mem_append.mp hs with hs | hs
  · exact hap.tail seg hs f hf hfm
  · rw [List.mem_singleton.mp hs]
    have := (List.pairwise_cons.mp hmm.apart).1 f hf hman hfm
    unfold MemmapEntry.Apart at this
    show base + length ≤ f.base ∨ f.base + f.length ≤ base
    omega

/-- The one block of a new segment is free. -/
theorem header_of_new {segtab' : List PmmSegment} {B' : Nat → BuddySystem} {seg : PmmSegment} {M : Nat}
    (hs : seg ∈ segtab') (hB : B' seg.basePtr = BuddySystem.init M) :
    Headers segtab' B' .header seg.basePtr := by
  refine ⟨seg, hs, rfl, ⟨M, 0⟩, ?_, 0, ?_, ?_⟩
  · rw [hB]
    exact Finset.mem_singleton_self _
  · rw [Block.mem_def]
    simp
  · omega

end

/-- The loop keeps the invariant, segment by segment. -/
theorem initialiseLoop_spec : ∀ (memmap : List MemmapEntry) (mem : Mem) (segtab : List PmmSegment)
    (B : Nat → BuddySystem), WellFormedMap memmap → PmmInv mem.word segtab ∅ B →
    (∀ seg ∈ segtab, seg.pagesUsed = 0) → Ahead segtab memmap →
    ∃ mem' segtab' B', initialiseLoop memmap mem segtab = .ok (mem', segtab') ∧
      PmmInv mem'.word segtab' ∅ B' ∧ (∀ seg ∈ segtab', seg.pagesUsed = 0) ∧
      (∀ seg ∈ segtab, seg ∈ segtab' ∧ B' seg.basePtr = B seg.basePtr) ∧
      mem.Touch (Headers segtab' B') mem' := by
  intro memmap
  induction memmap with
  | nil =>
    intro mem segtab B _ h hz _
    exact ⟨mem, segtab, B, rfl, h, hz, fun seg hs => ⟨hs, rfl⟩, Mem.Touch.refl _ _⟩
  | cons e rest ih =>
    intro mem segtab B hmm h hz hap
    unfold initialiseLoop
    cases hreg : e.region with
    | none => exact ih mem segtab B hmm.tail h hz hap.tail
    | some bl =>
      obtain ⟨base, length⟩ := bl
      dsimp only
      by_cases hfull : segtab.length ≥ maxSegtab
      · rw [if_pos hfull]
        exact ⟨mem, segtab, B, rfl, h, hz, fun seg hs => ⟨hs, rfl⟩, Mem.Touch.refl _ _⟩
      · rw [if_neg hfull]
        obtain ⟨fl, hadd, h1, hne, hap1⟩ := newSegment_spec hmm hreg h hap
        have hz1 : ∀ seg ∈ segtab ++ [(newSegment base length).withLists fl], seg.pagesUsed = 0 := by
          intro seg hs
          rcases List.mem_append.mp hs with hs | hs
          · exact hz seg hs
          · rw [List.mem_singleton.mp hs]
            rfl
        obtain ⟨mem', segtab', B', hrun, hinv, hz', hold, htouch⟩ := ih _ _ _ hmm.tail h1 hz1 hap1
        refine ⟨mem', segtab', B', ?_, hinv, hz', fun seg hs => ?_, ?_⟩
        · show (addBlock mem _ _ base >>= _) = _
          rw [hadd, ok_bind]
          exact hrun
        · obtain ⟨hmem, hB⟩ := hold seg (List.mem_append_left _ hs)
          exact ⟨hmem, by rw [hB, Function.update_of_ne (hne seg hs)]⟩
        · obtain ⟨hmem, hB⟩ := hold _ (List.mem_append_right _ (List.mem_singleton_self _))
          have hnew := header_of_new hmem (hB.trans (Function.update_self ..))
          exact Mem.Touch.trans (Mem.Touch.store _ _ hnew) htouch

/-- **`initialise` returns**, with everything free. -/
theorem initialise_spec {memmap : List MemmapEntry} (hmm : WellFormedMap memmap) (mem : Mem) :
    ∃ s B, Pmm.initialise mem memmap = .ok s ∧ PmmInv s.mem.word s.segtab ∅ B ∧
      (∀ seg ∈ s.segtab, seg.pagesUsed = 0) ∧ s.numUsed = 0 ∧
      mem.Touch (Headers s.segtab B) s.mem := by
  have h0 : PmmInv mem.word [] ∅ fun _ => BuddySystem.init 0 :=
    ⟨fun _ hs => absurd hs List.not_mem_nil, List.Pairwise.nil, by simp⟩
  obtain ⟨mem', segtab', B', hrun, hinv, hz, -, htouch⟩ :=
    initialiseLoop_spec memmap mem [] _ hmm h0 (by simp) fun _ hs => absurd hs List.not_mem_nil
  have hinit : Pmm.initialise mem memmap =
      .ok ⟨mem', segtab', wrap64 (totalSize segtab' + 0xFFF) / 0x1000, 0, 0⟩ := by
    unfold Pmm.initialise
    rw [hrun, ok_bind]
  exact ⟨_, B', hinit, hinv, hz, rfl, htouch⟩

end HelixKernel
