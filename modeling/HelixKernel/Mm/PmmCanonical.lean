import HelixKernel.Mm.PmmBounds

/-!
# The free lists are a function of what is outstanding

Two histories of one memory map that leave the same blocks outstanding leave the
same free blocks, segment by segment (`reach_free_congr`).  Once everything is
freed, every segment is one block again (`Reach.free_whole`), and an `alloc`
followed by its `free` changes no free set (`Reach.alloc_free`).

The used blocks of a segment are those outstanding ones that lie in it
(`PmmInv.used_iff`); coalescing does the rest (`BuddySystem.free_ext`). -/

namespace HelixKernel

/-- Segment number `i` has the free block `a` of order `k`. -/
def FreeAt (s : Pmm) (i k a : Nat) : Prop := ∃ seg, s.segtab[i]? = some seg ∧ OnFreeList s seg k a

variable {s s' : Pmm} {out : Finset (Nat × Nat)} {B B' : Nat → BuddySystem}

/-- The used blocks of a segment, read off the outstanding ones. -/
theorem PmmInv.used_iff (h : PmmInv s.mem.word s.segtab out B) {seg : PmmSegment}
    (hs : seg ∈ s.segtab) (b : Block) : b ∈ (B seg.basePtr).used ↔
      b.Within seg.maxOrder ∧ (blockAddr seg.basePtr b, b.order) ∈ out := by
  constructor
  · intro hb
    exact ⟨(h.segs seg hs).within (.inr hb), (h.out_iff _ _).mpr ⟨seg, hs, b, hb, rfl, rfl⟩⟩
  · rintro ⟨hw, hout⟩
    obtain ⟨seg', hs', c, hc, hp, hk⟩ := (h.out_iff _ _).mp hout
    have hself := inBlock_self (blockAddr seg.basePtr b) b.order
    have hself' : InBlock (blockAddr seg'.basePtr c) c.order (blockAddr seg.basePtr b) := by
      rw [← hp, ← hk]
      exact hself
    obtain ⟨rfl, -⟩ := h.overlap hs hs' hw ((h.segs seg' hs').within (.inr hc)) ⟨_, hself, hself'⟩
    rwa [Block.ext_first hk (blockAddr_inj.mp hp)]

/-- Segments with one region and one set of outstanding blocks have one free set. -/
theorem PmmInv.onFreeList_congr (h : PmmInv s.mem.word s.segtab out B)
    (h' : PmmInv s'.mem.word s'.segtab out B') {seg seg' : PmmSegment} (hs : seg ∈ s.segtab)
    (hs' : seg' ∈ s'.segtab) (hreg : seg.region = seg'.region) (k a : Nat) :
    OnFreeList s seg k a ↔ OnFreeList s' seg' k a := by
  have hbase : seg.basePtr = seg'.basePtr := congrArg (fun r => r.1) hreg
  have hM : seg.maxOrder = seg'.maxOrder := congrArg (fun r => r.2.2) hreg
  have hfree : (B seg.basePtr).free = (B' seg'.basePtr).free := by
    apply BuddySystem.free_ext
    · rw [(h.segs seg hs).maxOrder, (h'.segs seg' hs').maxOrder, hM]
    · ext b
      rw [h.used_iff hs, h'.used_iff hs', hbase, hM]
  rw [h.onFreeList_iff hs, h'.onFreeList_iff hs', hfree, hbase]

/-- One history's segment has its counterpart in the other's. -/
theorem Reach.segment_of {memmap : List MemmapEntry} (hmm : WellFormedMap memmap)
    {out' : Finset (Nat × Nat)} (h : Reach memmap s out) (h' : Reach memmap s' out') {i : Nat}
    {seg : PmmSegment} (hi : s.segtab[i]? = some seg) :
    ∃ seg', s'.segtab[i]? = some seg' ∧ seg.region = seg'.region := by
  have hmap : s'.segtab.map PmmSegment.region = s.segtab.map PmmSegment.region :=
    (h'.map_region hmm.regions_lt).1.trans (h.map_region hmm.regions_lt).1.symm
  have hat := congrArg (fun l => l[i]?) hmap
  simp only [List.getElem?_map, hi, Option.map_some] at hat
  obtain ⟨seg', hi', hreg⟩ := Option.map_eq_some_iff.mp hat
  exact ⟨seg', hi', hreg.symm⟩

theorem reach_free_imp {memmap : List MemmapEntry} (hmm : WellFormedMap memmap)
    (h : Reach memmap s out) (h' : Reach memmap s' out) {i k a : Nat} (hf : FreeAt s i k a) :
    FreeAt s' i k a := by
  obtain ⟨seg, hi, hon⟩ := hf
  obtain ⟨seg', hi', hreg⟩ := h.segment_of hmm h' hi
  obtain ⟨B, hB⟩ := h.inv hmm
  obtain ⟨B', hB'⟩ := h'.inv hmm
  refine ⟨seg', hi', ?_⟩
  exact (hB.onFreeList_congr hB' (List.mem_of_getElem? hi) (List.mem_of_getElem? hi') hreg k a).mp hon

/-- **Equal outstanding sets, equal free sets.** -/
theorem reach_free_congr {memmap : List MemmapEntry} (hmm : WellFormedMap memmap)
    (h : Reach memmap s out) (h' : Reach memmap s' out) (i k a : Nat) :
    FreeAt s i k a ↔ FreeAt s' i k a :=
  ⟨reach_free_imp hmm h h', reach_free_imp hmm h' h⟩

/-- With nothing outstanding a segment is its one largest block. -/
theorem Reach.free_whole {memmap : List MemmapEntry} (hmm : WellFormedMap memmap)
    (h : Reach memmap s ∅) {i : Nat} {seg : PmmSegment} (hi : s.segtab[i]? = some seg) (k a : Nat) :
    FreeAt s i k a ↔ k = seg.maxOrder ∧ a = seg.basePtr := by
  obtain ⟨B, hB⟩ := h.inv hmm
  have hs := List.mem_of_getElem? hi
  have hused : (B seg.basePtr).used = ∅ := by
    rw [Finset.eq_empty_iff_forall_notMem]
    intro b hb
    exact absurd ((hB.used_iff hs b).mp hb).2 (Finset.notMem_empty _)
  have hon : OnFreeList s seg k a ↔ k = seg.maxOrder ∧ a = seg.basePtr := by
    rw [hB.onFreeList_iff hs, (B seg.basePtr).free_of_used_empty hused, (hB.segs seg hs).maxOrder]
    simp only [Finset.mem_singleton, exists_eq_left]
    have haddr : blockAddr seg.basePtr ⟨seg.maxOrder, 0⟩ = seg.basePtr := by
      simp [blockAddr, Block.first]
    rw [haddr]
    exact and_congr_left fun _ => eq_comm
  unfold FreeAt
  simp only [hi, Option.some.injEq, exists_eq_left', hon]

/-- `free(nullptr, n)` does nothing. -/
theorem PmmInv.free_null (h : PmmInv s.mem.word s.segtab out B) (n : Nat) :
    s.free 0 n = .ok s := by
  have hnone : ∀ seg ∈ s.segtab, freeIn s.mem 0 (orderFor n) seg = .ok none := by
    intro seg hs
    have hlow := (h.segs seg hs).geom.low
    unfold freeIn
    rw [if_pos (.inl (by omega))]
  unfold Pmm.free
  rw [forSegs_none hnone, ok_bind]

/-- **`free(alloc(n), n)`** returns and leaves every free set as it was. -/
theorem Reach.alloc_free {memmap : List MemmapEntry} (hmm : WellFormedMap memmap)
    (h : Reach memmap s out) (n : Nat) : ∃ s' p s'', s.alloc n = .ok (s', p) ∧
      s'.free p n = .ok s'' ∧ ∀ i k a, FreeAt s'' i k a ↔ FreeAt s i k a := by
  obtain ⟨B, hB⟩ := h.inv hmm
  obtain ⟨s', p, hrun, hcase⟩ := alloc_spec hB n
  have h' : Reach memmap s' (track out p (orderFor n)) := h.alloc hrun
  obtain ⟨B', hB'⟩ := h'.inv hmm
  by_cases hp : p = 0
  · -- a null result: only the error count has changed
    obtain ⟨rfl, -⟩ := hcase.null hB hp
    subst hp
    exact ⟨_, 0, _, hrun, hB'.free_null n, fun i k a => Iff.rfl⟩
  · have hmem : (p, orderFor n) ∈ track out p (orderFor n) := by
      rw [track, if_neg hp]
      exact Finset.mem_insert_self _ _
    have hnot : (p, orderFor n) ∉ out := fun hin =>
      hcase.fresh hB hp _ hin ⟨p, inBlock_self _ _, inBlock_self _ _⟩
    obtain ⟨s'', hrun', -⟩ := free_spec hB' hmem
    have h'' := h'.free hmem trivial hrun'
    rw [track, if_neg hp, Finset.erase_insert hnot] at h''
    exact ⟨s', p, s'', hrun, hrun', reach_free_congr hmm h'' h⟩

/-- **Coalescing is canonical**, whatever the history. -/
theorem coalescing_canonical {memmap : List MemmapEntry} (hmm : WellFormedMap memmap) :
    (∀ s s' out, Reach memmap s out → Reach memmap s' out →
      ∀ i k a, FreeAt s i k a ↔ FreeAt s' i k a) ∧
    (∀ s, Reach memmap s ∅ → ∀ i seg, s.segtab[i]? = some seg →
      ∀ k a, FreeAt s i k a ↔ k = seg.maxOrder ∧ a = seg.basePtr) ∧
    ∀ s out, Reach memmap s out → ∀ n, ∃ s' p s'', s.alloc n = .ok (s', p) ∧
      s'.free p n = .ok s'' ∧ ∀ i k a, FreeAt s'' i k a ↔ FreeAt s i k a :=
  ⟨fun _ _ _ h h' => reach_free_congr hmm h h', fun _ h _ _ hi => h.free_whole hmm hi,
    fun _ _ h n => h.alloc_free hmm n⟩

theorem coalescing_canonical_twoPages : ∃ s s', Reach twoPages s {(0x101000, 0)} ∧
    Reach twoPages s' {(0x101000, 0)} ∧ ∀ i k a, FreeAt s i k a ↔ FreeAt s' i k a := by
  have r0 := @ReachWith.initialise twoPages (fun _ _ _ => True) zeroMem _ rfl
  have r1 := (r0.alloc (n := 1) rfl).alloc (n := 4096) rfl
  have hs := r1.free (p := 0x100000) (n := 1) (by decide) trivial rfl
  -- another history: the first page is allocated and freed once more
  have hs' := (hs.alloc (n := 100) rfl).free (p := 0x100000) (n := 1) (by decide) trivial rfl
  exact ⟨_, _, hs, hs', (coalescing_canonical twoPages_wellFormed).1 _ _ _ hs hs'⟩

end HelixKernel
