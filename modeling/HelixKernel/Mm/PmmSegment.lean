import HelixKernel.Mm.FreeList

/-!
One segment against one buddy system.

`SegInv word seg S`: the free lists of `seg` hold the free blocks of `S`, and the
region is page-aligned, above 1 MiB and holds the `2 ^ max_order` pages `S`
manages.  Each loop of `pmm.cpp` is a run of buddy-system operations:

    the split loop of alloc     `BuddySystem.split`, once per order  (allocSplit_spec)
    the search of alloc         `BuddySystem.take`, then the splits  (allocIn_spec)
    the merge loop of free      `BuddySystem.merge`, once per order  (freeMerge_spec)
    free on its segment         the merges, then `BuddySystem.place` (freeIn_spec)

Every store goes to the first word of a page that is free afterwards
(`HeaderIn`). -/

namespace HelixKernel

/-- What `initialise` fixes about a segment. -/
structure SegGeom (seg : PmmSegment) : Prop where
  aligned : seg.basePtr % 4096 = 0
  low : 0x100000 ≤ seg.basePtr
  order : seg.maxOrder ≤ 15
  fits : 2 ^ seg.maxOrder * 4096 ≤ seg.size
  top : seg.basePtr + seg.size < 2 ^ 64

structure SegInv (word : Nat → Nat) (seg : PmmSegment) (S : BuddySystem) : Prop where
  geom : SegGeom seg
  maxOrder : S.maxOrder = seg.maxOrder
  lists : FreeLists word seg S.free

/-- A header store into a page of `F`. -/
def HeaderIn (base : Nat) (F : Finset Block) (w : Writer) (a : Nat) : Prop :=
  w = .header ∧ ∃ b ∈ F, ∃ x ∈ b, a = base + x * 4096

theorem headerIn_blockAddr {base : Nat} {F : Finset Block} {b : Block} (hb : b ∈ F) :
    HeaderIn base F .header (blockAddr base b) :=
  ⟨rfl, b, hb, b.first, b.first_mem, rfl⟩

variable {word : Nat → Nat} {mem : Mem} {seg : PmmSegment} {S : BuddySystem}

theorem SegGeom.addr_le (h : SegGeom seg) {b : Block} (hb : b.Within seg.maxOrder) :
    blockAddr seg.basePtr b + 2 ^ b.order * 4096 ≤ seg.basePtr + seg.size := by
  have := h.fits
  have := hb.2
  unfold blockAddr
  have : (b.first + 2 ^ b.order) * 4096 ≤ 2 ^ seg.maxOrder * 4096 := Nat.mul_le_mul_right _ hb.2
  omega

theorem SegGeom.addr_lt (h : SegGeom seg) {b : Block} (hb : b.Within seg.maxOrder) :
    blockAddr seg.basePtr b < seg.basePtr + seg.size := by
  have := h.addr_le hb
  have := Nat.two_pow_pos b.order
  omega

theorem SegGeom.addr_ne_zero (h : SegGeom seg) (b : Block) : blockAddr seg.basePtr b ≠ 0 := by
  have := h.low
  unfold blockAddr
  omega

theorem SegInv.within (h : SegInv word seg S) {b : Block} (hb : b ∈ S.free ∨ b ∈ S.used) :
    b.Within seg.maxOrder := by
  rw [← h.maxOrder]
  rcases hb with hb | hb
  · exact S.within_free hb
  · exact S.within_used hb

theorem SegInv.order_lt (h : SegInv word seg S) {b : Block} (hb : b ∈ S.free ∨ b ∈ S.used) :
    b.order < 16 := by
  have := (h.within hb).1
  have := h.geom.order
  omega

theorem SegInv.frame {word' : Nat → Nat} (h : SegInv word seg S)
    (hw : ∀ b ∈ S.free, word' (blockAddr seg.basePtr b) = word (blockAddr seg.basePtr b)) :
    SegInv word' seg S :=
  ⟨h.geom, h.maxOrder, h.lists.frame hw⟩

theorem SegInv.withUsed (h : SegInv word seg S) (u : Nat) :
    SegInv word { seg with pagesUsed := u } S :=
  ⟨⟨h.geom.aligned, h.geom.low, h.geom.order, h.geom.fits, h.geom.top⟩, h.maxOrder,
    h.lists.withUsed u⟩

/-- Other lists, another buddy system of the same size. -/
theorem SegInv.next {word' : Nat → Nat} {fl : Vector Nat 16} (h : SegInv word seg S)
    (S' : BuddySystem) (hM : S'.maxOrder = S.maxOrder)
    (hl : FreeLists word' (seg.withLists fl) S'.free) :
    SegInv word' (seg.withLists fl) S' :=
  ⟨⟨h.geom.aligned, h.geom.low, h.geom.order, h.geom.fits, h.geom.top⟩, hM.trans h.maxOrder, hl⟩

/-! ## `alloc` -/

theorem right_addr {M k j : Nat} {base size : Nat} (hb : (⟨k + 1, j⟩ : Block).Within M)
    (hfit : 2 ^ M * 4096 ≤ size) (htop : base + size < 2 ^ 64) :
    wrap64 (blockAddr base ⟨k + 1, j⟩ + 1 <<< (k + 12)) = blockAddr base (Block.right k j) := by
  have hr : (Block.right k j).first = (⟨k + 1, j⟩ : Block).first + 2 ^ k := by
    simp only [Block.right, Block.first]
    rw [Nat.pow_succ, Nat.add_mul, Nat.mul_comm 2 j, Nat.mul_assoc, Nat.mul_comm 2 (2 ^ k), Nat.one_mul]
  have he : blockAddr base ⟨k + 1, j⟩ + 1 <<< (k + 12) = blockAddr base (Block.right k j) := by
    unfold blockAddr
    rw [hr, Nat.one_shiftLeft, Nat.pow_add, Nat.add_mul]
    omega
  have hlt : (Block.right k j).first < 2 ^ M := hb.right.lt (Block.first_mem _)
  rw [he, wrap64_of_lt]
  unfold blockAddr
  omega

theorem left_addr (base k j : Nat) :
    blockAddr base (Block.left k j) = blockAddr base ⟨k + 1, j⟩ := by
  rw [blockAddr_inj]
  simp only [Block.left, Block.first]
  rw [Nat.pow_succ, Nat.mul_comm 2 j, Nat.mul_assoc, Nat.mul_comm 2 (2 ^ k)]

/-- **The split loop** halves the block it holds down to `order`, freeing the upper halves. -/
theorem allocSplit_spec (order : Nat) : ∀ (current : Nat) (mem : Mem) (seg : PmmSegment)
    (S : BuddySystem) (j : Nat), SegInv mem.word seg S → order ≤ current →
    (⟨current, j⟩ : Block) ∈ S.used →
    ∃ mem' fl S' r,
      allocSplit order (blockAddr seg.basePtr ⟨current, j⟩) current mem seg =
        .ok (mem', seg.withLists fl) ∧
      SegInv mem'.word (seg.withLists fl) S' ∧
      r.order = order ∧ blockAddr seg.basePtr r = blockAddr seg.basePtr ⟨current, j⟩ ∧
      S'.used = insert r (S.used.erase ⟨current, j⟩) ∧ S.free ⊆ S'.free ∧
      mem.Touch (HeaderIn seg.basePtr S'.free) mem' := by
  intro current
  induction current with
  | zero =>
    intro mem seg S j h ho hj
    obtain rfl : order = 0 := by omega
    exact ⟨mem, seg.freeList, S, ⟨0, j⟩, rfl, h, rfl, rfl, (Finset.insert_erase hj).symm,
      Finset.Subset.refl _, Mem.Touch.refl _ _⟩
  | succ current ih =>
    intro mem seg S j h ho hj
    have hw := h.within (.inr hj)
    unfold allocSplit
    by_cases hlt : order < current + 1
    · have hk : current < 16 := by
        have := h.order_lt (.inr hj)
        simp only at this
        omega
      have hnew : ∀ c ∈ S.free, c.first ≠ (Block.right current j).first := by
        intro c hc he
        refine S.apart hc hj c.first_mem ?_
        rw [he, Block.mem_halves]
        exact .inr (Block.first_mem _)
      have hpush := h.lists.push (b := Block.right current j) hk (h.geom.addr_ne_zero _) hnew
      have h1 := h.next (S.split current j hj) rfl hpush
      have hleft : Block.left current j ∈ (S.split current j hj).used := Finset.mem_insert_self _ _
      obtain ⟨mem', fl, S', r, hrun, hinv, hro, hra, hused, hsub, htouch⟩ :=
        ih _ _ _ (2 * j) h1 (by omega) hleft
      refine ⟨mem', fl, S', r, ?_, hinv, hro, hra.trans (left_addr _ _ _), ?_, ?_, ?_⟩
      · rw [if_pos hlt]
        dsimp only
        rw [right_addr hw h.geom.fits h.geom.top, addBlock_eq _ _ hk, ok_bind, ← left_addr]
        exact hrun
      · rw [hused]
        show insert r ((insert (Block.left current j) (S.used.erase ⟨current + 1, j⟩)).erase
          (Block.left current j)) = _
        rw [Finset.erase_insert]
        intro hl
        have := S.used_apart (Finset.mem_of_mem_erase hl) hj (Block.first_mem _)
          (Block.mem_halves.mpr (.inl (Block.first_mem _)))
        simp [Block.left] at this
      · exact (Finset.subset_insert _ _).trans hsub
      · refine Mem.Touch.trans (Mem.Touch.store _ _ ?_) htouch
        exact headerIn_blockAddr (hsub (Finset.mem_insert_self _ _))
    · obtain rfl : order = current + 1 := by omega
      rw [if_neg hlt]
      exact ⟨mem, seg.freeList, S, ⟨current + 1, j⟩, rfl, h, rfl, rfl, (Finset.insert_erase hj).symm,
        Finset.Subset.refl _, Mem.Touch.refl _ _⟩

/-- What `alloc` does to the segment it takes the block `r` from. -/
structure AllocFrom (mem : Mem) (seg : PmmSegment) (S : BuddySystem) (order : Nat)
    (seg' : PmmSegment) (mem' : Mem) (S' : BuddySystem) (r : Block) : Prop where
  eq : ∃ fl, seg' = { seg with freeList := fl, pagesUsed := wrap64 (seg.pagesUsed + 2 ^ order) }
  inv : SegInv mem'.word seg' S'
  order : r.order = order
  used : S'.used = insert r S.used
  fresh : r ∉ S.used
  touch : mem.Touch (HeaderIn seg.basePtr S'.free) mem'

theorem AllocFrom.fields {mem mem' : Mem} {seg seg' : PmmSegment} {S S' : BuddySystem} {order : Nat}
    {r : Block} (h : AllocFrom mem seg S order seg' mem' S' r) :
    seg'.basePtr = seg.basePtr ∧ seg'.size = seg.size ∧ seg'.maxOrder = seg.maxOrder := by
  obtain ⟨fl, rfl⟩ := h.eq
  exact ⟨rfl, rfl, rfl⟩

/-- **The upward search** fails when every free block is too small, and otherwise
reserves a block of the order asked for. -/
theorem allocSearch_spec (h : SegInv mem.word seg S) (order : Nat) : ∀ (todo current : Nat),
    order ≤ current → todo = seg.maxOrder + 1 - current →
    (∀ b ∈ S.free, order ≤ b.order → current ≤ b.order) →
    (allocSearch mem order seg todo current = .ok none ∧ ∀ b ∈ S.free, b.order < order) ∨
    ∃ seg' mem' S' r,
      allocSearch mem order seg todo current = .ok (some (seg', mem', blockAddr seg.basePtr r)) ∧
      AllocFrom mem seg S order seg' mem' S' r := by
  intro todo
  induction todo with
  | zero =>
    intro current _ htodo hbelow
    left
    refine ⟨rfl, fun b hb => ?_⟩
    have := (h.within (.inl hb)).1
    by_contra hge
    have := hbelow b hb (by omega)
    omega
  | succ todo ih =>
    intro current ho htodo hbelow
    have hk : current < 16 := by
      have := h.geom.order
      omega
    have hhead : seg.head current = .ok seg.freeList[current] := by simp [PmmSegment.head, hk]
    unfold allocSearch
    rw [hhead, ok_bind]
    by_cases h0 : seg.freeList[current] = 0
    · rw [if_pos h0]
      refine ih (current + 1) (by omega) (by omega) fun b hb hob => ?_
      have := hbelow b hb hob
      have := (h.lists.head_eq_zero_iff hk).mp h0 b hb
      omega
    · rw [if_neg h0, removeBlock_eq _ _ hk h0, ok_bind]
      right
      obtain ⟨b, hb, hbo, hba, hpop⟩ := h.lists.pop hk h0
      have h1 := h.next (S.take b hb) rfl hpop
      obtain ⟨k, j⟩ := b
      simp only at hbo
      subst hbo
      obtain ⟨mem', fl, S', r, hrun, hinv, hro, hra, hused, -, htouch⟩ :=
        allocSplit_spec order _ _ _ _ j h1 ho (Finset.mem_insert_self _ _)
      simp only [PmmSegment.withLists_basePtr, PmmSegment.withLists_withLists] at hrun hra hinv htouch
      refine ⟨_, mem', S', r, ?_, ⟨fl, rfl⟩, hinv.withUsed _, hro, ?_, ?_, htouch⟩
      · show (allocSplit order seg.freeList[k] k mem (seg.withLists _) >>= _) = _
        rw [hba] at hrun ⊢
        rw [hrun, ok_bind, hra, Nat.one_shiftLeft]
        rfl
      · rw [hused]
        show insert r ((insert ⟨k, j⟩ S.used).erase ⟨k, j⟩) = _
        rw [Finset.erase_insert (S.not_used hb)]
      · intro hr
        have hfirst : r.first ∈ (⟨k, j⟩ : Block) := by
          have he : r.first = (⟨k, j⟩ : Block).first := blockAddr_inj.mp hra
          rw [he]
          exact Block.first_mem _
        exact S.apart hb hr hfirst r.first_mem

theorem allocIn_spec (h : SegInv mem.word seg S) (order : Nat) :
    (allocIn mem order seg = .ok none ∧ ∀ b ∈ S.free, b.order < order) ∨
    ∃ seg' mem' S' r,
      allocIn mem order seg = .ok (some (seg', mem', blockAddr seg.basePtr r)) ∧
      AllocFrom mem seg S order seg' mem' S' r :=
  allocSearch_spec h order _ order (Nat.le_refl _) rfl fun _ _ ho => ho

/-! ## `free` -/

/-- The buddy's address, as `free` computes it. -/
theorem buddy_addr (h : SegGeom seg) {b : Block} (hb : b.Within seg.maxOrder)
    (hM : b.order < seg.maxOrder) :
    wrap64 (seg.basePtr + (sub64 (blockAddr seg.basePtr b) seg.basePtr ^^^ 1 <<< (b.order + 12))) =
      blockAddr seg.basePtr b.buddy := by
  have hlt := h.addr_lt hb
  have hlt' := h.addr_lt (hb.buddy hM)
  have htop := h.top
  have hrel : sub64 (blockAddr seg.basePtr b) seg.basePtr = b.first * 4096 := by
    rw [sub64_of_le (by unfold blockAddr; omega) (by omega)]
    unfold blockAddr
    omega
  rw [hrel, first_xor]
  exact wrap64_of_lt (by unfold blockAddr at hlt'; omega)

/-- The lower of a block and its buddy is where their parent starts. -/
theorem parent_addr (base : Nat) (b : Block) :
    (if blockAddr base b.buddy < blockAddr base b then blockAddr base b.buddy else blockAddr base b) =
      blockAddr base b.parent := by
  have hf := b.first_parent
  unfold blockAddr
  split <;> omega

theorem SegInv.free_addr_lt (h : SegInv word seg S) :
    ∀ b ∈ S.free, blockAddr seg.basePtr b < 2 ^ 64 := by
  intro b hb
  have := h.geom.addr_lt (h.within (.inl hb))
  have := h.geom.top
  omega

/-- **The merge loop** absorbs free buddies into the block it holds, until the buddy is
not free or the block is the whole segment. -/
theorem freeMerge_spec : ∀ (todo : Nat) (mem : Mem) (seg : PmmSegment) (S : BuddySystem) (b : Block),
    SegInv mem.word seg S → b ∈ S.used → todo = seg.maxOrder - b.order →
    ∃ mem' fl S' b',
      freeMerge todo mem seg (blockAddr seg.basePtr b) b.order =
        .ok (mem', seg.withLists fl, blockAddr seg.basePtr b', b'.order) ∧
      SegInv mem'.word (seg.withLists fl) S' ∧
      b' ∈ S'.used ∧ S'.used.erase b' = S.used.erase b ∧
      (b'.order < seg.maxOrder → b'.buddy ∉ S'.free) ∧
      b.order ≤ b'.order ∧ (b'.order = b.order ↔ (b.order < seg.maxOrder → b.buddy ∉ S.free)) ∧
      mem.Touch (fun w a => w = .header ∧ ∃ c ∈ S.free, a = blockAddr seg.basePtr c) mem' := by
  intro todo
  induction todo with
  | zero =>
    intro mem seg S b h hb htodo
    have hM : ¬ b.order < seg.maxOrder := by omega
    exact ⟨mem, seg.freeList, S, b, rfl, h, hb, rfl, fun hlt => absurd hlt hM, Nat.le_refl _,
      iff_of_true rfl fun hlt => absurd hlt hM, Mem.Touch.refl _ _⟩
  | succ todo ih =>
    intro mem seg S b h hb htodo
    have hM : b.order < seg.maxOrder := by omega
    have hk := h.order_lt (.inr hb)
    have hw := h.within (.inr hb)
    have hhead : seg.head b.order = .ok seg.freeList[b.order] := by simp [PmmSegment.head, hk]
    unfold freeMerge
    dsimp only
    rw [buddy_addr h.geom hw hM, hhead, ok_bind]
    by_cases hbud : b.buddy ∈ S.free
    · -- one round of the loop is one merge
      obtain ⟨prev, mem1, fl1, hfind, hunlink, hlists, htouch⟩ :=
        h.lists.unlink (b := b.buddy) h.free_addr_lt (fun _ hc _ hd => S.free_first hc hd) hk hbud
      have h1 := h.next (S.merge b hb hbud (h.maxOrder ▸ hM)) rfl hlists
      have hpar : b.parent ∈ (S.merge b hb hbud (h.maxOrder ▸ hM)).used := Finset.mem_insert_self _ _
      obtain ⟨mem', fl, S', b', hrun, hinv, hb', hused, hmax, hle, -, htouch'⟩ :=
        ih _ _ _ b.parent h1 hpar (by simp only [Block.parent_order, PmmSegment.withLists_maxOrder]; omega)
      simp only [PmmSegment.withLists_basePtr, PmmSegment.withLists_withLists,
        PmmSegment.withLists_maxOrder, Block.parent_order] at hrun hinv hmax hle htouch'
      refine ⟨mem', fl, S', b', ?_, hinv, hb', ?_, hmax, by omega,
        iff_of_false (by omega) fun hno => hno hM hbud, ?_⟩
      · simp only [Block.buddy_order] at hfind hunlink
        rw [hfind, ok_bind]
        dsimp only
        rw [hunlink, ok_bind, parent_addr]
        exact hrun
      · rw [hused]
        show (insert b.parent (S.used.erase b)).erase b.parent = _
        refine Finset.erase_insert fun hp => ?_
        have := S.used_apart (Finset.mem_of_mem_erase hp) hb (Block.mem_parent_of_mem b.first_mem)
          b.first_mem
        simpa using congrArg Block.order this
      · refine htouch.trans (htouch'.mono ?_)
        rintro w a ⟨hwr, c, hc, ha⟩
        exact ⟨hwr, c, Finset.mem_of_mem_erase hc, ha⟩
    · have hfind := h.lists.findBuddy_none (b := b.buddy) h.free_addr_lt hk hbud
      simp only [Block.buddy_order] at hfind
      rw [hfind, ok_bind]
      exact ⟨mem, seg.freeList, S, b, rfl, h, hb, rfl, fun _ => hbud, Nat.le_refl _,
        iff_of_true rfl fun _ => hbud, Mem.Touch.refl _ _⟩

/-- What `free` does to the segment the used block `b` came from; `b'` is the block put on a
free list, its order the one whose pages are subtracted. -/
structure FreeTo (mem : Mem) (seg : PmmSegment) (S : BuddySystem) (b : Block)
    (seg' : PmmSegment) (mem' : Mem) (S' : BuddySystem) (b' : Block) : Prop where
  eq : ∃ fl, seg' = { seg with freeList := fl, pagesUsed := sub64 seg.pagesUsed (2 ^ b'.order) }
  inv : SegInv mem'.word seg' S'
  used : S'.used = S.used.erase b
  le : b.order ≤ b'.order ∧ b'.order ≤ seg.maxOrder
  same : b'.order = b.order ↔ (b.order < seg.maxOrder → b.buddy ∉ S.free)
  touch : mem.Touch (HeaderIn seg.basePtr S'.free) mem'

theorem FreeTo.fields {mem mem' : Mem} {seg seg' : PmmSegment} {S S' : BuddySystem} {b b' : Block}
    (h : FreeTo mem seg S b seg' mem' S' b') :
    seg'.basePtr = seg.basePtr ∧ seg'.size = seg.size ∧ seg'.maxOrder = seg.maxOrder := by
  obtain ⟨fl, rfl⟩ := h.eq
  exact ⟨rfl, rfl, rfl⟩

theorem freeIn_spec (h : SegInv mem.word seg S) {b : Block} (hb : b ∈ S.used) :
    ∃ seg' mem' S' b',
      freeIn mem (blockAddr seg.basePtr b) b.order seg = .ok (some (seg', mem', b'.order)) ∧
      FreeTo mem seg S b seg' mem' S' b' := by
  obtain ⟨mem1, fl1, S1, b', hrun, h1, hb', hused, hmax, hle, hsame, htouch⟩ :=
    freeMerge_spec _ mem seg S b h hb rfl
  have hk := h1.order_lt (.inr hb')
  have hplace : b'.order < S1.maxOrder → b'.buddy ∉ S1.free := by
    rw [h1.maxOrder]
    exact hmax
  have hnew : ∀ c ∈ S1.free, c.first ≠ b'.first := fun c hc he =>
    S1.apart hc hb' c.first_mem (he ▸ b'.first_mem)
  have hpush := h1.lists.push hk (h1.geom.addr_ne_zero _) hnew
  have h2 := h1.next (S1.place b' hb' hplace) rfl hpush
  have hin : ¬ (blockAddr seg.basePtr b < seg.basePtr ∨
      blockAddr seg.basePtr b ≥ wrap64 (seg.basePtr + seg.size)) := by
    have := h.geom.addr_lt (h.within (.inr hb))
    rw [wrap64_of_lt h.geom.top]
    unfold blockAddr at *
    omega
  refine ⟨_, _, S1.place b' hb' hplace, b', ?_, ⟨_, rfl⟩, h2.withUsed _, hused,
    ⟨hle, (h1.within (.inr hb')).1⟩, hsame, ?_⟩
  · unfold freeIn
    rw [if_neg hin, hrun, ok_bind]
    dsimp only
    rw [addBlock_eq _ _ hk, ok_bind, Nat.one_shiftLeft]
    rfl
  · refine Mem.Touch.trans (htouch.mono ?_)
      (Mem.Touch.store _ _ (headerIn_blockAddr (Finset.mem_insert_self _ _)))
    -- a block free before the call is free area after it
    rintro w a ⟨hw, c, hc, rfl⟩
    have hlt : c.first < 2 ^ (S1.place b' hb' hplace).maxOrder := by
      show c.first < 2 ^ S1.maxOrder
      rw [h1.maxOrder]
      exact (h.within (.inl hc)).lt c.first_mem
    obtain ⟨d, hd, hcd⟩ := (S1.place b' hb' hplace).tiles.cover _ hlt
    rcases Finset.mem_union.mp hd with hd | hd
    · exact ⟨hw, d, hd, c.first, hcd, rfl⟩
    · have hd' : d ∈ S.used.erase b := hused ▸ hd
      exact absurd hcd (S.apart hc (Finset.mem_of_mem_erase hd') c.first_mem)

end HelixKernel
