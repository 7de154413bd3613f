import HelixKernel.Mm.PmmSegment

/-!
# The whole allocator against its buddy systems

`PmmInv word segtab out B`: the segments are disjoint regions, the segment at
`base` carries the buddy system `B base`, and `out` (pairs of address and order)
is the set of used blocks of all of them.  `alloc` and `free` change one segment
and one buddy system:

    Pmm.alloc   fails, every free block being too small, or takes a block from the
                first segment that has one                     (alloc_spec)
    Pmm.free    returns a used block to its segment            (free_spec)

Both return in every state with the invariant, and keep it. -/

namespace HelixKernel

/-- Two segments have no address in common. -/
def PmmSegment.Apart (a b : PmmSegment) : Prop :=
  a.basePtr + a.size ≤ b.basePtr ∨ b.basePtr + b.size ≤ a.basePtr

theorem PmmSegment.Apart.symm {a b : PmmSegment} (h : a.Apart b) : b.Apart a := Or.symm h

instance : Std.Symm PmmSegment.Apart := ⟨fun _ _ h => h.symm⟩

structure PmmInv (word : Nat → Nat) (segtab : List PmmSegment) (out : Finset (Nat × Nat))
    (B : Nat → BuddySystem) : Prop where
  segs : ∀ seg ∈ segtab, SegInv word seg (B seg.basePtr)
  apart : segtab.Pairwise PmmSegment.Apart
  out_iff : ∀ p k, (p, k) ∈ out ↔ ∃ seg ∈ segtab, ∃ b ∈ (B seg.basePtr).used,
    p = blockAddr seg.basePtr b ∧ k = b.order

/-- Header stores into free pages of any segment. -/
def Headers (segtab : List PmmSegment) (B : Nat → BuddySystem) (w : Writer) (a : Nat) : Prop :=
  ∃ seg ∈ segtab, HeaderIn seg.basePtr (B seg.basePtr).free w a

/-! ## The loop over the segments -/

section forSegs

variable {β : Type} {body : PmmSegment → Except Fault (Option (PmmSegment × β))}

theorem forSegs_none : ∀ {l : List PmmSegment}, (∀ seg ∈ l, body seg = .ok none) →
    forSegs body l = .ok none
  | [], _ => rfl
  | seg :: l, h => by
    unfold forSegs
    rw [h seg List.mem_cons_self, ok_bind]
    dsimp only
    rw [forSegs_none fun x hx => h x (List.mem_cons_of_mem _ hx), ok_bind]

theorem forSegs_some {seg seg' : PmmSegment} {r : β} {l2 : List PmmSegment}
    (hb : body seg = .ok (some (seg', r))) : ∀ {l1 : List PmmSegment},
    (∀ x ∈ l1, body x = .ok none) →
    forSegs body (l1 ++ seg :: l2) = .ok (some (l1 ++ seg' :: l2, r))
  | [], _ => by
    show forSegs body (seg :: l2) = _
    unfold forSegs
    rw [hb, ok_bind]
    rfl
  | x :: l1, h => by
    show forSegs body (x :: (l1 ++ seg :: l2)) = _
    unfold forSegs
    rw [h x List.mem_cons_self, ok_bind]
    dsimp only
    rw [forSegs_some hb fun y hy => h y (List.mem_cons_of_mem _ hy), ok_bind]
    rfl

/-- A list splits at the first member with a property. -/
theorem exists_first {α : Type} (P : α → Prop) (l : List α) :
    (∀ x ∈ l, ¬ P x) ∨ ∃ l1 x l2, l = l1 ++ x :: l2 ∧ P x ∧ ∀ y ∈ l1, ¬ P y := by
  induction l with
  | nil => exact .inl fun x hx => absurd hx List.not_mem_nil
  | cons a l ih =>
    by_cases ha : P a
    · exact .inr ⟨[], a, l, rfl, ha, fun y hy => absurd hy List.not_mem_nil⟩
    · rcases ih with hno | ⟨l1, x, l2, rfl, hx, hl1⟩
      · left
        intro x hx
        rcases List.mem_cons.mp hx with rfl | hx
        · exact ha
        · exact hno x hx
      · right
        refine ⟨a :: l1, x, l2, rfl, hx, fun y hy => ?_⟩
        rcases List.mem_cons.mp hy with rfl | hy
        · exact ha
        · exact hl1 y hy

end forSegs

/-! ## Replacing one segment -/

namespace PmmInv

variable {word word' : Nat → Nat} {segtab l1 l2 : List PmmSegment} {out : Finset (Nat × Nat)}
  {B : Nat → BuddySystem} {seg seg' : PmmSegment} {S' : BuddySystem}

/-- **Frame.**  Only the headers of free blocks matter. -/
theorem frame (h : PmmInv word segtab out B) (hw : ∀ seg ∈ segtab, ∀ b ∈ (B seg.basePtr).free,
    word' (blockAddr seg.basePtr b) = word (blockAddr seg.basePtr b)) :
    PmmInv word' segtab out B :=
  ⟨fun seg hs => (h.segs seg hs).frame (hw seg hs), h.apart, h.out_iff⟩

theorem basePtr_ne (h : PmmInv word (l1 ++ seg :: l2) out B) :
    ∀ x, x ∈ l1 ∨ x ∈ l2 → x.Apart seg ∧ x.basePtr ≠ seg.basePtr := by
  intro x hx
  have hp := List.pairwise_append.mp h.apart
  have hap : x.Apart seg := by
    rcases hx with hx | hx
    · exact hp.2.2 x hx seg List.mem_cons_self
    · exact ((List.pairwise_cons.mp hp.2.1).1 x hx).symm
  refine ⟨hap, fun he => ?_⟩
  have hgs := (h.segs seg (by simp)).geom
  have hgx := (h.segs x (by rcases hx with hx | hx <;> simp [hx])).geom
  have := Nat.two_pow_pos seg.maxOrder
  have := Nat.two_pow_pos x.maxOrder
  have := hgs.fits
  have := hgx.fits
  unfold PmmSegment.Apart at hap
  omega

/-- Headers of one segment are outside the blocks of another. -/
theorem header_apart (hx : SegGeom seg) (hy : SegGeom seg') (hap : seg'.Apart seg)
    {F : Finset Block} (hF : ∀ b ∈ F, b.Within seg.maxOrder) {b : Block}
    (hb : b.Within seg'.maxOrder) (w : Writer) : ¬ HeaderIn seg.basePtr F w (blockAddr seg'.basePtr b) := by
  rintro ⟨-, c, hc, x, hxc, he⟩
  have h1 := hy.addr_lt hb
  have h2 := (hF c hc).lt hxc
  have h3 := hx.fits
  have h4 : x * 4096 < 2 ^ seg.maxOrder * 4096 := by omega
  have h5 := hy.low
  unfold PmmSegment.Apart at hap
  unfold blockAddr at *
  omega

/-- One segment and its buddy system change, with header stores into free pages only. -/
theorem replace {mem mem' : Mem} (h : PmmInv mem.word (l1 ++ seg :: l2) out B)
    (hfields : seg'.basePtr = seg.basePtr ∧ seg'.size = seg.size ∧ seg'.maxOrder = seg.maxOrder)
    (hinv : SegInv mem'.word seg' S') (htouch : mem.Touch (HeaderIn seg.basePtr S'.free) mem')
    {out' : Finset (Nat × Nat)}
    (hout : ∀ p k, (p, k) ∈ out' ↔
      (∃ x, (x ∈ l1 ∨ x ∈ l2) ∧ ∃ b ∈ (B x.basePtr).used, p = blockAddr x.basePtr b ∧ k = b.order) ∨
      ∃ b ∈ S'.used, p = blockAddr seg.basePtr b ∧ k = b.order) :
    PmmInv mem'.word (l1 ++ seg' :: l2) out' (Function.update B seg.basePtr S') := by
  obtain ⟨hbase, hsize, hmax⟩ := hfields
  have hB : ∀ x, x ∈ l1 ∨ x ∈ l2 → Function.update B seg.basePtr S' x.basePtr = B x.basePtr :=
    fun x hx => Function.update_of_ne (h.basePtr_ne x hx).2 _ _
  have hB' : Function.update B seg.basePtr S' seg'.basePtr = S' := by
    rw [hbase, Function.update_self]
  constructor
  · intro x hx
    rcases List.mem_append.mp hx with hx | hx
    · have hxs := h.segs x (List.mem_append_left _ hx)
      rw [hB x (.inl hx)]
      refine hxs.frame fun b hb => htouch.same _ fun w => ?_
      exact header_apart (h.segs seg (by simp)).geom hxs.geom (h.basePtr_ne x (.inl hx)).1
        (fun c hc => hmax ▸ hinv.within (.inl hc)) (hxs.within (.inl hb)) w
    · rcases List.mem_cons.mp hx with rfl | hx
      · rw [hB']
        exact hinv
      · have hxs := h.segs x (by simp [hx])
        rw [hB x (.inr hx)]
        refine hxs.frame fun b hb => htouch.same _ fun w => ?_
        exact header_apart (h.segs seg (by simp)).geom hxs.geom (h.basePtr_ne x (.inr hx)).1
          (fun c hc => hmax ▸ hinv.within (.inl hc)) (hxs.within (.inl hb)) w
  · have hap := h.apart
    simp only [List.pairwise_append, List.pairwise_cons, List.mem_cons] at hap ⊢
    refine ⟨hap.1, ⟨fun x hx => ?_, hap.2.1.2⟩, fun x hx y hy => ?_⟩
    · have := hap.2.1.1 x hx
      unfold PmmSegment.Apart at *
      omega
    · rcases hy with rfl | hy
      · have := hap.2.2 x hx seg (.inl rfl)
        unfold PmmSegment.Apart at *
        omega
      · exact hap.2.2 x hx y (.inr hy)
  · intro p k
    rw [hout]
    constructor
    · rintro (⟨x, hx, b, hb, hp⟩ | ⟨b, hb, hp⟩)
      · exact ⟨x, by rcases hx with hx | hx <;> simp [hx], b, by rwa [hB x hx], hp⟩
      · exact ⟨seg', by simp, b, by rwa [hB'], by rwa [hbase]⟩
    · rintro ⟨x, hx, b, hb, hp⟩
      rcases List.mem_append.mp hx with hx | hx
      · exact .inl ⟨x, .inl hx, b, by rwa [hB x (.inl hx)] at hb, hp⟩
      · rcases List.mem_cons.mp hx with rfl | hx
        · exact .inr ⟨b, by rwa [hB'] at hb, by rwa [hbase] at hp⟩
        · exact .inl ⟨x, .inr hx, b, by rwa [hB x (.inr hx)] at hb, hp⟩

theorem out_split (h : PmmInv word (l1 ++ seg :: l2) out B) (p k : Nat) : (p, k) ∈ out ↔
    (∃ x, (x ∈ l1 ∨ x ∈ l2) ∧ ∃ b ∈ (B x.basePtr).used, p = blockAddr x.basePtr b ∧ k = b.order) ∨
    ∃ b ∈ (B seg.basePtr).used, p = blockAddr seg.basePtr b ∧ k = b.order := by
  rw [h.out_iff]
  constructor
  · rintro ⟨x, hx, hb⟩
    rcases List.mem_append.mp hx with hx | hx
    · exact .inl ⟨x, .inl hx, hb⟩
    · rcases List.mem_cons.mp hx with rfl | hx
      · exact .inr hb
      · exact .inl ⟨x, .inr hx, hb⟩
  · rintro (⟨x, hx, hb⟩ | hb)
    · exact ⟨x, by rcases hx with hx | hx <;> simp [hx], hb⟩
    · exact ⟨seg, by simp, hb⟩

/-- Blocks of different segments have different addresses. -/
theorem addr_ne (h : PmmInv word (l1 ++ seg :: l2) out B) {x : PmmSegment} (hx : x ∈ l1 ∨ x ∈ l2)
    {b c : Block} (hb : b ∈ (B x.basePtr).used) (hc : c.Within seg.maxOrder) :
    blockAddr x.basePtr b ≠ blockAddr seg.basePtr c := by
  have hxs := h.segs x (by rcases hx with hx | hx <;> simp [hx])
  have hss := h.segs seg (by simp)
  have h1 := hxs.geom.addr_lt (hxs.within (.inr hb))
  have h2 := hss.geom.addr_lt hc
  have h3 := (h.basePtr_ne x hx).1
  unfold PmmSegment.Apart at h3
  unfold blockAddr at *
  omega

end PmmInv

/-! ## `alloc` and `free` -/

variable {s : Pmm} {out : Finset (Nat × Nat)} {B : Nat → BuddySystem}

/-- How `alloc(n)` ends: the new state and the pointer. -/
inductive AllocCase (s : Pmm) (n : Nat) (B : Nat → BuddySystem) : Pmm → Nat → Prop
  | fail (hsmall : ∀ seg ∈ s.segtab, ∀ b ∈ (B seg.basePtr).free, b.order < orderFor n) :
      AllocCase s n B { s with numErrors := wrap64 (s.numErrors + 1) } 0
  | found {l1 l2 : List PmmSegment} {seg seg' : PmmSegment} {mem' : Mem} {S' : BuddySystem} {r : Block}
      (htab : s.segtab = l1 ++ seg :: l2)
      (hfirst : ∀ x ∈ l1, ∀ b ∈ (B x.basePtr).free, b.order < orderFor n)
      (hfrom : AllocFrom s.mem seg (B seg.basePtr) (orderFor n) seg' mem' S' r) :
      AllocCase s n B { s with
        mem := mem'
        segtab := l1 ++ seg' :: l2
        numUsed := wrap64 (s.numUsed + 2 ^ orderFor n) } (blockAddr seg.basePtr r)

/-- **`alloc` returns**, in one of two ways. -/
theorem alloc_spec (h : PmmInv s.mem.word s.segtab out B) (n : Nat) :
    ∃ s' p, s.alloc n = .ok (s', p) ∧ AllocCase s n B s' p := by
  unfold Pmm.alloc
  dsimp only
  have hseg := fun seg hs => allocIn_spec (h.segs seg hs) (orderFor n)
  rcases exists_first (fun seg => allocIn s.mem (orderFor n) seg ≠ .ok none) s.segtab with
    hno | ⟨l1, seg, l2, htab, hyes, hl1⟩
  · have hnone : ∀ seg ∈ s.segtab, allocIn s.mem (orderFor n) seg = .ok none :=
      fun seg hs => Classical.byContradiction fun hne => hno seg hs hne
    refine ⟨_, _, ?_, .fail fun seg hs => ?_⟩
    · rw [forSegs_none hnone, ok_bind]
    · rcases hseg seg hs with ⟨-, hsmall⟩ | ⟨seg', mem', S', r, hrun, -⟩
      · exact hsmall
      · rw [hnone seg hs] at hrun
        cases hrun
  · have hnone : ∀ x ∈ l1, allocIn s.mem (orderFor n) x = .ok none :=
      fun x hx => Classical.byContradiction fun hne => hl1 x hx hne
    rcases hseg seg (by simp [htab]) with ⟨hfail, -⟩ | ⟨seg', mem', S', r, hrun, hfrom⟩
    · exact absurd hfail hyes
    · refine ⟨_, _, ?_, .found htab (fun x hx => ?_) hfrom⟩
      · rw [htab, forSegs_some hrun hnone, ok_bind, Nat.one_shiftLeft]
      · rcases hseg x (by simp [htab, hx]) with ⟨-, hsmall⟩ | ⟨_, _, _, _, hrun', -⟩
        · exact hsmall
        · rw [hnone x hx] at hrun'
          cases hrun'

/-- The block `alloc` hands out joins the outstanding ones. -/
def track (out : Finset (Nat × Nat)) (p k : Nat) : Finset (Nat × Nat) :=
  if p = 0 then out else insert (p, k) out

/-- A null result is a failure. -/
theorem AllocCase.null {s' : Pmm} {n p : Nat} (h : PmmInv s.mem.word s.segtab out B)
    (hc : AllocCase s n B s' p) (hp : p = 0) :
    s' = { s with numErrors := wrap64 (s.numErrors + 1) } ∧
    ∀ seg ∈ s.segtab, ∀ b ∈ (B seg.basePtr).free, b.order < orderFor n := by
  cases hc with
  | fail hsmall => exact ⟨rfl, hsmall⟩
  | @found l1 l2 seg seg' mem' S' r htab _ _ =>
    have hs : seg ∈ s.segtab := by simp [htab]
    exact absurd hp ((h.segs seg hs).geom.addr_ne_zero r)

theorem AllocCase.inv_touch {s' : Pmm} {n p : Nat} (h : PmmInv s.mem.word s.segtab out B)
    (hc : AllocCase s n B s' p) : ∃ B', PmmInv s'.mem.word s'.segtab (track out p (orderFor n)) B' ∧
      s.mem.Touch (Headers s'.segtab B') s'.mem := by
  cases hc with
  | fail _ => exact ⟨B, by simpa [track] using h, Mem.Touch.refl _ _⟩
  | @found l1 l2 seg seg' mem' S' r htab _ hfrom =>
    rw [htab] at h
    have hs := h.segs seg (by simp)
    refine ⟨_, h.replace hfrom.fields hfrom.inv hfrom.touch fun q k => ?_,
      hfrom.touch.mono fun w a hwa => ?_⟩
    · rw [track, if_neg (hs.geom.addr_ne_zero r), Finset.mem_insert, h.out_split, hfrom.used]
      simp only [Finset.mem_insert, Prod.mk.injEq]
      constructor
      · rintro (⟨rfl, rfl⟩ | hx | ⟨b, hb, hq⟩)
        · exact .inr ⟨r, .inl rfl, rfl, hfrom.order.symm⟩
        · exact .inl hx
        · exact .inr ⟨b, .inr hb, hq⟩
      · rintro (hx | ⟨b, rfl | hb, rfl, rfl⟩)
        · exact .inr (.inl hx)
        · exact .inl ⟨rfl, hfrom.order⟩
        · exact .inr (.inr ⟨b, hb, rfl, rfl⟩)
    · refine ⟨seg', by simp, ?_⟩
      rw [hfrom.fields.1, Function.update_self]
      exact hwa

theorem AllocCase.inv {s' : Pmm} {n p : Nat} (h : PmmInv s.mem.word s.segtab out B)
    (hc : AllocCase s n B s' p) :
    ∃ B', PmmInv s'.mem.word s'.segtab (track out p (orderFor n)) B' := by
  obtain ⟨B', hB', -⟩ := hc.inv_touch h
  exact ⟨B', hB'⟩

/-- How `free` of the outstanding block `(p, k)` ends. -/
inductive FreeCase (s : Pmm) (B : Nat → BuddySystem) (p k : Nat) : Pmm → Prop
  | done {l1 l2 : List PmmSegment} {seg seg' : PmmSegment} {mem' : Mem} {S' : BuddySystem}
      {b b' : Block} (htab : s.segtab = l1 ++ seg :: l2) (hb : b ∈ (B seg.basePtr).used)
      (hp : p = blockAddr seg.basePtr b) (hk : k = b.order)
      (hto : FreeTo s.mem seg (B seg.basePtr) b seg' mem' S' b') :
      FreeCase s B p k { s with
        mem := mem'
        segtab := l1 ++ seg' :: l2
        numUsed := sub64 s.numUsed (2 ^ b'.order) }

/-- **`free` of an outstanding block returns.** -/
theorem free_spec (h : PmmInv s.mem.word s.segtab out B) {p n : Nat} (hp : (p, orderFor n) ∈ out) :
    ∃ s', s.free p n = .ok s' ∧ FreeCase s B p (orderFor n) s' := by
  obtain ⟨seg, hs, b, hb, hpb, hk⟩ := (h.out_iff _ _).mp hp
  obtain ⟨l1, l2, htab⟩ := List.append_of_mem hs
  obtain ⟨seg', mem', S', b', hrun, hto⟩ := freeIn_spec (h.segs seg hs) hb
  refine ⟨_, ?_, .done htab hb hpb hk hto⟩
  have hskip : ∀ x ∈ l1, freeIn s.mem p (orderFor n) x = .ok none := by
    intro x hx
    have hxs := (h.segs x (by simp [htab, hx])).geom
    have hss := h.segs seg hs
    have h1 := hss.geom.addr_lt (hss.within (.inr hb))
    have h2 := (PmmInv.basePtr_ne (htab ▸ h) x (.inl hx)).1
    unfold freeIn
    rw [if_pos]
    rw [wrap64_of_lt hxs.top, hpb]
    unfold PmmSegment.Apart at h2
    unfold blockAddr at *
    omega
  unfold Pmm.free
  rw [hpb, hk] at hskip ⊢
  rw [htab, forSegs_some hrun hskip, ok_bind]
  dsimp only
  rw [Nat.one_shiftLeft]

theorem FreeCase.inv_touch {s' : Pmm} {p k : Nat} (h : PmmInv s.mem.word s.segtab out B)
    (hc : FreeCase s B p k s') : ∃ B', PmmInv s'.mem.word s'.segtab (out.erase (p, k)) B' ∧
      s.mem.Touch (Headers s'.segtab B') s'.mem := by
  cases hc with
  | @done l1 l2 seg seg' mem' S' b b' htab hb hp hk hto =>
    rw [htab] at h
    have hs := h.segs seg (by simp)
    subst hp hk
    refine ⟨_, h.replace hto.fields hto.inv hto.touch fun q k => ?_, hto.touch.mono fun w a hwa => ?_⟩
    · rw [Finset.mem_erase, h.out_split, hto.used]
      simp only [Finset.mem_erase, Prod.mk.injEq, ne_eq]
      constructor
      · rintro ⟨hne, hx | ⟨c, hc, rfl, rfl⟩⟩
        · exact .inl hx
        · refine .inr ⟨c, ⟨?_, hc⟩, rfl, rfl⟩
          rintro rfl
          exact hne ⟨rfl, rfl⟩
      · rintro (⟨x, hx, c, hc, rfl, rfl⟩ | ⟨c, ⟨hne, hc⟩, rfl, rfl⟩)
        · refine ⟨fun he => ?_, .inl ⟨x, hx, c, hc, rfl, rfl⟩⟩
          exact h.addr_ne hx hc (hs.within (.inr hb)) he.1
        · refine ⟨fun he => hne ?_, .inr ⟨c, hc, rfl, rfl⟩⟩
          exact Block.ext_first he.2 (blockAddr_inj.mp he.1)
    · refine ⟨seg', by simp, ?_⟩
      rw [hto.fields.1, Function.update_self]
      exact hwa

theorem FreeCase.inv {s' : Pmm} {p k : Nat} (h : PmmInv s.mem.word s.segtab out B)
    (hc : FreeCase s B p k s') :
    ∃ B', PmmInv s'.mem.word s'.segtab (out.erase (p, k)) B' := by
  obtain ⟨B', hB', -⟩ := hc.inv_touch h
  exact ⟨B', hB'⟩

end HelixKernel
