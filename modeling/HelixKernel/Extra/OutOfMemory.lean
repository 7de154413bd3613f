import HelixKernel.Extra.Liballoc

/-!
# Running out of memory (`kernel/src/mm/vmm.cpp`, `liballoc_wrapper.cpp`)

`mm::vmm::alloc` moves the result of `mm::pmm::alloc` into the direct map, the null pointer
too; and the direct map takes physical addresses below 2^47 only.

    vmm_alloc_faithful   null, address and `free` agree with the physical allocator exactly
                         if it has a block for the request and takes one below 2^47 -/

namespace HelixKernel

/-! ## The block `alloc` takes -/

/-- The lists of the orders from `k` to `max_order` are empty. -/
def NoFit (k : Nat) (seg : PmmSegment) : Prop := ∀ j, k ≤ j → j ≤ seg.maxOrder → seg.head j = .ok 0

/-- `a` is the head of the first of these lists that is not. -/
def FitsAt (k a : Nat) (seg : PmmSegment) : Prop :=
  ∃ c, k ≤ c ∧ c ≤ seg.maxOrder ∧ seg.head c = .ok a ∧ a ≠ 0 ∧
    ∀ j, k ≤ j → j < c → seg.head j = .ok 0

/-- The same in the first segment that has one. -/
def FirstFit (k a : Nat) : List PmmSegment → Prop
  | [] => False
  | seg :: rest => FitsAt k a seg ∨ NoFit k seg ∧ FirstFit k a rest

/-- `mm::vmm::alloc(n)` in the state `s`, where `mm::pmm::alloc(n)` ends in `pmm` with `p`, says
what happened. -/
structure Faithful (s : Vmm) (n : Nat) (pmm : Pmm) (p : Nat) : Prop where
  null : ∀ s' va, s.alloc n = .ok (s', va) → (va = 0 ↔ p = 0)
  address : ∀ s' va, s.alloc n = .ok (s', va) → p ≠ 0 →
    s'.pmm = pmm ∧ directMap ≤ va ∧ va < 2 ^ 64 ∧ vaToPa va = p
  freed : ∀ s' va, s.alloc n = .ok (s', va) → p ≠ 0 → ∀ t t' : Vmm,
    t.free va n = .ok t' ↔ ∃ pmm', t.pmm.free p n = .ok pmm' ∧ t' = { t with pmm := pmm' }
  heap : ∀ s' tag, liballocAlloc s n = .ok (s', tag) → (tag = 0 ↔ p = 0)

section

variable {mem mem' : Mem} {seg seg' : PmmSegment} {order b : Nat}

theorem removeBlock_head {current head : Nat} (hh : seg.head current = .ok head)
    (h : removeBlock mem seg current = .ok (b, seg')) : b = head := by
  unfold removeBlock at h
  rw [hh, ok_bind] at h
  split at h
  · injection h with h
    exact (congrArg Prod.fst h).symm
  · obtain ⟨seg₁, -, h⟩ := bind_eq_ok.mp h
    injection h with h
    exact (congrArg Prod.fst h).symm

/-- What the search over the orders returns. -/
theorem allocSearch_result {todo current : Nat} {r : Option (PmmSegment × Mem × Nat)}
    (h : allocSearch mem order seg todo current = .ok r) :
    (r = none ∧ ∀ j, current ≤ j → j < current + todo → seg.head j = .ok 0) ∨
    ∃ seg' mem' b c, r = some (seg', mem', b) ∧ current ≤ c ∧ c < current + todo ∧
      seg.head c = .ok b ∧ b ≠ 0 ∧ ∀ j, current ≤ j → j < c → seg.head j = .ok 0 := by
  induction todo generalizing current with
  | zero =>
    injection h with h
    exact .inl ⟨h.symm, fun j hj hj' => by omega⟩
  | succ todo ih =>
    obtain ⟨head, hh, h⟩ := bind_eq_ok.mp h
    by_cases h0 : head = 0
    · rw [if_pos h0] at h
      subst h0
      have hat (j : Nat) (hj : j = current) : seg.head j = .ok 0 := by rw [hj, hh]
      rcases ih h with ⟨hr, hnone⟩ | ⟨seg', mem', b, c, hr, hc, hc', hb, hb0, hnone⟩
      · refine .inl ⟨hr, fun j hj hj' => ?_⟩
        by_cases hjc : j = current
        · exact hat j hjc
        · exact hnone j (by omega) (by omega)
      · refine .inr ⟨seg', mem', b, c, hr, by omega, by omega, hb, hb0, fun j hj hj' => ?_⟩
        by_cases hjc : j = current
        · exact hat j hjc
        · exact hnone j (by omega) hj'
    · rw [if_neg h0] at h
      obtain ⟨⟨b, seg₁⟩, hrem, h⟩ := bind_eq_ok.mp h
      obtain ⟨⟨mem₂, seg₂⟩, -, h⟩ := bind_eq_ok.mp h
      injection h with h
      obtain rfl := removeBlock_head hh hrem
      exact .inr ⟨_, _, b, current, h.symm, Nat.le_refl _, by omega, hh, h0, fun j hj hj' => by omega⟩

/-- In one segment. -/
theorem allocIn_result {r : Option (PmmSegment × Mem × Nat)} (h : allocIn mem order seg = .ok r) :
    (r = none ∧ NoFit order seg) ∨
      ∃ seg' mem' b, r = some (seg', mem', b) ∧ FitsAt order b seg := by
  rcases allocSearch_result h with ⟨hr, hnone⟩ | ⟨seg', mem', b, c, hr, hc, hc', hb, hb0, hnone⟩
  · exact .inl ⟨hr, fun j hj hj' => hnone j hj (by omega)⟩
  · exact .inr ⟨seg', mem', b, hr, c, hc, by omega, hb, hb0, hnone⟩

theorem FitsAt.unique {a : Nat} (h : FitsAt order a seg) (h' : FitsAt order b seg) : a = b := by
  obtain ⟨c, hc, -, ha, ha0, hnone⟩ := h
  obtain ⟨c', hc', -, hb, hb0, hnone'⟩ := h'
  rcases Nat.lt_trichotomy c c' with hlt | rfl | hlt
  · exact absurd (Except.ok.inj (ha.symm.trans (hnone' c hc hlt))) ha0
  · exact Except.ok.inj (ha.symm.trans hb)
  · exact absurd (Except.ok.inj (hb.symm.trans (hnone c' hc' hlt))) hb0

theorem NoFit.not_fitsAt {a : Nat} (h : NoFit order seg) : ¬ FitsAt order a seg := by
  rintro ⟨c, hc, hc', ha, ha0, -⟩
  exact ha0 (Except.ok.inj (ha.symm.trans (h c hc hc')))

end

/-- Over the segments. -/
theorem forSegs_firstFit {mem : Mem} {order : Nat} : ∀ (l : List PmmSegment)
    (r : Option (List PmmSegment × Mem × Nat)), forSegs (allocIn mem order) l = .ok r →
    (r = none ∧ ∀ a, ¬ FirstFit order a l) ∨
      ∃ l' mem' b, r = some (l', mem', b) ∧ b ≠ 0 ∧ ∀ a, FirstFit order a l ↔ a = b := by
  intro l
  induction l with
  | nil =>
    intro r h
    injection h with h
    exact .inl ⟨h.symm, fun a ha => ha⟩
  | cons seg rest ih =>
    intro r h
    obtain ⟨r₁, hseg, h⟩ := bind_eq_ok.mp h
    rcases allocIn_result hseg with ⟨rfl, hno⟩ | ⟨seg', mem', b, rfl, hfit⟩
    · obtain ⟨r₂, hrest, h⟩ := bind_eq_ok.mp h
      have hcons (a : Nat) : FirstFit order a (seg :: rest) ↔ FirstFit order a rest :=
        ⟨fun ha => (ha.resolve_left hno.not_fitsAt).2, fun ha => .inr ⟨hno, ha⟩⟩
      rcases ih r₂ hrest with ⟨rfl, hnone⟩ | ⟨l', mem', b, rfl, hb0, hiff⟩
      · injection h with h
        exact .inl ⟨h.symm, fun a ha => hnone a ((hcons a).mp ha)⟩
      · injection h with h
        exact .inr ⟨_, mem', b, h.symm, hb0, fun a => (hcons a).trans (hiff a)⟩
    · injection h with h
      have hb0 : b ≠ 0 := hfit.choose_spec.2.2.2.1
      refine .inr ⟨_, mem', b, h.symm, hb0, fun a => ⟨?_, ?_⟩⟩
      · rintro (ha | ⟨hno, -⟩)
        · exact ha.unique hfit
        · exact absurd hfit hno.not_fitsAt
      · rintro rfl
        exact .inl hfit

/-- **The first fit** is what `alloc` returns, in every state from which it returns. -/
theorem alloc_firstFit {s s' : Pmm} {n p : Nat} (h : s.alloc n = .ok (s', p)) (a : Nat) :
    FirstFit (orderFor n) a s.segtab ↔ a = p ∧ p ≠ 0 := by
  obtain ⟨r, hsegs, h⟩ := bind_eq_ok.mp h
  rcases forSegs_firstFit _ r hsegs with ⟨rfl, hnone⟩ | ⟨l', mem', b, rfl, hb0, hiff⟩
  · injection h with h
    have hp : 0 = p := congrArg Prod.snd h
    exact iff_of_false (hnone a) fun ha => ha.2 hp.symm
  · injection h with h
    have hp : b = p := congrArg Prod.snd h
    subst hp
    exact (hiff a).trans (and_iff_left hb0).symm

/-! ## Through the direct map -/

theorem vmm_alloc_eq {s : Vmm} {n p : Nat} {pmm : Pmm} (h : s.pmm.alloc n = .ok (pmm, p)) :
    s.alloc n = .ok ({ s with pmm }, paToVa p) := by
  rw [Vmm.alloc, h]
  rfl

/-- The two translations undo each other on no other address. -/
theorem lt_of_vaToPa_paToVa {p : Nat} (hmap : directMap ≤ paToVa p) (h : vaToPa (paToVa p) = p) :
    p < 2 ^ 47 := by
  by_contra hge
  by_cases hd : p ≥ directMap
  · -- the address is left as it is, and moved down on the way back
    rw [paToVa, if_pos hd, vaToPa, if_neg (by unfold directMap at hd; omega)] at h
    unfold sub64 wrap64 directMap at *
    omega
  · -- the sum wraps around
    rw [paToVa, if_neg hd] at hmap
    unfold wrap64 directMap at *
    omega

theorem faithful_iff {s : Vmm} {n p : Nat} {pmm : Pmm} (h : s.pmm.alloc n = .ok (pmm, p)) :
    Faithful s n pmm p ↔ p ≠ 0 ∧ p < 2 ^ 47 := by
  have hrun := vmm_alloc_eq h
  constructor
  · intro hf
    have hp : p ≠ 0 := by
      intro h0
      have hzero := (hf.null _ _ hrun).mpr h0
      rw [h0] at hzero
      exact paToVa_ne_zero (by decide) hzero
    obtain ⟨-, hmap, -, hback⟩ := hf.address _ _ hrun hp
    exact ⟨hp, lt_of_vaToPa_paToVa hmap hback⟩
  · rintro ⟨hp, hlt⟩
    have hne := paToVa_ne_zero hlt
    have hresult {s' : Vmm} {va : Nat} (hva : s.alloc n = .ok (s', va)) :
        { s with pmm } = s' ∧ paToVa p = va := Prod.mk.inj (Except.ok.inj (hrun.symm.trans hva))
    refine ⟨fun s' va hva => ?_, fun s' va hva _ => ?_, fun s' va hva _ t t' => ?_,
      fun s' tag htag => ?_⟩
    · obtain ⟨rfl, rfl⟩ := hresult hva
      exact iff_of_false hne hp
    · obtain ⟨rfl, rfl⟩ := hresult hva
      refine ⟨rfl, ?_, ?_, vaToPa_paToVa hlt⟩
      · rw [paToVa_of_lt hlt]
        exact Nat.le_add_left _ _
      · rw [paToVa_of_lt hlt]
        unfold directMap
        omega
    · obtain ⟨rfl, rfl⟩ := hresult hva
      have hfree : t.free (paToVa p) n = liballocFree t (paToVa p) n := rfl
      rw [hfree, liballocFree_ok, vaToPa_paToVa hlt]
    · obtain ⟨rfl, rfl⟩ := hresult htag
      exact iff_of_false hne hp

/-! ## Runs -/

section

variable {memmap : List MemmapEntry} {s : Pmm} {out : Finset (Nat × Nat)}

/-- In a run, `alloc` has a block exactly if there is room. -/
theorem exists_firstFit_iff (hmm : WellFormedMap memmap) (h : Reach memmap s out) (n : Nat) :
    ∃ s' p, s.alloc n = .ok (s', p) ∧ ((∃ a, FirstFit (orderFor n) a s.segtab) ↔
      ∃ seg ∈ s.segtab, ∃ a, Candidate seg out (orderFor n) a) := by
  obtain ⟨B, hB⟩ := h.inv hmm
  obtain ⟨s', p, hrun, hcase⟩ := alloc_spec hB n
  refine ⟨s', p, hrun, ?_⟩
  have hfit : (∃ a, FirstFit (orderFor n) a s.segtab) ↔ p ≠ 0 := by
    constructor
    · rintro ⟨a, ha⟩
      exact ((alloc_firstFit hrun a).mp ha).2
    · intro hp
      exact ⟨p, (alloc_firstFit hrun p).mpr ⟨rfl, hp⟩⟩
  rw [hfit]
  constructor
  · intro hp
    cases hcase with
    | fail _ => exact absurd rfl hp
    | @found l1 l2 seg seg' mem' S' r htab _ hfrom =>
      have hs : seg ∈ s.segtab := by simp [htab]
      exact ⟨seg, hs, _, hB.candidate_alloc hs hfrom⟩
  · rintro ⟨seg, hs, a, ha⟩ hp
    exact hB.no_candidate hs ((hcase.null hB hp).2 seg hs) a ha

end

/-- **`vmm::alloc` is faithful** in a state, whatever it is, exactly if the physical allocator
has a block for the request and the one it takes lies below 2^47.  In the states of a run on a
supported map it returns, and has a block exactly if there is room; and there a block it
handed out is given back by `free` of the virtual address. -/
theorem vmm_alloc_faithful (s : Vmm) (n : Nat) :
    (∀ pmm p, s.pmm.alloc n = .ok (pmm, p) →
      (Faithful s n pmm p ↔ ∃ a, FirstFit (orderFor n) a s.pmm.segtab ∧ a < 2 ^ 47)) ∧
    ∀ memmap out, WellFormedMap memmap → Reach memmap s.pmm out →
      (∃ pmm p, s.pmm.alloc n = .ok (pmm, p) ∧ ((∃ a, FirstFit (orderFor n) a s.pmm.segtab) ↔
        ∃ seg ∈ s.pmm.segtab, ∃ a, Candidate seg out (orderFor n) a)) ∧
      ∀ p < 2 ^ 47, (p, orderFor n) ∈ out → ∃ s', s.free (paToVa p) n = .ok s' ∧
        Reach memmap s'.pmm (out.erase (p, orderFor n)) := by
  refine ⟨fun pmm p h => ?_, fun memmap out hmm h => ⟨exists_firstFit_iff hmm h n, ?_⟩⟩
  · rw [faithful_iff h]
    constructor
    · rintro ⟨hp, hlt⟩
      exact ⟨p, (alloc_firstFit h p).mpr ⟨rfl, hp⟩, hlt⟩
    · rintro ⟨a, ha, hlt⟩
      obtain ⟨rfl, hp⟩ := (alloc_firstFit h a).mp ha
      exact ⟨hp, hlt⟩
  · intro p hlt hp
    obtain ⟨B, hB⟩ := h.inv hmm
    obtain ⟨pmm, hfree, -⟩ := free_spec hB hp
    refine ⟨{ s with pmm }, ?_, h.free hp trivial hfree⟩
    rw [Vmm.free, vaToPa_paToVa hlt, hfree]
    rfl

/-! ## Two pages -/

/-- Both pages handed out. -/
theorem twoPages_exhausted : ∃ s : Vmm, Reach twoPages s.pmm {(0x100000, 1)} ∧
    ∃ pmm, s.pmm.alloc 1 = .ok (pmm, 0) := by
  have r0 := @ReachWith.initialise twoPages (fun _ _ _ => True) zeroMem _ rfl
  have r1 := @ReachWith.alloc twoPages (fun _ _ _ => True) _ _ _ 0x2000 _ r0 rfl
  exact ⟨⟨_, 0, 0⟩, r1, _, rfl⟩

/-- **The null pointer in the direct map**: with no page left, `alloc(1)` returns
0xFFFF800000000000, and `allocate_new_tag` writes its tag there. -/
theorem vmm_alloc_hides_exhaustion : ∃ s : Vmm, Reach twoPages s.pmm {(0x100000, 1)} ∧
    ∃ pmm, s.pmm.alloc 1 = .ok (pmm, 0) ∧
      (∃ s', liballocAlloc s 1 = .ok (s', 0xFFFF800000000000)) ∧ ¬ Faithful s 1 pmm 0 := by
  obtain ⟨s, hreach, pmm, hrun⟩ := twoPages_exhausted
  refine ⟨s, hreach, pmm, hrun, ⟨_, vmm_alloc_eq hrun⟩, fun hf => ?_⟩
  exact ((faithful_iff hrun).mp hf).1 rfl

theorem twoPages_fresh : ∃ s : Vmm, Reach twoPages s.pmm ∅ ∧
    ∃ pmm, s.pmm.alloc 1 = .ok (pmm, 0x100000) := by
  have r0 := @ReachWith.initialise twoPages (fun _ _ _ => True) zeroMem _ rfl
  exact ⟨⟨_, 0, 0⟩, r0, _, rfl⟩

/-- The first page. -/
theorem vmm_alloc_faithful_twoPages : ∃ (s : Vmm) (pmm : Pmm), Reach twoPages s.pmm ∅ ∧
    s.pmm.alloc 1 = .ok (pmm, 0x100000) ∧ Faithful s 1 pmm 0x100000 := by
  obtain ⟨s, hreach, pmm, hrun⟩ := twoPages_fresh
  have hfit : FirstFit (orderFor 1) 0x100000 s.pmm.segtab :=
    (alloc_firstFit hrun _).mpr ⟨rfl, by decide⟩
  exact ⟨s, pmm, hreach, hrun, ((vmm_alloc_faithful s 1).1 pmm _ hrun).mpr ⟨_, hfit, by decide⟩⟩

end HelixKernel
