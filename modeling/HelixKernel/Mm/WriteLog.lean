import HelixKernel.Mm.Vmm

/-!
The log only grows.

No call takes a store back, from whatever state it starts: the free lists and the
page tables it walks may be anything.  What was logged halfway through a call is
still in the log at its end, where nothing else can be said of the state. -/

namespace HelixKernel

/-! ## `pmm::alloc` -/

theorem addBlock_grows (mem : Mem) (seg : PmmSegment) (k b : Nat) :
    Yields (fun r => mem.Grows r.1) (addBlock mem seg k b) := by
  unfold addBlock
  refine Yields.bind_any fun _ => Yields.bind_any fun _ => Yields.ok ?_
  exact Mem.Grows.store _ _ _ _

theorem allocSplit_grows (order b : Nat) : ∀ (current : Nat) (mem : Mem) (seg : PmmSegment),
    Yields (fun r => mem.Grows r.1) (allocSplit order b current mem seg) := by
  intro current
  induction current with
  | zero =>
    intro mem seg
    exact Yields.ok (Mem.Grows.refl mem)
  | succ current ih =>
    intro mem seg
    unfold allocSplit
    split
    · refine (addBlock_grows mem seg _ _).bind fun r hr => ?_
      intro r' hr'
      exact hr.trans (ih r.1 r.2 r' hr')
    · exact Yields.ok (Mem.Grows.refl mem)

/-- The body of a loop over the segments. -/
def BodyGrows {β : Type} (mem : Mem) (r : Option (β × Mem × Nat)) : Prop :=
  ∀ x mem' b, r = some (x, mem', b) → mem.Grows mem'

theorem allocSearch_grows (mem : Mem) (order : Nat) (seg : PmmSegment) : ∀ (todo current : Nat),
    Yields (BodyGrows mem) (allocSearch mem order seg todo current) := by
  intro todo
  induction todo with
  | zero =>
    intro current
    apply Yields.ok
    intro x mem' b h
    cases h
  | succ todo ih =>
    intro current
    unfold allocSearch
    refine Yields.bind_any fun head => ?_
    split
    · exact ih (current + 1)
    · refine Yields.bind_any fun r => (allocSplit_grows order r.1 current mem r.2).bind fun r' hr' => ?_
      apply Yields.ok
      intro x mem' b h
      cases h
      exact hr'

theorem forSegs_grows {mem : Mem}
    {body : PmmSegment → Except Fault (Option (PmmSegment × Mem × Nat))}
    (hbody : ∀ seg, Yields (BodyGrows mem) (body seg)) : ∀ segtab : List PmmSegment,
    Yields (BodyGrows mem) (forSegs body segtab) := by
  intro segtab
  induction segtab with
  | nil =>
    apply Yields.ok
    intro x mem' b h
    cases h
  | cons seg rest ih =>
    unfold forSegs
    refine (hbody seg).bind fun r hr => ?_
    rcases r with _ | ⟨seg', mem', b⟩
    · refine ih.bind fun r' hr' => ?_
      rcases r' with _ | ⟨rest', mem', b⟩
      · apply Yields.ok
        intro x mem'' b' h
        cases h
      · apply Yields.ok
        intro x mem'' b' h
        cases h
        exact hr' rest' mem' b rfl
    · apply Yields.ok
      intro x mem'' b' h
      cases h
      exact hr seg' mem' b rfl

theorem alloc_grows (s : Pmm) (n : Nat) : Yields (fun r => s.mem.Grows r.1.mem) (s.alloc n) := by
  unfold Pmm.alloc
  refine (forSegs_grows (fun seg => allocSearch_grows s.mem _ seg _ _) s.segtab).bind fun r hr => ?_
  rcases r with _ | ⟨segtab, mem, b⟩
  · exact Yields.ok (Mem.Grows.refl _)
  · exact Yields.ok (hr segtab mem b rfl)

/-! ## `mmap` and `munmap` -/

/-- A relation that every allocation and every store of the page-table code keeps to. -/
structure Steady (R : Pmm → Pmm → Prop) : Prop where
  refl : ∀ s, R s s
  trans : ∀ {s s' s''}, R s s' → R s' s'' → R s s''
  alloc : ∀ s, Yields (fun r => R s r.1) (s.alloc 1)
  clear : ∀ (s : Pmm) p n, R s { s with mem := s.mem.clear .table p n }
  store : ∀ (s : Pmm) a v, R s { s with mem := s.mem.store .table a v }

namespace Steady

variable {R : Pmm → Pmm → Prop} (h : Steady R)

include h

theorem getOrCreateTable (s : Pmm) (parent idx flags : Nat) :
    Yields (fun r => R s r.1) (getOrCreateTable s parent idx flags) := by
  unfold HelixKernel.getOrCreateTable
  dsimp only
  split
  · refine (h.alloc s).bind fun r hr => ?_
    split
    · exact Yields.ok hr
    · apply Yields.ok
      exact h.trans hr (h.trans (h.clear r.1 _ _) (h.store _ _ _))
  · exact Yields.ok (h.refl s)

theorem pageTableFor (s : Pmm) (currentCr3 va flags : Nat) :
    Yields (fun r => R s r.1) (pageTableFor s currentCr3 va flags) := by
  unfold HelixKernel.pageTableFor
  refine (h.getOrCreateTable s _ _ _).bind fun r1 h1 => ?_
  dsimp only
  split
  · exact Yields.ok h1
  · refine (h.getOrCreateTable r1.1 _ _ _).bind fun r2 h2 => ?_
    split
    · exact Yields.ok (h.trans h1 h2)
    · intro r3 hr3
      exact h.trans (h.trans h1 h2) (h.getOrCreateTable r2.1 _ _ _ r3 hr3)

theorem mmapLoop (currentCr3 flags : Nat) : ∀ (n : Nat) (s : Pmm) (va pa : Nat),
    Yields (fun r => R s r.1) (mmapLoop currentCr3 flags n s va pa) := by
  intro n
  induction n with
  | zero =>
    intro s va pa
    exact Yields.ok (h.refl s)
  | succ n ih =>
    intro s va pa
    unfold HelixKernel.mmapLoop
    refine (h.pageTableFor s _ _ _).bind fun r hr => ?_
    dsimp only
    split
    · exact Yields.ok hr
    · intro r' hr'
      exact h.trans hr (h.trans (h.store r.1 _ _) (ih _ _ _ r' hr'))

end Steady

theorem grows_steady : Steady fun s s' => s.mem.Grows s'.mem where
  refl _ := Mem.Grows.refl _
  trans h h' := h.trans h'
  alloc s := alloc_grows s 1
  clear _ _ _ := Mem.Grows.clear _ _ _ _
  store _ _ _ := Mem.Grows.store _ _ _ _

theorem mmapLoop_grows (currentCr3 flags n : Nat) (s : Pmm) (va pa : Nat) :
    Yields (fun r => s.mem.Grows r.1.mem) (mmapLoop currentCr3 flags n s va pa) :=
  grows_steady.mmapLoop currentCr3 flags n s va pa

theorem munmapBody_grows (currentCr3 : Nat) (m : Mem) (va : Nat) :
    m.Grows (munmapBody currentCr3 m va) := by
  unfold munmapBody
  dsimp only
  split
  · exact Mem.Grows.refl m
  split
  · exact Mem.Grows.refl m
  split
  · exact Mem.Grows.refl m
  · exact Mem.Grows.store _ _ _ _

end HelixKernel
