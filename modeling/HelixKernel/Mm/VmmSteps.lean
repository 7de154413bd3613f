import HelixKernel.Mm.Vmm

/-!
# The steps of `mmap` and `munmap`

What a call does to memory, in the order in which it does it: the pages it gets from
`pmm::alloc`, the pages it clears, the entries it sets and the entries whose frame it
takes for a table.  `Does P s l s'`: the steps `l` lead from `s` to `s'`, each of them
made where it has `P`.  The states in between are those of the code: a step leads from
a state to one other at most.

    mmapLoop_does     from any state, `mmapLoopSteps` are the steps of `mmap`'s loop
    munmapRun_does    and `munmapRunSteps` those of `munmap`'s -/

namespace HelixKernel

inductive MemStep where
  /-- `pmm::alloc(n)` returns `p`. -/
  | alloc (n p : Nat)
  /-- `memset(pa_to_va(page), 0, PAGE_SIZE)` -/
  | clear (page : Nat)
  /-- `table[idx] = entry`; `slot` is where `table[idx]` is. -/
  | store (slot entry : Nat)
  /-- `table[idx] & PAGE_ADDR_MASK` is taken for a table: `table` is a PML4 (depth 0), a PDPT or a
  page directory. -/
  | descend (depth slot : Nat)
deriving DecidableEq, Repr

/-- The block that an allocation of `n` bytes hands out if it returns `p`. -/
def newBlock (p n : Nat) : List (Nat × Nat) := if p = 0 then [] else [(p, orderFor n)]

theorem mem_newBlock {p n : Nat} {pk : Nat × Nat} :
    pk ∈ newBlock p n ↔ p ≠ 0 ∧ pk = (p, orderFor n) := by
  unfold newBlock
  by_cases hp : p = 0
  · simp [hp]
  · simp [hp]

namespace MemStep

/-- The step leads from `s` to `s'`. -/
def Makes (s : Pmm) : MemStep → Pmm → Prop
  | alloc n p, s' => s.alloc n = .ok (s', p)
  | clear page, s' => s' = { s with mem := s.mem.clear .table page pageSize }
  | store slot entry, s' => s' = { s with mem := s.mem.store .table slot entry }
  | descend _ _, s' => s' = s

theorem Makes.unique {s s1 s2 : Pmm} {e : MemStep} (h1 : e.Makes s s1) (h2 : e.Makes s s2) : s1 = s2 := by
  cases e with
  | alloc n p =>
    have hrun : s.alloc n = .ok (s1, p) := h1
    rw [show s.alloc n = .ok (s2, p) from h2] at hrun
    cases hrun
    rfl
  | clear page => exact Eq.trans h1 (Eq.symm h2)
  | store slot entry => exact Eq.trans h1 (Eq.symm h2)
  | descend depth slot => exact Eq.trans h1 (Eq.symm h2)

/-- The blocks that the allocator returns during these steps. -/
def returned : List MemStep → List (Nat × Nat)
  | [] => []
  | alloc n p :: l => newBlock p n ++ returned l
  | _ :: l => returned l

theorem returned_append (l l' : List MemStep) : returned (l ++ l') = returned l ++ returned l' := by
  induction l with
  | nil => rfl
  | cons e l ih =>
    cases e with
    | alloc n p =>
      show newBlock p n ++ returned (l ++ l') = newBlock p n ++ returned l ++ returned l'
      rw [ih, List.append_assoc]
    | clear page => exact ih
    | store slot entry => exact ih
    | descend depth slot => exact ih

end MemStep

/-- The steps lead from one state to the other, and each of them has `P`. -/
inductive Does (P : Pmm → MemStep → Pmm → Prop) : Pmm → List MemStep → Pmm → Prop
  | nil (s : Pmm) : Does P s [] s
  | cons {s s1 s' : Pmm} {e : MemStep} {l : List MemStep} (h : e.Makes s s1) (hP : P s e s1)
      (hl : Does P s1 l s') : Does P s (e :: l) s'

namespace Does

variable {P Q : Pmm → MemStep → Pmm → Prop} {s s' s'' : Pmm} {e : MemStep} {l l' : List MemStep}

theorem single (h : e.Makes s s') (hP : P s e s') : Does P s [e] s' := .cons h hP (.nil s')

/-- Looking changes nothing. -/
theorem look {depth slot : Nat} (hP : P s (.descend depth slot) s) : Does P s [.descend depth slot] s :=
  single rfl hP

theorem append (h : Does P s l s') (h' : Does P s' l' s'') : Does P s (l ++ l') s'' := by
  induction h with
  | nil => exact h'
  | cons hm hP _ ih => exact .cons hm hP (ih h')

theorem mono (h : Does P s l s') (hPQ : ∀ s e s', P s e s' → Q s e s') : Does Q s l s' := by
  induction h with
  | nil s => exact .nil s
  | cons hm hP _ ih => exact .cons hm (hPQ _ _ _ hP) ih

/-- There is one way to make the steps. -/
theorem unique (h : Does P s l s') (h' : Does Q s l s'') : s' = s'' := by
  induction h with
  | nil =>
    cases h'
    rfl
  | cons hm _ _ ih =>
    cases h' with
    | cons hm' _ h' =>
      obtain rfl := hm.unique hm'
      exact ih h'

/-- The steps halfway. -/
theorem split (h : Does P s (l ++ l') s'') : ∃ s', Does P s l s' ∧ Does P s' l' s'' := by
  induction l generalizing s with
  | nil => exact ⟨s, .nil s, h⟩
  | cons e l ih =>
    cases h with
    | cons hm hP h =>
      obtain ⟨s', h1, h2⟩ := ih h
      exact ⟨s', .cons hm hP h1, h2⟩

end Does

/-! ## `mmap` -/

/-- What is done after a routine that returns. -/
def stepsAfter {α : Type} (x : Except Fault α) (f : α → List MemStep) : List MemStep :=
  match x with
  | .ok a => f a
  | .error _ => []

@[simp] theorem stepsAfter_ok {α : Type} (a : α) (f : α → List MemStep) :
    stepsAfter (.ok a) f = f a := rfl

/-- The steps of `get_or_create_table`, called for a table at this depth. -/
def getOrCreateTableSteps (depth : Nat) (s : Pmm) (parent idx flags : Nat) : List MemStep :=
  let slot := phys (entryPtr parent idx)
  if s.mem.word slot &&& pagePresent = 0 then
    stepsAfter (s.alloc 1) fun (_, page) =>
      if page = 0 then [.alloc 1 page]
      else [.alloc 1 page, .clear (phys (paToVa page)),
        .store slot (page ||| pagePresent ||| pageWrite ||| (flags &&& pageUser)), .descend depth slot]
  else [.descend depth slot]

/-- The three calls in the loop of `mmap`. -/
def pageTableForSteps (s : Pmm) (currentCr3 va flags : Nat) : List MemStep :=
  getOrCreateTableSteps 0 s (paToVa currentCr3) (pml4Idx va) flags ++
  stepsAfter (getOrCreateTable s (paToVa currentCr3) (pml4Idx va) flags) fun (s, pdpt) =>
    if pdpt = 0 then []
    else
      getOrCreateTableSteps 1 s pdpt (pdptIdx va) flags ++
      stepsAfter (getOrCreateTable s pdpt (pdptIdx va) flags) fun (s, pd) =>
        if pd = 0 then [] else getOrCreateTableSteps 2 s pd (pdIdx va) flags

def mmapLoopSteps (currentCr3 flags : Nat) : Nat → Pmm → Nat → Nat → List MemStep
  | 0, _, _, _ => []
  | n + 1, s, va, pa =>
    pageTableForSteps s currentCr3 va flags ++
    stepsAfter (pageTableFor s currentCr3 va flags) fun (s, pt) =>
      if pt = 0 then []
      else
        let slot := phys (entryPtr pt (ptIdx va))
        let entry := pa ||| flags ||| pagePresent
        .store slot entry :: mmapLoopSteps currentCr3 flags n
          { s with mem := s.mem.store .table slot entry } (wrap64 (va + pageSize)) (wrap64 (pa + pageSize))

def Vmm.mmapSteps (s : Vmm) (paddr vaddr n flags : Nat) : List MemStep :=
  mmapLoopSteps s.currentCr3 (mmapFlags vaddr flags) n s.pmm vaddr paddr

/-! ## `munmap` -/

def munmapBodySteps (currentCr3 : Nat) (m : Mem) (va : Nat) : List MemStep :=
  let pml4e := phys (entryPtr (paToVa currentCr3) (pml4Idx va))
  if m.word pml4e &&& pagePresent = 0 then []
  else
    let pdpte := phys (entryPtr (paToVa (m.word pml4e &&& pageAddrMask)) (pdptIdx va))
    if m.word pdpte &&& pagePresent = 0 then [.descend 0 pml4e]
    else
      let pde := phys (entryPtr (paToVa (m.word pdpte &&& pageAddrMask)) (pdIdx va))
      if m.word pde &&& pagePresent = 0 then [.descend 0 pml4e, .descend 1 pdpte]
      else [.descend 0 pml4e, .descend 1 pdpte, .descend 2 pde,
        .store (phys (entryPtr (paToVa (m.word pde &&& pageAddrMask)) (ptIdx va))) 0]

def munmapRunSteps (currentCr3 stop : Nat) : Nat → Mem → Nat → List MemStep
  | 0, _, _ => []
  | k + 1, m, va =>
    if va < stop then
      munmapBodySteps currentCr3 m va ++
        munmapRunSteps currentCr3 stop k (munmapBody currentCr3 m va) (wrap64 (va + pageSize))
    else []

/-- The steps of at most `k` rounds of the loop of `munmap(vaddr, n)`. -/
def Vmm.munmapSteps (k : Nat) (s : Vmm) (vaddr n : Nat) : List MemStep :=
  munmapRunSteps s.currentCr3 (wrap64 (vaddr + n)) k s.pmm.mem vaddr

/-! ## They are the steps of the calls -/

/-- Any step. -/
abbrev DoesAny := Does fun _ _ _ => True

theorem getOrCreateTable_does (depth : Nat) (s : Pmm) (parent idx flags : Nat) :
    Yields (fun r => DoesAny s (getOrCreateTableSteps depth s parent idx flags) r.1)
      (getOrCreateTable s parent idx flags) := by
  unfold getOrCreateTable getOrCreateTableSteps
  dsimp only
  split
  · intro r hr
    obtain ⟨⟨s1, page⟩, halloc, hr⟩ := bind_eq_ok.mp hr
    rw [halloc, stepsAfter_ok]
    dsimp only at hr ⊢
    have hfirst : (MemStep.alloc 1 page).Makes s s1 := halloc
    by_cases hpage : page = 0
    · rw [if_pos hpage] at hr ⊢
      cases hr
      exact .single hfirst trivial
    · rw [if_neg hpage] at hr ⊢
      cases hr
      exact .cons hfirst trivial (.cons rfl trivial (.cons rfl trivial (.single rfl trivial)))
  · exact Yields.ok (.single rfl trivial)

theorem pageTableFor_does (s : Pmm) (currentCr3 va flags : Nat) :
    Yields (fun r => DoesAny s (pageTableForSteps s currentCr3 va flags) r.1)
      (pageTableFor s currentCr3 va flags) := by
  intro r hr
  obtain ⟨⟨s1, pdpt⟩, h1, hr⟩ := bind_eq_ok.mp hr
  unfold pageTableForSteps
  rw [h1, stepsAfter_ok]
  refine (getOrCreateTable_does 0 s _ _ _ _ h1).append ?_
  dsimp only at hr ⊢
  by_cases hpdpt : pdpt = 0
  · rw [if_pos hpdpt] at hr ⊢
    cases hr
    exact .nil _
  rw [if_neg hpdpt] at hr ⊢
  obtain ⟨⟨s2, pd⟩, h2, hr⟩ := bind_eq_ok.mp hr
  rw [h2, stepsAfter_ok]
  refine (getOrCreateTable_does 1 s1 _ _ _ _ h2).append ?_
  dsimp only at hr ⊢
  by_cases hpd : pd = 0
  · rw [if_pos hpd] at hr ⊢
    cases hr
    exact .nil _
  · rw [if_neg hpd] at hr ⊢
    exact getOrCreateTable_does 2 s2 _ _ _ _ hr

theorem mmapLoop_does (currentCr3 flags : Nat) : ∀ (n : Nat) (s : Pmm) (va pa : Nat),
    Yields (fun r => DoesAny s (mmapLoopSteps currentCr3 flags n s va pa) r.1)
      (mmapLoop currentCr3 flags n s va pa) := by
  intro n
  induction n with
  | zero =>
    intro s va pa
    exact Yields.ok (.nil s)
  | succ n ih =>
    intro s va pa r hr
    obtain ⟨⟨s1, pt⟩, h1, hr⟩ := bind_eq_ok.mp hr
    unfold mmapLoopSteps
    rw [h1, stepsAfter_ok]
    refine (pageTableFor_does s _ _ _ _ h1).append ?_
    dsimp only at hr ⊢
    by_cases hpt : pt = 0
    · rw [if_pos hpt] at hr ⊢
      cases hr
      exact .nil _
    · rw [if_neg hpt] at hr ⊢
      exact .cons rfl trivial (ih _ _ _ r hr)

theorem munmapBody_does (currentCr3 : Nat) (s : Pmm) (va : Nat) :
    DoesAny s (munmapBodySteps currentCr3 s.mem va) { s with mem := munmapBody currentCr3 s.mem va } := by
  unfold munmapBodySteps munmapBody
  dsimp only
  split
  · exact .nil s
  split
  · exact .single rfl trivial
  split
  · exact .cons rfl trivial (.single rfl trivial)
  · exact .cons rfl trivial (.cons rfl trivial (.cons rfl trivial (.single rfl trivial)))

theorem munmapRun_does (currentCr3 stop : Nat) : ∀ (k : Nat) (s : Pmm) (va : Nat),
    DoesAny s (munmapRunSteps currentCr3 stop k s.mem va)
      { s with mem := (munmapRun currentCr3 stop k s.mem va).1 } := by
  intro k
  induction k with
  | zero =>
    intro s va
    exact .nil s
  | succ k ih =>
    intro s va
    unfold munmapRunSteps munmapRun
    split
    · exact (munmapBody_does currentCr3 s va).append
        (ih { s with mem := munmapBody currentCr3 s.mem va } _)
    · exact .nil s

end HelixKernel
