import HelixKernel.Mm.VmmMap

/-!
# `munmap`

One round of the loop clears the entry of one page, if the tables above it are
there (`munmapBody_spec`).  The number of rounds depends on no memory
(`munmapRun_rounds`).  `munmapRun_spec` describes every state the loop passes
through, whether it ends or not: after `j` rounds the walks to the `j` pages it has
met find nothing and every other walk is what it was (`Unmapped`). -/

namespace HelixKernel

variable {s : Pmm} {out : Finset (Nat × Nat)} {root : Nat} {V : Nat → Prop}

/-- An entry that is not present hides what lies behind it. -/
theorem walk_of_not_present {m : Mem} {va : Nat} {p q : List (Fin 512)} {i : Fin 512} {t : Nat}
    (hva : path va = p ++ i :: q) (hp : follow m root p = some t)
    (hpres : present (entryOf m t i) = false) : walk m root va = none := by
  obtain ⟨hnone, hleaf⟩ := child_of_not_present (d := p.length) hpres
  unfold walk
  rw [hva]
  exact RadixFormat.walk_of_empty hp hnone hleaf q

/-- What `munmap` finds one level down: nothing, and then no walk gets further, or a table. -/
theorem VmmInv.descend (h : VmmInv s out root V) {va : Nat} (hva : NotLarge s.mem root va)
    {p q : List (Fin 512)} {i : Fin 512} {t : Nat} (hpath : path va = p ++ i :: q)
    (hp : follow s.mem root p = some t) (hd : p.length < 3) :
    (s.mem.word (phys (entryPtr (paToVa t) i)) &&& pagePresent = 0 ∧ walk s.mem root va = none) ∨
    (¬ s.mem.word (phys (entryPtr (paToVa t) i)) &&& pagePresent = 0 ∧
      follow s.mem root (p ++ [i]) =
        some (s.mem.word (phys (entryPtr (paToVa t) i)) &&& pageAddrMask) ∧
      Careful root V s (.descend p.length (phys (entryPtr (paToVa t) i))) s) := by
  have ht := h.tree.table t ⟨p, hp⟩
  rw [phys_entry ht.1 ht.2 i.isLt]
  cases hpres : present (entryOf s.mem t i) with
  | false => exact .inl ⟨(present_eq_false _).mp hpres, walk_of_not_present hpath hp hpres⟩
  | true =>
    have hleaf := hva.leaf hpath hp hd
    refine .inr ⟨fun h0 => ?_, ?_, ?_, large_of_present hd hpres hleaf⟩
    · have hfalse : present (entryOf s.mem t i) = false := (present_eq_false _).mpr h0
      rw [hfalse] at hpres
      cases hpres
    · exact (RadixFormat.follow_snoc hp i).trans (child_of_present hd hpres hleaf)
    · rw [pageOf_entry ht.1]
      exact ⟨p, hp⟩

/-- What a round of `munmap`'s loop does: it looks at the tables, and where no page table holds the
page that is all, or it clears the page's entry. -/
theorem munmapBody_cases (h : VmmInv s out root V) {va : Nat} (hva : NotLarge s.mem root va) :
    ∃ l, Does (Careful root V) s l s ∧ MemStep.returned l = [] ∧
    ((munmapBody root s.mem va = s.mem ∧ munmapBodySteps root s.mem va = l ∧
      walk s.mem root va = none) ∨
    ∃ pt, follow s.mem root [index 39 va, index 30 va, index 21 va] = some pt ∧
      munmapBody root s.mem va = s.mem.store .table (pt + 8 * (index 12 va).val) 0 ∧
      munmapBodySteps root s.mem va = l ++ [.store (pt + 8 * (index 12 va).val) 0]) := by
  have hd1 : [index 39 va].length < 3 := by simp
  have hd2 : [index 39 va, index 30 va].length < 3 := by simp
  unfold munmapBody munmapBodySteps
  dsimp only
  rw [show pml4Idx va = (index 39 va).val from rfl, show pdptIdx va = (index 30 va).val from rfl,
    show pdIdx va = (index 21 va).val from rfl, show ptIdx va = (index 12 va).val from rfl]
  rcases h.descend hva (p := []) (q := [index 30 va, index 21 va, index 12 va]) rfl rfl
    (by decide) with ⟨h0, hnone⟩ | ⟨h0, hpdpt, hc0⟩
  · exact ⟨[], .nil s, rfl, .inl ⟨if_pos h0, if_pos h0, hnone⟩⟩
  rw [if_neg h0, if_neg h0]
  rcases h.descend hva (p := [index 39 va]) (q := [index 21 va, index 12 va]) rfl hpdpt hd1 with
    ⟨h1, hnone⟩ | ⟨h1, hpd, hc1⟩
  · exact ⟨_, .look hc0, rfl, .inl ⟨if_pos h1, if_pos h1, hnone⟩⟩
  rw [if_neg h1, if_neg h1]
  rcases h.descend hva (p := [index 39 va, index 30 va]) (q := [index 12 va]) rfl hpd hd2 with
    ⟨h2, hnone⟩ | ⟨h2, hpt, hc2⟩
  · exact ⟨_, (Does.look hc0).append (.look hc1), rfl, .inl ⟨if_pos h2, if_pos h2, hnone⟩⟩
  rw [if_neg h2, if_neg h2]
  have ht := h.tree.table _ ⟨_, hpt⟩
  rw [phys_entry ht.1 ht.2 (index 12 va).isLt]
  exact ⟨_, (Does.look hc0).append ((Does.look hc1).append (.look hc2)), rfl, .inr ⟨_, hpt, rfl, rfl⟩⟩

/-- **One round** of `munmap`'s loop, at a page that is not mapped by a large page. -/
theorem munmapBody_spec (h : VmmInv s out root V) {va : Nat} (hva : NotLarge s.mem root va) :
    Extends s out root V (munmapBodySteps root s.mem va)
      { s with mem := munmapBody root s.mem va } out ∧
    (∀ va', path va' ≠ path va →
      walk (munmapBody root s.mem va) root va' = walk s.mem root va') ∧
    walk (munmapBody root s.mem va) root va = none := by
  obtain ⟨l, hdoes, hret, ⟨hbody, hsteps, hnone⟩ | ⟨pt, hpt, hbody, hsteps⟩⟩ := munmapBody_cases h hva
  · rw [hbody, hsteps]
    exact ⟨Extends.look h hdoes hret, fun _ _ => rfl, hnone⟩
  · rw [hbody, hsteps]
    obtain ⟨hext, hoff, -, es, -, hwalk⟩ := set_entry h hpt 0 rfl
    exact ⟨(Extends.look h hdoes hret).trans hext, hoff, hwalk⟩

/-! ## The loop -/

/-- `munmap(vaddr, n)` reaches its round `i`. -/
def Visits (vaddr n i : Nat) : Prop :=
  ∀ i' ≤ i, wrap64 (vaddr + i' * 4096) < wrap64 (vaddr + n)

/-- The walks after `j` rounds of `munmap`'s loop. -/
def Unmapped (m m' : Mem) (root va j : Nat) : Prop :=
  ∀ va', (walk m' root va' = walk m root va' ∧ ∀ i < j, path va' ≠ path (va + i * 4096)) ∨
    (∃ i < j, path va' = path (va + i * 4096)) ∧ walk m' root va' = none

theorem Unmapped.zero (m : Mem) (root va : Nat) : Unmapped m m root va 0 :=
  fun _ => .inl ⟨rfl, fun i hi => absurd hi (Nat.not_lt_zero i)⟩

theorem Unmapped.cons {m m1 m' : Mem} {va j : Nat}
    (hoff : ∀ va', path va' ≠ path va → walk m1 root va' = walk m root va')
    (hnone : walk m1 root va = none)
    (h : Unmapped m1 m' root (wrap64 (va + pageSize)) j) : Unmapped m m' root va (j + 1) := by
  intro va'
  rcases h va' with ⟨hsame, hno⟩ | ⟨⟨i, hi, hpath⟩, hwalk⟩
  · by_cases hva : path va' = path va
    · refine .inr ⟨⟨0, Nat.succ_pos j, by rw [Nat.zero_mul, Nat.add_zero, hva]⟩, ?_⟩
      rw [hsame, walk_congr m1 root hva, hnone]
    · refine .inl ⟨hsame.trans (hoff va' hva), fun i hi => ?_⟩
      cases i with
      | zero => rwa [Nat.zero_mul, Nat.add_zero]
      | succ i =>
        rw [← path_succ]
        exact hno i (by omega)
  · exact .inr ⟨⟨i + 1, by omega, by rw [hpath, path_succ]⟩, hwalk⟩

theorem NotLarge.of_none {m : Mem} {va : Nat} (hwalk : walk m root va = none) : NotLarge m root va := by
  intro es hes
  rw [hwalk] at hes
  cases hes

/-- Where `va` is after `i` more rounds. -/
theorem wrap64_succ (va i : Nat) :
    wrap64 (wrap64 (va + pageSize) + i * 4096) = wrap64 (va + (i + 1) * 4096) := by
  unfold wrap64 pageSize
  omega

/-- Memory after `j` rounds of `munmap`'s loop. -/
def munmapPages (currentCr3 : Nat) : Nat → Mem → Nat → Mem
  | 0, m, _ => m
  | j + 1, m, va => munmapPages currentCr3 j (munmapBody currentCr3 m va) (wrap64 (va + pageSize))

/-- The steps of these rounds. -/
def munmapPagesSteps (currentCr3 : Nat) : Nat → Mem → Nat → List MemStep
  | 0, _, _ => []
  | j + 1, m, va => munmapBodySteps currentCr3 m va ++
    munmapPagesSteps currentCr3 j (munmapBody currentCr3 m va) (wrap64 (va + pageSize))

/-- The loop goes on until `va`, which depends on no memory, is not below its end. -/
theorem munmapRun_rounds (currentCr3 stop : Nat) : ∀ (k : Nat) (m : Mem) (va : Nat), va < 2 ^ 64 →
    ∃ j ≤ k, munmapRun currentCr3 stop k m va =
        (munmapPages currentCr3 j m va, wrap64 (va + j * 4096)) ∧
      munmapRunSteps currentCr3 stop k m va = munmapPagesSteps currentCr3 j m va ∧
      (∀ i < j, wrap64 (va + i * 4096) < stop) ∧ (j < k → ¬ wrap64 (va + j * 4096) < stop) := by
  intro k
  induction k with
  | zero =>
    intro m va hva
    refine ⟨0, Nat.le_refl 0, ?_, rfl, fun i hi => absurd hi (Nat.not_lt_zero i),
      fun h0 => absurd h0 (Nat.not_lt_zero 0)⟩
    rw [Nat.zero_mul, Nat.add_zero, wrap64_of_lt hva]
    rfl
  | succ k ih =>
    intro m va hva
    have hzero : wrap64 (va + 0 * 4096) = va := by
      rw [Nat.zero_mul, Nat.add_zero, wrap64_of_lt hva]
    unfold munmapRun munmapRunSteps
    by_cases hstop : va < stop
    · rw [if_pos hstop, if_pos hstop]
      obtain ⟨j, hj, hrun, hsteps, hbelow, hdone⟩ :=
        ih (munmapBody currentCr3 m va) _ (wrap64_lt (va + pageSize))
      refine ⟨j + 1, by omega, by rw [hrun, wrap64_succ, munmapPages],
        by rw [hsteps, munmapPagesSteps], fun i hi => ?_, fun hlt => ?_⟩
      · cases i with
        | zero => rwa [hzero]
        | succ i =>
          rw [← wrap64_succ]
          exact hbelow i (by omega)
      · rw [← wrap64_succ]
        exact hdone (by omega)
    · rw [if_neg hstop, if_neg hstop]
      refine ⟨0, Nat.zero_le _, ?_, rfl, fun i hi => absurd hi (Nat.not_lt_zero i), fun _ => ?_⟩
      · rw [hzero, munmapPages]
      · rwa [hzero]

theorem munmapPages_spec : ∀ (j : Nat) (s : Pmm) (va : Nat), VmmInv s out root V →
    (∀ i < j, NotLarge s.mem root (va + i * 4096)) →
    Extends s out root V (munmapPagesSteps root j s.mem va)
      { s with mem := munmapPages root j s.mem va } out ∧
      Unmapped s.mem (munmapPages root j s.mem va) root va j := by
  intro j
  induction j with
  | zero =>
    intro s va h _
    exact ⟨Extends.refl h, .zero _ _ _⟩
  | succ j ih =>
    intro s va h hlarge
    obtain ⟨hext, hoff, hnone⟩ := munmapBody_spec h (notLarge_first hlarge)
    obtain ⟨hext', hun⟩ := ih { s with mem := munmapBody root s.mem va } (wrap64 (va + pageSize))
      hext.inv (notLarge_rest hlarge hoff (.of_none hnone))
    exact ⟨hext.trans hext', Unmapped.cons hoff hnone hun⟩

/-- **`munmap`'s loop**, after at most `k` rounds over pages that are not mapped by large pages. -/
theorem munmapRun_spec (stop k : Nat) (s : Pmm) (va : Nat) (h : VmmInv s out root V)
    (hva : va < 2 ^ 64) (hlarge : ∀ i < k, (∀ i' ≤ i, wrap64 (va + i' * 4096) < stop) →
      NotLarge s.mem root (va + i * 4096)) :
    ∃ j ≤ k, Extends s out root V (munmapRunSteps root stop k s.mem va)
        { s with mem := (munmapRun root stop k s.mem va).1 } out ∧
      (munmapRun root stop k s.mem va).2 = wrap64 (va + j * 4096) ∧
      (∀ i < j, wrap64 (va + i * 4096) < stop) ∧ (j < k → ¬ wrap64 (va + j * 4096) < stop) ∧
      Unmapped s.mem (munmapRun root stop k s.mem va).1 root va j := by
  obtain ⟨j, hj, hrun, hsteps, hbelow, hdone⟩ := munmapRun_rounds root stop k s.mem va hva
  obtain ⟨hext, hun⟩ := munmapPages_spec j s va h fun i hi =>
    hlarge i (by omega) fun i' hi' => hbelow i' (by omega)
  rw [hrun, hsteps]
  exact ⟨j, hj, hext, rfl, hbelow, hdone, hun⟩

/-- **`munmap`** in a tree without large pages: the pages visited are gone, and the loop ends
unless it comes round to where it began. -/
theorem munmap_spec {s : Vmm} (h : VmmInv s.pmm out s.currentCr3 V)
    (hlarge : pageFormat.LeavesAt (entryOf s.pmm.mem) 3 s.currentCr3) {va : Nat}
    (hva : va < 2 ^ 64) (n : Nat) :
    ∃ m, ∃ j ≤ munmapRounds,
      s.munmap va n = (if wrap64 (va + j * 4096) < wrap64 (va + n) then .error .diverges
        else .ok { s with pmm := { s.pmm with mem := m } }) ∧
      Extends s.pmm out s.currentCr3 V (s.munmapSteps munmapRounds va n)
        { s.pmm with mem := m } out ∧
      (∀ i < j, Visits va n i) ∧
      (j < munmapRounds → ¬ wrap64 (va + j * 4096) < wrap64 (va + n)) ∧
      Unmapped s.pmm.mem m s.currentCr3 va j := by
  obtain ⟨j, hj, hext, hend, hvis, hdone, hun⟩ :=
    munmapRun_spec (wrap64 (va + n)) munmapRounds s.pmm va h hva
      fun i _ _ => notLarge_of_leavesAt hlarge _
  refine ⟨_, j, hj, ?_, hext, fun i hi i' hi' => hvis i' (by omega), hdone, hun⟩
  rw [← hend]
  rfl

end HelixKernel
