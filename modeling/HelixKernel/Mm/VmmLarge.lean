import HelixKernel.Mm.VmmUnmap
import HelixKernel.Mm.WriteLog

/-!
# Large pages

Neither `mmap` nor `munmap` looks at `PAGE_PS`.  A call takes a large-page entry for a
table exactly if it gets to a page that is mapped by one (`mmapLoop_reached`,
`munmapRun_visited`); for `mmap` that means that memory has not run out on the pages
before (`Reaches`).  A call that gets to none leaves everything but tables and allocator
memory alone, whatever large pages the tree has elsewhere (`Respects`).  A call that
gets to a 2 MiB page stores into the first page that this large page maps
(`mmapLoop_stored`, `munmapRun_stored`), and nothing that happens afterwards takes the
store back. -/

namespace HelixKernel

/-- What is taken for a table is no large page. -/
def TakesNoLarge (s : Pmm) : MemStep → Pmm → Prop
  | .descend depth slot, _ => large depth (s.mem.word slot) = false
  | _, _ => True

/-- What a call that makes the steps `l` may do: stores to tables of the tree and to pages `alloc`
has returned during the call, headers in the allocator's free pages; no other word changes, and
outside the range no walk does. -/
structure Respects (s : Vmm) (out : Finset (Nat × Nat)) (l : List MemStep) (m' : Mem)
    (range : Nat → Prop) : Prop where
  writes : s.pmm.mem.Touch (fun w a => (w = .table ∧ (IsTable s.pmm.mem s.currentCr3 (pageOf a) ∨
      FreePage s.pmm.segtab out (pageOf a) ∧ (pageOf a, 0) ∈ MemStep.returned l)) ∨
    (w = .header ∧ FreePage s.pmm.segtab out a)) m'
  words : ∀ a, ¬ IsTable s.pmm.mem s.currentCr3 (pageOf a) →
    ¬ FreePage s.pmm.segtab out (pageOf a) → m'.word a = s.pmm.mem.word a
  walks : ∀ va, ¬ range va → walk m' s.currentCr3 va = walk s.pmm.mem s.currentCr3 va

/-- Everything but the walks follows from `Extends`. -/
theorem Extends.respects {s : Vmm} {out out' : Finset (Nat × Nat)} {l : List MemStep} {s' : Pmm}
    {V : Nat → Prop} (h : Extends s.pmm out s.currentCr3 V l s' out') (hspare : Spare s.pmm out V)
    {range : Nat → Prop}
    (hwalks : ∀ va, ¬ range va → walk s'.mem s.currentCr3 va = walk s.pmm.mem s.currentCr3 va) :
    Does TakesNoLarge s.pmm l s' ∧ Respects s out l s'.mem range := by
  have hwrites : s.pmm.mem.Touch (fun w a => (w = .table ∧ (IsTable s.pmm.mem s.currentCr3 (pageOf a) ∨
      FreePage s.pmm.segtab out (pageOf a) ∧ (pageOf a, 0) ∈ MemStep.returned l)) ∨
      (w = .header ∧ FreePage s.pmm.segtab out a)) s'.mem := by
    refine h.touch.mono ?_
    rintro w a (⟨hw, hn⟩ | hw)
    · exact .inl ⟨hw, h.fresh _ hn⟩
    · exact .inr hw
  refine ⟨h.steps.mono fun t e t' hc => ?_, hwrites, fun a hn hf => hwrites.same a ?_, hwalks⟩
  · cases e with
    | descend depth slot => exact hc.2
    | alloc n p => trivial
    | clear page => trivial
    | store slot entry => trivial
  · rintro w (⟨-, ht | ht⟩ | ⟨-, hh⟩)
    · exact hn ht
    · exact hf ht.1
    · rw [pageOf_of_aligned (hspare.aligned hh)] at hf
      exact hf hh

/-! ## On the way to a large page -/

theorem child_some {d e c : Nat} (h : pageFormat.child d e = some c) :
    present e = true ∧ c = e &&& pageAddrMask := by
  have h' : (if present e && decide (d < 3) && !large d e then some (e &&& pageAddrMask) else none) =
      some c := h
  split at h'
  · next hc =>
    simp only [Bool.and_eq_true] at hc
    exact ⟨hc.1.1, (Option.some.inj h').symm⟩
  · cases h'

theorem leaf_present {d e : Nat} (h : pageFormat.leaf d e = true) : present e = true := by
  have h' : (present e && (d == 3 || large d e)) = true := h
  exact (Bool.and_eq_true_iff.mp h').1

/-- A leaf above the last level is a large page. -/
theorem large_of_leaf {d e : Nat} (hd : d < 3) (h : pageFormat.leaf d e = true) : large d e = true := by
  have h' : (present e && (d == 3 || large d e)) = true := h
  have h3 : (d == 3) = false := by
    rw [beq_eq_false_iff_ne]
    omega
  rw [h3, Bool.false_or] at h'
  exact (Bool.and_eq_true_iff.mp h').2

theorem not_zero_of_present {m : Mem} {t : Nat} {i : Fin 512} (hp : present (entryOf m t i) = true) :
    ¬ m.word (t + 8 * i.val) &&& pagePresent = 0 := by
  intro h0
  rw [(present_eq_false (entryOf m t i)).mpr h0] at hp
  cases hp

/-- At a present entry `get_or_create_table` returns what the entry points to, a table or not. -/
theorem getOrCreateTable_present {s : Pmm} {t : Nat} (ha : t % 4096 = 0) (ht : t < 2 ^ 47)
    {i : Fin 512} (hp : present (entryOf s.mem t i) = true) (depth flags : Nat) :
    getOrCreateTable s (paToVa t) i flags = .ok (s, paToVa (entryOf s.mem t i &&& pageAddrMask)) ∧
      getOrCreateTableSteps depth s (paToVa t) i flags = [.descend depth (t + 8 * i)] := by
  unfold getOrCreateTable getOrCreateTableSteps
  dsimp only
  rw [phys_entry ha ht i.isLt, if_neg (not_zero_of_present hp), if_neg (not_zero_of_present hp)]
  exact ⟨rfl, rfl⟩

/-- The walk to `va` passes `pdpt` and finds something there. -/
structure WalkPdpt (m : Mem) (root va pdpt : Nat) : Prop where
  pdptAt : follow m root [index 39 va] = some pdpt
  pml4e : present (entryOf m root (index 39 va)) = true ∧
    entryOf m root (index 39 va) &&& pageAddrMask = pdpt
  pdpte : present (entryOf m pdpt (index 30 va)) = true

/-- The walk to `va` ends in a 2 MiB page, with `frame` in its entry. -/
structure Walk2MiB (m : Mem) (root va pdpt pd frame : Nat) : Prop extends WalkPdpt m root va pdpt where
  pdAt : follow m root [index 39 va, index 30 va] = some pd
  pdpteAddr : entryOf m pdpt (index 30 va) &&& pageAddrMask = pd
  pde : present (entryOf m pd (index 21 va)) = true ∧
    entryOf m pd (index 21 va) &&& pageAddrMask = frame
  pdeLarge : large 2 (entryOf m pd (index 21 va)) = true

/-- A walk to a large page ends in a PDPT or in a page directory. -/
theorem walk_large {m : Mem} {root va : Nat} {es : List Nat} (hwalk : walk m root va = some es)
    (hlen : es.length ≠ 4) : ∃ pdpt, WalkPdpt m root va pdpt ∧
      (es.length = 2 ∧ large 1 (entryOf m pdpt (index 30 va)) = true ∨
      ∃ pd e1 e2 e3, es = [e1, e2, e3] ∧ Walk2MiB m root va pdpt pd (e3 &&& pageAddrMask)) := by
  have hroot : follow m root [] = some root := rfl
  rcases RadixFormat.walk_cons_inv hwalk with ⟨pdpt, es1, hc1, hw1, rfl⟩ | ⟨-, hleaf, -⟩
  · obtain ⟨hp1, ha1⟩ := child_some hc1
    have hf1 : follow m root [index 39 va] = some pdpt :=
      (RadixFormat.follow_snoc hroot _).trans hc1
    rcases RadixFormat.walk_cons_inv hw1 with ⟨pd, es2, hc2, hw2, rfl⟩ | ⟨-, hleaf, rfl⟩
    · obtain ⟨hp2, ha2⟩ := child_some hc2
      have hpdpt : WalkPdpt m root va pdpt := ⟨hf1, ⟨hp1, ha1.symm⟩, hp2⟩
      rcases RadixFormat.walk_cons_inv hw2 with ⟨pt, es3, -, hw3, rfl⟩ | ⟨-, hleaf, rfl⟩
      · rcases RadixFormat.walk_cons_inv hw3 with ⟨c, es4, hc4, -⟩ | ⟨-, -, rfl⟩
        · rw [child_last] at hc4
          cases hc4
        · exact absurd rfl hlen
      · exact ⟨pdpt, hpdpt, .inr ⟨pd, _, _, _, rfl, hpdpt,
          (RadixFormat.follow_snoc hf1 _).trans hc2, ha2.symm, ⟨leaf_present hleaf, rfl⟩,
          large_of_leaf (by decide) hleaf⟩⟩
    · exact ⟨pdpt, ⟨hf1, ⟨hp1, ha1.symm⟩, leaf_present hleaf⟩,
        .inl ⟨rfl, large_of_leaf (by decide) hleaf⟩⟩
  · have hlarge := large_of_leaf (by decide) hleaf
    cases hlarge

theorem walk2MiB {m : Mem} {root va e1 e2 e3 : Nat} (hwalk : walk m root va = some [e1, e2, e3]) :
    ∃ pdpt pd, Walk2MiB m root va pdpt pd (e3 &&& pageAddrMask) := by
  obtain ⟨pdpt, -, ⟨hlen, -⟩ | ⟨pd, f1, f2, f3, he, hw⟩⟩ := walk_large hwalk (by simp)
  · cases hlen
  · cases he
    exact ⟨pdpt, pd, hw⟩

section

variable {m : Mem} {s : Pmm} {root va pdpt pd frame : Nat}

/-- The first call in `mmap`'s loop. -/
theorem WalkPdpt.firstCall (h : WalkPdpt s.mem root va pdpt) (htree : PageTree s.mem root) (flags : Nat) :
    getOrCreateTable s (paToVa root) (pml4Idx va) flags = .ok (s, paToVa pdpt) ∧
      getOrCreateTableSteps 0 s (paToVa root) (pml4Idx va) flags =
        [.descend 0 (root + 8 * (index 39 va).val)] := by
  have ht0 := htree.table root ⟨[], rfl⟩
  rw [← h.pml4e.2]
  exact getOrCreateTable_present ht0.1 ht0.2 h.pml4e.1 0 flags

/-- The second one. -/
theorem WalkPdpt.secondCall (h : WalkPdpt s.mem root va pdpt) (htree : PageTree s.mem root) (flags : Nat) :
    getOrCreateTable s (paToVa pdpt) (pdptIdx va) flags =
        .ok (s, paToVa (entryOf s.mem pdpt (index 30 va) &&& pageAddrMask)) ∧
      getOrCreateTableSteps 1 s (paToVa pdpt) (pdptIdx va) flags =
        [.descend 1 (pdpt + 8 * (index 30 va).val)] := by
  have ht1 := htree.table pdpt ⟨_, h.pdptAt⟩
  exact getOrCreateTable_present ht1.1 ht1.2 h.pdpte 1 flags

/-- `mmap` takes a 2 MiB page for a page table. -/
theorem Walk2MiB.pageTableFor (h : Walk2MiB s.mem root va pdpt pd frame) (htree : PageTree s.mem root)
    (flags : Nat) : pageTableFor s root va flags = .ok (s, paToVa frame) ∧
      pageTableForSteps s root va flags = [.descend 0 (root + 8 * (index 39 va).val),
        .descend 1 (pdpt + 8 * (index 30 va).val), .descend 2 (pd + 8 * (index 21 va).val)] := by
  have ht1 := htree.table pdpt ⟨_, h.pdptAt⟩
  have ht2 := htree.table pd ⟨_, h.pdAt⟩
  obtain ⟨hrun0, hsteps0⟩ := h.firstCall htree flags
  obtain ⟨hrun1, hsteps1⟩ := h.secondCall htree flags
  obtain ⟨hrun2, hsteps2⟩ := getOrCreateTable_present ht2.1 ht2.2 h.pde.1 2 flags
  rw [h.pdpteAddr] at hrun1
  rw [h.pde.2] at hrun2
  unfold HelixKernel.pageTableFor pageTableForSteps
  rw [hrun0, hsteps0, ok_bind, stepsAfter_ok]
  dsimp only
  rw [if_neg (paToVa_ne_zero ht1.2), if_neg (paToVa_ne_zero ht1.2), hrun1, hsteps1, ok_bind,
    stepsAfter_ok]
  dsimp only
  rw [if_neg (paToVa_ne_zero ht2.2), if_neg (paToVa_ne_zero ht2.2),
    show pdIdx va = (index 21 va).val from rfl, hrun2, hsteps2]
  exact ⟨rfl, rfl⟩

/-- So does `munmap`. -/
theorem Walk2MiB.munmapBody (h : Walk2MiB m root va pdpt pd frame) (htree : PageTree m root)
    (ha : frame % 4096 = 0) (hlow : frame < 2 ^ 47) :
    munmapBody root m va = m.store .table (frame + 8 * (index 12 va).val) 0 := by
  have ht0 := htree.table root ⟨[], rfl⟩
  have ht1 := htree.table pdpt ⟨_, h.pdptAt⟩
  have ht2 := htree.table pd ⟨_, h.pdAt⟩
  have h1 := h.pml4e.2
  have h2 := h.pdpteAddr
  have h3 := h.pde.2
  unfold entryOf at h1 h2 h3
  unfold HelixKernel.munmapBody
  dsimp only
  rw [show pml4Idx va = (index 39 va).val from rfl, show pdptIdx va = (index 30 va).val from rfl,
    show pdIdx va = (index 21 va).val from rfl, show ptIdx va = (index 12 va).val from rfl,
    phys_entry ht0.1 ht0.2 (index 39 va).isLt, if_neg (not_zero_of_present h.pml4e.1), h1,
    phys_entry ht1.1 ht1.2 (index 30 va).isLt, if_neg (not_zero_of_present h.pdpte), h2,
    phys_entry ht2.1 ht2.2 (index 21 va).isLt, if_neg (not_zero_of_present h.pde.1), h3,
    phys_entry ha hlow (index 12 va).isLt]

/-- What `munmap` looks at, down to the entry in the PDPT. -/
theorem WalkPdpt.munmapSteps (h : WalkPdpt m root va pdpt) (htree : PageTree m root) :
    ∃ l, munmapBodySteps root m va = .descend 0 (root + 8 * (index 39 va).val) ::
      .descend 1 (pdpt + 8 * (index 30 va).val) :: l := by
  have ht0 := htree.table root ⟨[], rfl⟩
  have ht1 := htree.table pdpt ⟨_, h.pdptAt⟩
  have h1 := h.pml4e.2
  unfold entryOf at h1
  unfold munmapBodySteps
  dsimp only
  rw [show pml4Idx va = (index 39 va).val from rfl, show pdptIdx va = (index 30 va).val from rfl,
    phys_entry ht0.1 ht0.2 (index 39 va).isLt, if_neg (not_zero_of_present h.pml4e.1), h1,
    phys_entry ht1.1 ht1.2 (index 30 va).isLt, if_neg (not_zero_of_present h.pdpte)]
  split
  · exact ⟨_, rfl⟩
  · exact ⟨_, rfl⟩

/-- And down to that of a 2 MiB page. -/
theorem Walk2MiB.munmapSteps (h : Walk2MiB m root va pdpt pd frame) (htree : PageTree m root) :
    ∃ l, munmapBodySteps root m va = .descend 0 (root + 8 * (index 39 va).val) ::
      .descend 1 (pdpt + 8 * (index 30 va).val) :: .descend 2 (pd + 8 * (index 21 va).val) :: l := by
  have ht0 := htree.table root ⟨[], rfl⟩
  have ht1 := htree.table pdpt ⟨_, h.pdptAt⟩
  have ht2 := htree.table pd ⟨_, h.pdAt⟩
  have h1 := h.pml4e.2
  have h2 := h.pdpteAddr
  unfold entryOf at h1 h2
  unfold munmapBodySteps
  dsimp only
  rw [show pml4Idx va = (index 39 va).val from rfl, show pdptIdx va = (index 30 va).val from rfl,
    show pdIdx va = (index 21 va).val from rfl,
    phys_entry ht0.1 ht0.2 (index 39 va).isLt, if_neg (not_zero_of_present h.pml4e.1), h1,
    phys_entry ht1.1 ht1.2 (index 30 va).isLt, if_neg (not_zero_of_present h.pdpte), h2,
    phys_entry ht2.1 ht2.2 (index 21 va).isLt, if_neg (not_zero_of_present h.pde.1)]
  exact ⟨_, rfl⟩

end

/-! ## Where a large page is taken for a table -/

/-- After looking at some tables the steps take a large page for one. -/
def TakesLarge (m : Mem) (l : List MemStep) : Prop :=
  ∃ l1 depth slot l2, l = l1 ++ .descend depth slot :: l2 ∧
    (∀ e ∈ l1, ∃ d x, e = MemStep.descend d x) ∧ large depth (m.word slot) = true

/-- Looking leads nowhere else. -/
theorem Does.of_looks {P : Pmm → MemStep → Pmm → Prop} {s s' : Pmm} {l : List MemStep}
    (h : Does P s l s') (hl : ∀ e ∈ l, ∃ d x, e = MemStep.descend d x) : s' = s := by
  induction h with
  | nil => rfl
  | @cons s s1 s' e l hm _ _ ih =>
    obtain ⟨d, x, rfl⟩ := hl e List.mem_cons_self
    rw [ih fun e he => hl e (List.mem_cons_of_mem _ he)]
    exact hm

theorem TakesLarge.not_does {s s' : Pmm} {l l' : List MemStep} (h : TakesLarge s.mem l) :
    ¬ Does TakesNoLarge s (l ++ l') s' := by
  obtain ⟨l1, depth, slot, l2, rfl, hlook, hlarge⟩ := h
  intro hd
  rw [List.append_assoc] at hd
  obtain ⟨t, h1, h2⟩ := hd.split
  rw [h1.of_looks hlook] at h2
  cases h2 with
  | cons _ hno _ =>
    rw [show large depth (s.mem.word slot) = false from hno] at hlarge
    cases hlarge

/-- In a PDPT: a 1 GiB page. -/
theorem takesLarge_1GiB {m : Mem} {a pdpt : Nat} {i : Fin 512} {l : List MemStep}
    (hlarge : large 1 (entryOf m pdpt i) = true) :
    TakesLarge m (.descend 0 a :: .descend 1 (pdpt + 8 * i.val) :: l) := by
  refine ⟨[.descend 0 a], 1, pdpt + 8 * i.val, l, rfl, ?_, hlarge⟩
  intro e he
  exact ⟨_, _, List.mem_singleton.mp he⟩

/-- In a page directory: a 2 MiB page. -/
theorem takesLarge_2MiB {m : Mem} {a b pd : Nat} {i : Fin 512} {l : List MemStep}
    (hlarge : large 2 (entryOf m pd i) = true) :
    TakesLarge m (.descend 0 a :: .descend 1 b :: .descend 2 (pd + 8 * i.val) :: l) := by
  refine ⟨[.descend 0 a, .descend 1 b], 2, pd + 8 * i.val, l, rfl, ?_, hlarge⟩
  intro e he
  simp only [List.mem_cons, List.not_mem_nil, or_false] at he
  rcases he with rfl | rfl
  · exact ⟨_, _, rfl⟩
  · exact ⟨_, _, rfl⟩

/-- `mmap` takes the large page that maps `va` for a table. -/
theorem pageTableFor_takesLarge {s : Pmm} {root va : Nat} {es : List Nat} (htree : PageTree s.mem root)
    (hwalk : walk s.mem root va = some es) (hlen : es.length ≠ 4) (flags : Nat) :
    TakesLarge s.mem (pageTableForSteps s root va flags) := by
  obtain ⟨pdpt, hw, ⟨-, hlarge⟩ | ⟨pd, e1, e2, e3, rfl, hw2⟩⟩ := walk_large hwalk hlen
  · have ht1 := htree.table pdpt ⟨_, hw.pdptAt⟩
    obtain ⟨hrun0, hsteps0⟩ := hw.firstCall htree flags
    obtain ⟨-, hsteps1⟩ := hw.secondCall htree flags
    unfold pageTableForSteps
    rw [hrun0, hsteps0, stepsAfter_ok]
    dsimp only
    rw [if_neg (paToVa_ne_zero ht1.2), hsteps1]
    exact takesLarge_1GiB hlarge
  · rw [(hw2.pageTableFor htree flags).2]
    exact takesLarge_2MiB hw2.pdeLarge

/-- So does `munmap`. -/
theorem munmapBody_takesLarge {m : Mem} {root va : Nat} {es : List Nat} (htree : PageTree m root)
    (hwalk : walk m root va = some es) (hlen : es.length ≠ 4) :
    TakesLarge m (munmapBodySteps root m va) := by
  obtain ⟨pdpt, hw, ⟨-, hlarge⟩ | ⟨pd, e1, e2, e3, rfl, hw2⟩⟩ := walk_large hwalk hlen
  · obtain ⟨l, hl⟩ := hw.munmapSteps htree
    rw [hl]
    exact takesLarge_1GiB hlarge
  · obtain ⟨l, hl⟩ := hw2.munmapSteps htree
    rw [hl]
    exact takesLarge_2MiB hw2.pdeLarge

section

variable {root : Nat} {V : Nat → Prop}

/-- A page after `va` that is small after a round was small before. -/
theorem NotLarge.prev {m m1 : Mem} {va i : Nat}
    (h : NotLarge m1 root (wrap64 (va + pageSize) + i * 4096))
    (hoff : ∀ va', path va' ≠ path va → walk m1 root va' = walk m root va')
    (hva : NotLarge m root va) : NotLarge m root (va + (i + 1) * 4096) := by
  intro es hes
  by_cases hp : path (va + (i + 1) * 4096) = path va
  · rw [walk_congr m root hp] at hes
    exact hva es hes
  · rw [← hoff _ hp, ← walk_congr m1 root (path_succ va i)] at hes
    exact h es hes

/-- **`mmap`'s loop takes no large page for a table** only if none of the pages it reaches is mapped
by one. -/
theorem mmapLoop_reached (flags : Nat) : ∀ (n : Nat) (s s' : Pmm) (out : Finset (Nat × Nat))
    (va pa : Nat), VmmInv s out root V → pa < 2 ^ 64 →
    Does TakesNoLarge s (mmapLoopSteps root flags n s va pa) s' →
    ∀ i < n, Reaches s out root va i → NotLarge s.mem root (va + i * 4096) := by
  intro n
  induction n with
  | zero =>
    intro s s' out va pa _ _ _ i hi
    exact absurd hi (Nat.not_lt_zero i)
  | succ n ih =>
    intro s s' out va pa h hpa hdoes i hi hreach
    have hva : NotLarge s.mem root va := by
      intro es hes
      by_contra hlen
      exact (pageTableFor_takesLarge h.tree hes hlen flags).not_does hdoes
    obtain ⟨l, s1, out1, hext, hpaths, ⟨-, -, hfree, hnone⟩ | ⟨hstep, hoff, hthere, -⟩⟩ :=
      mmapLoop_round h hva hpa flags
    · cases i with
      | zero => rwa [Nat.zero_mul, Nat.add_zero]
      | succ i => exact absurd hreach (not_reaches_of_stop hext hpaths hfree hnone i)
    · cases i with
      | zero => rwa [Nat.zero_mul, Nat.add_zero]
      | succ i =>
        rw [(hstep n).2] at hdoes
        obtain ⟨t, h1, h2⟩ := hdoes.split
        obtain rfl := hext.steps.unique h1
        have hreach1 := (reaches_succ hext hpaths hthere i).mp hreach
        exact (ih s1 s' out1 _ _ hext.inv (wrap64_lt _) h2 i (by omega) hreach1).prev hoff hva

/-- **`munmap`'s loop** only if none of the pages it visits is. -/
theorem munmapRun_visited (stop : Nat) : ∀ (k : Nat) (s s' : Pmm) (out : Finset (Nat × Nat)) (va : Nat),
    VmmInv s out root V → va < 2 ^ 64 →
    Does TakesNoLarge s (munmapRunSteps root stop k s.mem va) s' →
    ∀ i < k, (∀ i' ≤ i, wrap64 (va + i' * 4096) < stop) → NotLarge s.mem root (va + i * 4096) := by
  intro k
  induction k with
  | zero =>
    intro s s' out va _ _ _ i hi
    exact absurd hi (Nat.not_lt_zero i)
  | succ k ih =>
    intro s s' out va h hlt hdoes i hi hvis
    have hstop := hvis 0 (Nat.zero_le i)
    rw [Nat.zero_mul, Nat.add_zero, wrap64_of_lt hlt] at hstop
    unfold munmapRunSteps at hdoes
    rw [if_pos hstop] at hdoes
    have hva : NotLarge s.mem root va := by
      intro es hes
      by_contra hlen
      exact (munmapBody_takesLarge h.tree hes hlen).not_does hdoes
    cases i with
    | zero => rwa [Nat.zero_mul, Nat.add_zero]
    | succ i =>
      obtain ⟨hext, hoff, -⟩ := munmapBody_spec h hva
      obtain ⟨t, h1, h2⟩ := hdoes.split
      obtain rfl := hext.steps.unique h1
      refine (ih _ s' out _ hext.inv (wrap64_lt _) h2 i (by omega) fun i' hi' => ?_).prev hoff hva
      rw [wrap64_succ]
      exact hvis (i' + 1) (by omega)

end

/-! ## Stores that stay in the log -/

/-- The log of `m'` has a page-table store at `a` on top of the log of `m`. -/
def Stored (m m' : Mem) (a : Nat) : Prop :=
  ∃ ws, m'.writes = ws ++ m.writes ∧ (Writer.table, a) ∈ ws

theorem Stored.of_store {m m' : Mem} {a v : Nat} (h : (m.store .table a v).Grows m') : Stored m m' a := by
  obtain ⟨ws, hws⟩ := h
  refine ⟨ws ++ [(.table, a)], ?_, List.mem_append_right _ (List.mem_singleton_self _)⟩
  rw [← hws, List.append_assoc]
  rfl

theorem Stored.of_touch {A : Writer → Nat → Prop} {m m1 m' : Mem} {a : Nat} (ht : m.Touch A m1)
    (h : Stored m1 m' a) : Stored m m' a := by
  obtain ⟨ws, hws, -⟩ := ht.log
  obtain ⟨ws', hws', hin⟩ := h
  exact ⟨ws' ++ ws, by rw [hws', hws, List.append_assoc], List.mem_append_left _ hin⟩

/-- A call that stores where no table is does not respect large pages. -/
theorem Stored.not_respects {s : Vmm} {out : Finset (Nat × Nat)} {m' : Mem} {a : Nat}
    (h : Stored s.pmm.mem m' a) (htable : ¬ IsTable s.pmm.mem s.currentCr3 (pageOf a))
    (hfree : ¬ FreePage s.pmm.segtab out (pageOf a)) (l : List MemStep)
    (range : Nat → Prop) : ¬ Respects s out l m' range := by
  intro hr
  obtain ⟨ws, hws, hin⟩ := h
  obtain ⟨ws', hws', hall⟩ := hr.writes.log
  obtain rfl : ws = ws' := List.append_cancel_right (hws.symm.trans hws')
  rcases hall _ hin with ⟨-, ht | ht⟩ | ⟨hw, -⟩
  · exact htable ht
  · exact hfree ht.1
  · cases hw

section

variable {root e1 e2 e3 : Nat} {V : Nat → Prop}

/-- Where the store into the frame of `e3` goes. -/
def frameEntry (e3 va : Nat) : Nat := (e3 &&& pageAddrMask) + 8 * (index 12 va).val

theorem pageOf_frameEntry (e3 va : Nat) : pageOf (frameEntry e3 va) = e3 &&& pageAddrMask :=
  pageOf_entry (and_pageAddrMask_aligned e3) (index 12 va)

theorem frameEntry_congr {va va' : Nat} (h : path va = path va') (e3 : Nat) :
    frameEntry e3 va = frameEntry e3 va' := by
  have hidx : index 12 va = index 12 va' := by
    unfold path at h
    simp only [List.cons.injEq] at h
    exact h.2.2.2.1
  rw [frameEntry, hidx, frameEntry]

/-- A page inside a large page is not among the small ones. -/
theorem NotLarge.path_ne {m : Mem} {va va' : Nat} (h : NotLarge m root va)
    (hwalk : walk m root va' = some [e1, e2, e3]) : path va' ≠ path va := by
  intro hp
  rw [walk_congr m root hp] at hwalk
  exact absurd (h _ hwalk) (by simp)

/-- A round at another page leaves it in the large page. -/
theorem walk_rest {m m1 : Mem} {va i : Nat} (h : NotLarge m root va)
    (hoff : ∀ va', path va' ≠ path va → walk m1 root va' = walk m root va')
    (hwalk : walk m root (va + (i + 1) * 4096) = some [e1, e2, e3]) :
    walk m1 root (wrap64 (va + pageSize) + i * 4096) = some [e1, e2, e3] := by
  rw [walk_congr _ root (path_succ va i), hoff _ (h.path_ne hwalk)]
  exact hwalk

/-- **`mmap`'s loop meets a 2 MiB page** in its round `i`: it stores into the frame, if it gets
there. -/
theorem mmapLoop_stored (flags : Nat) (hlow : e3 &&& pageAddrMask < 2 ^ 47) :
    ∀ (i n : Nat) (s : Pmm) (out : Finset (Nat × Nat)) (va pa : Nat), VmmInv s out root V →
      pa < 2 ^ 64 → i < n → (∀ j < i, NotLarge s.mem root (va + j * 4096)) →
      walk s.mem root (va + i * 4096) = some [e1, e2, e3] → Reaches s out root va i →
      Yields (fun r => Stored s.mem r.1.mem (frameEntry e3 (va + i * 4096)))
        (mmapLoop root flags n s va pa) := by
  intro i
  induction i with
  | zero =>
    intro n s out va pa h _ hn _ hwalk _
    rw [Nat.zero_mul, Nat.add_zero] at hwalk ⊢
    obtain ⟨n, rfl⟩ : ∃ n', n = n' + 1 := ⟨n - 1, by omega⟩
    obtain ⟨pdpt, pd, hw⟩ := walk2MiB hwalk
    show Yields _ (pageTableFor s root va flags >>= _)
    rw [(hw.pageTableFor h.tree flags).1, ok_bind]
    dsimp only
    rw [if_neg (paToVa_ne_zero hlow), show ptIdx va = (index 12 va).val from rfl,
      phys_entry (and_pageAddrMask_aligned e3) hlow (index 12 va).isLt]
    intro r hr
    exact .of_store (mmapLoop_grows root flags n _ _ _ r hr)
  | succ i ih =>
    intro n s out va pa h hpa hn hva hwalk hreach
    obtain ⟨n, rfl⟩ : ∃ n', n = n' + 1 := ⟨n - 1, by omega⟩
    have hva0 := notLarge_first hva
    obtain ⟨l, s1, out1, hext, hpaths, ⟨-, -, hfree, hnone⟩ | ⟨hstep, hoff, hthere, es, hlen, hset⟩⟩ :=
      mmapLoop_round h hva0 hpa flags
    · exact absurd hreach (not_reaches_of_stop hext hpaths hfree hnone i)
    · have hva1 := notLarge_rest hva hoff (.of_set hlen hset)
      have hwalk1 := walk_rest hva0 hoff hwalk
      have hreach1 := (reaches_succ hext hpaths hthere i).mp hreach
      rw [(hstep n).1, ← frameEntry_congr (path_succ va i) e3]
      intro r hr
      exact .of_touch hext.touch
        (ih n s1 out1 _ _ hext.inv (wrap64_lt _) (by omega) hva1 hwalk1 hreach1 r hr)

theorem munmapPages_grows (currentCr3 : Nat) : ∀ (j : Nat) (m : Mem) (va : Nat),
    m.Grows (munmapPages currentCr3 j m va) := by
  intro j
  induction j with
  | zero =>
    intro m va
    exact .refl m
  | succ j ih =>
    intro m va
    exact (munmapBody_grows currentCr3 m va).trans (ih _ _)

/-- **`munmap`'s loop meets a 2 MiB page** in its round `i`. -/
theorem munmapPages_stored {out : Finset (Nat × Nat)} (hlow : e3 &&& pageAddrMask < 2 ^ 47) :
    ∀ (i j : Nat) (s : Pmm) (va : Nat), VmmInv s out root V → i < j →
      (∀ i' < i, NotLarge s.mem root (va + i' * 4096)) →
      walk s.mem root (va + i * 4096) = some [e1, e2, e3] →
      Stored s.mem (munmapPages root j s.mem va) (frameEntry e3 (va + i * 4096)) := by
  intro i
  induction i with
  | zero =>
    intro j s va h hj _ hwalk
    rw [Nat.zero_mul, Nat.add_zero] at hwalk ⊢
    obtain ⟨j, rfl⟩ : ∃ j', j = j' + 1 := ⟨j - 1, by omega⟩
    obtain ⟨pdpt, pd, hw⟩ := walk2MiB hwalk
    unfold munmapPages
    rw [hw.munmapBody h.tree (and_pageAddrMask_aligned e3) hlow]
    exact .of_store (munmapPages_grows root j _ _)
  | succ i ih =>
    intro j s va h hj hva hwalk
    obtain ⟨j, rfl⟩ : ∃ j', j = j' + 1 := ⟨j - 1, by omega⟩
    have hva0 := notLarge_first hva
    obtain ⟨hext, hoff, hnone⟩ := munmapBody_spec h hva0
    have hva1 := notLarge_rest hva hoff (.of_none hnone)
    have hwalk1 := walk_rest hva0 hoff hwalk
    unfold munmapPages
    rw [← frameEntry_congr (path_succ va i) e3]
    exact .of_touch hext.touch
      (ih j { s with mem := munmapBody root s.mem va } _ hext.inv (by omega) hva1 hwalk1)

theorem munmapRun_stored (stop : Nat) (hlow : e3 &&& pageAddrMask < 2 ^ 47) {i k va : Nat} {s : Pmm}
    {out : Finset (Nat × Nat)} (h : VmmInv s out root V) (hlt : va < 2 ^ 64) (hi : i < k)
    (hvis : ∀ j ≤ i, wrap64 (va + j * 4096) < stop)
    (hva : ∀ j < i, NotLarge s.mem root (va + j * 4096))
    (hwalk : walk s.mem root (va + i * 4096) = some [e1, e2, e3]) :
    Stored s.mem (munmapRun root stop k s.mem va).1 (frameEntry e3 (va + i * 4096)) := by
  obtain ⟨j, -, hrun, -, -, hdone⟩ := munmapRun_rounds root stop k s.mem va hlt
  have hij : i < j := by
    by_contra hle
    exact hdone (by omega) (hvis j (by omega))
  rw [hrun]
  exact munmapPages_stored hlow i j s va h hij hva hwalk

end

/-! ## Calls -/

/-- **A call takes no large page for a table, and respects them, exactly if no page it gets to is
mapped by one.**  What a call does that gets to a 2 MiB page whose first page is neither a table nor
free: it stores into that page. -/
theorem largePages_respected {s : Vmm} {out : Finset (Nat × Nat)}
    (htree : PageTree s.pmm.mem s.currentCr3)
    (hspare : Spare s.pmm out (IsTable s.pmm.mem s.currentCr3)) :
    (∀ paddr vaddr n flags, paddr < 2 ^ 64 →
      ((∃ s' r, s.mmap paddr vaddr n flags = .ok (s', r) ∧
          Does TakesNoLarge s.pmm (s.mmapSteps paddr vaddr n flags) s'.pmm ∧
          Respects s out (s.mmapSteps paddr vaddr n flags) s'.pmm.mem
            fun va => ∃ i < n, pageNumber va = pageNumber (vaddr + i * 4096)) ↔
        ∀ i < n, Reaches s.pmm out s.currentCr3 vaddr i →
          NotLarge s.pmm.mem s.currentCr3 (vaddr + i * 4096))) ∧
    (∀ vaddr n k, vaddr < 2 ^ 64 →
      (Does TakesNoLarge s.pmm (s.munmapSteps k vaddr n) (s.munmapFor k vaddr n).pmm ∧
          (Respects s out (s.munmapSteps k vaddr n) (s.munmapFor k vaddr n).pmm.mem
            fun va => ∃ i, Visits vaddr n i ∧ pageNumber va = pageNumber (vaddr + i * 4096)) ↔
        ∀ i < k, Visits vaddr n i → NotLarge s.pmm.mem s.currentCr3 (vaddr + i * 4096))) ∧
    ∀ e1 e2 e3, e3 &&& pageAddrMask < 2 ^ 47 →
      ¬ IsTable s.pmm.mem s.currentCr3 (e3 &&& pageAddrMask) →
      ¬ FreePage s.pmm.segtab out (e3 &&& pageAddrMask) →
      (∀ paddr vaddr n flags, paddr < 2 ^ 64 → ∀ i < n, Reaches s.pmm out s.currentCr3 vaddr i →
        (∀ j < i, NotLarge s.pmm.mem s.currentCr3 (vaddr + j * 4096)) →
        walk s.pmm.mem s.currentCr3 (vaddr + i * 4096) = some [e1, e2, e3] →
        ∀ s' r, s.mmap paddr vaddr n flags = .ok (s', r) →
          ∀ l range, ¬ Respects s out l s'.pmm.mem range) ∧
      ∀ vaddr n k, vaddr < 2 ^ 64 → ∀ i < k, Visits vaddr n i →
        (∀ j < i, NotLarge s.pmm.mem s.currentCr3 (vaddr + j * 4096)) →
        walk s.pmm.mem s.currentCr3 (vaddr + i * 4096) = some [e1, e2, e3] →
        ∀ l range, ¬ Respects s out l (s.munmapFor k vaddr n).pmm.mem range := by
  have hinv := VmmInv.of_spare htree hspare
  have hnone : Spare s.pmm out fun _ => False := hspare.mono fun _ => False.elim
  refine ⟨fun paddr vaddr n flags hpa => ⟨?_, fun hva => ?_⟩,
    fun vaddr n k hlt => ⟨fun hdoes i hi hvis => ?_, fun hva => ?_⟩,
    fun e1 e2 e3 hlow htable hfree => ⟨fun paddr vaddr n flags hpa i hi hreach hva hwalk s' r hrun => ?_,
      fun vaddr n k hlt i hi hvis hva hwalk => ?_⟩⟩
  · rintro ⟨s', r, -, hdoes, -⟩
    exact mmapLoop_reached (mmapFlags vaddr flags) n s.pmm s'.pmm out vaddr paddr hinv hpa hdoes
  · obtain ⟨s', done, out', j, hrun, hext, hj, -, hmapped⟩ :=
      mmapLoop_rounds (mmapFlags vaddr flags) n s.pmm out vaddr paddr hinv hpa hva
    refine ⟨{ s with pmm := s' }, if done then vaddr else 0, ?_, hext.respects hnone ?_⟩
    · unfold Vmm.mmap
      rw [hrun, ok_bind]
    · intro va hno
      rcases hmapped va with ⟨hsame, -⟩ | ⟨i, hi, hpath, -⟩
      · exact hsame
      · exact absurd ⟨i, by omega, path_eq_iff.mp hpath⟩ hno
  · exact munmapRun_visited (wrap64 (vaddr + n)) k s.pmm _ out vaddr hinv hlt hdoes.1 i hi hvis
  · obtain ⟨j, hj, hext, -, hbelow, -, hun⟩ := munmapRun_spec (wrap64 (vaddr + n)) k s.pmm vaddr hinv
      hlt fun i hi hvis => hva i hi hvis
    refine hext.respects hnone fun va hno => ?_
    rcases hun va with ⟨hsame, -⟩ | ⟨⟨i, hi, hpath⟩, -⟩
    · exact hsame
    · refine absurd ⟨i, fun i' hi' => hbelow i' (by omega), path_eq_iff.mp hpath⟩ hno
  · unfold Vmm.mmap at hrun
    obtain ⟨⟨pmm, done⟩, hloop, hret⟩ := bind_eq_ok.mp hrun
    cases hret
    have hst := mmapLoop_stored (mmapFlags vaddr flags) hlow i n s.pmm out vaddr paddr hinv hpa hi hva
      hwalk hreach _ hloop
    exact hst.not_respects ((pageOf_frameEntry e3 _).symm ▸ htable) ((pageOf_frameEntry e3 _).symm ▸ hfree)
  · have hst := munmapRun_stored (wrap64 (vaddr + n)) hlow hinv hlt hi hvis hva hwalk
    exact hst.not_respects ((pageOf_frameEntry e3 _).symm ▸ htable) ((pageOf_frameEntry e3 _).symm ▸ hfree)

/-! ## A machine with a 2 MiB page -/

/-- The tables at `0x1000`, `0x2000` and `0x3000`; the last maps `0x400000` by a 2 MiB page. -/
def largeMem : Mem where
  word a := if a = 0x1000 then 0x2003 else if a = 0x2000 then 0x3003 else
    if a = 0x3010 then 0x400083 else 0
  writes := []

/-- No memory is managed. -/
def largeVmm : Vmm := Vmm.initialise ⟨largeMem, [], 0, 0, 0⟩ 0x1000

theorem largeMem_entry {n : Nat} (hn : n % 4096 = 0) {i : Fin 512}
    (h : entryOf largeMem n i ≠ 0) : (n = 0x1000 ∧ i = 0) ∨ (n = 0x2000 ∧ i = 0) ∨
      (n = 0x3000 ∧ i = 2) := by
  have hi := i.isLt
  have hword : n + 8 * i.val = 0x1000 ∨ n + 8 * i.val = 0x2000 ∨ n + 8 * i.val = 0x3010 := by
    by_contra hno
    simp only [not_or] at hno
    apply h
    show (if _ then _ else if _ then _ else if _ then _ else 0) = 0
    rw [if_neg hno.1, if_neg hno.2.1, if_neg hno.2.2]
  rcases hword with he | he | he
  · exact .inl ⟨by omega, Fin.ext (by omega)⟩
  · exact .inr (.inl ⟨by omega, Fin.ext (by omega)⟩)
  · exact .inr (.inr ⟨by omega, Fin.ext (by show i.val = 2; omega)⟩)

theorem largeMem_follow {p : List (Fin 512)} {n : Nat} (hp : follow largeMem 0x1000 p = some n) :
    (p = [] ∧ n = 0x1000) ∨ (p = [0] ∧ n = 0x2000) ∨ (p = [0, 0] ∧ n = 0x3000) := by
  induction p using List.reverseRecOn generalizing n with
  | nil => exact .inl ⟨rfl, (Option.some.inj hp).symm⟩
  | append_singleton p i ih =>
    cases hq : follow largeMem 0x1000 p with
    | none =>
      unfold follow at hp hq
      rw [RadixFormat.follow_append, hq] at hp
      cases hp
    | some t =>
      have hchild := (RadixFormat.follow_snoc hq i).symm.trans hp
      have hne : entryOf largeMem t i ≠ 0 := by
        intro h0
        rw [h0] at hchild
        cases hchild
      rcases ih hq with ⟨rfl, rfl⟩ | ⟨rfl, rfl⟩ | ⟨rfl, rfl⟩
      · obtain ⟨-, rfl⟩ | ⟨h, -⟩ | ⟨h, -⟩ := largeMem_entry rfl hne
        · exact .inr (.inl ⟨rfl, (Option.some.inj hchild).symm⟩)
        · cases h
        · cases h
      · obtain ⟨h, -⟩ | ⟨-, rfl⟩ | ⟨h, -⟩ := largeMem_entry rfl hne
        · cases h
        · exact .inr (.inr ⟨rfl, (Option.some.inj hchild).symm⟩)
        · cases h
      · obtain ⟨h, -⟩ | ⟨h, -⟩ | ⟨-, rfl⟩ := largeMem_entry rfl hne
        · cases h
        · cases h
        · cases hchild

theorem largeVmm_tree : PageTree largeVmm.pmm.mem largeVmm.currentCr3 where
  tree p q n hp hq := by
    rcases largeMem_follow hp with ⟨rfl, rfl⟩ | ⟨rfl, rfl⟩ | ⟨rfl, rfl⟩ <;>
    rcases largeMem_follow hq with ⟨rfl, h⟩ | ⟨rfl, h⟩ | ⟨rfl, h⟩ <;> first | rfl | cases h
  table n := by
    rintro ⟨p, hp⟩
    rcases largeMem_follow hp with ⟨-, rfl⟩ | ⟨-, rfl⟩ | ⟨-, rfl⟩ <;> decide

theorem largeVmm_spare :
    Spare largeVmm.pmm ∅ (IsTable largeVmm.pmm.mem largeVmm.currentCr3) := by
  have hfree : ∀ a, ¬ FreePage largeVmm.pmm.segtab ∅ a := by
    rintro a ⟨seg, hs, -⟩
    cases hs
  refine ⟨⟨fun _ => BuddySystem.init 0, ?_, List.Pairwise.nil, fun p k => ?_⟩,
    fun a ha => absurd ha (hfree a), fun a ha => absurd ha (hfree a)⟩
  · exact fun seg hs => absurd hs List.not_mem_nil
  · refine ⟨fun h => absurd h (Finset.notMem_empty _), ?_⟩
    rintro ⟨seg, hs, -⟩
    cases hs

/-- `mmap(0x5000, 0x401000, 1, 0)` stores into the 2 MiB page at `0x400000`, at `0x400008`. -/
theorem mmap_breaks_largePage : PageTree largeVmm.pmm.mem largeVmm.currentCr3 ∧
    Spare largeVmm.pmm ∅ (IsTable largeVmm.pmm.mem largeVmm.currentCr3) ∧
    translate largeVmm.pmm.mem largeVmm.currentCr3 0x400008 = some 0x400008 ∧
    ∃ s' r, largeVmm.mmap 0x5000 0x401000 1 0 = .ok (s', r) ∧
      s'.pmm.mem.word 0x400008 ≠ largeVmm.pmm.mem.word 0x400008 ∧
      ∀ l range, ¬ Respects largeVmm ∅ l s'.pmm.mem range := by
  refine ⟨largeVmm_tree, largeVmm_spare, by decide, _, _, rfl, by decide, ?_⟩
  have hst : Stored largeVmm.pmm.mem (largeVmm.pmm.mem.store .table 0x400008 0x5005) 0x400008 :=
    .of_store (Mem.Grows.refl _)
  refine hst.not_respects ?_ ?_
  · rintro ⟨p, hp⟩
    rcases largeMem_follow hp with ⟨-, h⟩ | ⟨-, h⟩ | ⟨-, h⟩ <;> cases h
  · rintro ⟨seg, hs, -⟩
    cases hs

/-- Two pages, the second one in the 2 MiB page: memory runs out at the first. -/
theorem largePages_respected_exhausted : ∃ s' r, largeVmm.mmap 0x5000 0x3FF000 2 0 = .ok (s', r) ∧
    Does TakesNoLarge largeVmm.pmm (largeVmm.mmapSteps 0x5000 0x3FF000 2 0) s'.pmm ∧
    Respects largeVmm ∅ (largeVmm.mmapSteps 0x5000 0x3FF000 2 0) s'.pmm.mem
      fun va => ∃ i < 2, pageNumber va = pageNumber (0x3FF000 + i * 4096) := by
  refine ((largePages_respected largeVmm_tree largeVmm_spare).1 0x5000 0x3FF000 2 0 (by decide)).mpr
    fun i hi hreach => ?_
  cases i with
  | zero =>
    intro es hes
    rw [show walk largeVmm.pmm.mem largeVmm.currentCr3 (0x3FF000 + 0 * 4096) = none from rfl] at hes
    cases hes
  | succ i =>
    obtain rfl : i = 0 := by omega
    have hmissing : (missing largeVmm.pmm.mem largeVmm.currentCr3 0x3FF000 1).card = 1 := by decide
    have hfree : (freePages largeVmm.pmm.segtab ∅).card = 0 := rfl
    change (missing largeVmm.pmm.mem largeVmm.currentCr3 0x3FF000 1).card ≤
      (freePages largeVmm.pmm.segtab ∅).card at hreach
    rw [hmissing, hfree] at hreach
    omega

end HelixKernel
