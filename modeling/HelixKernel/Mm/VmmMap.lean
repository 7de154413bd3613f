import HelixKernel.Mm.VmmTree

/-!
# `mmap`

The loop of `mmap` maps the pages of its range one by one.  Where it stops, after
`j` of them, `Mapped` describes every walk: a page of the first `j` has the entry
the last round for it has set, every other walk is what it was.

    mmapLoop_round    one page
    Reaches           memory suffices to get to a page of the range
    mmapLoop_rounds   over ranges in which no page that is reached is in a large page
    mmap_translates   in a tree without large pages: the requested translation,
                      every other walk unchanged, and a tree again -/

namespace HelixKernel

/-- The entry `mmap` sets for page `i`: `pa | flags | PAGE_PRESENT`. -/
def leafEntry (pa flags i : Nat) : Nat := wrap64 (pa + i * 4096) ||| flags ||| pagePresent

/-- The walks after `j` rounds of `mmap`'s loop. -/
def Mapped (m m' : Mem) (root flags va pa j : Nat) : Prop :=
  ∀ va', (walk m' root va' = walk m root va' ∧ ∀ i < j, path va' ≠ path (va + i * 4096)) ∨
    ∃ i < j, path va' = path (va + i * 4096) ∧
      ∃ es : List Nat, es.length = 3 ∧ walk m' root va' = some (es ++ [leafEntry pa flags i])

theorem leafEntry_zero {pa : Nat} (hpa : pa < 2 ^ 64) (flags : Nat) :
    leafEntry pa flags 0 = pa ||| flags ||| pagePresent := by
  rw [leafEntry, Nat.zero_mul, Nat.add_zero, wrap64_of_lt hpa]

theorem leafEntry_succ (pa flags i : Nat) :
    leafEntry (wrap64 (pa + pageSize)) flags i = leafEntry pa flags (i + 1) := by
  have hpa : wrap64 (wrap64 (pa + pageSize) + i * 4096) = wrap64 (pa + (i + 1) * 4096) := by
    unfold wrap64 pageSize
    omega
  rw [leafEntry, hpa, leafEntry]

theorem present_leafEntry (pa flags i : Nat) : present (leafEntry pa flags i) = true := by
  rw [present_iff, leafEntry, Nat.testBit_or, Nat.testBit_or]
  simp [pagePresent]

theorem path_succ (va i : Nat) :
    path (wrap64 (va + pageSize) + i * 4096) = path (va + (i + 1) * 4096) := by
  rw [path_wrap64_add]
  congr 1
  unfold pageSize
  omega

/-- A walk depends on the page only. -/
theorem walk_congr (m : Mem) (root : Nat) {va va' : Nat} (h : path va = path va') :
    walk m root va = walk m root va' := by
  unfold walk
  rw [h]

variable {root : Nat} {V : Nat → Prop}

theorem Mapped.zero {m m' : Mem} {flags va pa : Nat}
    (h : ∀ va', walk m' root va' = walk m root va') : Mapped m m' root flags va pa 0 :=
  fun va' => .inl ⟨h va', fun i hi => absurd hi (Nat.not_lt_zero i)⟩

/-- One more round in front. -/
theorem Mapped.cons {m m1 m' : Mem} {flags va pa j : Nat} (hpa : pa < 2 ^ 64)
    (hoff : ∀ va', path va' ≠ path va → walk m1 root va' = walk m root va')
    {es : List Nat} (hlen : es.length = 3)
    (hwalk : walk m1 root va = some (es ++ [pa ||| flags ||| pagePresent]))
    (h : Mapped m1 m' root flags (wrap64 (va + pageSize)) (wrap64 (pa + pageSize)) j) :
    Mapped m m' root flags va pa (j + 1) := by
  intro va'
  rcases h va' with ⟨hsame, hno⟩ | ⟨i, hi, hpath, es', hlen', hes'⟩
  · by_cases hva : path va' = path va
    · refine .inr ⟨0, Nat.succ_pos j, by rw [Nat.zero_mul, Nat.add_zero, hva], es, hlen, ?_⟩
      rw [hsame, walk_congr m1 root hva, hwalk, leafEntry_zero hpa]
    · refine .inl ⟨hsame.trans (hoff va' hva), fun i hi => ?_⟩
      cases i with
      | zero => rwa [Nat.zero_mul, Nat.add_zero]
      | succ i =>
        rw [← path_succ]
        exact hno i (by omega)
  · refine .inr ⟨i + 1, by omega, by rw [hpath, path_succ], es', hlen', ?_⟩
    rw [hes', leafEntry_succ]

/-- A round that maps or unmaps the page of `va` leaves the others as small as they were. -/
theorem NotLarge.round {m m1 : Mem} {va va' : Nat} (h : NotLarge m root va')
    (hoff : ∀ va', path va' ≠ path va → walk m1 root va' = walk m root va')
    (hva : NotLarge m1 root va) : NotLarge m1 root va' := by
  intro es hes
  by_cases hp : path va' = path va
  · rw [walk_congr m1 root hp] at hes
    exact hva es hes
  · rw [hoff va' hp] at hes
    exact h es hes

theorem notLarge_first {m : Mem} {va n : Nat} (h : ∀ i < n + 1, NotLarge m root (va + i * 4096)) :
    NotLarge m root va := by
  have := h 0 (Nat.succ_pos n)
  rwa [Nat.zero_mul, Nat.add_zero] at this

/-- The page after it, in the range that is left after such a round. -/
theorem NotLarge.next {m m1 : Mem} {va i : Nat} (h : NotLarge m root (va + (i + 1) * 4096))
    (hoff : ∀ va', path va' ≠ path va → walk m1 root va' = walk m root va')
    (hva : NotLarge m1 root va) : NotLarge m1 root (wrap64 (va + pageSize) + i * 4096) := by
  intro es hes
  rw [walk_congr _ root (path_succ va i)] at hes
  exact h.round hoff hva es hes

/-- All of that range. -/
theorem notLarge_rest {m m1 : Mem} {va n : Nat} (h : ∀ i < n + 1, NotLarge m root (va + i * 4096))
    (hoff : ∀ va', path va' ≠ path va → walk m1 root va' = walk m root va')
    (hva : NotLarge m1 root va) : ∀ i < n, NotLarge m1 root (wrap64 (va + pageSize) + i * 4096) :=
  fun i hi => (h (i + 1) (by omega)).next hoff hva

/-- **One round** of `mmap`'s loop, at a page that is not mapped by a large page: it ends the loop
for want of memory, or sets the entry of the page. -/
theorem mmapLoop_round {s : Pmm} {out : Finset (Nat × Nat)} {va pa : Nat} (h : VmmInv s out root V)
    (hva : NotLarge s.mem root va) (hpa : pa < 2 ^ 64) (flags : Nat) :
    ∃ l s1 out1, Extends s out root V l s1 out1 ∧
      (∀ q, q ∉ tablesOf va → follow s1.mem root q = follow s.mem root q) ∧
      (((∀ n, mmapLoop root flags (n + 1) s va pa = .ok (s1, false) ∧
          mmapLoopSteps root flags (n + 1) s va pa = l) ∧
        (∀ va', walk s1.mem root va' = walk s.mem root va') ∧
        freePages s1.segtab out1 = ∅ ∧ ∃ q ∈ tablesOf va, follow s1.mem root q = none) ∨
      ((∀ n, mmapLoop root flags (n + 1) s va pa =
            mmapLoop root flags n s1 (wrap64 (va + pageSize)) (wrap64 (pa + pageSize)) ∧
          mmapLoopSteps root flags (n + 1) s va pa =
            l ++ mmapLoopSteps root flags n s1 (wrap64 (va + pageSize)) (wrap64 (pa + pageSize))) ∧
        (∀ va', path va' ≠ path va → walk s1.mem root va' = walk s.mem root va') ∧
        (∀ q ∈ tablesOf va, follow s1.mem root q ≠ none) ∧
        ∃ es : List Nat, es.length = 3 ∧
          walk s1.mem root va = some (es ++ [leafEntry pa flags 0]))) := by
  obtain ⟨s1, r, out1, hrun, hext1, hwalk1, hpaths1, hnull, hr⟩ := pageTableFor_spec h hva flags
  rcases hr with rfl | ⟨pt, rfl, hlow, hpt⟩
  · obtain ⟨hfree, hnone⟩ := hnull rfl
    refine ⟨_, s1, out1, hext1, hpaths1, .inl ⟨fun n => ⟨?_, ?_⟩, hwalk1, hfree, hnone⟩⟩
    · show (pageTableFor s root va flags >>= _) = _
      rw [hrun, ok_bind]
      exact if_pos rfl
    · unfold mmapLoopSteps
      rw [hrun, stepsAfter_ok]
      dsimp only
      rw [if_pos rfl, List.append_nil]
  · have ht := hext1.inv.tree.table pt ⟨_, hpt⟩
    obtain ⟨hext2, hoff, hpaths2, es, hlen, hwalk2⟩ :=
      set_entry hext1.inv hpt (leafEntry pa flags 0) rfl
    rw [if_pos (present_leafEntry pa flags 0)] at hwalk2
    refine ⟨_, _, out1, hext1.trans hext2, fun q hq => (hpaths2 q).trans (hpaths1 q hq),
      .inr ⟨fun n => ⟨?_, ?_⟩, fun va' hne => ?_, fun q hq => ?_, es, hlen, hwalk2⟩⟩
    · show (pageTableFor s root va flags >>= _) = _
      rw [hrun, ok_bind]
      dsimp only
      rw [if_neg (paToVa_ne_zero hlow), show ptIdx va = (index 12 va).val from rfl,
        phys_entry ht.1 ht.2 (index 12 va).isLt, ← leafEntry_zero hpa flags]
    · show pageTableForSteps s root va flags ++ _ = _
      rw [hrun, stepsAfter_ok]
      dsimp only
      rw [if_neg (paToVa_ne_zero hlow), show ptIdx va = (index 12 va).val from rfl,
        phys_entry ht.1 ht.2 (index 12 va).isLt, ← leafEntry_zero hpa flags, List.append_assoc]
      rfl
    · exact (hoff va' hne).trans (hwalk1 va')
    · rw [show follow _ root q = _ from hpaths2 q]
      exact tables_of_follow hpt q hq

/-! ## How far memory goes -/

/-- The paths of the tables above the first `i` pages of a range. -/
def tablePaths (va i : Nat) : Finset (List (Fin 512)) :=
  (Finset.range i).biUnion fun j => tablesOf (va + j * 4096)

/-- Those of them that are not there yet. -/
def missing (m : Mem) (root va i : Nat) : Finset (List (Fin 512)) :=
  (tablePaths va i).filter fun q => follow m root q = none

/-- Page `i` of a range is reached: there is a free page for every table that the pages before it
lack. -/
def Reaches (s : Pmm) (out : Finset (Nat × Nat)) (root va i : Nat) : Prop :=
  (missing s.mem root va i).card ≤ (freePages s.segtab out).card

theorem reaches_zero (s : Pmm) (out : Finset (Nat × Nat)) (root va : Nat) : Reaches s out root va 0 :=
  Nat.zero_le _

theorem tablePaths_succ (va i : Nat) :
    tablePaths va (i + 1) = tablesOf va ∪ tablePaths (wrap64 (va + pageSize)) i := by
  have htables : ∀ {v v' : Nat}, path v = path v' → tablesOf v = tablesOf v' := by
    intro v v' hv
    unfold path at hv
    simp only [List.cons.injEq] at hv
    rw [tablesOf, hv.1, hv.2.1, hv.2.2.1, tablesOf]
  ext q
  simp only [tablePaths, Finset.mem_union, Finset.mem_biUnion, Finset.mem_range]
  constructor
  · rintro ⟨j, hj, hq⟩
    cases j with
    | zero => exact .inl (by rwa [Nat.zero_mul, Nat.add_zero] at hq)
    | succ j => exact .inr ⟨j, by omega, by rwa [htables (path_succ va j)]⟩
  · rintro (hq | ⟨j, hj, hq⟩)
    · exact ⟨0, by omega, by rwa [Nat.zero_mul, Nat.add_zero]⟩
    · exact ⟨j + 1, by omega, by rwa [← htables (path_succ va j)]⟩

section

variable {s s1 : Pmm} {out out1 : Finset (Nat × Nat)} {l : List MemStep} {va : Nat}

theorem mem_missing {m : Mem} {i : Nat} {q : List (Fin 512)} : q ∈ missing m root va i ↔
    q ∈ tablePaths va i ∧ follow m root q = none := Finset.mem_filter

/-- A round that ends the loop is the last one that is reached. -/
theorem not_reaches_of_stop (h : Extends s out root V l s1 out1)
    (hpaths : ∀ q, q ∉ tablesOf va → follow s1.mem root q = follow s.mem root q)
    (hfree : freePages s1.segtab out1 = ∅)
    (hnone : ∃ q ∈ tablesOf va, follow s1.mem root q = none) (i : Nat) :
    ¬ Reaches s out root va (i + 1) := by
  obtain ⟨new, hnew, hcard⟩ := h.spent
  obtain ⟨q, hq, hnone⟩ := hnone
  have hsub : insert q new ⊆ missing s.mem root va (i + 1) := by
    intro q' hq'
    rw [mem_missing, tablePaths_succ, Finset.mem_union]
    rcases Finset.mem_insert.mp hq' with rfl | hq'
    · exact ⟨.inl hq, h.none_of_none hnone⟩
    · obtain ⟨h0, h1⟩ := (hnew q').mp hq'
      refine ⟨.inl ?_, h0⟩
      by_contra hno
      exact h1 ((hpaths q' hno).trans h0)
  have hle := Finset.card_le_card hsub
  rw [Finset.card_insert_of_notMem fun hq => ((hnew q).mp hq).2 hnone] at hle
  rw [hfree, Finset.card_empty] at hcard
  unfold Reaches
  omega

/-- A round that goes on has paid for the tables that were missing. -/
theorem reaches_succ (h : Extends s out root V l s1 out1)
    (hpaths : ∀ q, q ∉ tablesOf va → follow s1.mem root q = follow s.mem root q)
    (hthere : ∀ q ∈ tablesOf va, follow s1.mem root q ≠ none) (i : Nat) :
    Reaches s out root va (i + 1) ↔ Reaches s1 out1 root (wrap64 (va + pageSize)) i := by
  obtain ⟨new, hnew, hcard⟩ := h.spent
  have hset : missing s.mem root va (i + 1) =
      new ∪ missing s1.mem root (wrap64 (va + pageSize)) i := by
    ext q
    rw [mem_missing, tablePaths_succ, Finset.mem_union, Finset.mem_union, mem_missing, hnew]
    constructor
    · rintro ⟨hq, h0⟩
      by_cases h1 : follow s1.mem root q = none
      · exact .inr ⟨hq.resolve_left fun hq => hthere q hq h1, h1⟩
      · exact .inl ⟨h0, h1⟩
    · rintro (⟨h0, h1⟩ | ⟨hq, h1⟩)
      · refine ⟨.inl ?_, h0⟩
        by_contra hno
        exact h1 ((hpaths q hno).trans h0)
      · exact ⟨.inr hq, h.none_of_none h1⟩
  have hdisj : Disjoint new (missing s1.mem root (wrap64 (va + pageSize)) i) := by
    rw [Finset.disjoint_left]
    intro q hq hq'
    exact ((hnew q).mp hq).2 (mem_missing.mp hq').2
  unfold Reaches
  rw [hset, Finset.card_union_of_disjoint hdisj]
  omega

end

theorem NotLarge.of_set {m : Mem} {va e : Nat} {es : List Nat} (hlen : es.length = 3)
    (hwalk : walk m root va = some (es ++ [e])) : NotLarge m root va := by
  intro es' hes'
  rw [hwalk] at hes'
  cases hes'
  rw [List.length_append, hlen, List.length_singleton]

/-- **`mmap`'s loop** over a range in which no page that is reached is in a large page: the rounds
made are all of them unless memory has run out. -/
theorem mmapLoop_rounds (flags : Nat) : ∀ (n : Nat) (s : Pmm) (out : Finset (Nat × Nat))
    (va pa : Nat), VmmInv s out root V → pa < 2 ^ 64 →
    (∀ i < n, Reaches s out root va i → NotLarge s.mem root (va + i * 4096)) →
    ∃ s' done out' j, mmapLoop root flags n s va pa = .ok (s', done) ∧
      Extends s out root V (mmapLoopSteps root flags n s va pa) s' out' ∧ j ≤ n ∧
      (done = true ↔ j = n) ∧ Mapped s.mem s'.mem root flags va pa j := by
  intro n
  induction n with
  | zero =>
    intro s out va pa h _ _
    exact ⟨s, true, out, 0, rfl, Extends.refl h, Nat.le_refl _, by simp, Mapped.zero fun _ => rfl⟩
  | succ n ih =>
    intro s out va pa h hpa hva
    have hva0 : NotLarge s.mem root va := by
      have := hva 0 (Nat.succ_pos n) (reaches_zero _ _ _ _)
      rwa [Nat.zero_mul, Nat.add_zero] at this
    obtain ⟨l, s1, out1, hext1, hpaths, ⟨hstop, hwalk, -⟩ | ⟨hstep, hoff, hthere, es, hlen, hwalk⟩⟩ :=
      mmapLoop_round h hva0 hpa flags
    · rw [(hstop n).2]
      exact ⟨s1, false, out1, 0, (hstop n).1, hext1, Nat.zero_le _, by simp, Mapped.zero hwalk⟩
    · rw [(hstep n).1, (hstep n).2]
      obtain ⟨s', done, out', j, hrun', hext', hj, hdone, hmapped⟩ :=
        ih s1 out1 (wrap64 (va + pageSize)) (wrap64 (pa + pageSize)) hext1.inv (wrap64_lt _)
          fun i hi hr => (hva (i + 1) (by omega) ((reaches_succ hext1 hpaths hthere i).mpr hr)).next
            hoff (.of_set hlen hwalk)
      refine ⟨s', done, out', j + 1, hrun', hext1.trans hext', by omega, ?_, ?_⟩
      · rw [hdone]
        omega
      · rw [leafEntry_zero hpa] at hwalk
        exact hmapped.cons hpa hoff hlen hwalk

/-! ## The translation -/

/-- A walk of four entries is a 4 KiB page. -/
theorem translate_of_walk {m : Mem} {va : Nat} {es : List Nat} {e : Nat} (hlen : es.length = 3)
    (hwalk : walk m root va = some (es ++ [e])) :
    translate m root va = some ((e &&& pageAddrMask) + va % 4096) := by
  have ha := and_pageAddrMask_aligned e
  have hbits : leafBits (es ++ [e]).length = 12 := by
    rw [List.length_append, hlen]
    rfl
  have hlast : (es ++ [e]).getLastD 0 = e := by simp
  unfold translate
  rw [hwalk, Option.map_some]
  dsimp only
  rw [hbits, hlast, Nat.shiftRight_eq_div_pow, Nat.shiftLeft_eq]
  congr 1
  omega

/-- `flags` without address bits leave the address of a leaf alone. -/
theorem leafEntry_addr {pa flags i : Nat} (hpa : pa % 4096 = 0) (hfit : pa + i * 4096 < 2 ^ 52)
    (hflags : flags &&& pageAddrMask = 0) : leafEntry pa flags i &&& pageAddrMask = pa + i * 4096 := by
  rw [leafEntry, wrap64_of_lt (by omega), Nat.and_or_distrib_right, Nat.and_or_distrib_right, hflags,
    and_pageAddrMask_of_aligned (by omega) hfit, show pagePresent &&& pageAddrMask = 0 from rfl]
  simp

theorem mmapFlags_addr {flags : Nat} (hflags : flags &&& pageAddrMask = 0) (vaddr : Nat) :
    mmapFlags vaddr flags &&& pageAddrMask = 0 := by
  unfold mmapFlags
  split
  · rw [Nat.and_or_distrib_right, hflags]
    rfl
  · exact hflags

/-- In a tree without large pages nothing is mapped by one. -/
theorem notLarge_of_leavesAt {m : Mem} (hl : pageFormat.LeavesAt (entryOf m) 3 root) (va : Nat) :
    NotLarge m root va := by
  intro es hes
  have := hl.walk_length (path va) [] root es rfl hes
  rw [List.length_nil] at this
  omega

/-- After a call there is a tree again, with pages of its own. -/
theorem mmap_tree {s : Vmm} {out : Finset (Nat × Nat)}
    (htree : PageTree s.pmm.mem s.currentCr3)
    (hlarge : pageFormat.LeavesAt (entryOf s.pmm.mem) 3 s.currentCr3)
    (hspare : Spare s.pmm out (IsTable s.pmm.mem s.currentCr3)) {paddr : Nat}
    (hpa : paddr < 2 ^ 64) (vaddr n flags : Nat) :
    ∃ s' r out', s.mmap paddr vaddr n flags = .ok (s', r) ∧ s'.currentCr3 = s.currentCr3 ∧
      PageTree s'.pmm.mem s.currentCr3 ∧
      pageFormat.LeavesAt (entryOf s'.pmm.mem) 3 s.currentCr3 ∧
      Spare s'.pmm out' (IsTable s'.pmm.mem s.currentCr3) := by
  obtain ⟨s', done, out', j, hrun, hext, -⟩ :=
    mmapLoop_rounds (mmapFlags vaddr flags) n s.pmm out vaddr paddr (.of_spare htree hspare) hpa
      fun i _ _ => notLarge_of_leavesAt hlarge _
  refine ⟨{ s with pmm := s' }, if done then vaddr else 0, out', ?_, rfl, hext.inv.tree,
    hext.leaves hlarge, hext.inv.spare.mono fun _ => .inl⟩
  unfold Vmm.mmap
  rw [hrun, ok_bind]

/-- The pages of a range of at most `2 ^ 36` pages are distinct. -/
theorem path_range_inj {vaddr n i j : Nat} (hn : n ≤ 2 ^ 36) (hi : i < n) (hj : j < n)
    (h : path (vaddr + i * 4096) = path (vaddr + j * 4096)) : i = j := by
  rw [path_eq_iff] at h
  unfold pageNumber at h
  omega

/-- **`mmap` installs exactly the requested translation.** -/
theorem mmap_translates {s : Vmm} {out : Finset (Nat × Nat)}
    (htree : PageTree s.pmm.mem s.currentCr3)
    (hlarge : pageFormat.LeavesAt (entryOf s.pmm.mem) 3 s.currentCr3)
    (hspare : Spare s.pmm out (IsTable s.pmm.mem s.currentCr3)) {paddr vaddr n flags : Nat}
    (hva : vaddr % 4096 = 0) (hpa : paddr % 4096 = 0) (hfit : paddr + n * 4096 ≤ 2 ^ 52)
    (hn : n ≤ 2 ^ 36) (hflags : flags &&& pageAddrMask = 0) :
    ∃ s' r, s.mmap paddr vaddr n flags = .ok (s', r) ∧ (r ≠ 0 →
      (∀ i < n, translate s'.pmm.mem s.currentCr3 (vaddr + i * 4096) = some (paddr + i * 4096)) ∧
      (∀ va, (∀ i < n, pageNumber va ≠ pageNumber (vaddr + i * 4096)) →
        walk s'.pmm.mem s.currentCr3 va = walk s.pmm.mem s.currentCr3 va) ∧
      PageTree s'.pmm.mem s.currentCr3 ∧
      pageFormat.LeavesAt (entryOf s'.pmm.mem) 3 s.currentCr3) := by
  have hinv := VmmInv.of_spare htree hspare
  obtain ⟨s', done, out', j, hrun, hext, -, hdone, hmapped⟩ :=
    mmapLoop_rounds (mmapFlags vaddr flags) n s.pmm out vaddr paddr hinv (by omega)
      fun i _ _ => notLarge_of_leavesAt hlarge _
  refine ⟨{ s with pmm := s' }, if done then vaddr else 0, ?_, fun hr => ?_⟩
  · unfold Vmm.mmap
    rw [hrun, ok_bind]
  · have hd : done = true := by
      by_contra hd
      exact hr (if_neg hd)
    obtain rfl := hdone.mp hd
    refine ⟨fun i hi => ?_, fun va hva' => ?_, hext.inv.tree, hext.leaves hlarge⟩
    · rcases hmapped (vaddr + i * 4096) with ⟨-, hno⟩ | ⟨i', hi', hpath, es, hlen, hwalk⟩
      · exact absurd rfl (hno i hi)
      · obtain rfl := path_range_inj hn hi hi' hpath
        rw [translate_of_walk hlen hwalk, leafEntry_addr hpa (by omega) (mmapFlags_addr hflags vaddr)]
        congr 1
        omega
    · rcases hmapped va with ⟨hsame, -⟩ | ⟨i', hi', hpath, -⟩
      · exact hsame
      · exact absurd (path_eq_iff.mp hpath) (hva' i' hi')

/-- One page, in a machine that has no tables but the root. -/
theorem mmap_translates_boot : ∃ s', bootVmm.mmap 0x5000 0x400000 1 0 = .ok (s', 0x400000) ∧
    translate s'.pmm.mem 0x1000 0x400000 = some 0x5000 := by
  obtain ⟨s', r, hrun, htrans⟩ := @mmap_translates bootVmm ∅ boot_tree.1 boot_tree.2 boot_spare
    0x5000 0x400000 1 0 rfl rfl (by decide) (by decide) rfl
  have hret : (bootVmm.mmap 0x5000 0x400000 1 0).map Prod.snd = .ok 0x400000 := rfl
  rw [hrun] at hret
  obtain rfl : r = 0x400000 := Except.ok.inj hret
  exact ⟨s', hrun, (htrans (by decide)).1 0 (by decide)⟩

end HelixKernel
