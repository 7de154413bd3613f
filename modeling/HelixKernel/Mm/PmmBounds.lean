import HelixKernel.Mm.PmmRun

/-!
# Accesses to `free_list`

`max_order` is found by a loop that only the region's page count stops, and then
indexes a table of sixteen heads.  On any memory map at all (overlapping,
unaligned, empty entries included) every access is inside the table in every
reachable state exactly if each region taken over has fewer than `2 ^ 16` pages,
which is 256 MiB:

    IndicesBounded memmap ↔ ∀ r ∈ regions memmap, r.2 / 4096 < 2 ^ 16
                                                   (indicesBounded_iff)

`region` of a segment (base, size, `max_order`) is what no call changes. -/

namespace HelixKernel

/-- What `initialise` fixes about a segment. -/
def PmmSegment.region (seg : PmmSegment) : Nat × Nat × Nat := (seg.basePtr, seg.size, seg.maxOrder)

/-- The regions that become segments: those of the first 128 managed entries. -/
def regions (memmap : List MemmapEntry) : List (Nat × Nat) :=
  (memmap.filterMap MemmapEntry.region).take maxSegtab

section calls

variable {mem : Mem} {seg : PmmSegment}

theorem head_inBounds {i : Nat} (hi : i < 16) : InBounds (fun _ => True) (seg.head i) := by
  unfold PmmSegment.head
  rw [dif_pos hi]
  exact trivial

theorem setHead_inBounds {i : Nat} (hi : i < 16) (b : Nat) :
    InBounds (fun seg' => seg'.region = seg.region) (seg.setHead i b) := by
  unfold PmmSegment.setHead
  rw [dif_pos hi]
  exact rfl

theorem addBlock_inBounds {k : Nat} (hk : k < 16) (b : Nat) :
    InBounds (fun r => r.2.region = seg.region) (addBlock mem seg k b) := by
  unfold addBlock
  refine (head_inBounds hk).bind fun _ _ => (setHead_inBounds hk b).bind fun seg' h => ?_
  exact h

theorem removeBlock_inBounds {k : Nat} (hk : k < 16) :
    InBounds (fun r => r.2.region = seg.region) (removeBlock mem seg k) := by
  unfold removeBlock
  refine (head_inBounds hk).bind fun b _ => ?_
  split
  · exact rfl
  · exact (setHead_inBounds hk _).bind fun seg' h => h

theorem allocSplit_inBounds (order b : Nat) : ∀ (current : Nat) (mem : Mem) (seg : PmmSegment),
    current ≤ 16 →
    InBounds (fun r => r.2.region = seg.region) (allocSplit order b current mem seg) := by
  intro current
  induction current with
  | zero => intro mem seg _; exact rfl
  | succ current ih =>
    intro mem seg hc
    unfold allocSplit
    split
    · refine (addBlock_inBounds (by omega) _).bind fun r hr => ?_
      exact (ih r.1 r.2 (by omega)).mono fun r' hr' => hr'.trans hr
    · exact rfl

/-- The body of a loop over the segments keeps the region; `R` is what it says of its result. -/
def BodyKeeps {β : Type} (R : β → Prop) (seg : PmmSegment) (r : Option (PmmSegment × β)) : Prop :=
  ∀ seg' x, r = some (seg', x) → seg'.region = seg.region ∧ R x

theorem allocSearch_inBounds (hM : seg.maxOrder ≤ 15) (order : Nat) : ∀ (todo current : Nat),
    current + todo ≤ seg.maxOrder + 1 → order ≤ current →
    InBounds (BodyKeeps (fun _ => order ≤ 15) seg) (allocSearch mem order seg todo current) := by
  intro todo
  induction todo with
  | zero => intro current _ _ seg' x hr; cases hr
  | succ todo ih =>
    intro current hc ho
    unfold allocSearch
    refine (head_inBounds (by omega)).bind fun h _ => ?_
    split
    · exact ih (current + 1) (by omega) (by omega)
    · refine (removeBlock_inBounds (by omega)).bind fun r hr => ?_
      refine (allocSplit_inBounds order r.1 current mem r.2 (by omega)).bind fun r' hr' => ?_
      intro seg' x he
      simp only [Option.some.injEq, Prod.mk.injEq] at he
      obtain ⟨rfl, -⟩ := he
      exact ⟨hr'.trans hr, by omega⟩

theorem allocIn_inBounds (hM : seg.maxOrder ≤ 15) (order : Nat) :
    InBounds (BodyKeeps (fun _ => order ≤ 15) seg) (allocIn mem order seg) := by
  unfold allocIn
  by_cases ho : order ≤ seg.maxOrder
  · exact allocSearch_inBounds hM order _ order (by omega) (Nat.le_refl _)
  · rw [show seg.maxOrder + 1 - order = 0 by omega]
    intro seg' x hr
    cases hr

theorem forSegs_inBounds {β : Type} {R : β → Prop}
    {body : PmmSegment → Except Fault (Option (PmmSegment × β))} {l : List PmmSegment}
    (h : ∀ seg ∈ l, InBounds (BodyKeeps R seg) (body seg)) :
    InBounds (fun r => ∀ l' x, r = some (l', x) →
      l'.map PmmSegment.region = l.map PmmSegment.region ∧ R x) (forSegs body l) := by
  induction l with
  | nil =>
    intro l' x hr
    cases hr
  | cons seg l ih =>
    unfold forSegs
    refine (h seg List.mem_cons_self).bind fun r hr => ?_
    rcases r with _ | ⟨seg', x⟩
    · refine (ih fun x hx => h x (List.mem_cons_of_mem _ hx)).bind fun r' hr' => ?_
      rcases r' with _ | ⟨l', x⟩
      · intro l'' y he
        cases he
      · intro l'' y he
        simp only [Option.some.injEq, Prod.mk.injEq] at he
        obtain ⟨rfl, rfl⟩ := he
        obtain ⟨hmap, hR⟩ := hr' l' x rfl
        rw [List.map_cons, List.map_cons, hmap]
        exact ⟨rfl, hR⟩
    · intro l' y he
      simp only [Option.some.injEq, Prod.mk.injEq] at he
      obtain ⟨rfl, rfl⟩ := he
      obtain ⟨hreg, hR⟩ := hr seg' x rfl
      rw [List.map_cons, List.map_cons, hreg]
      exact ⟨rfl, hR⟩

theorem alloc_inBounds {s : Pmm} (hM : ∀ seg ∈ s.segtab, seg.maxOrder ≤ 15) (n : Nat) :
    InBounds (fun r => r.1.segtab.map PmmSegment.region = s.segtab.map PmmSegment.region ∧
      (r.2 ≠ 0 → orderFor n ≤ 15)) (s.alloc n) := by
  unfold Pmm.alloc
  dsimp only
  refine (forSegs_inBounds fun seg hs => allocIn_inBounds (hM seg hs) (orderFor n)).bind fun r hr => ?_
  match r with
  | some (segtab, mem', b) =>
    obtain ⟨hmap, ho⟩ := hr segtab (mem', b) rfl
    exact ⟨hmap, fun _ => ho⟩
  | none => exact ⟨rfl, fun h => absurd rfl h⟩

theorem findBuddy_inBounds (target : Nat) : ∀ (fuel prev curr : Nat),
    InBounds (fun _ => True) (findBuddy mem target fuel prev curr) := by
  intro fuel
  induction fuel with
  | zero =>
    intro prev curr
    unfold findBuddy
    split <;> exact trivial
  | succ fuel ih =>
    intro prev curr
    unfold findBuddy
    split
    · exact trivial
    · split
      · exact trivial
      · exact ih _ _

theorem freeMerge_inBounds : ∀ (todo : Nat) (mem : Mem) (seg : PmmSegment) (addr order : Nat),
    order + todo ≤ 15 →
    InBounds (fun r => r.2.1.region = seg.region ∧ r.2.2.2 ≤ 15)
      (freeMerge todo mem seg addr order) := by
  intro todo
  induction todo with
  | zero => intro mem seg addr order ho; exact ⟨rfl, ho⟩
  | succ todo ih =>
    intro mem seg addr order ho
    unfold freeMerge
    dsimp only
    refine (head_inBounds (by omega)).bind fun h _ => (findBuddy_inBounds _ _ _ _).bind fun r _ => ?_
    cases r with
    | none =>
      refine ⟨rfl, ?_⟩
      show order ≤ 15
      omega
    | some prev =>
      have hunlink : InBounds (fun r => r.2.region = seg.region) (unlinkBlock mem seg order prev
          (wrap64 (seg.basePtr + (sub64 addr seg.basePtr ^^^ 1 <<< (order + 12))))) := by
        unfold unlinkBlock
        split
        · exact rfl
        · exact (setHead_inBounds (by omega) _).bind fun seg' h => h
      refine hunlink.bind fun r hr => ?_
      exact (ih r.1 r.2 _ _ (by omega)).mono fun r' hr' => ⟨hr'.1.trans hr, hr'.2⟩

theorem freeIn_inBounds (hM : seg.maxOrder ≤ 15) {order : Nat} (ho : order ≤ 15) (addr : Nat) :
    InBounds (BodyKeeps (fun _ => True) seg) (freeIn mem addr order seg) := by
  unfold freeIn
  by_cases hin : addr < seg.basePtr ∨ addr ≥ wrap64 (seg.basePtr + seg.size)
  · rw [if_pos hin]
    intro seg' x he
    cases he
  · rw [if_neg hin]
    refine (freeMerge_inBounds _ mem seg addr order (by omega)).bind fun r hr => ?_
    have hk : r.2.2.2 < 16 := Nat.lt_succ_of_le hr.2
    refine (addBlock_inBounds hk r.2.2.1).bind fun r' hr' => ?_
    intro seg' x he
    rw [Option.some.injEq, Prod.mk.injEq] at he
    have hseg : r'.2.region = seg'.region := by
      rw [← he.1]
      unfold PmmSegment.region
      with_reducible rfl
    exact ⟨hseg.symm.trans (hr'.trans hr.1), trivial⟩

theorem free_inBounds {s : Pmm} (hM : ∀ seg ∈ s.segtab, seg.maxOrder ≤ 15) (p : Nat) {n : Nat}
    (ho : orderFor n ≤ 15) :
    InBounds (fun s' => s'.segtab.map PmmSegment.region = s.segtab.map PmmSegment.region)
      (s.free p n) := by
  unfold Pmm.free
  refine (forSegs_inBounds fun seg hs => freeIn_inBounds (hM seg hs) ho p).bind fun r hr => ?_
  match r with
  | some (segtab, mem', order) => exact (hr segtab (mem', order) rfl).1
  | none => exact rfl

end calls

/-! ## `initialise` -/

theorem regions_mem {memmap : List MemmapEntry} {r : Nat × Nat} (hr : r ∈ regions memmap) :
    ∃ e ∈ memmap, e.region = some r := List.mem_filterMap.mp (List.mem_of_mem_take hr)

theorem region_length_lt {e : MemmapEntry} {r : Nat × Nat} (h : e.region = some r) : r.2 < 2 ^ 64 := by
  have := region_span h
  have := e.length_lt
  omega

theorem regions_length_lt {memmap : List MemmapEntry} {r : Nat × Nat} (hr : r ∈ regions memmap) :
    r.2 < 2 ^ 64 := by
  obtain ⟨e, -, he⟩ := regions_mem hr
  exact region_length_lt he

/-- The order of the one block a region gives. -/
def regionOrder (r : Nat × Nat) : Nat := (newSegment r.1 r.2).maxOrder

theorem regionOrder_le_iff {memmap : List MemmapEntry} {r : Nat × Nat} (hr : r ∈ regions memmap) :
    regionOrder r ≤ 15 ↔ r.2 / 4096 < 2 ^ 16 := newSegment_maxOrder_le_iff r.1 (regions_length_lt hr)

/-- The segment of a region: that block on its list, null at the other heads. -/
def wholeSegment (r : Nat × Nat) : PmmSegment :=
  (newSegment r.1 r.2).withLists (Vector.ofFn fun k => if k = regionOrder r then r.1 else 0)

/-- The loop of `initialise` over the regions alone. -/
def addRegions : List (Nat × Nat) → Mem → List PmmSegment → Except Fault (Mem × List PmmSegment)
  | [], mem, segtab => .ok (mem, segtab)
  | r :: rest, mem, segtab => do
    let (mem, seg) ← addBlock mem (newSegment r.1 r.2) (regionOrder r) r.1
    addRegions rest mem (segtab ++ [seg])

/-- Entries without a region, and those behind a full table, do nothing. -/
theorem initialiseLoop_eq : ∀ (memmap : List MemmapEntry) (mem : Mem) (segtab : List PmmSegment),
    initialiseLoop memmap mem segtab = addRegions
      ((memmap.filterMap MemmapEntry.region).take (maxSegtab - segtab.length)) mem segtab := by
  intro memmap
  induction memmap with
  | nil => intro mem segtab; simp [initialiseLoop, addRegions]
  | cons e rest ih =>
    intro mem segtab
    unfold initialiseLoop
    cases hreg : e.region with
    | none =>
      rw [List.filterMap_cons_none hreg]
      exact ih mem segtab
    | some r =>
      rw [List.filterMap_cons_some hreg]
      dsimp only
      by_cases hfull : segtab.length ≥ maxSegtab
      · rw [if_pos hfull, show maxSegtab - segtab.length = 0 by omega]
        rfl
      · rw [if_neg hfull, show maxSegtab - segtab.length = maxSegtab - (segtab.length + 1) + 1 by omega,
          List.take_succ_cons]
        show (addBlock mem _ (regionOrder r) r.1 >>= _) = (addBlock mem _ (regionOrder r) r.1 >>= _)
        congr 1
        ext x
        dsimp only
        rw [ih, List.length_append, List.length_singleton]

theorem addBlock_region (mem : Mem) (r : Nat × Nat) (hk : regionOrder r < 16) :
    addBlock mem (newSegment r.1 r.2) (regionOrder r) r.1 =
      .ok (mem.store .header r.1 0, wholeSegment r) := by
  have hlists : (newSegment r.1 r.2).freeList.set (regionOrder r) r.1 =
      Vector.ofFn fun k : Fin 16 => if k = regionOrder r then r.1 else 0 := by
    ext k hk16
    rw [Vector.getElem_set, Vector.getElem_ofFn, newSegment_freeList r.1 r.2 k hk16]
    simp only [eq_comm (a := k)]
  rw [addBlock_eq _ _ hk, newSegment_freeList r.1 r.2 _ hk]
  unfold PmmSegment.withHead
  rw [hlists]
  rfl

/-- Where no region is too large each becomes its segment, and every header is null. -/
theorem addRegions_whole : ∀ (l : List (Nat × Nat)) (mem : Mem) (segtab : List PmmSegment),
    (∀ r ∈ l, regionOrder r ≤ 15) →
    ∃ mem', addRegions l mem segtab = .ok (mem', segtab ++ l.map wholeSegment) ∧
      (∀ a, mem.word a = 0 → mem'.word a = 0) ∧ ∀ r ∈ l, mem'.word r.1 = 0 := by
  intro l
  induction l with
  | nil => intro mem segtab _; exact ⟨mem, by simp [addRegions]⟩
  | cons r l ih =>
    intro mem segtab hsmall
    have hr := hsmall r List.mem_cons_self
    obtain ⟨mem', hrun, hzero, hheads⟩ := ih (mem.store .header r.1 0) (segtab ++ [wholeSegment r])
      fun x hx => hsmall x (List.mem_cons_of_mem _ hx)
    refine ⟨mem', ?_, fun a ha => hzero a ?_, fun x hx => ?_⟩
    · unfold addRegions
      rw [addBlock_region mem r (by omega), ok_bind]
      dsimp only
      rw [hrun, List.append_assoc, List.map_cons]
      rfl
    · by_cases hab : a = r.1
      · rw [hab, Mem.store_word_self]
      · rw [Mem.store_word_ne _ _ _ hab, ha]
    · rcases List.mem_cons.mp hx with rfl | hx
      · exact hzero _ (Mem.store_word_self ..)
      · exact hheads x hx

/-- An order past the heads is a write past them. -/
theorem addRegions_outOfBounds : ∀ (l : List (Nat × Nat)) (mem : Mem) (segtab : List PmmSegment),
    (∃ r ∈ l, ¬ regionOrder r ≤ 15) → ∃ i, addRegions l mem segtab = .error (.outOfBounds i) := by
  intro l
  induction l with
  | nil =>
    rintro mem segtab ⟨r, hr, -⟩
    cases hr
  | cons r l ih =>
    rintro mem segtab ⟨q, hq, hlarge⟩
    unfold addRegions
    by_cases hr : regionOrder r < 16
    · rw [addBlock_region mem r hr, ok_bind]
      refine ih _ _ ⟨q, ?_, hlarge⟩
      rcases List.mem_cons.mp hq with rfl | hq
      · omega
      · exact hq
    · refine ⟨regionOrder r, ?_⟩
      simp only [addBlock, PmmSegment.head]
      rw [dif_neg hr]
      rfl

/-- **`initialise` returns** where no region has 2^16 pages or more. -/
theorem initialise_whole {memmap : List MemmapEntry}
    (hpages : ∀ r ∈ regions memmap, r.2 / 4096 < 2 ^ 16) (mem : Mem) :
    ∃ s, Pmm.initialise mem memmap = .ok s ∧ s.segtab = (regions memmap).map wholeSegment ∧
      ∀ r ∈ regions memmap, s.mem.word r.1 = 0 := by
  obtain ⟨mem', hrun, -, hheads⟩ := addRegions_whole (regions memmap) mem []
    fun r hr => (regionOrder_le_iff hr).mpr (hpages r hr)
  have hloop : initialiseLoop memmap mem [] = .ok (mem', (regions memmap).map wholeSegment) :=
    (initialiseLoop_eq memmap mem []).trans hrun
  unfold Pmm.initialise
  rw [hloop, ok_bind]
  exact ⟨_, rfl, rfl, hheads⟩

/-- A region of 2^16 pages or more makes it write past the heads. -/
theorem initialise_outOfBounds {memmap : List MemmapEntry}
    (hbig : ∃ r ∈ regions memmap, ¬ r.2 / 4096 < 2 ^ 16) (mem : Mem) :
    ∃ i, Pmm.initialise mem memmap = .error (.outOfBounds i) := by
  obtain ⟨r, hr, hlarge⟩ := hbig
  obtain ⟨i, hi⟩ := addRegions_outOfBounds (regions memmap) mem []
    ⟨r, hr, fun h => hlarge ((regionOrder_le_iff hr).mp h)⟩
  have hloop : initialiseLoop memmap mem [] = .error (.outOfBounds i) :=
    (initialiseLoop_eq memmap mem []).trans hi
  refine ⟨i, ?_⟩
  unfold Pmm.initialise
  rw [hloop, error_bind]

theorem initialise_inBounds {memmap : List MemmapEntry}
    (hpages : ∀ r ∈ regions memmap, r.2 / 4096 < 2 ^ 16) (mem : Mem) :
    InBounds (fun s => s.segtab.map PmmSegment.region =
      (regions memmap).map fun bl => (newSegment bl.1 bl.2).region) (Pmm.initialise mem memmap) := by
  obtain ⟨s, hrun, htab, -⟩ := initialise_whole hpages mem
  rw [hrun]
  show s.segtab.map PmmSegment.region = _
  rw [htab, List.map_map]
  rfl

theorem WellFormedMap.regions_lt {memmap : List MemmapEntry} (hmm : WellFormedMap memmap) :
    ∀ r ∈ regions memmap, r.2 / 4096 < 2 ^ 16 := by
  intro r hr
  obtain ⟨e, he, hreg⟩ := regions_mem hr
  exact (hmm.pages e he r.1 r.2 hreg).2

/-! ## Runs -/

/-- No call changes the regions. -/
theorem Reach.map_region {memmap : List MemmapEntry}
    (hpages : ∀ r ∈ regions memmap, r.2 / 4096 < 2 ^ 16) {s : Pmm}
    {out : Finset (Nat × Nat)} (h : Reach memmap s out) :
    (s.segtab.map PmmSegment.region =
      (regions memmap).map fun bl => (newSegment bl.1 bl.2).region) ∧
    (∀ seg ∈ s.segtab, seg.maxOrder ≤ 15) ∧ ∀ pk ∈ out, pk.2 ≤ 15 := by
  have hsmall : ∀ segtab : List PmmSegment, segtab.map PmmSegment.region =
      ((regions memmap).map fun bl => (newSegment bl.1 bl.2).region) →
      ∀ seg ∈ segtab, seg.maxOrder ≤ 15 := by
    intro segtab hmap seg hs
    have hin := List.mem_map_of_mem (f := PmmSegment.region) hs
    rw [hmap] at hin
    obtain ⟨bl, hbl, he⟩ := List.mem_map.mp hin
    have hM : regionOrder bl = seg.maxOrder := congrArg (fun r => r.2.2) he
    rw [← hM]
    exact (regionOrder_le_iff hbl).mpr (hpages bl hbl)
  induction h with
  | initialise h =>
    have hmap := (initialise_inBounds hpages _).of_ok h
    exact ⟨hmap, hsmall _ hmap, fun pk hpk => absurd hpk (Finset.notMem_empty _)⟩
  | @alloc s s' out n p _ h ih =>
    obtain ⟨hmap, ho⟩ := (alloc_inBounds ih.2.1 n).of_ok h
    have hmap' := hmap.trans ih.1
    refine ⟨hmap', hsmall _ hmap', fun pk hpk => ?_⟩
    unfold track at hpk
    split at hpk
    · exact ih.2.2 pk hpk
    · next hp =>
      rcases Finset.mem_insert.mp hpk with rfl | hpk
      · exact ho hp
      · exact ih.2.2 pk hpk
  | @free s s' out p n _ hp _ h ih =>
    have hmap := (free_inBounds ih.2.1 p (ih.2.2 _ hp)).of_ok h
    have hmap' := hmap.trans ih.1
    exact ⟨hmap', hsmall _ hmap', fun pk hpk => ih.2.2 pk (Finset.mem_of_mem_erase hpk)⟩
  | write _ _ ih => exact ih

/-- Every access to `free_list` is inside it: in `initialise`, and in every reachable state in
`alloc` and in `free` of an outstanding block. -/
structure IndicesBounded (memmap : List MemmapEntry) : Prop where
  initialise : ∀ mem i, Pmm.initialise mem memmap ≠ .error (.outOfBounds i)
  maxOrder : ∀ s out, Reach memmap s out → ∀ seg ∈ s.segtab, seg.maxOrder ≤ 15
  alloc : ∀ s out, Reach memmap s out → ∀ n i, s.alloc n ≠ .error (.outOfBounds i)
  free : ∀ s out, Reach memmap s out → ∀ p n, (p, orderFor n) ∈ out →
    ∀ i, s.free p n ≠ .error (.outOfBounds i)

/-- **Sixteen heads are enough exactly for regions below 256 MiB**, on any memory map. -/
theorem indicesBounded_iff (memmap : List MemmapEntry) :
    IndicesBounded memmap ↔ ∀ r ∈ regions memmap, r.2 / 4096 < 2 ^ 16 := by
  constructor
  · intro hb r hr
    by_contra hbig
    obtain ⟨i, hi⟩ := initialise_outOfBounds ⟨r, hr, hbig⟩ ⟨fun _ => 0, []⟩
    exact hb.initialise ⟨fun _ => 0, []⟩ i hi
  · intro hpages
    refine ⟨fun mem i => (initialise_inBounds hpages mem).ne_outOfBounds i, ?_, ?_, ?_⟩
    · intro s out h
      exact (h.map_region hpages).2.1
    · intro s out h n i
      exact (alloc_inBounds (h.map_region hpages).2.1 n).ne_outOfBounds i
    · intro s out h p n hp i
      obtain ⟨-, hM, ho⟩ := h.map_region hpages
      exact (free_inBounds hM p (ho _ hp)).ne_outOfBounds i

/-- One region of 256 MiB is one too many. -/
theorem not_indicesBounded_256MiB :
    ¬ IndicesBounded [{ base := 0x100000, length := 0x10000000, type := .usable }] :=
  fun h => h.initialise ⟨fun _ => 0, []⟩ 16 rfl

end HelixKernel
