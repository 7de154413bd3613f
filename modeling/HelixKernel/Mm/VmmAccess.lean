import HelixKernel.Mm.Boot

/-!
# What a mapping gives access to

The hardware lets a page be written, or reached from user mode, where every entry of the walk
does, and keeps it from being executed where any entry does.  `mmap` gives new tables an entry
that takes nothing away from `flags`, but goes through the entries it finds as they are.

    mmap_access_iff   the pages of a mapping have the access asked for iff the entries above
                      them, as they were before the call, admit it (and no physical address
                      has bit 63, which is `PAGE_NX`) -/

namespace HelixKernel

/-- `PAGE_NX` -/
def pageNx : Nat := 1 <<< 63

def has (flag e : Nat) : Bool := e &&& flag != 0

structure Access where
  write : Bool
  user : Bool
  noExecute : Bool
deriving DecidableEq, Repr

/-- What the hardware makes of the entries of a walk. -/
def effective (es : List Nat) : Access where
  write := es.all (has pageWrite)
  user := es.all (has pageUser)
  noExecute := es.any (has pageNx)

/-- The access to the page of `va`, if it is mapped. -/
def access (m : Mem) (root va : Nat) : Option Access := (walk m root va).map effective

/-- What `flags` ask for. -/
def requested (flags : Nat) : Access where
  write := has pageWrite flags
  user := has pageUser flags
  noExecute := has pageNx flags

/-- The entries that lead to tables on the way to `va`. -/
def upperEntries (m : Mem) (root va : Nat) : List Nat :=
  pageFormat.passed (entryOf m) 0 root (path va)

/-- An entry takes nothing away from `flags`. -/
structure Admits (flags e : Nat) : Prop where
  write : has pageWrite flags = true → has pageWrite e = true
  user : has pageUser flags = true → has pageUser e = true
  execute : has pageNx e = true → has pageNx flags = true

/-- The entries on the way to the pages admit `flags`, and so do the physical addresses. -/
def AdmitsRange (m : Mem) (root flags va pa n : Nat) : Prop :=
  ∀ i < n, (∀ e ∈ upperEntries m root (va + i * 4096), Admits flags e) ∧
    (has pageNx (wrap64 (pa + i * 4096)) = true → has pageNx flags = true)

/-- The pages of the range lie below `2 ^ 47`, or in the top `2 ^ 47` bytes. -/
def OneHalf (va n : Nat) : Prop :=
  va + n * 4096 ≤ 2 ^ 47 ∨ (2 ^ 64 - 2 ^ 47 ≤ va ∧ va + n * 4096 ≤ 2 ^ 64)

/-! ## Entries -/

theorem has_eq (k e : Nat) : has (1 <<< k) e = e.testBit k := by
  show (e &&& 1 <<< k != 0) = _
  rw [Nat.one_shiftLeft, Nat.and_two_pow]
  cases e.testBit k <;> simp

theorem has_write (e : Nat) : has pageWrite e = e.testBit 1 := has_eq 1 e
theorem has_user (e : Nat) : has pageUser e = e.testBit 2 := has_eq 2 e
theorem has_nx (e : Nat) : has pageNx e = e.testBit 63 := has_eq 63 e

/-- An entry as `get_or_create_table` makes it, with `flags`. -/
def MadeFor (flags e : Nat) : Prop :=
  has pageWrite e = true ∧ has pageUser e = has pageUser flags ∧ has pageNx e = false

theorem MadeFor.admits {flags e : Nat} (h : MadeFor flags e) : Admits flags e := by
  obtain ⟨hw, hu, hx⟩ := h
  refine ⟨fun _ => hw, fun hf => by rw [hu, hf], fun he => ?_⟩
  rw [hx] at he
  cases he

theorem madeFor_tableEntry {page : Nat} (ha : page % 4096 = 0) (hlt : page < 2 ^ 47) (flags : Nat) :
    MadeFor flags (tableEntry page flags) := by
  have hbit : ∀ k, (tableEntry page flags).testBit k =
      (page.testBit k || pagePresent.testBit k || pageWrite.testBit k ||
        (flags.testBit k && pageUser.testBit k)) := by
    intro k
    rw [tableEntry, Nat.testBit_or, Nat.testBit_or, Nat.testBit_or, Nat.testBit_and]
  refine ⟨?_, ?_, ?_⟩
  · rw [has_write, hbit, show pageWrite.testBit 1 = true from rfl]
    simp
  · rw [has_user, has_user, hbit, testBit_aligned ha (by decide),
      show pagePresent.testBit 2 = false from rfl, show pageWrite.testBit 2 = false from rfl,
      show pageUser.testBit 2 = true from rfl]
    simp
  · rw [has_nx, hbit, Nat.testBit_lt_two_pow (by omega : page < 2 ^ 63),
      show pagePresent.testBit 63 = false from rfl, show pageWrite.testBit 63 = false from rfl,
      show pageUser.testBit 63 = false from rfl]
    simp

/-- The bits of a leaf are those of `flags`, but for a physical address with bit 63. -/
theorem leafEntry_access {pa : Nat} (hpa : pa % 4096 = 0) (flags i : Nat) :
    has pageWrite (leafEntry pa flags i) = has pageWrite flags ∧
    has pageUser (leafEntry pa flags i) = has pageUser flags ∧
    has pageNx (leafEntry pa flags i) = (has pageNx (wrap64 (pa + i * 4096)) || has pageNx flags) := by
  have hal : wrap64 (pa + i * 4096) % 4096 = 0 := by
    unfold wrap64
    omega
  simp only [has_write, has_user, has_nx, leafEntry, Nat.testBit_or]
  rw [testBit_aligned hal (by decide), testBit_aligned hal (by decide),
    show pagePresent.testBit 1 = false from rfl, show pagePresent.testBit 2 = false from rfl,
    show pagePresent.testBit 63 = false from rfl]
  simp

theorem all_eq_iff (es : List Nat) (p : Nat → Bool) (b : Bool) :
    (es.all p && b) = b ↔ (b = true → ∀ e ∈ es, p e = true) := by
  cases b <;> simp

theorem any_eq_iff (es : List Nat) (p : Nat → Bool) (c b : Bool) :
    (es.any p || (c || b)) = b ↔ (∀ e ∈ es, p e = true → b = true) ∧ (c = true → b = true) := by
  cases b <;> simp

/-- A walk gives the access asked for exactly if its entries admit it. -/
theorem effective_eq_iff {es : List Nat} {flags pa i : Nat} (hpa : pa % 4096 = 0) :
    effective (es ++ [leafEntry pa flags i]) = requested flags ↔
      (∀ e ∈ es, Admits flags e) ∧
        (has pageNx (wrap64 (pa + i * 4096)) = true → has pageNx flags = true) := by
  obtain ⟨hw, hu, hx⟩ := leafEntry_access hpa flags i
  unfold effective requested
  rw [Access.mk.injEq, List.all_append, List.all_append, List.any_append]
  simp only [List.all_cons, List.all_nil, List.any_cons, List.any_nil, Bool.and_true, Bool.or_false,
    hw, hu, hx, all_eq_iff, any_eq_iff]
  constructor
  · rintro ⟨hw, hu, hx, hpa⟩
    exact ⟨fun e he => ⟨fun hf => hw hf e he, fun hf => hu hf e he, hx e he⟩, hpa⟩
  · rintro ⟨hall, hpa⟩
    exact ⟨fun hf e he => (hall e he).write hf, fun hf e he => (hall e he).user hf,
      fun e he => (hall e he).execute, hpa⟩

/-! ## The calls -/

variable {s s' : Pmm} {out : Finset (Nat × Nat)} {root : Nat} {V : Nat → Prop}

/-- Entries that lead to tables stay, and new ones are made for `flags`. -/
abbrev TablesGrown (flags : Nat) (m m' : Mem) (root : Nat) : Prop :=
  pageFormat.Grown (MadeFor flags) (entryOf m) (entryOf m') root

theorem getOrCreateTable_grown (h : VmmInv s out root V) {p : List (Fin 512)} {t : Nat}
    (hp : follow s.mem root p = some t) (hd : p.length < 3) {i : Fin 512} {flags r : Nat}
    (hrun : getOrCreateTable s (paToVa t) i flags = .ok (s', r)) :
    TablesGrown flags s.mem s'.mem root := by
  have ht := h.tree.table t ⟨p, hp⟩
  unfold getOrCreateTable at hrun
  dsimp only at hrun
  rw [phys_entry ht.1 ht.2 i.isLt] at hrun
  by_cases h0 : s.mem.word (t + 8 * i) &&& pagePresent = 0
  · have hpres : present (entryOf s.mem t i) = false := (present_eq_false _).mpr h0
    obtain ⟨B, hB⟩ := h.spare.inv
    obtain ⟨s1, page, halloc, hpages⟩ := alloc_pages hB 1
    rw [if_pos h0, halloc, ok_bind] at hrun
    by_cases hpage : page = 0
    · rw [hpage] at hrun hpages
      obtain ⟨rfl, -⟩ := Prod.mk.inj (Except.ok.inj (hrun.symm.trans (if_pos rfl)))
      rw [hpages.null rfl]
      exact .refl _ _
    · have hlow := h.spare.low page (hpages.page hpage)
      obtain ⟨m, hm⟩ : ∃ m, (s1.mem.clear .table page pageSize).store .table (t + 8 * i)
        (tableEntry page flags) = m := ⟨_, rfl⟩
      obtain ⟨hnew, hold, -⟩ := link_paths h hp hpages hpage hm hd hpres
      have hmem : s'.mem = m := by
        have hstate := congrArg Prod.fst (Except.ok.inj (hrun.symm.trans (if_neg hpage)))
        dsimp only at hstate
        rw [phys_paToVa hlow] at hstate
        rw [hstate]
        exact hm
      rw [hmem]
      refine RadixFormat.Grown.link h.tree.tree hp
        (fun r n j hr hne => link_old h hp hpages hpage hm hr hne) (child_of_not_present hpres).1
        (fun j => ?_) hnew hold ?_
      · rw [link_new h hp hpages hpage hm]
        exact (child_zero _).1
      · unfold entryOf
        rw [← hm, Mem.store_word_self]
        exact madeFor_tableEntry hpages.aligned hlow flags
  · rw [if_neg h0] at hrun
    obtain ⟨rfl, -⟩ := Prod.mk.inj (Except.ok.inj hrun)
    exact .refl _ _

theorem pageTableFor_grown (h : VmmInv s out root V) {va : Nat} (hva : NotLarge s.mem root va)
    {flags r : Nat} (hrun : pageTableFor s root va flags = .ok (s', r)) :
    TablesGrown flags s.mem s'.mem root := by
  unfold pageTableFor at hrun
  have hroot : follow s.mem root [] = some root := rfl
  obtain ⟨s1, r1, out1, hrun1, hext1, hwalk1, -, -, hr1⟩ := getOrCreateTable_spec h hroot (by decide)
    (hva.leaf (i := index 39 va) (q := [index 30 va, index 21 va, index 12 va]) rfl hroot
      (by decide)) flags
  have hgrown1 := getOrCreateTable_grown h hroot (by decide) hrun1
  rw [show pml4Idx va = index 39 va from rfl, hrun1, ok_bind] at hrun
  have hd1 : [index 39 va].length < 3 := by simp
  have hd2 : [index 39 va, index 30 va].length < 3 := by simp
  rcases hr1 with rfl | ⟨pdpt, rfl, hpdpt⟩
  · obtain ⟨rfl, -⟩ := Prod.mk.inj (Except.ok.inj (hrun.symm.trans (if_pos rfl)))
    exact hgrown1
  have hne1 := paToVa_ne_zero (hext1.inv.tree.table pdpt ⟨_, hpdpt⟩).2
  have hva1 : NotLarge s1.mem root va := hva.congr (hwalk1 _)
  obtain ⟨s2, r2, out2, hrun2, hext2, hwalk2, -, -, hr2⟩ := getOrCreateTable_spec hext1.inv hpdpt
    hd1 (hva1.leaf (i := index 30 va) (q := [index 21 va, index 12 va]) rfl hpdpt hd1) flags
  have hgrown2 := hgrown1.trans (getOrCreateTable_grown hext1.inv hpdpt hd1 hrun2)
  dsimp only at hrun
  rw [if_neg hne1, show pdptIdx va = index 30 va from rfl, hrun2, ok_bind] at hrun
  rcases hr2 with rfl | ⟨pd, rfl, hpd⟩
  · obtain ⟨rfl, -⟩ := Prod.mk.inj (Except.ok.inj (hrun.symm.trans (if_pos rfl)))
    exact hgrown2
  have hne2 := paToVa_ne_zero (hext2.inv.tree.table pd ⟨_, hpd⟩).2
  dsimp only at hrun
  rw [if_neg hne2, show pdIdx va = index 21 va from rfl] at hrun
  exact hgrown2.trans (getOrCreateTable_grown hext2.inv hpd hd2 hrun)

theorem set_entry_grown (h : VmmInv s out root V) {va pt : Nat}
    (hp : follow s.mem root [index 39 va, index 30 va, index 21 va] = some pt) (flags e : Nat) :
    TablesGrown flags s.mem (s.mem.store .table (pt + 8 * (index 12 va).val) e) root := by
  have hget := fun r n j => h.store_other hp (r := r) (n := n) (j := j) (i := index 12 va) (e := e) rfl
  obtain ⟨hold, -⟩ := RadixFormat.set_leaf h.tree.tree hp hget (child_last _) (child_last _)
  exact RadixFormat.Grown.set_leaf h.tree.tree hp hget (child_last _) (child_last _) hold

/-- One round of `mmap`'s loop. -/
theorem mmapLoop_one_grown (h : VmmInv s out root V) {va pa flags : Nat}
    (hva : NotLarge s.mem root va) {done : Bool}
    (hrun : mmapLoop root flags 1 s va pa = .ok (s', done)) : TablesGrown flags s.mem s'.mem root := by
  obtain ⟨s1, r, out1, hrun1, hext1, -, -, -, hr⟩ := pageTableFor_spec h hva flags
  have hgrown := pageTableFor_grown h hva hrun1
  have hstep : (pageTableFor s root va flags >>= _) = Except.ok (s', done) := hrun
  rw [hrun1, ok_bind] at hstep
  dsimp only at hstep
  rcases hr with rfl | ⟨pt, rfl, hlow, hpt⟩
  · obtain ⟨rfl, -⟩ := Prod.mk.inj (Except.ok.inj (hstep.symm.trans (if_pos rfl)))
    exact hgrown
  · have ht := hext1.inv.tree.table pt ⟨_, hpt⟩
    rw [if_neg (paToVa_ne_zero hlow), show ptIdx va = (index 12 va).val from rfl,
      phys_entry ht.1 ht.2 (index 12 va).isLt] at hstep
    obtain ⟨rfl, -⟩ := Prod.mk.inj (Except.ok.inj hstep)
    exact hgrown.trans (set_entry_grown hext1.inv hpt flags _)

theorem mmapLoop_grown (flags : Nat) : ∀ (n : Nat) (s : Pmm) (out : Finset (Nat × Nat))
    (va pa : Nat), VmmInv s out root V → pa < 2 ^ 64 →
    (∀ i < n, NotLarge s.mem root (va + i * 4096)) → ∀ s' done,
    mmapLoop root flags n s va pa = .ok (s', done) → TablesGrown flags s.mem s'.mem root := by
  intro n
  induction n with
  | zero =>
    intro s out va pa _ _ _ s' done hrun
    obtain ⟨rfl, -⟩ := Prod.mk.inj (Except.ok.inj hrun)
    exact .refl _ _
  | succ n ih =>
    intro s out va pa h hpa hva s' done hrun
    obtain ⟨l, s1, out1, hext1, -, ⟨hstop, -⟩ | ⟨hstep, hoff, -, es, hlen, hwalk⟩⟩ :=
      mmapLoop_round h (notLarge_first hva) hpa flags
    · rw [(hstop n).1] at hrun
      obtain ⟨rfl, -⟩ := Prod.mk.inj (Except.ok.inj hrun)
      exact mmapLoop_one_grown h (notLarge_first hva) (hstop 0).1
    · rw [(hstep n).1] at hrun
      exact (mmapLoop_one_grown h (notLarge_first hva) (hstep 0).1).trans
        (ih s1 out1 _ _ hext1.inv (wrap64_lt _) (notLarge_rest hva hoff (.of_set hlen hwalk)) s' done hrun)

/-! ## The access given -/

/-- A range in one half has no more pages than there are. -/
theorem OneHalf.le {va n : Nat} (h : OneHalf va n) : n ≤ 2 ^ 36 := by
  unfold OneHalf at h
  omega

/-- **A successful `mmap` grants exactly the requested access** where the entries it finds above
the pages admit it. -/
theorem mmap_access_iff {s : Vmm} {out : Finset (Nat × Nat)}
    (htree : PageTree s.pmm.mem s.currentCr3)
    (hlarge : pageFormat.LeavesAt (entryOf s.pmm.mem) 3 s.currentCr3)
    (hspare : Spare s.pmm out (IsTable s.pmm.mem s.currentCr3)) {paddr vaddr n : Nat}
    (hpa : paddr % 4096 = 0) (hpa' : paddr < 2 ^ 64) (hhalf : OneHalf vaddr n) (flags : Nat) :
    ∃ s' r, s.mmap paddr vaddr n flags = .ok (s', r) ∧ (r ≠ 0 →
      ((∀ i < n, access s'.pmm.mem s.currentCr3 (vaddr + i * 4096) =
          some (requested (mmapFlags vaddr flags))) ↔
        AdmitsRange s.pmm.mem s.currentCr3 (mmapFlags vaddr flags) vaddr paddr n)) := by
  have hinv := VmmInv.of_spare htree hspare
  have hsmall : ∀ i < n, NotLarge s.pmm.mem s.currentCr3 (vaddr + i * 4096) :=
    fun i _ => notLarge_of_leavesAt hlarge _
  obtain ⟨s', done, out', j, hrun, -, -, hdone, hmapped⟩ :=
    mmapLoop_rounds (mmapFlags vaddr flags) n s.pmm out vaddr paddr hinv hpa' fun i hi _ => hsmall i hi
  have hgrown := mmapLoop_grown (mmapFlags vaddr flags) n s.pmm out vaddr paddr hinv hpa' hsmall
    s' done hrun
  refine ⟨{ s with pmm := s' }, if done then vaddr else 0, ?_, fun hr => ?_⟩
  · unfold Vmm.mmap
    rw [hrun, ok_bind]
  have hd : done = true := by
    by_contra hd
    exact hr (if_neg hd)
  obtain rfl := hdone.mp hd
  refine forall₂_congr fun i hi => ?_
  obtain ⟨hold, hnew⟩ := hgrown.passed (path (vaddr + i * 4096))
  have hwalk : walk s'.mem s.currentCr3 (vaddr + i * 4096) =
      some (upperEntries s'.mem s.currentCr3 (vaddr + i * 4096) ++
        [leafEntry paddr (mmapFlags vaddr flags) i]) := by
    rcases hmapped (vaddr + i * 4096) with ⟨-, hno⟩ | ⟨i', hi', hpath, es, -, hes⟩
    · exact absurd rfl (hno i hi)
    · obtain rfl := path_range_inj hhalf.le hi hi' hpath
      obtain ⟨e, he⟩ := RadixFormat.walk_passed _ 0 _ _ hes
      obtain ⟨rfl, hlast⟩ := List.append_inj' he rfl
      exact hes
  unfold access
  rw [hwalk, Option.map_some, Option.some.injEq, effective_eq_iff hpa]
  refine and_congr_left fun _ => ⟨fun h e he => h e (hold e he), fun h e he => ?_⟩
  rcases hnew e he with he | hmade
  · exact h e he
  · exact hmade.admits

/-- A kernel page at the start of the upper half: its tables are writable and not for user mode. -/
theorem mmap_kernel_page : ∃ s out,
    bootVmm.mmap 0x5000 0xFFFF800000000000 1 0 = .ok (s, 0xFFFF800000000000) ∧
    s.currentCr3 = 0x1000 ∧ PageTree s.pmm.mem 0x1000 ∧
    pageFormat.LeavesAt (entryOf s.pmm.mem) 3 0x1000 ∧
    Spare s.pmm out (IsTable s.pmm.mem 0x1000) := by
  obtain ⟨s, r, out, hrun, hcr3, htree, hlarge, hspare⟩ := @mmap_tree bootVmm ∅ boot_tree.1
    boot_tree.2 boot_spare 0x5000 (by decide) 0xFFFF800000000000 1 0
  have hret : (bootVmm.mmap 0x5000 0xFFFF800000000000 1 0).map Prod.snd =
    .ok 0xFFFF800000000000 := rfl
  rw [hrun] at hret
  obtain rfl : r = 0xFFFF800000000000 := Except.ok.inj hret
  exact ⟨s, out, hrun, hcr3, htree, hlarge, hspare⟩

/-- The page after it, writable: granted. -/
theorem mmap_grants_write : ∃ s s', bootVmm.mmap 0x5000 0xFFFF800000000000 1 0 =
      .ok (s, 0xFFFF800000000000) ∧
    s.mmap 0x6000 0xFFFF800000001000 1 pageWrite = .ok (s', 0xFFFF800000001000) ∧
    ∀ i < 1, access s'.pmm.mem s.currentCr3 (0xFFFF800000001000 + i * 4096) =
      some (requested pageWrite) := by
  obtain ⟨s, out, hkernel, hcr3, htree, hlarge, hspare⟩ := mmap_kernel_page
  rw [← hcr3] at htree hlarge hspare
  obtain ⟨s', r, hrun, hiff⟩ := @mmap_access_iff s out htree hlarge hspare 0x6000
    0xFFFF800000001000 1 rfl (by decide) (.inr (by decide)) pageWrite
  have hcall : (bootVmm.mmap 0x5000 0xFFFF800000000000 1 0 >>= fun x =>
      x.1.mmap 0x6000 0xFFFF800000001000 1 pageWrite >>= fun y =>
        .ok (y.2, upperEntries x.1.pmm.mem 0x1000 0xFFFF800000001000)) =
      .ok (0xFFFF800000001000, [0x100003, 0x101003, 0x102003]) := rfl
  rw [hkernel, ok_bind, hrun, ok_bind] at hcall
  obtain ⟨rfl, hupper⟩ := Prod.mk.inj (Except.ok.inj hcall)
  refine ⟨s, s', hkernel, hrun, (hiff (by decide)).mpr fun i hi => ?_⟩
  obtain rfl : i = 0 := by omega
  refine ⟨fun e he => ?_, by decide⟩
  rw [hcr3, show 0xFFFF800000001000 + 0 * 4096 = 0xFFFF800000001000 from rfl, hupper] at he
  simp only [List.mem_cons, List.not_mem_nil, or_false] at he
  rcases he with rfl | rfl | rfl <;> exact ⟨by decide, by decide, by decide⟩

/-- The page after it, for user mode: not granted. -/
theorem mmap_withholds_user : ∃ (s s' : Vmm) (out : Finset (Nat × Nat)),
    PageTree s.pmm.mem s.currentCr3 ∧
    pageFormat.LeavesAt (entryOf s.pmm.mem) 3 s.currentCr3 ∧
    Spare s.pmm out (IsTable s.pmm.mem s.currentCr3) ∧ OneHalf 0xFFFF800000001000 1 ∧
    s.mmap 0x6000 0xFFFF800000001000 1 pageUser = .ok (s', 0xFFFF800000001000) ∧
    (requested (mmapFlags 0xFFFF800000001000 pageUser)).user = true ∧
    access s'.pmm.mem s.currentCr3 0xFFFF800000001000 = some ⟨false, false, false⟩ := by
  obtain ⟨s, out, hkernel, hcr3, htree, hlarge, hspare⟩ := mmap_kernel_page
  have hcall : (bootVmm.mmap 0x5000 0xFFFF800000000000 1 0 >>= fun x =>
      x.1.mmap 0x6000 0xFFFF800000001000 1 pageUser >>= fun y =>
        .ok (y.2, access y.1.pmm.mem 0x1000 0xFFFF800000001000)) =
      .ok (0xFFFF800000001000, some ⟨false, false, false⟩) := rfl
  rw [hkernel, ok_bind] at hcall
  obtain ⟨⟨s', r⟩, hrun, hres⟩ := bind_eq_ok.mp hcall
  obtain ⟨rfl, haccess⟩ := Prod.mk.inj (Except.ok.inj hres)
  rw [← hcr3] at htree hlarge hspare haccess
  exact ⟨s, s', out, htree, hlarge, hspare, .inr (by decide), hrun, rfl, haccess⟩

end HelixKernel
