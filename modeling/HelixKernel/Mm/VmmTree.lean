import HelixKernel.Mm.PmmSpare
import HelixKernel.Mm.VmmSteps

/-!
Growing a page-table tree.

`VmmInv s out root V`: the tables reached from `root` form a tree of pages below
`2 ^ 47`, and the allocator's free pages are neither tables nor pages of `V`, the
pages in use for something else.  Large pages may be anywhere.

    get_or_create_table   at an entry that is no large page: the child, or null
                                                        (getOrCreateTable_spec)
    the three calls of mmap's loop                      (pageTableFor_spec)

Both change no walk.  What a call may do to the rest of memory is `Extends`: every one of
its steps is `Careful`, and each new table costs a free page. -/

namespace HelixKernel

/-! ## The entry of a new table -/

/-- `(uint64_t)page | PAGE_PRESENT | PAGE_WRITE | (flags & PAGE_USER)` -/
def tableEntry (page flags : Nat) : Nat :=
  page ||| pagePresent ||| pageWrite ||| (flags &&& pageUser)

theorem tableEntry_addr {page : Nat} (ha : page % 4096 = 0) (hlt : page < 2 ^ 47) (flags : Nat) :
    tableEntry page flags &&& pageAddrMask = page := by
  rw [tableEntry, Nat.and_or_distrib_right, Nat.and_or_distrib_right, Nat.and_or_distrib_right,
    and_pageAddrMask_of_aligned ha (by omega), Nat.and_assoc,
    show pagePresent &&& pageAddrMask = 0 from rfl, show pageWrite &&& pageAddrMask = 0 from rfl,
    show pageUser &&& pageAddrMask = 0 from rfl]
  simp

theorem tableEntry_large {page : Nat} (ha : page % 4096 = 0) (flags d : Nat) :
    large d (tableEntry page flags) = false := by
  rw [large_eq, tableEntry, Nat.testBit_or, Nat.testBit_or, Nat.testBit_or, Nat.testBit_and,
    testBit_aligned ha (by decide), show pagePresent.testBit 7 = false from rfl,
    show pageWrite.testBit 7 = false from rfl, show pageUser.testBit 7 = false from rfl]
  simp

theorem tableEntry_child {page : Nat} (ha : page % 4096 = 0) (hlt : page < 2 ^ 47) (flags : Nat)
    {d : Nat} (hd : d < 3) : pageFormat.child d (tableEntry page flags) = some page := by
  have hpresent : present (tableEntry page flags) = true := by
    rw [present_iff, tableEntry, Nat.testBit_or, Nat.testBit_or, Nat.testBit_or]
    simp [pagePresent]
  show (if _ then _ else _) = _
  rw [hpresent, tableEntry_large ha, tableEntry_addr ha hlt, if_pos (by simpa using hd)]

theorem child_zero (d : Nat) : pageFormat.child d 0 = none ∧ pageFormat.leaf d 0 = false :=
  ⟨rfl, rfl⟩

/-- A present entry above the last level that is no leaf is no large page. -/
theorem large_of_present {d e : Nat} (hd : d < 3) (hp : present e = true)
    (hleaf : pageFormat.leaf d e = false) : large d e = false := by
  have h3 : (d == 3) = false := by
    rw [beq_eq_false_iff_ne]
    omega
  simpa [pageFormat, hp, h3] using hleaf

/-- It leads to a table. -/
theorem child_of_present {d e : Nat} (hd : d < 3) (hp : present e = true)
    (hleaf : pageFormat.leaf d e = false) : pageFormat.child d e = some (e &&& pageAddrMask) := by
  show (if _ then _ else _) = _
  rw [hp, large_of_present hd hp hleaf, if_pos (by simpa using hd)]

theorem child_of_not_present {d e : Nat} (hp : present e = false) :
    pageFormat.child d e = none ∧ pageFormat.leaf d e = false := by
  constructor
  · show (if _ then _ else _) = _
    rw [hp]
    rfl
  · show (_ && _) = _
    rw [hp]
    rfl

theorem present_eq_false (e : Nat) : present e = false ↔ e &&& pagePresent = 0 := by
  unfold present
  simp

/-! ## The invariant -/

structure PageTree (m : Mem) (root : Nat) : Prop where
  tree : pageFormat.IsTree (entryOf m) root
  table : ∀ n, IsTable m root n → n % 4096 = 0 ∧ n < 2 ^ 47

structure VmmInv (s : Pmm) (out : Finset (Nat × Nat)) (root : Nat) (V : Nat → Prop) : Prop where
  tree : PageTree s.mem root
  spare : Spare s out fun a => IsTable s.mem root a ∨ V a

/-- Nobody else's pages are to be avoided. -/
theorem VmmInv.of_spare {s : Pmm} {out : Finset (Nat × Nat)} {root : Nat}
    (htree : PageTree s.mem root) (hspare : Spare s out (IsTable s.mem root)) :
    VmmInv s out root fun _ => False :=
  ⟨htree, hspare.mono fun _ ha => ha.resolve_right id⟩

/-- The stores of a call that ends with memory `m'`: entries of tables, and headers in pages that
were free before the call. -/
def TreeWrite (s : Pmm) (out : Finset (Nat × Nat)) (m' : Mem) (root : Nat) (w : Writer) (a : Nat) :
    Prop :=
  (w = .table ∧ IsTable m' root (pageOf a)) ∨ (w = .header ∧ FreePage s.segtab out a)

/-- Byte `a` is in a page in use. -/
def InUse (m : Mem) (root : Nat) (V : Nat → Prop) (a : Nat) : Prop :=
  IsTable m root (pageOf a) ∨ V (pageOf a)

/-- Nothing in use is in any of the blocks. -/
def BlocksApart (m : Mem) (root : Nat) (V : Nat → Prop) (blocks : List (Nat × Nat)) : Prop :=
  ∀ pk ∈ blocks, ∀ y, InBlock pk.1 pk.2 y → ¬ InUse m root V y

/-- A header where nothing is in use. -/
def HeaderApart (m : Mem) (root : Nat) (V : Nat → Prop) (w : Writer) (a : Nat) : Prop :=
  w = .header ∧ ¬ InUse m root V a

/-- A step that spares what is in use where it is made: `alloc` puts its headers elsewhere, and the
block it returns is elsewhere; a page that is cleared is not in use; entries are set in tables; and
what is taken for a table is no large page. -/
def Careful (root : Nat) (V : Nat → Prop) (s : Pmm) : MemStep → Pmm → Prop
  | .alloc n p, s' => s.mem.Touch (HeaderApart s.mem root V) s'.mem ∧
    BlocksApart s.mem root V (newBlock p n)
  | .clear page, _ => ¬ InUse s.mem root V page
  | .store slot _, _ => IsTable s.mem root (pageOf slot)
  | .descend depth slot, _ => IsTable s.mem root (pageOf slot) ∧ large depth (s.mem.word slot) = false

/-- What a call that only adds tables and sets leaves leaves behind. -/
structure Extends (s : Pmm) (out : Finset (Nat × Nat)) (root : Nat) (V : Nat → Prop)
    (l : List MemStep) (s' : Pmm) (out' : Finset (Nat × Nat)) : Prop where
  inv : VmmInv s' out' root V
  keep : ∀ p n, follow s.mem root p = some n → follow s'.mem root p = some n
  blocks : out' = (MemStep.returned l).toFinset ∪ out
  fresh : ∀ n, IsTable s'.mem root n →
    IsTable s.mem root n ∨ FreePage s.segtab out n ∧ (n, 0) ∈ MemStep.returned l
  free : ∀ a, FreePage s'.segtab out' a → FreePage s.segtab out a
  leaves : pageFormat.LeavesAt (entryOf s.mem) 3 root → pageFormat.LeavesAt (entryOf s'.mem) 3 root
  touch : s.mem.Touch (TreeWrite s out s'.mem root) s'.mem
  steps : Does (Careful root V) s l s'
  spent : ∃ new : Finset (List (Fin 512)),
    (∀ q, q ∈ new ↔ follow s.mem root q = none ∧ follow s'.mem root q ≠ none) ∧
    (freePages s.segtab out).card = (freePages s'.segtab out').card + new.card

/-! ## Stores elsewhere -/

section

variable {m m' : Mem} {root : Nat} {V : Nat → Prop}

/-- Stores that spare the tables leave every path where it leads. -/
theorem PageTree.frame (h : PageTree m root) (m' : Mem)
    (hsame : ∀ a, IsTable m root (pageOf a) → m'.word a = m.word a) :
    (∀ p, follow m' root p = follow m root p) ∧ PageTree m' root := by
  have hfollow : ∀ p, follow m' root p = follow m root p := by
    intro p
    refine (RadixFormat.congr_reached ?_ p).1
    intro r n j hr
    apply hsame
    rw [pageOf_entry (h.table n ⟨r, hr⟩).1]
    exact ⟨r, hr⟩
  refine ⟨hfollow, h.tree.congr hfollow, ?_⟩
  rintro n ⟨p, hp⟩
  apply h.table
  exact ⟨p, (hfollow p).symm.trans hp⟩

/-- And every walk. -/
theorem PageTree.frame_walks (h : PageTree m root) (m' : Mem)
    (hsame : ∀ a, IsTable m root (pageOf a) → m'.word a = m.word a) :
    (∀ q, walkPath m' root q = walkPath m root q) ∧
      (pageFormat.LeavesAt (entryOf m) 3 root → pageFormat.LeavesAt (entryOf m') 3 root) := by
  have hget : ∀ r n j, follow m root r = some n → entryOf m' n j = entryOf m n j := by
    intro r n j hr
    apply hsame
    rw [pageOf_entry (h.table n ⟨r, hr⟩).1]
    exact ⟨r, hr⟩
  refine ⟨fun q => (RadixFormat.congr_reached hget q).2, fun hl q n i hq hleaf => ?_⟩
  have hq' : follow m root q = some n := (RadixFormat.congr_reached hget q).1.symm.trans hq
  rw [hget q n i hq'] at hleaf
  exact hl q n i hq' hleaf

/-- What is in use stays the same. -/
theorem inUse_congr (hfollow : ∀ p, follow m' root p = follow m root p) (a : Nat) :
    InUse m' root V a ↔ InUse m root V a := by
  unfold InUse IsTable
  simp only [hfollow]

end

variable {s s' s'' : Pmm} {out out' out'' : Finset (Nat × Nat)} {root : Nat} {V : Nat → Prop}
  {l l' : List MemStep}

/-- Free pages are not in use. -/
theorem VmmInv.not_inUse (h : VmmInv s out root V) {a : Nat} (ha : FreePage s.segtab out a) :
    ¬ InUse s.mem root V a := by
  rw [InUse, pageOf_of_aligned (h.spare.aligned ha)]
  exact h.spare.apart a ha

namespace Extends

theorem grow (h : Extends s out root V l s' out') : out ⊆ out' := by
  rw [h.blocks]
  exact Finset.subset_union_right

/-- The free pages are as many as they were if no table is new. -/
theorem spent_none (hfollow : ∀ q, follow s'.mem root q = follow s.mem root q)
    (hfree : (freePages s'.segtab out').card = (freePages s.segtab out).card) :
    ∃ new : Finset (List (Fin 512)),
      (∀ q, q ∈ new ↔ follow s.mem root q = none ∧ follow s'.mem root q ≠ none) ∧
      (freePages s.segtab out).card = (freePages s'.segtab out').card + new.card := by
  refine ⟨∅, fun q => ?_, by simp [hfree]⟩
  rw [hfollow]
  simp

/-- Steps that only look. -/
theorem look (h : VmmInv s out root V) (hsteps : Does (Careful root V) s l s)
    (hl : MemStep.returned l = []) : Extends s out root V l s out where
  inv := h
  keep _ _ hp := hp
  blocks := by simp [hl]
  fresh _ hn := .inl hn
  free _ ha := ha
  leaves hl := hl
  touch := Mem.Touch.refl _ _
  steps := hsteps
  spent := spent_none (fun _ => rfl) rfl

theorem refl (h : VmmInv s out root V) : Extends s out root V [] s out := look h (.nil s) rfl

theorem table (h : Extends s out root V l s' out') {n : Nat} (hn : IsTable s.mem root n) :
    IsTable s'.mem root n := by
  obtain ⟨p, hp⟩ := hn
  exact ⟨p, h.keep p n hp⟩

/-- A path that leads nowhere after the call led nowhere before. -/
theorem none_of_none (h : Extends s out root V l s' out') {q : List (Fin 512)}
    (hq : follow s'.mem root q = none) : follow s.mem root q = none := by
  cases hs : follow s.mem root q with
  | none => rfl
  | some n =>
    rw [h.keep q n hs] at hq
    cases hq

theorem spent_trans (h : Extends s out root V l s' out') (h' : Extends s' out' root V l' s'' out'') :
    ∃ new : Finset (List (Fin 512)),
      (∀ q, q ∈ new ↔ follow s.mem root q = none ∧ follow s''.mem root q ≠ none) ∧
      (freePages s.segtab out).card = (freePages s''.segtab out'').card + new.card := by
  obtain ⟨new, hnew, hcard⟩ := h.spent
  obtain ⟨new', hnew', hcard'⟩ := h'.spent
  have hdisj : Disjoint new new' := by
    rw [Finset.disjoint_left]
    intro q hq hq'
    exact ((hnew q).mp hq).2 ((hnew' q).mp hq').1
  refine ⟨new ∪ new', fun q => ?_, ?_⟩
  · rw [Finset.mem_union, hnew, hnew']
    constructor
    · rintro (⟨h0, h1⟩ | ⟨h1, h2⟩)
      · exact ⟨h0, fun h2 => h1 (h'.none_of_none h2)⟩
      · exact ⟨h.none_of_none h1, h2⟩
    · rintro ⟨h0, h2⟩
      by_cases h1 : follow s'.mem root q = none
      · exact .inr ⟨h1, h2⟩
      · exact .inl ⟨h0, h1⟩
  · rw [Finset.card_union_of_disjoint hdisj]
    omega

theorem trans (h : Extends s out root V l s' out') (h' : Extends s' out' root V l' s'' out'') :
    Extends s out root V (l ++ l') s'' out'' where
  inv := h'.inv
  keep p n hp := h'.keep p n (h.keep p n hp)
  blocks := by
    rw [h'.blocks, h.blocks, MemStep.returned_append, List.toFinset_append, ← Finset.union_assoc,
      Finset.union_comm (MemStep.returned l').toFinset]
  fresh n hn := by
    rw [MemStep.returned_append, List.mem_append]
    rcases h'.fresh n hn with hn | ⟨hf, hout⟩
    · exact (h.fresh n hn).imp_right fun hn => ⟨hn.1, .inl hn.2⟩
    · exact .inr ⟨h.free n hf, .inr hout⟩
  free a ha := h.free a (h'.free a ha)
  leaves hl := h'.leaves (h.leaves hl)
  touch := by
    refine (h.touch.mono ?_).trans (h'.touch.mono ?_)
    · rintro w a (⟨hw, hn⟩ | hw)
      · exact .inl ⟨hw, h'.table hn⟩
      · exact .inr hw
    · rintro w a (hw | ⟨hw, ha⟩)
      · exact .inl hw
      · exact .inr ⟨hw, h.free a ha⟩
  steps := h.steps.append h'.steps
  spent := h.spent_trans h'

end Extends

/-- **An allocation is careful**, and moves no table. -/
theorem AllocPages.careful {n p : Nat} (ha : AllocPages s out n s' p) (h : VmmInv s out root V) :
    Careful root V s (.alloc n p) s' ∧ (∀ q, follow s'.mem root q = follow s.mem root q) ∧
      PageTree s'.mem root := by
  have hheaders : s.mem.Touch (HeaderApart s.mem root V) s'.mem :=
    ha.touch.mono fun w a hw => ⟨hw.1, h.not_inUse (ha.free a hw.2)⟩
  have hframe := h.tree.frame s'.mem fun a hn => hheaders.same a fun w hw => hw.2 (.inl hn)
  refine ⟨⟨hheaders, fun pk hpk y hy => ?_⟩, hframe⟩
  obtain ⟨hp, rfl⟩ := mem_newBlock.mp hpk
  exact h.spare.apart _ (ha.block hp y hy)

/-- No entry of a table is the header of a free page. -/
theorem VmmInv.entry_not_free (h : VmmInv s out root V) {n : Nat} (hn : IsTable s.mem root n)
    (i : Fin 512) : ¬ FreePage s.segtab out (n + 8 * i) := by
  intro hf
  have hpage := pageOf_entry (h.tree.table n hn).1 i
  rw [pageOf_of_aligned (h.spare.aligned hf)] at hpage
  rw [hpage] at hf
  exact h.spare.apart n hf (.inl hn)

/-! ## `get_or_create_table` -/

section link

variable {p : List (Fin 512)} {t : Nat} {i : Fin 512} {s1 : Pmm} {page flags : Nat} {m : Mem}

/-- A page `alloc` returns is no table. -/
theorem VmmInv.page_not_table (h : VmmInv s out root V) (ha : AllocPages s out 1 s1 page)
    (hpage : page ≠ 0) : ¬ IsTable s.mem root page := by
  intro hn
  exact h.spare.apart page (ha.page hpage) (.inl hn)

/-- No entry of a table is in it. -/
theorem VmmInv.page_ne_pageOf (h : VmmInv s out root V) (ha : AllocPages s out 1 s1 page)
    (hpage : page ≠ 0) (hp : follow s.mem root p = some t) (i : Fin 512) :
    pageOf (t + 8 * i) ≠ page := by
  rw [pageOf_entry (h.tree.table t ⟨p, hp⟩).1]
  rintro rfl
  exact h.page_not_table ha hpage ⟨p, hp⟩

variable (h : VmmInv s out root V) (hp : follow s.mem root p = some t)
  (ha : AllocPages s out 1 s1 page) (hpage : page ≠ 0)
  (hm : (s1.mem.clear .table page pageSize).store .table (t + 8 * i) (tableEntry page flags) = m)

include h hp ha hpage hm

/-- The entries of the tables there were stay, but for the one written. -/
theorem link_old {r : List (Fin 512)} {n : Nat} {j : Fin 512} (hr : follow s.mem root r = some n)
    (hne : ¬ (n = t ∧ j = i)) : entryOf m n j = entryOf s.mem n j := by
  have ht := h.tree.table t ⟨p, hp⟩
  have hn := h.tree.table n ⟨r, hr⟩
  have hpn : n ≠ page := by
    rintro rfl
    exact h.page_not_table ha hpage ⟨r, hr⟩
  unfold entryOf
  rw [← hm, Mem.store_word_ne _ _ _ (fun he => hne (entry_inj hn.1 ht.1 he)), Mem.clear_word_ne]
  · refine ha.touch.same _ fun w hw => ?_
    exact h.entry_not_free ⟨r, hr⟩ j (ha.free _ hw.2)
  · have := ha.aligned
    have := hn.1
    have := j.isLt
    unfold pageSize
    omega

/-- The new table is empty. -/
theorem link_new (j : Fin 512) : entryOf m page j = 0 := by
  have hj := j.isLt
  have hne : page + 8 * j.val ≠ t + 8 * i.val := by
    intro he
    have hslot := h.page_ne_pageOf ha hpage hp i
    rw [← he, pageOf_entry ha.aligned] at hslot
    exact hslot rfl
  unfold entryOf
  rw [← hm, Mem.store_word_ne _ _ _ hne, Mem.clear_word_mem]
  unfold pageSize
  omega

/-- No header of a free page is overwritten. -/
theorem link_spares {a : Nat} (hne : m.word a ≠ s1.mem.word a) :
    ¬ FreePage s1.segtab (track out page (orderFor 1)) a := by
  intro hf
  have haa := h.spare.aligned (ha.free a hf)
  have hap : a ≠ page := by
    rintro rfl
    have := ha.taken hpage a (inBlock_self _ _)
    rw [pageOf_of_aligned haa] at this
    exact this hf
  have hat : a ≠ t + 8 * i := by
    rintro rfl
    exact h.entry_not_free ⟨p, hp⟩ i (ha.free _ hf)
  apply hne
  rw [← hm, Mem.store_word_ne _ _ _ hat, Mem.clear_word_ne]
  have := ha.aligned
  unfold pageSize
  omega

/-- Where the paths lead, and what the walks find. -/
theorem link_paths (hd : p.length < 3) (hempty : present (entryOf s.mem t i) = false) :
    follow m root (p ++ [i]) = some page ∧
    (∀ q, q ≠ p ++ [i] → follow m root q = follow s.mem root q) ∧
    (∀ q, walkPath m root q = walkPath s.mem root q) ∧
    (pageFormat.LeavesAt (entryOf s.mem) 3 root → pageFormat.LeavesAt (entryOf m) 3 root) := by
  have hget : ∀ r n j, follow s.mem root r = some n → ¬ (n = t ∧ j = i) →
      entryOf m n j = entryOf s.mem n j := by
    intro r n j hr hne
    exact link_old h hp ha hpage hm hr hne
  have hc : pageFormat.child p.length (entryOf m t i) = some page := by
    have hentry : entryOf m t i = tableEntry page flags := by
      unfold entryOf
      rw [← hm, Mem.store_word_self]
    rw [hentry]
    exact tableEntry_child ha.aligned (h.spare.low page (ha.page hpage)) flags hd
  have hnil : ∀ j, pageFormat.child (p.length + 1) (entryOf m page j) = none ∧
      pageFormat.leaf (p.length + 1) (entryOf m page j) = false := by
    intro j
    rw [link_new h hp ha hpage hm]
    exact child_zero _
  obtain ⟨hnone, hleaf⟩ := child_of_not_present (d := p.length) hempty
  obtain ⟨hnew, hold, hwalk⟩ := RadixFormat.link h.tree.tree hp hget hnone hleaf hc hnil
  refine ⟨hnew, hold, hwalk, fun hl => ?_⟩
  exact RadixFormat.LeavesAt.link h.tree.tree hp hget hl hc hnil hnew hold

/-- The four steps of linking, each of them careful. -/
theorem link_steps (hrun : s.alloc 1 = .ok (s1, page)) :
    Does (Careful root V) s [.alloc 1 page, .clear page, .store (t + 8 * i) (tableEntry page flags),
      .descend p.length (t + 8 * i)] { s1 with mem := m } := by
  have ht := h.tree.table t ⟨p, hp⟩
  obtain ⟨hcareful, hfollow, htree⟩ := ha.careful h
  have hunused : ¬ InUse s1.mem root V page := by
    rw [inUse_congr hfollow]
    exact h.not_inUse (ha.page hpage)
  -- the page that is cleared is no table, so every path leads where it did
  have hclear := (htree.frame (s1.mem.clear .table page pageSize) fun a hn =>
    Mem.clear_word_ne _ _ fun hin => hunused (.inl (by
      have := ha.aligned
      have hpage : pageOf a = page := by
        unfold pageOf pageSize at *
        omega
      rwa [pageOf_of_aligned ha.aligned, ← hpage]))).1
  have hslot : ∀ m', follow m' root p = some t → IsTable m' root (pageOf (t + 8 * i)) := by
    intro m' hm'
    rw [pageOf_entry ht.1]
    exact ⟨p, hm'⟩
  have htable : follow (s1.mem.clear .table page pageSize) root p = some t := by
    rw [hclear, hfollow, hp]
  have hlink : follow m root p = some t := by
    have hentry : ∀ r n j, follow s.mem root r = some n → ¬ (n = t ∧ j = i) →
        entryOf m n j = entryOf s.mem n j := fun r n j hr hne => link_old h hp ha hpage hm hr hne
    exact RadixFormat.follow_node h.tree.tree hp hentry
  have hword : m.word (t + 8 * i) = tableEntry page flags := by
    rw [← hm, Mem.store_word_self]
  subst hm
  refine .cons hrun hcareful (.cons rfl hunused (.cons rfl (hslot _ htable) (.single rfl ⟨?_, ?_⟩)))
  · exact hslot _ hlink
  · show large p.length (Mem.word _ (t + 8 * i)) = false
    rw [hword]
    exact tableEntry_large ha.aligned flags _

/-- **Linking** a page that `alloc` has just returned into an empty entry. -/
theorem link_table (hrun : s.alloc 1 = .ok (s1, page)) (hd : p.length < 3)
    (hempty : present (entryOf s.mem t i) = false) :
    Extends s out root V [.alloc 1 page, .clear page, .store (t + 8 * i) (tableEntry page flags),
      .descend p.length (t + 8 * i)] { s1 with mem := m } (track out page (orderFor 1)) ∧
      (∀ q, walkPath m root q = walkPath s.mem root q) ∧ follow m root (p ++ [i]) = some page ∧
      ∀ q, q ≠ p ++ [i] → follow m root q = follow s.mem root q := by
  have ht := h.tree.table t ⟨p, hp⟩
  have hfree := ha.page hpage
  obtain ⟨hnew, hold, hwalk, hleaves⟩ := link_paths h hp ha hpage hm hd hempty
  have hnone : follow s.mem root (p ++ [i]) = none :=
    (RadixFormat.follow_snoc hp i).trans (child_of_not_present hempty).1
  have hkeep : ∀ q n, follow s.mem root q = some n → follow m root q = some n := by
    intro q n hq
    rw [← hq]
    refine hold q ?_
    rintro rfl
    rw [hnone] at hq
    cases hq
  have htables : ∀ n, IsTable m root n → n = page ∨ IsTable s.mem root n := by
    rintro n ⟨q, hq⟩
    by_cases hqi : q = p ++ [i]
    · subst hqi
      exact .inl (Option.some.inj (hq.symm.trans hnew))
    · exact .inr ⟨q, (hold q hqi).symm.trans hq⟩
  have htree : PageTree m root := by
    refine ⟨h.tree.tree.link (fun q hq => h.page_not_table ha hpage ⟨q, hq⟩) hnew hold, ?_⟩
    intro n hn
    rcases htables n hn with rfl | hn
    · exact ⟨ha.aligned, h.spare.low n hfree⟩
    · exact h.tree.table n hn
  have hspare : Spare s1 (track out page (orderFor 1)) fun a => IsTable m root a ∨ V a := by
    refine ⟨ha.inv, fun a hf => ?_, fun a hf => h.spare.low a (ha.free a hf)⟩
    rintro (hn | hv)
    · rcases htables a hn with rfl | hn
      · have := ha.taken hpage a (inBlock_self _ _)
        rw [pageOf_of_aligned ha.aligned] at this
        exact this hf
      · exact h.spare.apart a (ha.free a hf) (.inl hn)
    · exact h.spare.apart a (ha.free a hf) (.inr hv)
  have hreturned : MemStep.returned [.alloc 1 page, .clear page, .store (t + 8 * i)
      (tableEntry page flags), .descend p.length (t + 8 * i)] = [(page, 0)] := by
    show newBlock page 1 ++ [] = _
    rw [newBlock, if_neg hpage]
    rfl
  refine ⟨⟨⟨htree, hspare.write fun a hne => link_spares h hp ha hpage hm hne⟩, hkeep, ?_,
    fun n hn => ?_, ha.free, hleaves, ?_, link_steps h hp ha hpage hm hrun, {p ++ [i]}, fun q => ?_,
    ?_⟩, hwalk, hnew, hold⟩
  · rw [hreturned, track, if_neg hpage, Finset.insert_eq]
    rfl
  · rcases htables n hn with rfl | hn
    · exact .inr ⟨hfree, by rw [hreturned]; exact List.mem_singleton_self _⟩
    · exact .inl hn
  · refine Mem.Touch.trans (ha.touch.mono fun w a hw => .inr ⟨hw.1, ha.free a hw.2⟩) ?_
    rw [← hm]
    refine Mem.Touch.trans (Mem.Touch.clear _ fun a hlo hhi => .inl ⟨rfl, p ++ [i], ?_⟩)
      (Mem.Touch.store _ _ (.inl ⟨rfl, p, ?_⟩))
    · have := ha.aligned
      rw [hm]
      refine hnew.trans (congrArg some ?_)
      unfold pageOf pageSize at *
      omega
    · rw [hm, pageOf_entry ht.1]
      exact hkeep p t hp
  · rw [Finset.mem_singleton]
    constructor
    · rintro rfl
      exact ⟨hnone, by simp [hnew]⟩
    · rintro ⟨h0, h1⟩
      by_contra hq
      exact h1 ((hold q hq).trans h0)
  · rw [Finset.card_singleton]
    exact ha.card_freePages hpage

end link

/-- An allocation that failed. -/
theorem VmmInv.of_null (h : VmmInv s out root V) (ha : AllocPages s out 1 s' 0)
    (hrun : s.alloc 1 = .ok (s', 0)) : Extends s out root V [.alloc 1 0] s' out := by
  have hmem := ha.null rfl
  have htrack : track out 0 (orderFor 1) = out := if_pos rfl
  have hinv := ha.inv
  have hfree := ha.free
  have hempty := ha.freePages_empty
  rw [htrack] at hinv hfree hempty
  refine ⟨⟨hmem ▸ h.tree, hinv, fun a hf => ?_, fun a hf => h.spare.low a (hfree a hf)⟩, ?_,
    by simp [MemStep.returned, newBlock], ?_, hfree, ?_, ?_, .single hrun (ha.careful h).1,
    Extends.spent_none (fun q => by rw [hmem]) (by rw [hempty.1, hempty.2])⟩
  · rw [hmem]
    exact h.spare.apart a (hfree a hf)
  · rw [hmem]
    exact fun _ _ hp => hp
  · rw [hmem]
    exact fun _ hn => .inl hn
  · rw [hmem]
    exact id
  · rw [hmem]
    exact Mem.Touch.refl _ _

/-- **`get_or_create_table`** at an entry that is no leaf: the child's pointer, or null when no page
is free.  No walk changes, and no path but the child's. -/
theorem getOrCreateTable_spec (h : VmmInv s out root V) {p : List (Fin 512)} {t : Nat}
    (hp : follow s.mem root p = some t) (hd : p.length < 3) {i : Fin 512}
    (hleaf : pageFormat.leaf p.length (entryOf s.mem t i) = false) (flags : Nat) :
    ∃ s' r out', getOrCreateTable s (paToVa t) i flags = .ok (s', r) ∧
      Extends s out root V (getOrCreateTableSteps p.length s (paToVa t) i flags) s' out' ∧
      (∀ q, walkPath s'.mem root q = walkPath s.mem root q) ∧
      (∀ q, q ≠ p ++ [i] → follow s'.mem root q = follow s.mem root q) ∧
      (r = 0 → freePages s'.segtab out' = ∅ ∧ follow s'.mem root (p ++ [i]) = none) ∧
      (r = 0 ∨ ∃ c, r = paToVa c ∧ follow s'.mem root (p ++ [i]) = some c) := by
  have ht := h.tree.table t ⟨p, hp⟩
  unfold getOrCreateTable getOrCreateTableSteps
  dsimp only
  rw [phys_entry ht.1 ht.2 i.isLt]
  cases hpres : present (entryOf s.mem t i) with
  | false =>
    have h0 : s.mem.word (t + 8 * i) &&& pagePresent = 0 := (present_eq_false _).mp hpres
    rw [if_pos h0, if_pos h0]
    obtain ⟨B, hB⟩ := h.spare.inv
    obtain ⟨s1, page, hrun, hpages⟩ := alloc_pages hB 1
    rw [hrun, ok_bind, stepsAfter_ok]
    dsimp only
    by_cases hpage : page = 0
    · subst hpage
      have hmem := hpages.null rfl
      have hnone := (RadixFormat.follow_snoc hp i).trans (child_of_not_present (d := p.length) hpres).1
      refine ⟨s1, 0, out, if_pos rfl, h.of_null hpages hrun, fun q => ?_, fun q _ => ?_,
        fun _ => ⟨hpages.freePages_empty.2, ?_⟩, .inl rfl⟩
      · rw [hmem]
      · rw [hmem]
      · rw [hmem]
        exact hnone
    · have hlow := h.spare.low page (hpages.page hpage)
      have hm : (s1.mem.clear .table page pageSize).store .table (t + 8 * i) (tableEntry page flags) =
          _ := rfl
      obtain ⟨hext, hwalk, hnew, hold⟩ := link_table h hp hpages hpage hm hrun hd hpres
      rw [if_neg hpage, if_neg hpage, phys_paToVa hlow]
      refine ⟨_, _, _, ?_, hext, hwalk, hold, fun h0 => absurd h0 (paToVa_ne_zero hlow),
        .inr ⟨page, rfl, hnew⟩⟩
      rw [Mem.store_word_self]
      show Except.ok (_, paToVa (tableEntry page flags &&& pageAddrMask)) = _
      rw [tableEntry_addr hpages.aligned hlow]
      rfl
  | true =>
    have hne : ¬ s.mem.word (t + 8 * i) &&& pagePresent = 0 := by
      intro h0
      have hfalse : present (entryOf s.mem t i) = false := (present_eq_false _).mpr h0
      rw [hfalse] at hpres
      cases hpres
    rw [if_neg hne, if_neg hne]
    have hchild := (RadixFormat.follow_snoc hp i).trans (child_of_present hd hpres hleaf)
    have hlow := (h.tree.table _ ⟨_, hchild⟩).2
    have hcareful : Careful root V s (.descend p.length (t + 8 * i)) s := by
      refine ⟨?_, large_of_present hd hpres hleaf⟩
      rw [pageOf_entry ht.1]
      exact ⟨p, hp⟩
    refine ⟨s, _, out, rfl, Extends.look h (.look hcareful) rfl, fun q => rfl,
      fun q _ => rfl, fun h0 => absurd h0 (paToVa_ne_zero hlow), .inr ⟨_, rfl, hchild⟩⟩

/-! ## The page table of an address -/

/-- `va` is not mapped by a large page. -/
def NotLarge (m : Mem) (root va : Nat) : Prop := ∀ es, walk m root va = some es → es.length = 4

/-- Above the last level the entries met on the way to `va` are no leaves. -/
theorem NotLarge.leaf {m : Mem} {va : Nat} (h : NotLarge m root va) {p q : List (Fin 512)}
    {i : Fin 512} (hva : path va = p ++ i :: q) {t : Nat} (hp : follow m root p = some t)
    (hd : p.length < 3) : pageFormat.leaf p.length (entryOf m t i) = false := by
  by_contra hleaf
  rw [Bool.not_eq_false] at hleaf
  obtain ⟨es, hes, hlen⟩ := RadixFormat.walk_of_leaf hp hleaf q
  have hwalk : walk m root va = some es := by
    unfold walk
    rw [hva]
    exact hes
  have := h es hwalk
  omega

theorem NotLarge.congr {m m' : Mem} {va : Nat} (h : NotLarge m root va)
    (hw : walk m' root va = walk m root va) : NotLarge m' root va := by
  intro es hes
  exact h es (hw ▸ hes)

/-- The paths of the three tables above the page of `va`. -/
def tablesOf (va : Nat) : Finset (List (Fin 512)) :=
  {[index 39 va], [index 39 va, index 30 va], [index 39 va, index 30 va, index 21 va]}

theorem mem_tablesOf {va : Nat} {q : List (Fin 512)} : q ∈ tablesOf va ↔ q = [index 39 va] ∨
    q = [index 39 va, index 30 va] ∨ q = [index 39 va, index 30 va, index 21 va] := by
  simp [tablesOf]

/-- Where there is a page table there are the tables above it. -/
theorem tables_of_follow {m : Mem} {va pt : Nat}
    (h : follow m root [index 39 va, index 30 va, index 21 va] = some pt) :
    ∀ q ∈ tablesOf va, follow m root q ≠ none := by
  have hprefix : ∀ q q', q ++ q' = [index 39 va, index 30 va, index 21 va] →
      follow m root q ≠ none := by
    intro q q' hq hnone
    rw [← hq] at h
    unfold follow at h hnone
    rw [RadixFormat.follow_append, hnone] at h
    cases h
  intro q hq
  rcases mem_tablesOf.mp hq with rfl | rfl | rfl
  · exact hprefix [index 39 va] [index 30 va, index 21 va] rfl
  · exact hprefix [index 39 va, index 30 va] [index 21 va] rfl
  · exact hprefix _ [] (List.append_nil _)

/-- **The three calls in `mmap`'s loop** reach the page table of `va`, or run out of memory where a
table is missing. -/
theorem pageTableFor_spec (h : VmmInv s out root V) {va : Nat} (hva : NotLarge s.mem root va)
    (flags : Nat) :
    ∃ s' r out', pageTableFor s root va flags = .ok (s', r) ∧
      Extends s out root V (pageTableForSteps s root va flags) s' out' ∧
      (∀ va', walk s'.mem root va' = walk s.mem root va') ∧
      (∀ q, q ∉ tablesOf va → follow s'.mem root q = follow s.mem root q) ∧
      (r = 0 → freePages s'.segtab out' = ∅ ∧ ∃ q ∈ tablesOf va, follow s'.mem root q = none) ∧
      (r = 0 ∨ ∃ pt, r = paToVa pt ∧ pt < 2 ^ 47 ∧
        follow s'.mem root [index 39 va, index 30 va, index 21 va] = some pt) := by
  unfold pageTableFor pageTableForSteps
  have hroot : follow s.mem root [] = some root := rfl
  have hpaths := @mem_tablesOf va
  obtain ⟨s1, r1, out1, hrun1, hext1, hwalk1, hoff1, hnull1, hr1⟩ := getOrCreateTable_spec h hroot
    (by decide) (hva.leaf (i := index 39 va) (q := [index 30 va, index 21 va, index 12 va]) rfl hroot
      (by decide)) flags
  have hoff1 : ∀ q, q ∉ tablesOf va → follow s1.mem root q = follow s.mem root q := fun q hq =>
    hoff1 q fun he => hq (hpaths.mpr (.inl he))
  rw [show pml4Idx va = index 39 va from rfl, hrun1, ok_bind, stepsAfter_ok]
  have hd1 : [index 39 va].length < 3 := by simp
  have hd2 : [index 39 va, index 30 va].length < 3 := by simp
  dsimp only
  rcases hr1 with rfl | ⟨pdpt, rfl, hpdpt⟩
  · obtain ⟨hfree, hnone⟩ := hnull1 rfl
    rw [if_pos rfl, if_pos rfl, List.append_nil]
    exact ⟨s1, 0, out1, rfl, hext1, fun va' => hwalk1 _, hoff1,
      fun _ => ⟨hfree, _, hpaths.mpr (.inl rfl), hnone⟩, .inl rfl⟩
  have hne1 := paToVa_ne_zero (hext1.inv.tree.table pdpt ⟨_, hpdpt⟩).2
  have hva1 : NotLarge s1.mem root va := hva.congr (hwalk1 _)
  obtain ⟨s2, r2, out2, hrun2, hext2, hwalk2, hoff2, hnull2, hr2⟩ := getOrCreateTable_spec hext1.inv
    hpdpt hd1 (hva1.leaf (i := index 30 va) (q := [index 21 va, index 12 va]) rfl hpdpt hd1) flags
  have hoff12 : ∀ q, q ∉ tablesOf va → follow s2.mem root q = follow s.mem root q := fun q hq =>
    (hoff2 q fun he => hq (hpaths.mpr (.inr (.inl he)))).trans (hoff1 q hq)
  rw [if_neg hne1, if_neg hne1, show pdptIdx va = index 30 va from rfl, hrun2, ok_bind, stepsAfter_ok]
  have hext12 := hext1.trans hext2
  dsimp only
  rcases hr2 with rfl | ⟨pd, rfl, hpd⟩
  · obtain ⟨hfree, hnone⟩ := hnull2 rfl
    rw [if_pos rfl, if_pos rfl, List.append_nil]
    exact ⟨s2, 0, out2, rfl, hext12, fun va' => (hwalk2 _).trans (hwalk1 _), hoff12,
      fun _ => ⟨hfree, _, hpaths.mpr (.inr (.inl rfl)), hnone⟩, .inl rfl⟩
  have hne2 := paToVa_ne_zero (hext2.inv.tree.table pd ⟨_, hpd⟩).2
  have hva2 : NotLarge s2.mem root va := hva1.congr (hwalk2 _)
  obtain ⟨s3, r3, out3, hrun3, hext3, hwalk3, hoff3, hnull3, hr3⟩ := getOrCreateTable_spec hext2.inv
    hpd hd2 (hva2.leaf (i := index 21 va) (q := [index 12 va]) rfl hpd hd2) flags
  rw [if_neg hne2, if_neg hne2, show pdIdx va = index 21 va from rfl, hrun3]
  refine ⟨s3, r3, out3, rfl, hext1.trans (hext2.trans hext3),
    fun va' => (hwalk3 _).trans ((hwalk2 _).trans (hwalk1 _)),
    fun q hq => (hoff3 q fun he => hq (hpaths.mpr (.inr (.inr he)))).trans (hoff12 q hq),
    fun h0 => ⟨(hnull3 h0).1, _, hpaths.mpr (.inr (.inr rfl)), (hnull3 h0).2⟩, ?_⟩
  rcases hr3 with rfl | ⟨pt, rfl, hpt⟩
  · exact .inl rfl
  · exact .inr ⟨pt, rfl, (hext3.inv.tree.table pt ⟨_, hpt⟩).2, hpt⟩

/-! ## The last level -/

theorem child_last (e : Nat) : pageFormat.child 3 e = none := by
  show (if _ then _ else _) = _
  simp

theorem leaf_last (e : Nat) : pageFormat.leaf 3 e = present e := by
  show (present e && _) = _
  simp

/-- A store to an entry leaves the other entries of the tables alone. -/
theorem VmmInv.store_other (h : VmmInv s out root V) {p : List (Fin 512)} {t : Nat}
    (hp : follow s.mem root p = some t) {i : Fin 512} {e : Nat} {m : Mem}
    (hm : s.mem.store .table (t + 8 * i.val) e = m) {r : List (Fin 512)} {n : Nat} {j : Fin 512}
    (hr : follow s.mem root r = some n) (hne : ¬ (n = t ∧ j = i)) :
    entryOf m n j = entryOf s.mem n j := by
  unfold entryOf
  rw [← hm, Mem.store_word_ne]
  exact fun he => hne (entry_inj (h.tree.table n ⟨r, hr⟩).1 (h.tree.table t ⟨p, hp⟩).1 he)

/-- **Setting an entry of a page table** changes the walks through it and no other. -/
theorem set_entry (h : VmmInv s out root V) {va pt : Nat}
    (hp : follow s.mem root [index 39 va, index 30 va, index 21 va] = some pt) (e : Nat) {m : Mem}
    (hm : s.mem.store .table (pt + 8 * (index 12 va).val) e = m) :
    Extends s out root V [.store (pt + 8 * (index 12 va).val) e] { s with mem := m } out ∧
    (∀ va', path va' ≠ path va → walk m root va' = walk s.mem root va') ∧
    (∀ q, follow m root q = follow s.mem root q) ∧ ∃ es : List Nat, es.length = 3 ∧
      walk m root va = if present e then some (es ++ [e]) else none := by
  have ht := h.tree.table pt ⟨_, hp⟩
  have hget : ∀ r n j, follow s.mem root r = some n → ¬ (n = pt ∧ j = index 12 va) →
      entryOf m n j = entryOf s.mem n j := by
    intro r n j hr hne
    exact h.store_other hp hm hr hne
  have hentry : entryOf m pt (index 12 va) = e := by
    unfold entryOf
    rw [← hm, Mem.store_word_self]
  obtain ⟨hold, hoff, es, hlen, hwalk⟩ := RadixFormat.set_leaf h.tree.tree hp hget
    (child_last _) (child_last _)
  have htables : ∀ n, IsTable m root n → IsTable s.mem root n := by
    rintro n ⟨q, hq⟩
    exact ⟨q, (hold q).symm.trans hq⟩
  have hcareful : Does (Careful root V) s [.store (pt + 8 * (index 12 va).val) e] { s with mem := m } := by
    subst hm
    refine .single rfl ?_
    show IsTable s.mem root (pageOf (pt + 8 * (index 12 va).val))
    rw [pageOf_entry ht.1]
    exact ⟨_, hp⟩
  refine ⟨⟨⟨⟨h.tree.tree.congr hold, fun n hn => h.tree.table n (htables n hn)⟩, ?_⟩,
    fun q n hq => (hold q).trans hq, by simp [MemStep.returned], fun n hn => .inl (htables n hn),
    fun _ ha => ha, fun hl => RadixFormat.LeavesAt.set_leaf h.tree.tree hp hget hl hold, ?_, hcareful,
    Extends.spent_none hold rfl⟩, fun va' hne => ?_, hold, es, hlen, ?_⟩
  · refine (h.spare.mono ?_).write fun a hne hf => ?_
    · rintro a (hn | hv)
      · exact .inl (htables a hn)
      · exact .inr hv
    · apply hne
      rw [← hm, Mem.store_word_ne]
      rintro rfl
      exact h.entry_not_free ⟨_, hp⟩ _ hf
  · show s.mem.Touch (TreeWrite s out m root) m
    have htouch : s.mem.Touch (TreeWrite s out m root)
        (s.mem.store .table (pt + 8 * (index 12 va).val) e) := by
      refine Mem.Touch.store _ _ (.inl ⟨rfl, ?_⟩)
      rw [pageOf_entry ht.1]
      exact ⟨[index 39 va, index 30 va, index 21 va], (hold _).trans hp⟩
    rwa [hm] at htouch
  · refine hoff _ fun hpre => hne ?_
    exact (hpre.eq_of_length rfl).symm
  · rw [hentry] at hwalk
    rw [← leaf_last e]
    exact hwalk

/-! ## A machine with an empty tree -/

/-- In an empty table nothing is found. -/
theorem follow_empty {m : Mem} (h : ∀ i, entryOf m root i = 0) {p : List (Fin 512)} {n : Nat}
    (hp : follow m root p = some n) : p = [] ∧ n = root := by
  cases p with
  | nil => exact ⟨rfl, (Option.some.inj hp).symm⟩
  | cons i p =>
    unfold follow RadixFormat.follow at hp
    rw [h i] at hp
    cases hp

theorem emptyTree {m : Mem} (h : ∀ i, entryOf m root i = 0) (ha : root % 4096 = 0)
    (hlow : root < 2 ^ 47) : PageTree m root ∧ pageFormat.LeavesAt (entryOf m) 3 root := by
  refine ⟨⟨fun p q n hp hq => ?_, ?_⟩, fun p n i hp hleaf => ?_⟩
  · rw [(follow_empty h hp).1, (follow_empty h hq).1]
  · rintro n ⟨p, hp⟩
    rw [(follow_empty h hp).2]
    exact ⟨ha, hlow⟩
  · obtain ⟨rfl, rfl⟩ := follow_empty h hp
    rw [h i] at hleaf
    cases hleaf

def eightPages : List MemmapEntry :=
  [{ base := 0x100000, length := 0x8000, type := .usable, base_lt := oneMiB_lt }]

/-- The allocator after `initialise` on these. -/
def bootPmm : Pmm where
  mem := zeroMem.store .header 0x100000 0
  segtab := [⟨0x100000, 0x8000, 0, (Vector.replicate 16 0).set 3 0x100000, 3⟩]
  totalMem := 8
  numUsed := 0
  numErrors := 0

theorem eightPages_wellFormed : WellFormedMap eightPages where
  aligned := by decide
  fits := by decide
  apart := List.pairwise_singleton _ _
  pages := by
    intro e he base length h
    rw [List.mem_singleton.mp he] at h
    cases h
    decide

theorem bootPmm_initialise : Pmm.initialise zeroMem eightPages = .ok bootPmm := rfl

/-- Its root table is the page at `0x1000`. -/
def bootVmm : Vmm := Vmm.initialise bootPmm 0x1000

theorem boot_entry (n : Nat) (i : Fin 512) : entryOf bootPmm.mem n i = 0 := by
  show (if _ then 0 else 0) = 0
  exact ite_self 0

theorem boot_tree : PageTree bootPmm.mem 0x1000 ∧ pageFormat.LeavesAt (entryOf bootPmm.mem) 3 0x1000 :=
  emptyTree (boot_entry _) rfl (by decide)

theorem boot_spare : Spare bootPmm ∅ (IsTable bootPmm.mem 0x1000) := by
  have hfree : ∀ a, FreePage bootPmm.segtab ∅ a → 0x100000 ≤ a ∧ a < 0x108000 := by
    rintro a ⟨seg, hs, x, hx, rfl, -⟩
    obtain rfl := List.mem_singleton.mp hs
    simp only at hx ⊢
    omega
  refine ⟨Reach.inv eightPages_wellFormed (.initialise bootPmm_initialise), fun a ha => ?_,
    fun a ha => ?_⟩
  · rintro ⟨p, hp⟩
    have := hfree a ha
    have := (follow_empty (boot_entry _) hp).2
    omega
  · have := hfree a ha
    omega

end HelixKernel
