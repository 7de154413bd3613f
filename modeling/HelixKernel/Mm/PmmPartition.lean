import HelixKernel.Mm.PmmMap
import Mathlib.Algebra.BigOperators.Fin

/-!
# Usable memory lost at start-up

A region gives one block, whose size is a power of two of pages, and there are 128
segments.  On maps of page-aligned entries that are apart

    NothingLost memmap ↔ WholeMap memmap                          (nothing_lost_iff)

where `NothingLost` says that the free blocks partition the usable memory and add
up to `total_memory`, and `WholeMap` that every region is a power of two of pages
and every entry with memory above 1 MiB is among the regions. -/

namespace HelixKernel

/-- The managed entries are page-aligned and apart. -/
structure AlignedMap (memmap : List MemmapEntry) : Prop where
  aligned : ∀ e ∈ memmap, e.type.managed = true → e.base % 4096 = 0 ∧ e.length % 4096 = 0
  apart : memmap.Pairwise fun e f => e.type.managed = true → f.type.managed = true → e.Apart f

/-- A byte at or above 1 MiB of an entry of one of the three types. -/
def UsableByte (memmap : List MemmapEntry) (y : Nat) : Prop :=
  ∃ e ∈ memmap, e.type.managed = true ∧ 0x100000 ≤ y ∧ e.base ≤ y ∧ y < e.base + e.length

/-- The free blocks partition the usable memory, none runs past 2^64, and their pages are those
`total_memory` counts. -/
structure Partitioned (memmap : List MemmapEntry) (s : Pmm) : Prop where
  cover : ∀ y, UsableByte memmap y ↔ ∃ i k a, FreeAt s i k a ∧ InBlock a k y
  apart : ∀ i k a j l c, FreeAt s i k a → FreeAt s j l c → Overlap a k c l → (i, k, a) = (j, l, c)
  top : ∀ i k a, FreeAt s i k a → a + 2 ^ k * 4096 ≤ 2 ^ 64
  pages : ∃ F : Finset (Nat × Nat × Nat), (∀ i k a, (i, k, a) ∈ F ↔ FreeAt s i k a) ∧
    (∑ b ∈ F, 2 ^ b.2.1) * 4096 = s.totalMemory

/-- No usable memory is lost at start-up. -/
def NothingLost (memmap : List MemmapEntry) : Prop :=
  ∀ mem, ∃ s, Pmm.initialise mem memmap = .ok s ∧ Partitioned memmap s

/-- Each region taken over is a power of two of pages, at most `2 ^ 15`, and ends by 2^64, and each
entry with memory above 1 MiB is taken over. -/
structure WholeMap (memmap : List MemmapEntry) : Prop where
  powers : ∀ r ∈ regions memmap, ∃ k, k ≤ 15 ∧ r.2 = 2 ^ k * 4096
  top : ∀ r ∈ regions memmap, r.1 + r.2 ≤ 2 ^ 64
  taken : ∀ e ∈ memmap, e.type.managed = true → 0 < e.length → 0x100000 < e.base + e.length →
    ∃ r ∈ regions memmap, e.region = some r

theorem WholeMap.regions_lt {memmap : List MemmapEntry} (hw : WholeMap memmap) :
    ∀ r ∈ regions memmap, r.2 / 4096 < 2 ^ 16 := by
  intro r hr
  obtain ⟨k, hk, he⟩ := hw.powers r hr
  have : 2 ^ k ≤ 2 ^ 15 := Nat.pow_le_pow_right (by decide) hk
  omega

theorem WholeMap.region_eq {memmap : List MemmapEntry} (hw : WholeMap memmap) {r : Nat × Nat}
    (hr : r ∈ regions memmap) : 2 ^ regionOrder r * 4096 = r.2 := by
  obtain ⟨k, -, he⟩ := hw.powers r hr
  have hpages : r.2 / 4096 = 2 ^ k := by
    rw [he, Nat.mul_div_cancel _ (by decide)]
  have hpos := Nat.two_pow_pos k
  obtain ⟨hlow, hhigh⟩ := newSegment_maxOrder r.1 (regions_length_lt hr)
  rw [hpages] at hlow hhigh
  have hup : k < regionOrder r + 1 := (Nat.pow_lt_pow_iff_right (by decide)).mp hhigh
  have hdown : regionOrder r ≤ k := by
    rcases hlow with hle | hzero
    · exact (Nat.pow_le_pow_iff_right (by decide)).mp hle
    · rw [show regionOrder r = 0 from hzero]
      omega
  rw [he, show regionOrder r = k by omega]

theorem inBlock_iff_pages (a k y : Nat) : InBlock a k y ↔ a ≤ y ∧ y < a + 2 ^ k * 4096 := by
  unfold InBlock
  rw [Nat.pow_add]

theorem totalSize_eq (segtab : List PmmSegment) :
    totalSize segtab = wrap64 (segtab.map PmmSegment.size).sum := by
  have hacc : ∀ (l : List PmmSegment) (acc : Nat), acc < 2 ^ 64 →
      l.foldl (fun total seg => wrap64 (total + seg.size)) acc =
        wrap64 (acc + (l.map PmmSegment.size).sum) := by
    intro l
    induction l with
    | nil => intro acc h; exact (wrap64_of_lt h).symm
    | cons seg l ih =>
      intro acc h
      rw [List.foldl_cons, ih _ (wrap64_lt _), List.map_cons, List.sum_cons]
      unfold wrap64
      omega
  unfold totalSize
  rw [hacc segtab 0 (by decide), Nat.zero_add]

/-- What `total_memory` reports: at most 128 regions below 256 MiB do not wrap. -/
theorem totalMemory_regions {memmap : List MemmapEntry} {s : Pmm}
    (hpages : ∀ r ∈ regions memmap, r.2 / 4096 < 2 ^ 16)
    (htab : s.segtab = (regions memmap).map wholeSegment) :
    s.totalMemory = ((regions memmap).map Prod.snd).sum := by
  have hlen : (regions memmap).length ≤ 128 := List.length_take_le _ _
  have hsum : ((regions memmap).map Prod.snd).sum ≤ ((regions memmap).map Prod.snd).length • 2 ^ 28 := by
    apply List.sum_le_card_nsmul
    intro n hn
    obtain ⟨r, hr, rfl⟩ := List.mem_map.mp hn
    have := hpages r hr
    omega
  rw [List.length_map, smul_eq_mul] at hsum
  show totalSize s.segtab = _
  rw [totalSize_eq, htab, List.map_map]
  show wrap64 ((regions memmap).map Prod.snd).sum = _
  exact wrap64_of_lt (by omega)

/-- The free blocks of a state with one block a region. -/
def blockSet (L : List (Nat × Nat)) : Finset (Nat × Nat × Nat) :=
  Finset.univ.image fun i : Fin L.length => (i.1, regionOrder L[i.1], L[i.1].1)

theorem mem_blockSet (L : List (Nat × Nat)) (i k a : Nat) :
    (i, k, a) ∈ blockSet L ↔ L[i]?.map (fun r => (r.1, regionOrder r)) = some (a, k) := by
  unfold blockSet
  rw [Finset.mem_image, Option.map_eq_some_iff]
  constructor
  · rintro ⟨j, -, he⟩
    simp only [Prod.mk.injEq] at he
    obtain ⟨rfl, rfl, rfl⟩ := he
    exact ⟨L[j.1], List.getElem?_eq_getElem j.2, rfl⟩
  · rintro ⟨r, hr, he⟩
    obtain ⟨hi, rfl⟩ := List.getElem?_eq_some_iff.mp hr
    simp only [Prod.mk.injEq] at he
    exact ⟨⟨i, hi⟩, Finset.mem_univ _, by rw [he.1, he.2]⟩

theorem sum_blockSet (L : List (Nat × Nat)) :
    ∑ b ∈ blockSet L, 2 ^ b.2.1 = (L.map fun r => 2 ^ regionOrder r).sum := by
  unfold blockSet
  rw [Finset.sum_image fun i _ j _ he => Fin.ext (congrArg Prod.fst he)]
  exact Fin.sum_univ_fun_getElem L fun r => 2 ^ regionOrder r

section

variable {memmap : List MemmapEntry}

theorem AlignedMap.region_aligned (hmm : AlignedMap memmap) {r : Nat × Nat}
    (hr : r ∈ regions memmap) : r.1 % 4096 = 0 ∧ r.2 % 4096 = 0 := by
  obtain ⟨e, he, hreg⟩ := regions_mem hr
  have := hmm.aligned e he (region_managed hreg)
  have := region_span hreg
  omega

theorem AlignedMap.regions_apart (hmm : AlignedMap memmap) :
    (regions memmap).Pairwise fun r q => r.1 + r.2 ≤ q.1 ∨ q.1 + q.2 ≤ r.1 := by
  refine (hmm.apart.filterMap MemmapEntry.region ?_).sublist (List.take_sublist _ _)
  intro e f hap r hr q hq
  have hef : e.Apart f := hap (region_managed hr) (region_managed hq)
  have := region_span hr
  have := region_span hq
  unfold MemmapEntry.Apart at hef
  omega

/-- Regions at different places of the table are apart. -/
theorem AlignedMap.regions_at (hmm : AlignedMap memmap) {i j : Nat} {r q : Nat × Nat}
    (hi : (regions memmap)[i]? = some r) (hj : (regions memmap)[j]? = some q) (hij : i ≠ j) :
    r.1 + r.2 ≤ q.1 ∨ q.1 + q.2 ≤ r.1 := by
  obtain ⟨hi', rfl⟩ := List.getElem?_eq_some_iff.mp hi
  obtain ⟨hj', rfl⟩ := List.getElem?_eq_some_iff.mp hj
  have hpair := List.pairwise_iff_getElem.mp hmm.regions_apart
  rcases Nat.lt_or_gt_of_ne hij with hlt | hlt
  · exact hpair i j hi' hj' hlt
  · exact (hpair j i hj' hi' hlt).symm

/-- Two managed entries with a common byte are one entry. -/
theorem AlignedMap.entry_unique (hmm : AlignedMap memmap) {e f : MemmapEntry} (he : e ∈ memmap)
    (hf : f ∈ memmap) (hme : e.type.managed = true) (hmf : f.type.managed = true) {y : Nat}
    (hey : e.base ≤ y ∧ y < e.base + e.length) (hfy : f.base ≤ y ∧ y < f.base + f.length) : e = f := by
  by_contra hne
  obtain ⟨i, hi, rfl⟩ := List.getElem_of_mem he
  obtain ⟨j, hj, rfl⟩ := List.getElem_of_mem hf
  have hij : i ≠ j := by
    rintro rfl
    exact hne rfl
  have hpair := List.pairwise_iff_getElem.mp hmm.apart
  unfold MemmapEntry.Apart at hpair
  rcases Nat.lt_or_gt_of_ne hij with hlt | hlt
  · have := hpair i j hi hj hlt hme hmf
    omega
  · have := hpair j i hj hi hlt hmf hme
    omega

/-- The block of a region lies in it, or in the page at its base where it is empty. -/
theorem AlignedMap.block_within (hmm : AlignedMap memmap) {r : Nat × Nat} (hr : r ∈ regions memmap) :
    2 ^ regionOrder r * 4096 ≤ max r.2 4096 := by
  have hal := hmm.region_aligned hr
  rcases (newSegment_maxOrder r.1 (regions_length_lt hr)).1 with hle | hzero
  · have : 2 ^ regionOrder r ≤ r.2 / 4096 := hle
    omega
  · rw [show regionOrder r = 0 from hzero]
    omega

variable {s : Pmm}
  (hfree : ∀ i k a, FreeAt s i k a ↔
    (regions memmap)[i]?.map (fun r => (r.1, regionOrder r)) = some (a, k))

include hfree

theorem freeAt_cases {i k a : Nat} (h : FreeAt s i k a) :
    ∃ r, (regions memmap)[i]? = some r ∧ r ∈ regions memmap ∧ a = r.1 ∧ k = regionOrder r := by
  obtain ⟨r, hr, he⟩ := Option.map_eq_some_iff.mp ((hfree i k a).mp h)
  simp only [Prod.mk.injEq] at he
  exact ⟨r, hr, List.mem_of_getElem? hr, he.1.symm, he.2.symm⟩

/-- Where every byte is in a free block, no region is larger than its block. -/
theorem Partitioned.region_le (hmm : AlignedMap memmap) (hp : Partitioned memmap s) {r : Nat × Nat}
    (hr : r ∈ regions memmap) : r.2 ≤ 2 ^ regionOrder r * 4096 := by
  by_contra hlt
  obtain ⟨i, hi⟩ := List.getElem?_of_mem hr
  obtain ⟨e, he, hreg⟩ := regions_mem hr
  obtain ⟨hbase, hend⟩ := region_span hreg
  have hal := hmm.region_aligned hr
  have hpos := Nat.two_pow_pos (regionOrder r)
  -- the first page behind the block belongs to the entry, but to no block
  have hbyte : UsableByte memmap (r.1 + 2 ^ regionOrder r * 4096) :=
    ⟨e, he, region_managed hreg, by omega, by omega, by omega⟩
  obtain ⟨j, k, a, hf, hin⟩ := (hp.cover _).mp hbyte
  obtain ⟨q, hj, hq, rfl, rfl⟩ := freeAt_cases hfree hf
  rw [inBlock_iff_pages] at hin
  by_cases hij : i = j
  · subst hij
    rw [hi] at hj
    cases hj
    omega
  · have hap := hmm.regions_at hi hj hij
    have hqal := hmm.region_aligned hq
    have hqin := hmm.block_within hq
    omega

/-- Where also the pages add up, every region is its block. -/
theorem Partitioned.region_eq (hmm : AlignedMap memmap)
    (hpages : ∀ r ∈ regions memmap, r.2 / 4096 < 2 ^ 16)
    (htab : s.segtab = (regions memmap).map wholeSegment) (hp : Partitioned memmap s) :
    ∀ r ∈ regions memmap, r.2 = 2 ^ regionOrder r * 4096 := by
  have hle : ∀ r ∈ regions memmap, r.2 ≤ 2 ^ regionOrder r * 4096 := fun r hr =>
    hp.region_le hfree hmm hr
  obtain ⟨F, hF, hsum⟩ := hp.pages
  have hset : F = blockSet (regions memmap) := by
    ext ⟨i, k, a⟩
    rw [hF, hfree, mem_blockSet]
  rw [hset, sum_blockSet, totalMemory_regions hpages htab] at hsum
  intro r hr
  by_contra hne
  have hlt := List.sum_lt_sum Prod.snd (fun r => 2 ^ regionOrder r * 4096) hle
    ⟨r, hr, Nat.lt_of_le_of_ne (hle r hr) hne⟩
  rw [List.sum_map_mul_right] at hlt
  omega

/-- **What a loss-free start needs.** -/
theorem Partitioned.whole (hmm : AlignedMap memmap)
    (hpages : ∀ r ∈ regions memmap, r.2 / 4096 < 2 ^ 16)
    (htab : s.segtab = (regions memmap).map wholeSegment) (hp : Partitioned memmap s) :
    WholeMap memmap where
  powers r hr := ⟨regionOrder r, (regionOrder_le_iff hr).mpr (hpages r hr),
    hp.region_eq hfree hmm hpages htab r hr⟩
  top r hr := by
    obtain ⟨i, hi⟩ := List.getElem?_of_mem hr
    rw [hp.region_eq hfree hmm hpages htab r hr]
    exact hp.top i _ _ ((hfree _ _ _).mpr (by rw [hi]; rfl))
  taken e he hm hlen hhigh := by
    obtain ⟨i, k, a, hf, hin⟩ := (hp.cover (max e.base 0x100000)).mp
      ⟨e, he, hm, by omega, by omega, by omega⟩
    obtain ⟨r, -, hr, rfl, rfl⟩ := freeAt_cases hfree hf
    rw [inBlock_iff_pages, ← hp.region_eq hfree hmm hpages htab r hr] at hin
    obtain ⟨f, hfm, hreg⟩ := regions_mem hr
    have hspan := region_span hreg
    have hef : e = f := hmm.entry_unique he hfm hm (region_managed hreg)
      (show e.base ≤ max e.base 0x100000 ∧ _ by omega) (by omega)
    exact ⟨r, hr, hef ▸ hreg⟩

/-- **What suffices.** -/
theorem WholeMap.partitioned (hmm : AlignedMap memmap) (hw : WholeMap memmap)
    (hpages : ∀ r ∈ regions memmap, r.2 / 4096 < 2 ^ 16)
    (htab : s.segtab = (regions memmap).map wholeSegment) : Partitioned memmap s := by
  have hsize : ∀ r ∈ regions memmap, 2 ^ regionOrder r * 4096 = r.2 := fun r hr => hw.region_eq hr
  refine ⟨fun y => ⟨?_, ?_⟩, ?_, ?_, blockSet (regions memmap), ?_, ?_⟩
  · rintro ⟨e, he, hm, hlow, hbase, hend⟩
    obtain ⟨r, hr, hreg⟩ := hw.taken e he hm (by omega) (by omega)
    obtain ⟨i, hi⟩ := List.getElem?_of_mem hr
    have hspan := region_span hreg
    refine ⟨i, regionOrder r, r.1, (hfree _ _ _).mpr (by rw [hi]; rfl), ?_⟩
    rw [inBlock_iff_pages, hsize r hr]
    omega
  · rintro ⟨i, k, a, hf, hin⟩
    obtain ⟨r, -, hr, rfl, rfl⟩ := freeAt_cases hfree hf
    obtain ⟨e, he, hreg⟩ := regions_mem hr
    have hspan := region_span hreg
    rw [inBlock_iff_pages, hsize r hr] at hin
    exact ⟨e, he, region_managed hreg, by omega, by omega, by omega⟩
  · rintro i k a j l c hf hg ⟨y, hyf, hyg⟩
    obtain ⟨r, hi, hr, rfl, rfl⟩ := freeAt_cases hfree hf
    obtain ⟨q, hj, hq, rfl, rfl⟩ := freeAt_cases hfree hg
    rw [inBlock_iff_pages, hsize r hr] at hyf
    rw [inBlock_iff_pages, hsize q hq] at hyg
    by_cases hij : i = j
    · subst hij
      rw [hi] at hj
      cases hj
      rfl
    · have := hmm.regions_at hi hj hij
      omega
  · intro i k a hf
    obtain ⟨r, -, hr, rfl, rfl⟩ := freeAt_cases hfree hf
    rw [hsize r hr]
    exact hw.top r hr
  · intro i k a
    rw [mem_blockSet, hfree]
  · rw [sum_blockSet, totalMemory_regions hpages htab, ← List.sum_map_mul_right]
    exact congrArg List.sum (List.map_congr_left hsize)

end

/-- **No memory is lost at start-up exactly on whole maps.** -/
theorem nothing_lost_iff {memmap : List MemmapEntry} (hmm : AlignedMap memmap) :
    NothingLost memmap ↔ WholeMap memmap := by
  constructor
  · intro h
    obtain ⟨s, hs, hp⟩ := h zeroMem
    have hpages := initialise_ok_lt hs
    obtain ⟨s', hs', htab, hfree⟩ := initialise_blocks hpages zeroMem
    rw [hs] at hs'
    cases hs'
    exact hp.whole hfree hmm hpages htab
  · intro hw mem
    obtain ⟨s, hs, htab, hfree⟩ := initialise_blocks hw.regions_lt mem
    exact ⟨s, hs, hw.partitioned hfree hmm hw.regions_lt htab⟩

/-- Seven pages are one block of four, and three pages that are counted but on no list. -/
def sevenPages : MemmapEntry :=
  { base := 0x100000, length := 0x7000, type := .usable, base_lt := oneMiB_lt }

theorem not_nothing_lost_seven : ¬ ∀ memmap, AlignedMap memmap → NothingLost memmap := by
  intro hall
  obtain ⟨s, hs, hp⟩ := hall [sevenPages] ⟨by decide, List.pairwise_singleton _ _⟩ zeroMem
  obtain ⟨s', hs', -, hfree⟩ := initialise_blocks (initialise_ok_lt hs) zeroMem
  rw [hs] at hs'
  cases hs'
  obtain ⟨i, k, a, hf, hin⟩ := (hp.cover 0x104000).mp
    ⟨sevenPages, List.mem_singleton_self _, by decide, by decide, by decide, by decide⟩
  obtain ⟨r, -, hr, rfl, rfl⟩ := freeAt_cases hfree hf
  have hone : ∀ r ∈ regions [sevenPages], r.1 + 2 ^ (regionOrder r + 12) ≤ 0x104000 := by decide
  have := hone r hr
  unfold InBlock at hin
  omega

theorem nothing_lost_twoPages : NothingLost twoPages := by
  refine (nothing_lost_iff ⟨by decide, List.pairwise_singleton _ _⟩).mpr ⟨fun r hr => ?_, by decide, by decide⟩
  rw [List.mem_singleton.mp hr]
  exact ⟨1, by decide, by decide⟩

end HelixKernel
