import HelixKernel.Mm.PmmCanonical
import Mathlib.Data.Nat.Log

/-!
# What `initialise` puts on the free lists

`initialise` makes one block of each region it takes over: at the base, of the
largest order that fits, or of order 0 where not even a page does.  `blocksMade`
lists its calls of `add_block`, with the entry each block was made from.  On any
memory map at all:

    BlocksReal memmap ↔ ∀ r ∈ regions memmap, OneBlock r           (blocks_real)

where a region is good for its one block if it begins at a page boundary, has a
whole page, and the block does not run past the end of the address space. -/

namespace HelixKernel

theorem regions_low {memmap : List MemmapEntry} {r : Nat × Nat} (hr : r ∈ regions memmap) :
    0x100000 ≤ r.1 := by
  obtain ⟨e, -, he⟩ := regions_mem hr
  have := (region_span he).1
  omega

/-! ## The state -/

theorem wholeSegment_onFreeList {s : Pmm} {r : Nat × Nat} (hne : r.1 ≠ 0) (hk : regionOrder r < 16)
    (hzero : s.mem.word r.1 = 0) (k a : Nat) :
    OnFreeList s (wholeSegment r) k a ↔ k = regionOrder r ∧ a = r.1 := by
  have hhead (hk : k < 16) : (wholeSegment r).freeList[k] = if k = regionOrder r then r.1 else 0 := by
    show (Vector.ofFn _)[k] = _
    rw [Vector.getElem_ofFn]
  by_cases hko : k = regionOrder r
  · have hchain : Chain 0 s.mem.word r.1 [r.1] := ⟨rfl, hne, hzero⟩
    have hin : OnFreeList s (wholeSegment r) k a ↔ Linked 0 s.mem.word r.1 a := by
      constructor
      · rintro ⟨hk16, hl⟩
        rwa [hhead hk16, if_pos hko] at hl
      · intro hl
        refine ⟨by omega, ?_⟩
        rwa [hhead (by omega), if_pos hko]
    rw [hin, hchain.linked_iff, List.mem_singleton]
    exact ⟨fun ha => ⟨hko, ha⟩, fun h => h.2⟩
  · constructor
    · rintro ⟨hk16, hl⟩
      rw [hhead hk16, if_neg hko] at hl
      exact absurd rfl hl.ne_null
    · intro h
      exact absurd h.1 hko

/-- **The state after `initialise`**: one free block for each region, in order. -/
theorem initialise_blocks {memmap : List MemmapEntry}
    (hpages : ∀ r ∈ regions memmap, r.2 / 4096 < 2 ^ 16) (mem : Mem) :
    ∃ s, Pmm.initialise mem memmap = .ok s ∧ s.segtab = (regions memmap).map wholeSegment ∧
      ∀ i k a, FreeAt s i k a ↔ (regions memmap)[i]?.map (fun r => (r.1, regionOrder r)) = some (a, k) := by
  obtain ⟨s, hrun, htab, hheads⟩ := initialise_whole hpages mem
  refine ⟨s, hrun, htab, fun i k a => ?_⟩
  unfold FreeAt
  rw [htab, List.getElem?_map]
  cases hi : (regions memmap)[i]? with
  | none => simp
  | some r =>
    have hr := List.mem_of_getElem? hi
    have hk := (regionOrder_le_iff hr).mpr (hpages r hr)
    have hlow := regions_low hr
    simp only [Option.map_some, Option.some.injEq, Prod.mk.injEq, exists_eq_left']
    rw [wholeSegment_onFreeList (by omega) (by omega) (hheads r hr)]
    exact ⟨fun h => ⟨h.2.symm, h.1.symm⟩, fun h => ⟨h.2.symm, h.1.symm⟩⟩

theorem initialise_ok_lt {memmap : List MemmapEntry} {mem : Mem} {s : Pmm}
    (h : Pmm.initialise mem memmap = .ok s) : ∀ r ∈ regions memmap, r.2 / 4096 < 2 ^ 16 := by
  intro r hr
  by_contra hbig
  obtain ⟨i, hi⟩ := initialise_outOfBounds ⟨r, hr, hbig⟩ mem
  rw [hi] at h
  cases h

/-! ## What the blocks are made of -/

/-- A block `initialise` puts on a free list, with the entry it was made from. -/
structure MadeBlock where
  entry : MemmapEntry
  addr : Nat
  order : Nat
deriving DecidableEq

/-- The calls of `add_block` in the loop over the memory map, `numSegtab` segments on. -/
def blocksMade : List MemmapEntry → Nat → List MadeBlock
  | [], _ => []
  | mme :: rest, numSegtab =>
    match mme.region with
    | none => blocksMade rest numSegtab
    | some (base, length) =>
      if numSegtab ≥ maxSegtab then []
      else ⟨mme, base, (newSegment base length).maxOrder⟩ :: blocksMade rest (numSegtab + 1)

/-- The block starts at a page boundary and its `2 ^ order` pages lie inside the entry, at or above
1 MiB and below 2^64. -/
structure MadeBlock.Real (b : MadeBlock) : Prop where
  page : b.addr % 4096 = 0
  low : 0x100000 ≤ b.addr
  base : b.entry.base ≤ b.addr
  fits : b.addr + 2 ^ b.order * 4096 ≤ b.entry.base + b.entry.length
  top : b.addr + 2 ^ b.order * 4096 ≤ 2 ^ 64

/-- The region begins at a page boundary, has a whole page, and the largest power of two of pages in
it, from its base on, ends by 2^64. -/
structure OneBlock (r : Nat × Nat) : Prop where
  page : r.1 % 4096 = 0
  whole : 4096 ≤ r.2
  top : r.1 + 2 ^ Nat.log 2 (r.2 / 4096) * 4096 ≤ 2 ^ 64

/-- Each call is the one of the region of its entry. -/
theorem blocksMade_map : ∀ (memmap : List MemmapEntry) (n : Nat),
    (blocksMade memmap n).map (fun b => (b.entry.region, b.addr, b.order)) =
      ((memmap.filterMap MemmapEntry.region).take (maxSegtab - n)).map
        fun r => (some r, r.1, regionOrder r) := by
  intro memmap
  induction memmap with
  | nil => intro n; simp [blocksMade]
  | cons e rest ih =>
    intro n
    unfold blocksMade
    cases hreg : e.region with
    | none =>
      rw [List.filterMap_cons_none hreg]
      exact ih n
    | some r =>
      rw [List.filterMap_cons_some hreg]
      dsimp only
      by_cases hfull : n ≥ maxSegtab
      · rw [if_pos hfull, show maxSegtab - n = 0 by omega]
        rfl
      · rw [if_neg hfull, show maxSegtab - n = maxSegtab - (n + 1) + 1 by omega, List.take_succ_cons,
          List.map_cons, List.map_cons, ih (n + 1), hreg]
        rfl

theorem blocksMade_getElem? (memmap : List MemmapEntry) (i : Nat) :
    (blocksMade memmap 0)[i]?.map (fun b => (b.entry.region, b.addr, b.order)) =
      (regions memmap)[i]?.map fun r => (some r, r.1, regionOrder r) := by
  rw [← List.getElem?_map, ← List.getElem?_map, blocksMade_map memmap 0]
  rfl

theorem regionOrder_fits {r : Nat × Nat} (hr : r.2 < 2 ^ 64) :
    2 ^ regionOrder r * 4096 ≤ r.2 ↔ 4096 ≤ r.2 := by
  have hpos := Nat.two_pow_pos (regionOrder r)
  rcases (newSegment_maxOrder r.1 hr).1 with hle | hzero
  · have : 2 ^ regionOrder r ≤ r.2 / 4096 := hle
    omega
  · rw [show regionOrder r = 0 from hzero]
    omega

theorem regionOrder_eq_log {r : Nat × Nat} (hr : r.2 < 2 ^ 64) :
    regionOrder r = Nat.log 2 (r.2 / 4096) := by
  obtain ⟨hlow, hhigh⟩ := newSegment_maxOrder r.1 hr
  rcases hlow with hle | hzero
  · exact (Nat.log_eq_of_pow_le_of_lt_pow hle hhigh).symm
  · rw [hzero] at hhigh
    rw [Nat.log_of_lt (show r.2 / 4096 < 2 from hhigh)]
    exact hzero

theorem MadeBlock.real_iff {b : MadeBlock} {r : Nat × Nat} (hreg : b.entry.region = some r)
    (ha : b.addr = r.1) (ho : b.order = regionOrder r) : b.Real ↔ OneBlock r := by
  obtain ⟨hbase, hend⟩ := region_span hreg
  have hlt := region_length_lt hreg
  have hsize := regionOrder_fits hlt
  constructor
  · rintro ⟨hpage, -, -, hfits, htop⟩
    rw [ha, ho] at hfits htop
    rw [ha] at hpage
    refine ⟨hpage, hsize.mp (by omega), ?_⟩
    rwa [← regionOrder_eq_log hlt]
  · rintro ⟨hpage, hwhole, htop⟩
    rw [← regionOrder_eq_log hlt] at htop
    have hfits := hsize.mpr hwhole
    refine ⟨by rw [ha, hpage], by omega, by omega, ?_, ?_⟩
    · rw [ha, ho]
      omega
    · rw [ha, ho]
      exact htop

/-- Everything put on a free list is real usable memory. -/
def BlocksReal (memmap : List MemmapEntry) : Prop := ∀ b ∈ blocksMade memmap 0, b.Real

/-- **What goes on the free lists.**  The blocks made are the free blocks of the state
`initialise` leaves, and they are real exactly if each region is good for one. -/
theorem blocks_real (memmap : List MemmapEntry) :
    (∀ mem s, Pmm.initialise mem memmap = .ok s → ∀ i k a, FreeAt s i k a ↔
      ∃ b, (blocksMade memmap 0)[i]? = some b ∧ b.addr = a ∧ b.order = k) ∧
    (BlocksReal memmap ↔ ∀ r ∈ regions memmap, OneBlock r) := by
  refine ⟨fun mem s h i k a => ?_, ?_⟩
  · obtain ⟨s', hs', -, hfree⟩ := initialise_blocks (initialise_ok_lt h) mem
    rw [hs'] at h
    cases h
    have hat := congrArg (Option.map Prod.snd) (blocksMade_getElem? memmap i)
    rw [Option.map_map, Option.map_map] at hat
    rw [hfree]
    show Option.map (Prod.snd ∘ fun r => (some r, r.1, regionOrder r)) _ = _ ↔ _
    rw [← hat, Option.map_eq_some_iff]
    simp only [Function.comp_apply, Prod.mk.injEq]
  · have hmap : (blocksMade memmap 0).map (fun b => (b.entry.region, b.addr, b.order)) =
        (regions memmap).map fun r => (some r, r.1, regionOrder r) := blocksMade_map memmap 0
    constructor
    · intro hall r hr
      have hin := List.mem_map_of_mem (f := fun r => (some r, r.1, regionOrder r)) hr
      rw [← hmap] at hin
      obtain ⟨b, hb, he⟩ := List.mem_map.mp hin
      simp only [Prod.mk.injEq] at he
      exact (MadeBlock.real_iff he.1 he.2.1 he.2.2).mp (hall b hb)
    · intro hall b hb
      have hin := List.mem_map_of_mem (f := fun b => (b.entry.region, b.addr, b.order)) hb
      rw [hmap] at hin
      obtain ⟨r, hr, he⟩ := List.mem_map.mp hin
      simp only [Prod.mk.injEq] at he
      exact (MadeBlock.real_iff he.1.symm he.2.1.symm he.2.2.symm).mpr (hall r hr)

/-- What Limine promises of a memory map; ACPI entries may lie anywhere. -/
structure LimineMap (memmap : List MemmapEntry) : Prop where
  apart : memmap.Pairwise MemmapEntry.Apart
  aligned : ∀ e ∈ memmap, e.type = .usable ∨ e.type = .bootloaderReclaimable →
    e.base % 4096 = 0 ∧ e.length % 4096 = 0

/-- ACPI tables of 256 bytes, in the middle of a page. -/
def acpiTables : MemmapEntry := { base := 0x100800, length := 0x100, type := .acpiReclaimable }

/-- They become a whole page, and not an aligned one. -/
theorem acpi_not_blocks_real : LimineMap [acpiTables] ∧ ¬ BlocksReal [acpiTables] ∧
    ∃ s, Pmm.initialise zeroMem [acpiTables] = .ok s ∧ FreeAt s 0 0 0x100800 := by
  refine ⟨⟨List.pairwise_singleton _ _, by decide⟩, fun hall => ?_, _, rfl, ?_⟩
  · have hreal := hall ⟨acpiTables, 0x100800, 0⟩ (by decide)
    exact absurd hreal.fits (by decide)
  · exact ⟨_, rfl, by decide, Linked.head (by decide)⟩

theorem blocks_real_twoPages : BlocksReal twoPages ∧
    ∃ s, Pmm.initialise zeroMem twoPages = .ok s ∧ FreeAt s 0 1 0x100000 := by
  refine ⟨(blocks_real twoPages).2.mpr fun r hr => ?_, _, rfl, ?_⟩
  · rw [List.mem_singleton.mp hr]
    exact ⟨by decide, by decide, by decide⟩
  · exact ((blocks_real twoPages).1 zeroMem _ rfl 0 1 0x100000).mpr ⟨_, rfl, rfl, rfl⟩

end HelixKernel
