import HelixKernel.Mm.VmmUnmap

/-!
# The range of `munmap`

The loop takes whole pages from `vaddr` on until it has passed `vaddr + n`, both modulo
`2 ^ 64`.  So it takes `ceil(n / 4096)` pages, wherever in its page `vaddr` lies.

    munmap_ends          the loop ends, then within `n / 4096 + 1` rounds, iff these pages
                         end below `2 ^ 64` (or `vaddr + n` itself has wrapped)
    munmap_exact_iff     the pages of the range go and nothing else changes iff these
                         pages are all there is of the range, or the rest is not mapped -/

namespace HelixKernel

/-! ## The end of the loop -/

/-- The loop has ended after at most `k` rounds. -/
def Vmm.EndsWithin (s : Vmm) (vaddr n k : Nat) : Prop :=
  ¬ (munmapRun s.currentCr3 (wrap64 (vaddr + n)) k s.pmm.mem vaddr).2 < wrap64 (vaddr + n)

/-- The pages taken end below the top of the address space, or the range runs past it. -/
def ClearOfTop (vaddr n : Nat) : Prop :=
  vaddr + (n + 4095) / 4096 * 4096 < 2 ^ 64 ∨ 2 ^ 64 ≤ vaddr + n

/-- The loop has ended once one of the addresses it comes by is not below its end. -/
theorem endsWithin_iff (s : Vmm) {vaddr : Nat} (hva : vaddr < 2 ^ 64) (n k : Nat) :
    s.EndsWithin vaddr n k ↔ ∃ j ≤ k, ¬ wrap64 (vaddr + j * 4096) < wrap64 (vaddr + n) := by
  obtain ⟨j, hj, hrun, -, hbelow, hdone⟩ :=
    munmapRun_rounds s.currentCr3 (wrap64 (vaddr + n)) k s.pmm.mem vaddr hva
  unfold Vmm.EndsWithin
  rw [hrun]
  constructor
  · intro h
    exact ⟨j, hj, h⟩
  · rintro ⟨j', hj', hstop⟩
    by_cases hjk : j < k
    · exact hdone hjk
    · have hge : ¬ j' < j := fun hlt => hstop (hbelow j' hlt)
      obtain rfl : j' = j := by omega
      exact hstop

/-- Pages that end below the top lead out of the range, in time. -/
theorem passes_of_clear {vaddr n : Nat} (hva : vaddr < 2 ^ 64) (hn : n < 2 ^ 64)
    (h : ClearOfTop vaddr n) :
    ∃ j ≤ n / 4096 + 1, ¬ wrap64 (vaddr + j * 4096) < wrap64 (vaddr + n) := by
  rcases h with hfit | hover
  · refine ⟨(n + 4095) / 4096, by omega, ?_⟩
    rw [wrap64_of_lt hfit, wrap64_of_lt (by omega)]
    omega
  · refine ⟨0, by omega, ?_⟩
    unfold wrap64
    omega

/-- At the top every address of the loop is below its end, also after the wrap. -/
theorem clear_of_passes {vaddr n j : Nat} (h : ¬ wrap64 (vaddr + j * 4096) < wrap64 (vaddr + n)) :
    ClearOfTop vaddr n := by
  unfold ClearOfTop
  by_contra hnot
  have hend : wrap64 (vaddr + n) = vaddr + n := wrap64_of_lt (by omega)
  have hoff : wrap64 (vaddr + j * 4096) % 4096 = vaddr % 4096 := by
    unfold wrap64
    omega
  have hlt := wrap64_lt (vaddr + j * 4096)
  omega

/-- **`munmap` terminates** exactly where its pages end below the top of the address space
(or the range runs past it), and then in time. -/
theorem munmap_ends (s : Vmm) {vaddr n : Nat} (hva : vaddr < 2 ^ 64) (hn : n < 2 ^ 64) :
    (s.EndsWithin vaddr n (n / 4096 + 1) ↔ ClearOfTop vaddr n) ∧
    ((∃ k, s.EndsWithin vaddr n k) ↔ ClearOfTop vaddr n) ∧
    ((∃ s', s.munmap vaddr n = .ok s') ↔ ClearOfTop vaddr n) := by
  have hto : ∀ k, s.EndsWithin vaddr n k → ClearOfTop vaddr n := by
    intro k hk
    obtain ⟨j, -, hstop⟩ := (endsWithin_iff s hva n k).mp hk
    exact clear_of_passes hstop
  have hfrom : ∀ k, n / 4096 + 1 ≤ k → ClearOfTop vaddr n → s.EndsWithin vaddr n k := by
    intro k hk hclear
    obtain ⟨j, hj, hstop⟩ := passes_of_clear hva hn hclear
    exact (endsWithin_iff s hva n k).mpr ⟨j, Nat.le_trans hj hk, hstop⟩
  refine ⟨⟨hto _, hfrom _ (Nat.le_refl _)⟩, ⟨?_, ?_⟩, ⟨?_, ?_⟩⟩
  · rintro ⟨k, hk⟩
    exact hto k hk
  · intro hclear
    exact ⟨_, hfrom _ (Nat.le_refl _) hclear⟩
  · rintro ⟨s', hrun⟩
    apply hto munmapRounds
    intro hlt
    unfold Vmm.munmap at hrun
    rw [if_pos hlt] at hrun
    cases hrun
  · intro hclear
    have hend : s.EndsWithin vaddr n munmapRounds := by
      refine hfrom _ ?_ hclear
      unfold munmapRounds
      omega
    exact ⟨_, if_neg hend⟩

/-- Two bytes across a page boundary, and all of the address space but its last page. -/
theorem munmap_ends_boot : bootVmm.EndsWithin 0x400FFF 2 1 ∧
    ∃ s', bootVmm.munmap 0 0xFFFFFFFFFFFFF000 = .ok s' :=
  ⟨(@munmap_ends bootVmm 0x400FFF 2 (by decide) (by decide)).1.mpr (.inl (by decide)),
    (munmap_ends bootVmm (by decide) (by decide)).2.2.mpr (.inl (by decide))⟩

/-- One byte in the last page of the address space, and the loop never ends. -/
theorem munmap_runs_on : ¬ ∃ k, bootVmm.EndsWithin 0xFFFFFFFFFFFFF000 1 k := by
  rintro ⟨k, hk⟩
  obtain ⟨j, -, hstop⟩ := (endsWithin_iff bootVmm (by decide) 1 k).mp hk
  have hclear := clear_of_passes hstop
  unfold ClearOfTop at hclear
  omega

/-! ## The pages of the range -/

/-- The page of `va` meets `[vaddr, vaddr + n)`. -/
def Meets (vaddr n va : Nat) : Prop := ∃ k < n, pageNumber va = pageNumber (vaddr + k)

/-- The entries above the last level are what they were. -/
def UpperKept (m m' : Mem) (root : Nat) : Prop :=
  ∀ p t i, p.length < 3 → follow m root p = some t → entryOf m' t i = entryOf m t i

/-- The pages of the range are gone, and nothing else has changed. -/
def UnmapsExactly (m m' : Mem) (root vaddr n : Nat) : Prop :=
  (∀ va, Meets vaddr n va → translate m' root va = none) ∧
  (∀ va, ¬ Meets vaddr n va → translate m' root va = translate m root va) ∧
  UpperKept m m' root

/-- The pages taken reach the end of the range, or are all pages there are, or what is left
of the range was not mapped. -/
def TakesAll (m : Mem) (root vaddr n : Nat) : Prop :=
  vaddr % 4096 + n ≤ (n + 4095) / 4096 * 4096 ∨ 2 ^ 36 ≤ (n + 4095) / 4096 ∨
    translate m root (vaddr + n - 1) = none

variable {s : Pmm} {out : Finset (Nat × Nat)} {root : Nat} {V : Nat → Prop}

theorem UpperKept.refl (m : Mem) (root : Nat) : UpperKept m m root := fun _ _ _ _ _ => rfl

theorem UpperKept.trans {m m1 m' : Mem} (h : UpperKept m m1 root)
    (hkeep : ∀ p t, follow m root p = some t → follow m1 root p = some t)
    (h' : UpperKept m1 m' root) : UpperKept m m' root := by
  intro p t i hp ht
  rw [h' p t i hp (hkeep p t ht), h p t i hp ht]

/-- A round stores to a page table, which is on no shorter path. -/
theorem munmapBody_upper (h : VmmInv s out root V) {va : Nat} (hva : NotLarge s.mem root va) :
    UpperKept s.mem (munmapBody root s.mem va) root := by
  obtain ⟨l, -, -, ⟨hbody, -⟩ | ⟨pt, hpt, hbody, -⟩⟩ := munmapBody_cases h hva
  · rw [hbody]
    exact .refl _ _
  · intro p t i hp ht
    rw [hbody]
    apply Mem.store_word_ne
    intro he
    obtain ⟨rfl, -⟩ := entry_inj (h.tree.table t ⟨p, ht⟩).1 (h.tree.table pt ⟨_, hpt⟩).1 he
    rw [h.tree.tree p _ t ht hpt] at hp
    exact absurd hp (by simp)

theorem munmapPages_upper : ∀ (j : Nat) (s : Pmm) (va : Nat), VmmInv s out root V →
    pageFormat.LeavesAt (entryOf s.mem) 3 root →
    UpperKept s.mem (munmapPages root j s.mem va) root := by
  intro j
  induction j with
  | zero =>
    intro s va _ _
    exact .refl _ _
  | succ j ih =>
    intro s va h hl
    have hva := notLarge_of_leavesAt hl va
    obtain ⟨hext, -, -⟩ := munmapBody_spec h hva
    exact (munmapBody_upper h hva).trans hext.keep
      (ih { s with mem := munmapBody root s.mem va } _ hext.inv (hext.leaves hl))

/-- The walk code needs no allocator: with one that has nothing to give, any tree will do. -/
theorem VmmInv.of_tree {m : Mem} (htree : PageTree m root) :
    VmmInv ⟨m, [], 0, 0, 0⟩ ∅ root fun _ => False := by
  have hfree : ∀ a, ¬ FreePage [] ∅ a := by
    rintro a ⟨seg, hs, -⟩
    exact absurd hs List.not_mem_nil
  refine ⟨htree, ⟨fun _ => .init 0, ?_⟩, fun a ha => absurd ha (hfree a),
    fun a ha => absurd ha (hfree a)⟩
  exact ⟨fun seg hs => absurd hs List.not_mem_nil, .nil, by simp⟩

theorem translate_eq_none {m : Mem} {va : Nat} : translate m root va = none ↔ walk m root va = none :=
  Option.map_eq_none_iff

/-- `munmap` of a range that ends below the last page: `ceil(n / 4096)` pages are taken. -/
theorem munmap_takes {s : Vmm} (htree : PageTree s.pmm.mem s.currentCr3)
    (hlarge : pageFormat.LeavesAt (entryOf s.pmm.mem) 3 s.currentCr3) {vaddr n : Nat}
    (hfit : vaddr + n < 2 ^ 64 - 4096) :
    ∃ s', s.munmap vaddr n = .ok s' ∧ UpperKept s.pmm.mem s'.pmm.mem s.currentCr3 ∧
      Unmapped s.pmm.mem s'.pmm.mem s.currentCr3 vaddr ((n + 4095) / 4096) := by
  have hinv := VmmInv.of_tree htree
  obtain ⟨j, hj, hrun, -, hbelow, hdone⟩ := munmapRun_rounds s.currentCr3 (wrap64 (vaddr + n))
    munmapRounds s.pmm.mem vaddr (by omega)
  have hupper := munmapPages_upper j _ vaddr hinv hlarge
  obtain ⟨-, hun⟩ := munmapPages_spec j _ vaddr hinv fun i _ => notLarge_of_leavesAt hlarge _
  have hstop : wrap64 (vaddr + n) = vaddr + n := wrap64_of_lt (by omega)
  have hva : ∀ i, i ≤ (n + 4095) / 4096 → wrap64 (vaddr + i * 4096) = vaddr + i * 4096 := by
    intro i hi
    exact wrap64_of_lt (by omega)
  have hle : ¬ (n + 4095) / 4096 < j := by
    intro hlt
    have := hbelow _ hlt
    rw [hva _ (Nat.le_refl _), hstop] at this
    omega
  have hge : ¬ j < (n + 4095) / 4096 := by
    intro hlt
    have hnot := hdone (by unfold munmapRounds; omega)
    rw [hva j (by omega), hstop] at hnot
    omega
  obtain rfl : j = (n + 4095) / 4096 := by omega
  refine ⟨_, if_neg ?_, ?_⟩
  · rw [hrun]
    show ¬ wrap64 (vaddr + (n + 4095) / 4096 * 4096) < wrap64 (vaddr + n)
    rw [hva _ (Nat.le_refl _), hstop]
    omega
  · unfold Vmm.munmapFor
    rw [hrun]
    exact ⟨hupper, hun⟩

/-- A page of the range is taken, unless it is the one after the last page taken. -/
theorem meets_taken {vaddr n va : Nat} (hmeets : Meets vaddr n va) :
    (∃ i < (n + 4095) / 4096, path va = path (vaddr + i * 4096)) ∨
      ((n + 4095) / 4096 * 4096 < vaddr % 4096 + n ∧ (n + 4095) / 4096 < 2 ^ 36 ∧
        path va = path (vaddr + n - 1)) := by
  obtain ⟨k, hk, hpage⟩ := hmeets
  by_cases hlast : (vaddr % 4096 + k) / 4096 < (n + 4095) / 4096
  · refine .inl ⟨_, hlast, path_eq_iff.mpr (hpage.trans ?_)⟩
    unfold pageNumber
    omega
  · by_cases hround : 2 ^ 36 ≤ (n + 4095) / 4096
    · -- that page was the first one too
      refine .inl ⟨(vaddr % 4096 + k) / 4096 - 2 ^ 36, by omega, path_eq_iff.mpr (hpage.trans ?_)⟩
      unfold pageNumber
      omega
    · refine .inr ⟨by omega, by omega, path_eq_iff.mpr (hpage.trans ?_)⟩
      unfold pageNumber
      omega

theorem taken_meets {vaddr n va i : Nat} (hi : i < (n + 4095) / 4096)
    (hpath : path va = path (vaddr + i * 4096)) : Meets vaddr n va :=
  ⟨i * 4096, by omega, path_eq_iff.mp hpath⟩

/-- The page after the last one taken is not taken. -/
theorem path_last_ne {vaddr n i : Nat} (hover : (n + 4095) / 4096 * 4096 < vaddr % 4096 + n)
    (hround : (n + 4095) / 4096 < 2 ^ 36) (hi : i < (n + 4095) / 4096) :
    path (vaddr + n - 1) ≠ path (vaddr + i * 4096) := by
  rw [Ne, path_eq_iff]
  unfold pageNumber
  omega

/-- **`munmap` removes exactly the pages of its range** where the pages it takes are all of
them, or the one left out was not mapped. -/
theorem munmap_exact_iff {s : Vmm} (htree : PageTree s.pmm.mem s.currentCr3)
    (hlarge : pageFormat.LeavesAt (entryOf s.pmm.mem) 3 s.currentCr3) {vaddr n : Nat} (hn : 1 ≤ n)
    (hfit : vaddr + n < 2 ^ 64 - 4096) :
    ∃ s', s.munmap vaddr n = .ok s' ∧
      (UnmapsExactly s.pmm.mem s'.pmm.mem s.currentCr3 vaddr n ↔
        TakesAll s.pmm.mem s.currentCr3 vaddr n) := by
  obtain ⟨s', hrun, hupper, hun⟩ := munmap_takes htree hlarge hfit
  refine ⟨s', hrun, ?_, ?_⟩
  · rintro ⟨hgone, -, -⟩
    unfold TakesAll
    by_contra hnot
    have hover : (n + 4095) / 4096 * 4096 < vaddr % 4096 + n := by omega
    have hround : (n + 4095) / 4096 < 2 ^ 36 := by omega
    have hmapped : translate s.pmm.mem s.currentCr3 (vaddr + n - 1) ≠ none :=
      fun h0 => hnot (.inr (.inr h0))
    have hlast : Meets vaddr n (vaddr + n - 1) := ⟨n - 1, by omega, by rw [Nat.add_sub_assoc hn]⟩
    rcases hun (vaddr + n - 1) with ⟨hsame, -⟩ | ⟨⟨i, hi, hpath⟩, -⟩
    · apply hmapped
      rw [translate_eq_none, ← hsame, ← translate_eq_none]
      exact hgone _ hlast
    · exact path_last_ne hover hround hi hpath
  · intro hall
    refine ⟨fun va hmeets => ?_, fun va hno => ?_, hupper⟩
    · rw [translate_eq_none]
      rcases hun va with ⟨hsame, hnot⟩ | ⟨-, hnone⟩
      · rcases meets_taken hmeets with ⟨i, hi, hpath⟩ | ⟨hover, hround, hpath⟩
        · exact absurd hpath (hnot i hi)
        · have hlast : translate s.pmm.mem s.currentCr3 (vaddr + n - 1) = none := by
            rcases hall with h | h | h
            · omega
            · omega
            · exact h
          rw [hsame, walk_congr _ _ hpath]
          exact translate_eq_none.mp hlast
      · exact hnone
    · rcases hun va with ⟨hsame, -⟩ | ⟨⟨i, hi, hpath⟩, -⟩
      · unfold translate
        rw [hsame]
      · exact absurd (taken_meets hi hpath) hno

/-- Two pages in a machine that has no tables but the root. -/
theorem mmap_two_pages : ∃ s, bootVmm.mmap 0x5000 0x400000 2 0 = .ok (s, 0x400000) ∧
    s.currentCr3 = 0x1000 ∧ PageTree s.pmm.mem 0x1000 ∧
    pageFormat.LeavesAt (entryOf s.pmm.mem) 3 0x1000 := by
  obtain ⟨s, r, out, hrun, hcr3, htree, hlarge, -⟩ := @mmap_tree bootVmm ∅ boot_tree.1 boot_tree.2
    boot_spare 0x5000 (by decide) 0x400000 2 0
  have hret : (bootVmm.mmap 0x5000 0x400000 2 0).map Prod.snd = .ok 0x400000 := rfl
  rw [hrun] at hret
  obtain rfl : r = 0x400000 := Except.ok.inj hret
  exact ⟨s, hrun, hcr3, htree, hlarge⟩

/-- One byte more than a page, from the start of a page: both pages go. -/
theorem munmap_exact_two : ∃ s s', bootVmm.mmap 0x5000 0x400000 2 0 = .ok (s, 0x400000) ∧
    s.munmap 0x400000 0x1001 = .ok s' ∧
    UnmapsExactly s.pmm.mem s'.pmm.mem s.currentCr3 0x400000 0x1001 := by
  obtain ⟨s, hmap, hcr3, htree, hlarge⟩ := mmap_two_pages
  obtain ⟨s', hrun, hiff⟩ := @munmap_exact_iff s (by rwa [hcr3]) (by rwa [hcr3]) 0x400000 0x1001
    (by decide) (by decide)
  exact ⟨s, s', hmap, hrun, hiff.mpr (.inl (by decide))⟩

/-- Two bytes across the page boundary: the second page stays. -/
theorem munmap_misses_page : ∃ s s', bootVmm.mmap 0x5000 0x400000 2 0 = .ok (s, 0x400000) ∧
    PageTree s.pmm.mem s.currentCr3 ∧
    pageFormat.LeavesAt (entryOf s.pmm.mem) 3 s.currentCr3 ∧
    s.munmap 0x400FFF 2 = .ok s' ∧ Meets 0x400FFF 2 0x401000 ∧
    translate s'.pmm.mem s.currentCr3 0x401000 = some 0x6000 ∧
    ¬ UnmapsExactly s.pmm.mem s'.pmm.mem s.currentCr3 0x400FFF 2 := by
  obtain ⟨s, hmap, hcr3, htree, hlarge⟩ := mmap_two_pages
  have hmeets : Meets 0x400FFF 2 0x401000 := ⟨1, by decide, rfl⟩
  have hstays : (bootVmm.mmap 0x5000 0x400000 2 0 >>= fun x => x.1.munmap 0x400FFF 2 >>= fun s' =>
      .ok (translate s'.pmm.mem 0x1000 0x401000)) = .ok (some 0x6000) := rfl
  rw [hmap, ok_bind] at hstays
  obtain ⟨s', hrun, htrans⟩ := bind_eq_ok.mp hstays
  have htrans := Except.ok.inj htrans
  rw [← hcr3] at htree hlarge htrans
  refine ⟨s, s', hmap, htree, hlarge, hrun, hmeets, htrans, ?_⟩
  rintro ⟨hgone, -⟩
  have hnone := hgone 0x401000 hmeets
  rw [htrans] at hnone
  cases hnone

end HelixKernel
