import HelixKernel.Mm.Boot

/-!
# `mmap` without memory

When a table cannot be allocated `mmap` returns null at once: the pages mapped so far stay
mapped.

    mmap_failure      a null result leaves the first pages of the range, not all of them,
                      as a successful call would, and every other address as it was
    mmap_keeps_page   so it is not as if nothing had been done -/

namespace HelixKernel

/-- The first `j` pages of the range translate by the entries that are set for them, and every
other address as before. -/
def MapsFirst (m m' : Mem) (root flags va pa j : Nat) : Prop :=
  ∀ va', ((∀ i < j, pageNumber va' ≠ pageNumber (va + i * 4096)) ∧
      translate m' root va' = translate m root va') ∨
    ∃ i < j, pageNumber va' = pageNumber (va + i * 4096) ∧
      translate m' root va' = some ((leafEntry pa flags i &&& pageAddrMask) + va' % 4096)

theorem MapsFirst.of_mapped {m m' : Mem} {root flags va pa j : Nat}
    (h : Mapped m m' root flags va pa j) : MapsFirst m m' root flags va pa j := by
  intro va'
  rcases h va' with ⟨hsame, hno⟩ | ⟨i, hi, hpath, es, hlen, hwalk⟩
  · refine .inl ⟨fun i hi he => hno i hi (path_eq_iff.mpr he), ?_⟩
    unfold translate
    rw [hsame]
  · exact .inr ⟨i, hi, path_eq_iff.mp hpath, translate_of_walk hlen hwalk⟩

/-- **A failed `mmap`** has mapped some pages from the start of the range, but not all, and
has changed nothing else. -/
theorem mmap_failure {s : Vmm} {out : Finset (Nat × Nat)}
    (htree : PageTree s.pmm.mem s.currentCr3)
    (hlarge : pageFormat.LeavesAt (entryOf s.pmm.mem) 3 s.currentCr3)
    (hspare : Spare s.pmm out (IsTable s.pmm.mem s.currentCr3)) {paddr : Nat}
    (hpa : paddr < 2 ^ 64) (vaddr n flags : Nat) :
    ∃ s' r, s.mmap paddr vaddr n flags = .ok (s', r) ∧ (r = 0 →
      ∃ j ≤ n, (j < n ∨ vaddr = 0) ∧
        MapsFirst s.pmm.mem s'.pmm.mem s.currentCr3 (mmapFlags vaddr flags) vaddr paddr j) := by
  obtain ⟨s', done, out', j, hrun, -, hj, hdone, hmapped⟩ :=
    mmapLoop_rounds (mmapFlags vaddr flags) n s.pmm out vaddr paddr (.of_spare htree hspare) hpa
      fun i _ _ => notLarge_of_leavesAt hlarge _
  refine ⟨{ s with pmm := s' }, if done then vaddr else 0, ?_, fun hr => ?_⟩
  · unfold Vmm.mmap
    rw [hrun, ok_bind]
  · refine ⟨j, hj, ?_, .of_mapped hmapped⟩
    by_cases hd : done = true
    · rw [if_pos hd] at hr
      exact .inr hr
    · have hne : j ≠ n := fun he => hd (hdone.mpr he)
      exact .inl (by omega)

/-! ## Four pages left -/

/-- The machine with the empty tree, after the lower four of its eight pages are taken. -/
theorem boot_alloc : ∃ s, bootPmm.alloc 0x4000 = .ok (s, 0x100000) ∧ PageTree s.mem 0x1000 ∧
    pageFormat.LeavesAt (entryOf s.mem) 3 0x1000 ∧
    Spare s {(0x100000, 2)} (IsTable s.mem 0x1000) := by
  have hinv := VmmInv.of_spare boot_tree.1 boot_spare
  obtain ⟨s, p, hrun, -, ⟨htree, hspare⟩, -⟩ := hinv.alloc 0x4000
  obtain ⟨B, hB⟩ := hinv.spare.inv
  obtain ⟨s1, p1, hrun1, hpages⟩ := alloc_pages hB 0x4000
  rw [hrun] at hrun1
  cases hrun1
  have hp : (bootPmm.alloc 0x4000).map Prod.snd = .ok 0x100000 := rfl
  rw [hrun] at hp
  obtain rfl : p = 0x100000 := Except.ok.inj hp
  have hempty : ∀ i, entryOf s.mem 0x1000 i = 0 := by
    intro i
    refine (hpages.touch.same _ fun w hw => ?_).trans (boot_entry 0x1000 i)
    exact hinv.entry_not_free ⟨[], rfl⟩ i (hpages.free _ hw.2)
  exact ⟨s, hrun, htree, (emptyTree hempty rfl (by decide)).2, hspare.mono fun _ => .inl⟩

/-- Enough for the tables of one page, and not for those of the next, beyond the first GiB:
null is returned and the first page is mapped. -/
theorem mmap_keeps_page : ∃ s s' : Vmm, PageTree s.pmm.mem s.currentCr3 ∧
    pageFormat.LeavesAt (entryOf s.pmm.mem) 3 s.currentCr3 ∧
    Spare s.pmm {(0x100000, 2)} (IsTable s.pmm.mem s.currentCr3) ∧
    s.mmap 0x5000 0x3FFFF000 2 0 = .ok (s', 0) ∧
    translate s.pmm.mem s.currentCr3 0x3FFFF000 = none ∧
    translate s'.pmm.mem s.currentCr3 0x3FFFF000 = some 0x5000 := by
  obtain ⟨s, hrun, htree, hlarge, hspare⟩ := boot_alloc
  have hcall : (bootPmm.alloc 0x4000 >>= fun x =>
      ({ bootVmm with pmm := x.1 } : Vmm).mmap 0x5000 0x3FFFF000 2 0 >>= fun y =>
        .ok (y.2, translate x.1.mem 0x1000 0x3FFFF000, translate y.1.pmm.mem 0x1000 0x3FFFF000)) =
      .ok (0, none, some 0x5000) := rfl
  rw [hrun, ok_bind] at hcall
  obtain ⟨⟨s', r⟩, hmap, hres⟩ := bind_eq_ok.mp hcall
  obtain ⟨rfl, hbefore, hafter⟩ := by simpa using hres
  exact ⟨{ bootVmm with pmm := s }, s', htree, hlarge, hspare, hmap, hbefore, hafter⟩

/-- The same call: the one page that was mapped is the first. -/
theorem mmap_failure_boot : ∃ s s' : Vmm, s.mmap 0x5000 0x3FFFF000 2 0 = .ok (s', 0) ∧
    ∃ j < 2, MapsFirst s.pmm.mem s'.pmm.mem s.currentCr3 pageUser 0x3FFFF000 0x5000 j := by
  obtain ⟨s, hrun, htree, hlarge, hspare⟩ := boot_alloc
  obtain ⟨s', r, hmap, hnull⟩ := @mmap_failure { bootVmm with pmm := s } {(0x100000, 2)} htree
    hlarge hspare 0x5000 (by decide) 0x3FFFF000 2 0
  have hret : (bootPmm.alloc 0x4000 >>= fun x =>
      (({ bootVmm with pmm := x.1 } : Vmm).mmap 0x5000 0x3FFFF000 2 0).map Prod.snd) = .ok 0 := rfl
  rw [hrun, ok_bind] at hret
  dsimp only at hret
  rw [hmap] at hret
  obtain rfl : r = 0 := Except.ok.inj hret
  obtain ⟨j, -, hj, hfirst⟩ := hnull rfl
  exact ⟨_, s', hmap, j, hj.resolve_right (by decide), hfirst⟩

end HelixKernel
