import HelixKernel.Mm.VmmUnmap

/-!
# The kernel half and user mode

`mmap` adds `PAGE_USER` for a `vaddr` below the canonical boundary, to every page
of the range.  `CallsReach ok s0 s`: `s` is reached from `s0` by calls of `mmap`
without `PAGE_USER`, each with `ok vaddr n`, and of `munmap`.  If no call starts
below the boundary and ends above it, the kernel half stays closed to user mode
over the whole run (`kernelClosed_of_calls`); `mmap_opens_kernel` is a call that
does not keep to this. -/

namespace HelixKernel

/-- No page reached through the PML4 entries 256 to 511 is accessible to user mode. -/
def KernelClosed (m : Mem) (root : Nat) : Prop :=
  ∀ va, 256 ≤ (index 39 va).val → ¬ UserAccessible m root va

/-- Where `vaddr < 2 ^ 47`, so is the end of the range. -/
def StaysInHalf (vaddr n : Nat) : Prop := vaddr < 2 ^ 47 → vaddr + n * 4096 ≤ 2 ^ 47

/-- Runs of `mmap` and `munmap`; `munmapFor k` is `munmap` after `k` rounds of its loop. -/
inductive CallsReach (ok : Nat → Nat → Prop) (s0 : Vmm) : Vmm → Prop
  | start : CallsReach ok s0 s0
  | mmap {s s' : Vmm} {paddr vaddr n flags r : Nat} (hs : CallsReach ok s0 s)
      (hpa : paddr % 4096 = 0) (hpa' : paddr < 2 ^ 64) (hva : vaddr % 4096 = 0)
      (hflags : flags &&& pageUser = 0) (hok : ok vaddr n)
      (h : s.mmap paddr vaddr n flags = .ok (s', r)) : CallsReach ok s0 s'
  | munmap {s : Vmm} {vaddr : Nat} (hs : CallsReach ok s0 s) (hva : vaddr < 2 ^ 64) (n k : Nat) :
      CallsReach ok s0 (s.munmapFor k vaddr n)

/-- Addresses below `2 ^ 47` are in the lower half. -/
theorem index_low {va : Nat} (h : va < 2 ^ 47) : (index 39 va).val < 256 := by
  rw [index_val]
  omega

theorem index_of_path {va va' : Nat} (h : path va = path va') : index 39 va = index 39 va' :=
  (List.cons.inj h).1

/-- A leaf set without `PAGE_USER` is not accessible to user mode. -/
theorem leafEntry_user {pa flags i : Nat} (hpa : pa % 4096 = 0) (hflags : flags &&& pageUser = 0) :
    leafEntry pa flags i &&& pageUser = 0 := by
  have haligned : wrap64 (pa + i * 4096) % 4096 = 0 := by
    unfold wrap64
    omega
  have hbit : wrap64 (pa + i * 4096) &&& pageUser = 0 := by
    by_contra hne
    rw [← ne_eq, user_iff, testBit_aligned haligned (by decide)] at hne
    cases hne
  rw [leafEntry, Nat.and_or_distrib_right, Nat.and_or_distrib_right, hbit, hflags]
  rfl

/-- The user bit of a walk is also that of its last entry. -/
theorem not_userAccessible_of_last {m : Mem} {root va e : Nat} {es : List Nat}
    (hwalk : walk m root va = some (es ++ [e])) (he : e &&& pageUser = 0) :
    ¬ UserAccessible m root va := by
  rintro ⟨es', hes', hall⟩
  rw [hwalk] at hes'
  cases hes'
  exact hall e (List.mem_append_right _ (List.mem_singleton_self e)) he

theorem KernelClosed.congr {m m' : Mem} {root va : Nat} (h : KernelClosed m root)
    (hva : 256 ≤ (index 39 va).val) (hw : walk m' root va = walk m root va) :
    ¬ UserAccessible m' root va := by
  rintro ⟨es, hes, hall⟩
  exact h va hva ⟨es, hw ▸ hes, hall⟩

variable {root : Nat}

/-- One `mmap` keeps the kernel half closed. -/
theorem KernelClosed.mapped {m m' : Mem} {vaddr flags paddr j n : Nat} (h : KernelClosed m root)
    (hpa : paddr % 4096 = 0) (hflags : flags &&& pageUser = 0) (hok : StaysInHalf vaddr n)
    (hj : j ≤ n) (hm : Mapped m m' root (mmapFlags vaddr flags) vaddr paddr j) :
    KernelClosed m' root := by
  intro va hva
  rcases hm va with ⟨hsame, -⟩ | ⟨i, hi, hpath, es, -, hwalk⟩
  · exact h.congr hva hsame
  · by_cases hlow : vaddr < 2 ^ 47
    · -- the page is below the boundary, and `va` above it
      have hend := hok hlow
      have hbelow : vaddr + i * 4096 < 2 ^ 47 := by
        have : (i + 1) * 4096 ≤ n * 4096 := Nat.mul_le_mul_right _ (by omega)
        omega
      have hidx := index_low hbelow
      rw [index_of_path hpath] at hva
      omega
    · have hf : mmapFlags vaddr flags = flags := if_neg hlow
      rw [hf] at hwalk
      exact not_userAccessible_of_last hwalk (leafEntry_user hpa hflags)

/-- One `munmap`, however far it has got, keeps the kernel half closed. -/
theorem KernelClosed.unmapped {m m' : Mem} {vaddr j : Nat} (h : KernelClosed m root)
    (hm : Unmapped m m' root vaddr j) : KernelClosed m' root := by
  intro va hva
  rcases hm va with ⟨hsame, -⟩ | ⟨-, hnone⟩
  · exact h.congr hva hsame
  · rintro ⟨es, hes, -⟩
    rw [hnone] at hes
    cases hes

/-- **The kernel half stays closed**, over any run whose `mmap` calls keep to one half. -/
theorem kernelClosed_of_calls {s0 s : Vmm} {out : Finset (Nat × Nat)}
    (htree : PageTree s0.pmm.mem s0.currentCr3)
    (hlarge : pageFormat.LeavesAt (entryOf s0.pmm.mem) 3 s0.currentCr3)
    (hspare : Spare s0.pmm out (IsTable s0.pmm.mem s0.currentCr3))
    (hclosed : KernelClosed s0.pmm.mem s0.currentCr3) (h : CallsReach StaysInHalf s0 s) :
    KernelClosed s.pmm.mem s.currentCr3 := by
  suffices hinv : s.currentCr3 = s0.currentCr3 ∧
      (∃ out', VmmInv s.pmm out' s0.currentCr3 fun _ => False) ∧
      pageFormat.LeavesAt (entryOf s.pmm.mem) 3 s0.currentCr3 ∧
      KernelClosed s.pmm.mem s0.currentCr3 by
    rw [hinv.1]
    exact hinv.2.2.2
  induction h with
  | start =>
    exact ⟨rfl, ⟨out, .of_spare htree hspare⟩, hlarge, hclosed⟩
  | @mmap s s' paddr vaddr n flags r _ hpa hpa' _ hflags hok h ih =>
    obtain ⟨hcr3, ⟨out', hinv⟩, hleaves, hcl⟩ := ih
    obtain ⟨s1, done, out1, j, hrun, hext, hj, -, hmapped⟩ :=
      mmapLoop_rounds (mmapFlags vaddr flags) n s.pmm out' vaddr paddr hinv hpa'
        fun i _ _ => notLarge_of_leavesAt hleaves _
    unfold Vmm.mmap at h
    rw [hcr3, hrun, ok_bind] at h
    cases h
    exact ⟨rfl, ⟨out1, hext.inv⟩, hext.leaves hleaves, hcl.mapped hpa hflags hok hj hmapped⟩
  | @munmap s vaddr _ hva n k ih =>
    obtain ⟨hcr3, ⟨out', hinv⟩, hleaves, hcl⟩ := ih
    obtain ⟨j, -, hext, -, -, -, hun⟩ := munmapRun_spec (wrap64 (vaddr + n)) k s.pmm vaddr hinv hva
      fun i _ _ => notLarge_of_leavesAt hleaves _
    have hmem : (s.munmapFor k vaddr n).pmm.mem =
        (munmapRun s0.currentCr3 (wrap64 (vaddr + n)) k s.pmm.mem vaddr).1 := by
      rw [← hcr3]
      rfl
    have hpmm : (s.munmapFor k vaddr n).pmm = { s.pmm with
        mem := (munmapRun s0.currentCr3 (wrap64 (vaddr + n)) k s.pmm.mem vaddr).1 } := by
      rw [← hcr3]
      rfl
    rw [hmem, hpmm]
    exact ⟨hcr3, ⟨out', hext.inv⟩, hext.leaves hleaves, hcl.unmapped hun⟩

theorem boot_closed : KernelClosed bootVmm.pmm.mem bootVmm.currentCr3 := by
  rintro va - ⟨es, hes, -⟩
  have hnone : walk bootPmm.mem 0x1000 va = none :=
    walk_of_not_present (p := []) rfl rfl (by rw [boot_entry]; rfl)
  have hes' : walk bootPmm.mem 0x1000 va = some es := hes
  rw [hnone] at hes'
  cases hes'

/-- Two pages across the boundary: the second one, in the kernel half, becomes accessible to user
mode. -/
theorem mmap_opens_kernel : PageTree bootVmm.pmm.mem bootVmm.currentCr3 ∧
    pageFormat.LeavesAt (entryOf bootVmm.pmm.mem) 3 bootVmm.currentCr3 ∧
    Spare bootVmm.pmm ∅ (IsTable bootVmm.pmm.mem bootVmm.currentCr3) ∧
    KernelClosed bootVmm.pmm.mem bootVmm.currentCr3 ∧
    ∃ s r, bootVmm.mmap 0 0x7FFFFFFFF000 2 0 = .ok (s, r) ∧
      ¬ KernelClosed s.pmm.mem s.currentCr3 := by
  refine ⟨boot_tree.1, boot_tree.2, boot_spare, boot_closed, ?_⟩
  have hrun : (bootVmm.mmap 0 0x7FFFFFFFF000 2 0).map
      (fun x => walk x.1.pmm.mem x.1.currentCr3 0x800000000000) =
      .ok (some [0x103007, 0x104007, 0x105007, 0x1005]) := rfl
  cases hm : bootVmm.mmap 0 0x7FFFFFFFF000 2 0 with
  | error e =>
    rw [hm] at hrun
    cases hrun
  | ok x =>
    rw [hm] at hrun
    refine ⟨x.1, x.2, rfl, fun hclosed => ?_⟩
    exact hclosed 0x800000000000 (by decide) ⟨_, Except.ok.inj hrun, by decide⟩

/-- The last user page, and then all user pages unmapped. -/
theorem kernelClosed_of_calls_boot : ∃ s, CallsReach StaysInHalf bootVmm s ∧
    KernelClosed s.pmm.mem s.currentCr3 := by
  have h1 := @CallsReach.mmap StaysInHalf bootVmm bootVmm _ 0 0x7FFFFFFFF000 1 0 _ .start rfl
    (by decide) rfl rfl (fun _ => by decide) rfl
  have h2 := h1.munmap (by decide : 0 < 2 ^ 64) 0x800000000000 0x800000000
  exact ⟨_, h2, kernelClosed_of_calls boot_tree.1 boot_tree.2 boot_spare boot_closed h2⟩

end HelixKernel
