import HelixKernel.Extra.Uacpi

/-!
# Outstanding firmware mappings

`MapsGood s out`: every byte of every mapping in `out`, those made and not yet unmapped,
translates to its physical byte.  All mappings of a page share one virtual page, and no
count of its users is kept.

    uacpi_mappings_stay     a mapping stays good while no unmap visits one of its pages and
                            no other range, 2 ^ 48 bytes away, takes its virtual page;
                            and a step that keeps them all good is of this kind
    uacpi_shared_page_lost  two mappings of one page, and one of them unmapped -/

namespace HelixKernel

/-- A call; a mapping is named by the range it was made for. -/
inductive UacpiCall where
  | map (addr len : Nat)
  | unmap (addr len : Nat)
deriving DecidableEq, Repr

/-- No two pages of outstanding mappings that share a virtual page are different. -/
def Agree (out : List (Nat × Nat)) : Prop :=
  ∀ a ∈ out, ∀ b ∈ out, ∀ i < uacpiPages a.2, ∀ j < uacpiPages b.2,
    path (paToVa a.1 + i * 4096) = path (paToVa b.1 + j * 4096) → a.1 + i * 4096 = b.1 + j * 4096

namespace UacpiCall

/-- The call, with the pointer that `map` returns; `unmap` gets that of its mapping. -/
def run (s : Vmm) : UacpiCall → Except Fault (Vmm × Nat)
  | map addr len => uacpiKernelMap s addr len
  | unmap addr len => do
    let s ← uacpiKernelUnmap s (paToVa addr) len
    .ok (s, 0)

/-- The outstanding mappings after a call that has returned `r`. -/
def apply (out : List (Nat × Nat)) (r : Nat) : UacpiCall → List (Nat × Nat)
  | map addr len => if r = 0 then out else (addr, len) :: out
  | unmap addr len => out.erase (addr, len)

/-- The addresses are page-aligned, and what is unmapped has been mapped. -/
def Valid (out : List (Nat × Nat)) : UacpiCall → Prop
  | map addr len => addr % 4096 = 0 ∧ addr < 2 ^ 64 ∧ len < 2 ^ 64
  | unmap addr len => (addr, len) ∈ out

instance (out : List (Nat × Nat)) : (c : UacpiCall) → Decidable (c.Valid out)
  | map _ _ => inferInstanceAs (Decidable (_ ∧ _ ∧ _))
  | unmap addr len => inferInstanceAs (Decidable ((addr, len) ∈ out))

/-- A mapping has been made, or unmapped. -/
def Done (r : Nat) : UacpiCall → Prop
  | map .. => r ≠ 0
  | unmap .. => True

/-- What is mapped has physical addresses of 52 bits and takes no other page's virtual page; no
page that is visited by `munmap` belongs to another mapping. -/
def Keeps (out : List (Nat × Nat)) : UacpiCall → Prop
  | map addr len => (∀ k < len, addr + k < 2 ^ 52) ∧ Agree ((addr, len) :: out)
  | unmap addr len => ∀ a ∈ out.erase (addr, len), ∀ i < uacpiPages a.2,
    ∀ j, Visits (paToVa addr) (uacpiPages len) j →
      path (paToVa a.1 + i * 4096) ≠ path (paToVa addr + j * 4096)

end UacpiCall

/-- Every byte of the mapping of `len` bytes at `addr` has its translation. -/
def MapGood (s : Vmm) (addr len : Nat) : Prop :=
  ∀ k < len, translate s.pmm.mem s.currentCr3 (paToVa addr + k) = some (addr + k)

def MapsGood (s : Vmm) (out : List (Nat × Nat)) : Prop := ∀ a ∈ out, MapGood s a.1 a.2

/-- Runs from `s0` of calls that meet `C`. -/
inductive UacpiReach (C : List (Nat × Nat) → UacpiCall → Prop) (s0 : Vmm) :
    Vmm → List (Nat × Nat) → Prop
  | start : UacpiReach C s0 s0 []
  | call {s s' : Vmm} {out : List (Nat × Nat)} {r : Nat} (c : UacpiCall) (h : UacpiReach C s0 s out)
      (hv : c.Valid out) (hc : C out c) (hrun : c.run s = .ok (s', r)) :
      UacpiReach C s0 s' (c.apply out r)

/-! ## Bytes and pages -/

section

variable {m m' : Mem} {root addr len : Nat}

theorem paToVa_aligned (ha : addr % 4096 = 0) : paToVa addr % 4096 = 0 := by
  unfold paToVa
  split
  · exact ha
  · unfold wrap64 directMap
    omega

theorem paToVa_lt (ha : addr < 2 ^ 64) : paToVa addr < 2 ^ 64 := by
  unfold paToVa
  split
  · exact ha
  · exact wrap64_lt _

theorem page_lt_uacpiPages {k : Nat} (hlen : len + 0xFFF < 2 ^ 64) (hk : k < len) :
    k / 4096 < uacpiPages len := by
  rw [uacpiPages_eq hlen]
  omega

/-- The page of a byte. -/
theorem path_byte (ha : addr % 4096 = 0) (k : Nat) :
    path (paToVa addr + k) = path (paToVa addr + k / 4096 * 4096) := by
  have := paToVa_aligned ha
  rw [path_eq_iff]
  unfold pageNumber
  omega

/-- Flags of `uacpi_kernel_map` have no address bits. -/
theorem uacpiFlags_addr (vaddr : Nat) :
    mmapFlags vaddr (pagePresent ||| pageRw) &&& pageAddrMask = 0 :=
  mmapFlags_addr rfl vaddr

/-- A byte whose page has been set by `mmap` has the translation that was set. -/
theorem translate_leaf {flags pa a k i : Nat} (hflags : flags &&& pageAddrMask = 0)
    (hpa : pa % 4096 = 0) (hfit : pa + i * 4096 < 2 ^ 52) (ha : a % 4096 = 0)
    (hframe : a + k / 4096 * 4096 = pa + i * 4096) {es : List Nat} (hlen : es.length = 3)
    (hwalk : walk m' root (paToVa a + k) = some (es ++ [leafEntry pa flags i])) :
    translate m' root (paToVa a + k) = some (a + k) := by
  have := paToVa_aligned ha
  rw [translate_of_walk hlen hwalk, leafEntry_addr hpa hfit hflags]
  congr 1
  omega

end

/-! ## One call -/

section

variable {s s' : Vmm} {out : List (Nat × Nat)} {addr len : Nat}

/-- What is known of a mapping besides its being good. -/
def Ranged (out : List (Nat × Nat)) : Prop :=
  ∀ a ∈ out, a.1 % 4096 = 0 ∧ a.1 < 2 ^ 64 ∧ a.2 + 0xFFF < 2 ^ 64

/-- A mapping that has its translations where `mmap` has not been. -/
theorem mapGood_of_mapped {flags j : Nat} {a : Nat × Nat} (hflags : flags &&& pageAddrMask = 0)
    (haddr : addr % 4096 = 0) (hfit : ∀ k < len, addr + k < 2 ^ 52) (hj : j ≤ uacpiPages len)
    (ha : a.1 % 4096 = 0 ∧ a.1 < 2 ^ 64 ∧ a.2 + 0xFFF < 2 ^ 64)
    (hagree : ∀ i < uacpiPages a.2, ∀ i' < uacpiPages len,
      path (paToVa a.1 + i * 4096) = path (paToVa addr + i' * 4096) → a.1 + i * 4096 = addr + i' * 4096)
    (h : Mapped s.pmm.mem s'.pmm.mem s'.currentCr3 flags (paToVa addr) addr j)
    (hold : ∀ k < a.2, (∀ i < j, path (paToVa a.1 + k) ≠ path (paToVa addr + i * 4096)) →
      translate s.pmm.mem s'.currentCr3 (paToVa a.1 + k) = some (a.1 + k)) :
    MapGood s' a.1 a.2 := by
  intro k hk
  rcases h (paToVa a.1 + k) with ⟨hsame, hno⟩ | ⟨i, hi, hpath, es, hes, hwalk⟩
  · have := hold k hk hno
    unfold translate at this ⊢
    rwa [hsame]
  · have hpage := page_lt_uacpiPages ha.2.2 hk
    have hi' : i < uacpiPages len := by omega
    rw [path_byte ha.1] at hpath
    have hframe := hagree _ hpage i hi' hpath
    exact translate_leaf hflags haddr (hfit _ (lt_of_lt_uacpiPages hi')) ha.1 hframe hes hwalk

/-- A mapping that `munmap` has not visited. -/
theorem mapGood_of_unmapped {va j : Nat} {a : Nat × Nat}
    (ha : a.1 % 4096 = 0 ∧ a.1 < 2 ^ 64 ∧ a.2 + 0xFFF < 2 ^ 64)
    (hapart : ∀ i < uacpiPages a.2, ∀ i' < j, path (paToVa a.1 + i * 4096) ≠ path (va + i' * 4096))
    (h : Unmapped s.pmm.mem s'.pmm.mem s'.currentCr3 va j)
    (hold : ∀ k < a.2, translate s.pmm.mem s'.currentCr3 (paToVa a.1 + k) = some (a.1 + k)) :
    MapGood s' a.1 a.2 := by
  intro k hk
  rcases h (paToVa a.1 + k) with ⟨hsame, -⟩ | ⟨⟨i, hi, hpath⟩, -⟩
  · have := hold k hk
    unfold translate at this ⊢
    rwa [hsame]
  · rw [path_byte ha.1] at hpath
    exact absurd hpath (hapart _ (page_lt_uacpiPages ha.2.2 hk) i hi)

/-- Good mappings that share a virtual page share its frame. -/
theorem MapsGood.agree (h : MapsGood s out) (haligned : ∀ a ∈ out, a.1 % 4096 = 0) : Agree out := by
  intro a ha b hb i hi j hj hpath
  have hea := h a ha (i * 4096) (lt_of_lt_uacpiPages hi)
  have heb := h b hb (j * 4096) (lt_of_lt_uacpiPages hj)
  have hoff := paToVa_aligned (haligned a ha)
  have hoff' := paToVa_aligned (haligned b hb)
  rw [translate_congr _ _ hpath (by omega), heb] at hea
  exact (Option.some.inj hea).symm

/-- **The invariant** of the runs. -/
structure UacpiInv (s : Vmm) (out : List (Nat × Nat)) : Prop where
  tree : ∃ pages, VmmInv s.pmm pages s.currentCr3 fun _ => False
  leaves : pageFormat.LeavesAt (entryOf s.pmm.mem) 3 s.currentCr3
  ranged : Ranged out
  good : MapsGood s out

namespace UacpiInv

/-- One more mapping. -/
theorem map (h : UacpiInv s out) (hv : (UacpiCall.map addr len).Valid out) :
    ∃ s' r, uacpiKernelMap s addr len = .ok (s', r) ∧
      ((UacpiCall.map addr len).Keeps out → UacpiInv s' ((UacpiCall.map addr len).apply out r)) ∧
      (r ≠ 0 → MapsGood s' ((addr, len) :: out) → (UacpiCall.map addr len).Keeps out) := by
  obtain ⟨haligned, haddr, hlen⟩ := hv
  obtain ⟨pages, hinv⟩ := h.tree
  obtain ⟨pmm, r, pages', j, hrun, hext, hj, hr, hmapped⟩ :=
    uacpiKernelMap_spec hinv h.leaves haddr len
  refine ⟨_, r, hrun, ?_, fun _ hgood => ⟨fun k hk => ?_, ?_⟩⟩
  · rintro ⟨hfit, hagree⟩
    have hshort : len ≤ 2 ^ 52 := by
      by_contra hlong
      have := hfit (2 ^ 52) (by omega)
      omega
    have hnew : (addr, len).1 % 4096 = 0 ∧ (addr, len).1 < 2 ^ 64 ∧ (addr, len).2 + 0xFFF < 2 ^ 64 :=
      ⟨haligned, haddr, by simp only; omega⟩
    have hold : MapsGood { s with pmm } out := by
      intro a ha
      refine mapGood_of_mapped (s := s) (uacpiFlags_addr _) haligned hfit hj (h.ranged a ha) ?_
        hmapped fun k hk _ => h.good a ha k hk
      exact fun i hi i' hi' => hagree a (List.mem_cons_of_mem _ ha) _ (List.mem_cons_self ..) i hi i' hi'
    simp only [UacpiCall.apply]
    by_cases h0 : r = 0
    · rw [if_pos h0]
      exact ⟨⟨pages', hext.inv⟩, hext.leaves h.leaves, h.ranged, hold⟩
    · rw [if_neg h0]
      obtain ⟨-, rfl⟩ := hr h0
      refine ⟨⟨pages', hext.inv⟩, hext.leaves h.leaves, ?_, ?_⟩
      · exact List.forall_mem_cons.mpr ⟨hnew, h.ranged⟩
      · refine List.forall_mem_cons.mpr ⟨?_, hold⟩
        refine mapGood_of_mapped (s := s) (uacpiFlags_addr _) haligned hfit hj hnew ?_ hmapped
          fun k hk hno => ?_
        · exact fun i hi i' hi' => hagree _ (List.mem_cons_self ..) _ (List.mem_cons_self ..) i hi i' hi'
        · exact absurd (path_byte haligned k) (hno _ (page_lt_uacpiPages hnew.2.2 hk))
  · exact translate_lt (hgood (addr, len) (List.mem_cons_self ..) k hk)
  · refine hgood.agree fun a ha => ?_
    rcases List.mem_cons.mp ha with rfl | ha
    · exact haligned
    · exact (h.ranged a ha).1

/-- One less. -/
theorem unmap (h : UacpiInv s out) (hv : (addr, len) ∈ out) :
    uacpiKernelUnmap s (paToVa addr) len = .error .diverges ∨
    ∃ s', uacpiKernelUnmap s (paToVa addr) len = .ok s' ∧
      ((UacpiCall.unmap addr len).Keeps out ↔ MapsGood s' (out.erase (addr, len))) ∧
      ((UacpiCall.unmap addr len).Keeps out → UacpiInv s' (out.erase (addr, len))) := by
  obtain ⟨pages, hinv⟩ := h.tree
  obtain ⟨m, j, -, hrun, hext, hvis, hdone, hun⟩ :=
    munmap_spec hinv h.leaves (paToVa_lt (h.ranged _ hv).2.1) (uacpiPages len)
  change uacpiKernelUnmap s (paToVa addr) len = _ at hrun
  by_cases hend : wrap64 (paToVa addr + j * 4096) < wrap64 (paToVa addr + uacpiPages len)
  · exact .inl (hrun.trans (if_pos hend))
  have hsub : ∀ a ∈ out.erase (addr, len), a ∈ out := fun a ha => List.mem_of_mem_erase ha
  have hkeep : (UacpiCall.unmap addr len).Keeps out →
      MapsGood { s with pmm := { s.pmm with mem := m } } (out.erase (addr, len)) := by
    intro hc a ha
    refine mapGood_of_unmapped (s := s) (h.ranged a (hsub a ha)) (fun i hi i' hi' => ?_) hun
      fun k hk => h.good a (hsub a ha) k hk
    exact hc a ha i hi i' (hvis i' hi')
  refine .inr ⟨_, hrun.trans (if_neg hend), ⟨hkeep, fun hgood a ha i hi i' hvisit hpath => ?_⟩,
    fun hc => ⟨⟨pages, hext.inv⟩, hext.leaves h.leaves, fun a ha => h.ranged a (hsub a ha), hkeep hc⟩⟩
  -- a page that the loop has visited is not mapped
  have hlt : i' < j := by
    by_contra hle
    exact hend (hvisit j (by omega))
  have hbyte := hgood a ha (i * 4096) (lt_of_lt_uacpiPages hi)
  rcases hun (paToVa a.1 + i * 4096) with ⟨-, hno⟩ | ⟨-, hnone⟩
  · exact hno i' hlt hpath
  · unfold translate at hbyte
    rw [hnone] at hbyte
    cases hbyte

/-- **One call** keeps the mappings good if it is of the kind, and only then. -/
theorem step (h : UacpiInv s out) {c : UacpiCall} (hv : c.Valid out) :
    c.run s = .error .diverges ∨ ∃ s' r, c.run s = .ok (s', r) ∧
      (c.Keeps out → UacpiInv s' (c.apply out r)) ∧
      (c.Done r → MapsGood s' (c.apply out r) → c.Keeps out) := by
  cases c with
  | map addr len =>
    obtain ⟨s', r, hrun, hkeeps, hexact⟩ := h.map hv
    refine .inr ⟨s', r, hrun, hkeeps, fun hr hgood => hexact hr ?_⟩
    rwa [UacpiCall.apply, if_neg hr] at hgood
  | unmap addr len =>
    rcases h.unmap hv with hrun | ⟨s', hrun, hiff, hkeeps⟩
    · refine .inl ?_
      simp only [UacpiCall.run]
      rw [hrun, error_bind]
    · refine .inr ⟨s', 0, ?_, hkeeps, fun _ => hiff.mpr⟩
      simp only [UacpiCall.run]
      rw [hrun, ok_bind]

end UacpiInv

/-- Every run gets to such a state. -/
theorem UacpiReach.inv {s0 : Vmm} (h0 : UacpiInv s0 []) (h : UacpiReach UacpiCall.Keeps s0 s out) :
    UacpiInv s out := by
  induction h with
  | start => exact h0
  | call c _ hv hc hrun ih =>
    rcases ih.step hv with hdiv | ⟨s', r, hrun', hkeeps, -⟩
    · rw [hdiv] at hrun
      cases hrun
    · rw [hrun'] at hrun
      cases hrun
      exact hkeeps hc

end

/-- **Outstanding mappings** are good after every run of calls that keep to what is theirs.  From
there each further call returns or loops for ever; if it keeps to what is its own they are good
afterwards, and if they are good after a mapping was made or unmapped, it did. -/
theorem uacpi_mappings_stay {s0 : Vmm} {pages : Finset (Nat × Nat)}
    (htree : PageTree s0.pmm.mem s0.currentCr3)
    (hlarge : pageFormat.LeavesAt (entryOf s0.pmm.mem) 3 s0.currentCr3)
    (hspare : Spare s0.pmm pages (IsTable s0.pmm.mem s0.currentCr3)) {s : Vmm}
    {out : List (Nat × Nat)} (h : UacpiReach UacpiCall.Keeps s0 s out) :
    MapsGood s out ∧ ∀ c : UacpiCall, c.Valid out →
      c.run s = .error .diverges ∨ ∃ s' r, c.run s = .ok (s', r) ∧
        (c.Keeps out → MapsGood s' (c.apply out r)) ∧
        (c.Done r → MapsGood s' (c.apply out r) → c.Keeps out) := by
  have h0 : UacpiInv s0 [] := by
    refine ⟨⟨pages, .of_spare htree hspare⟩, hlarge, ?_, ?_⟩
    · exact fun a ha => absurd ha List.not_mem_nil
    · exact fun a ha => absurd ha List.not_mem_nil
  have hinv := h.inv h0
  refine ⟨hinv.good, fun c hv => ?_⟩
  rcases hinv.step hv with hdiv | ⟨s', r, hrun, hkeeps, hexact⟩
  · exact .inl hdiv
  · exact .inr ⟨s', r, hrun, fun hc => (hkeeps hc).good, hexact⟩

/-- Ranges below `2 ^ 47` agree. -/
theorem Agree.of_low {out : List (Nat × Nat)}
    (h : ∀ a ∈ out, a.1 % 4096 = 0 ∧ a.1 + a.2 ≤ 2 ^ 47) : Agree out := by
  intro a ha b hb i hi j hj hpath
  have hla := lt_of_lt_uacpiPages hi
  have hlb := lt_of_lt_uacpiPages hj
  obtain ⟨haa, hta⟩ := h a ha
  obtain ⟨hab, htb⟩ := h b hb
  rw [path_paToVa_iff (by omega) (by omega)] at hpath
  omega

/-- The second of two mappings is unmapped, and the first one stays. -/
theorem uacpi_mappings_stay_boot : ∃ s, UacpiReach UacpiCall.Keeps bootVmm s [(0x5000, 0x1000)] ∧
    translate s.pmm.mem s.currentCr3 0xFFFF800000005123 = some 0x5123 := by
  have hmap : ∀ addr len, addr + len ≤ 2 ^ 47 → ∀ k < len, addr + k < 2 ^ 52 := by
    intro addr len h k hk
    omega
  have h1 : UacpiReach UacpiCall.Keeps bootVmm _ _ := .call (.map 0x5000 0x1000) .start
    ⟨by decide, by decide, by decide⟩ ⟨hmap _ _ (by decide), .of_low (by decide)⟩ rfl
  have h2 : UacpiReach UacpiCall.Keeps bootVmm _ _ := .call (.map 0x6000 0x800) h1
    ⟨by decide, by decide, by decide⟩ ⟨hmap _ _ (by decide), .of_low (by decide)⟩ rfl
  have hkeeps : (UacpiCall.unmap 0x6000 0x800).Keeps [(0x6000, 0x800), (0x5000, 0x1000)] := by
    intro a ha i hi j hvis
    obtain rfl := List.mem_singleton.mp ha
    rw [uacpiPages_eq (by decide)] at hi
    have hj : j = 0 := by
      by_contra hj
      have hsecond := hvis 1 (by omega)
      revert hsecond
      decide
    subst hj
    obtain rfl : i = 0 := by omega
    decide
  have h3 : UacpiReach UacpiCall.Keeps bootVmm _ [(0x5000, 0x1000)] :=
    .call (.unmap 0x6000 0x800) h2 (by decide) hkeeps rfl
  have hgood := (uacpi_mappings_stay boot_tree.1 boot_tree.2 boot_spare h3).1
  exact ⟨_, h3, hgood _ (List.mem_singleton_self _) 0x123 (by decide)⟩

/-- **A shared page is lost** with the first of its two mappings that is unmapped. -/
theorem uacpi_shared_page_lost : PageTree bootVmm.pmm.mem bootVmm.currentCr3 ∧
    pageFormat.LeavesAt (entryOf bootVmm.pmm.mem) 3 bootVmm.currentCr3 ∧
    Spare bootVmm.pmm ∅ (IsTable bootVmm.pmm.mem bootVmm.currentCr3) ∧
    ∃ s out, UacpiReach (fun _ _ => True) bootVmm s out ∧ (0x5000, 0x800) ∈ out ∧
      translate s.pmm.mem s.currentCr3 (paToVa 0x5000) = none ∧ ¬ MapsGood s out := by
  have h1 : UacpiReach (fun _ _ => True) bootVmm _ _ := .call (.map 0x5000 0x800) .start
    ⟨by decide, by decide, by decide⟩ trivial rfl
  have h2 : UacpiReach (fun _ _ => True) bootVmm _ _ := .call (.map 0x5000 0x1000) h1
    ⟨by decide, by decide, by decide⟩ trivial rfl
  have h3 : UacpiReach (fun _ _ => True) bootVmm _ [(0x5000, 0x800)] :=
    .call (.unmap 0x5000 0x1000) h2 (by decide) trivial rfl
  refine ⟨boot_tree.1, boot_tree.2, boot_spare, _, _, h3, List.mem_singleton_self _, by rfl, ?_⟩
  intro hgood
  have hbyte := hgood _ (List.mem_singleton_self _) 0 (by decide)
  revert hbyte
  decide

end HelixKernel
