import HelixKernel.Mm.VmmUnmap

/-!
# Mapping firmware memory (`kernel/src/extra/uacpi/uacpi_kernel_wrapper.cpp`)

A physical range is mapped at its place in the direct map.

    uacpi_map_contract  the mapping is the one asked for exactly if the offset of the
                        address sets no other flag and the page its end may lie in, which
                        the page count misses, has been mapped there before
    uacpi_unmap_undoes  a mapping is undone exactly if it is one page long and not the
                        last page the direct map has room for -/

namespace HelixKernel

/-- `PAGE_RW` -/
def pageRw : Nat := 0x002

/-- `(len + 0xFFF) / 0x1000` -/
def uacpiPages (len : Nat) : Nat := wrap64 (len + 0xFFF) / 0x1000

/-- `uacpi_kernel_map(addr, len)` -/
def uacpiKernelMap (s : Vmm) (addr len : Nat) : Except Fault (Vmm × Nat) :=
  s.mmap addr (paToVa addr) (uacpiPages len) (pagePresent ||| pageRw)

/-- `uacpi_kernel_unmap(addr, len)` -/
def uacpiKernelUnmap (s : Vmm) (addr len : Nat) : Except Fault Vmm :=
  s.munmap addr (uacpiPages len)

/-! ## Pages -/

theorem uacpiPages_eq {len : Nat} (h : len + 0xFFF < 2 ^ 64) : uacpiPages len = (len + 4095) / 4096 := by
  rw [uacpiPages, wrap64_of_lt h]

/-- The pages counted begin inside the range. -/
theorem lt_of_lt_uacpiPages {len i : Nat} (h : i < uacpiPages len) : i * 4096 < len := by
  unfold uacpiPages wrap64 at h
  omega

/-- Where the direct map has an address. -/
theorem pageNumber_paToVa {a : Nat} (ha : a < directMap) (x : Nat) :
    pageNumber (paToVa a + x) = ((a + x) / 4096 + 2 ^ 35) % 2 ^ 36 := by
  unfold pageNumber paToVa wrap64
  rw [if_neg (by omega)]
  unfold directMap
  omega

/-- Below `2 ^ 47` its pages are distinct. -/
theorem path_paToVa_iff {a b x y : Nat} (hx : a + x < 2 ^ 47) (hy : b + y < 2 ^ 47) :
    path (paToVa a + x) = path (paToVa b + y) ↔ (a + x) / 4096 = (b + y) / 4096 := by
  have ha : a < directMap := by
    unfold directMap
    omega
  have hb : b < directMap := by
    unfold directMap
    omega
  rw [path_eq_iff, pageNumber_paToVa ha, pageNumber_paToVa hb]
  omega

/-! ## Entries -/

theorem mmapFlags_of_high {vaddr : Nat} (h : 2 ^ 47 ≤ vaddr) (flags : Nat) :
    mmapFlags vaddr flags = flags :=
  if_neg (by omega)

/-- The offset of the address goes into the flags. -/
theorem leafEntry_offset {addr i : Nat} (h : addr + i * 4096 < 2 ^ 64) :
    leafEntry addr (pagePresent ||| pageRw) i = pageOf addr + i * 4096 + (addr % 4096 ||| 3) := by
  have hsplit : addr + i * 4096 = 2 ^ 12 * (addr / 4096 + i) + addr % 4096 := by omega
  have hlow : addr % 4096 ||| 3 < 2 ^ 12 := Nat.or_lt_two_pow (by omega) (by decide)
  rw [leafEntry, wrap64_of_lt h, Nat.or_assoc, show pagePresent ||| pageRw ||| pagePresent = 3 from rfl,
    hsplit, Nat.two_pow_add_eq_or_of_lt (by omega), Nat.or_assoc,
    ← Nat.two_pow_add_eq_or_of_lt hlow, pageOf]
  omega

/-- The entry that was asked for. -/
theorem frame_or_flags {f : Nat} (h : f % 4096 = 0) : f ||| pagePresent ||| pageRw = f + 3 := by
  have hsplit : f = 2 ^ 12 * (f / 4096) := by omega
  rw [Nat.or_assoc, hsplit, show pagePresent ||| pageRw = 3 from rfl,
    ← Nat.two_pow_add_eq_or_of_lt (by decide)]

theorem or_three_eq_iff {x : Nat} : x ||| 3 = 3 ↔ x ≤ 3 := by
  constructor
  · intro h
    have : x ≤ x ||| 3 := Nat.left_le_or
    omega
  · intro h
    obtain rfl | rfl | rfl | rfl : x = 0 ∨ x = 1 ∨ x = 2 ∨ x = 3 := by omega
    all_goals rfl

theorem leafEntry_frame {addr i : Nat} (h : addr + i * 4096 < 2 ^ 52) :
    leafEntry addr (pagePresent ||| pageRw) i &&& pageAddrMask = pageOf addr + i * 4096 := by
  have hlow : addr % 4096 ||| 3 < 2 ^ 12 := Nat.or_lt_two_pow (by omega) (by decide)
  rw [leafEntry_offset (by omega), and_pageAddrMask]
  unfold pageOf
  omega

/-! ## `uacpi_kernel_map` -/

/-- **`uacpi_kernel_map`** returns in a tree without large pages. -/
theorem uacpiKernelMap_spec {s : Vmm} {out : Finset (Nat × Nat)} {V : Nat → Prop}
    (h : VmmInv s.pmm out s.currentCr3 V)
    (hlarge : pageFormat.LeavesAt (entryOf s.pmm.mem) 3 s.currentCr3) {addr : Nat}
    (haddr : addr < 2 ^ 64) (len : Nat) :
    ∃ pmm r out' j, uacpiKernelMap s addr len = .ok ({ s with pmm }, r) ∧
      Extends s.pmm out s.currentCr3 V (s.mmapSteps addr (paToVa addr) (uacpiPages len)
        (pagePresent ||| pageRw)) pmm out' ∧ j ≤ uacpiPages len ∧
      (r ≠ 0 → r = paToVa addr ∧ j = uacpiPages len) ∧
      Mapped s.pmm.mem pmm.mem s.currentCr3 (mmapFlags (paToVa addr) (pagePresent ||| pageRw))
        (paToVa addr) addr j := by
  obtain ⟨pmm, done, out', j, hrun, hext, hj, hdone, hmapped⟩ :=
    mmapLoop_rounds (mmapFlags (paToVa addr) (pagePresent ||| pageRw)) (uacpiPages len) s.pmm out
      (paToVa addr) addr h haddr fun i _ _ => notLarge_of_leavesAt hlarge _
  refine ⟨pmm, if done then paToVa addr else 0, out', j, ?_, hext, hj, fun hr => ?_, hmapped⟩
  · unfold uacpiKernelMap Vmm.mmap
    rw [hrun, ok_bind]
  · have hd : done = true := by
      by_contra hd
      exact hr (if_neg hd)
    exact ⟨if_pos hd, hdone.mp hd⟩

section

variable {s s' : Vmm} {m m' : Mem} {root addr len : Nat}

/-- The documented contract. -/
structure MapContract (s' : Vmm) (r addr len : Nat) : Prop where
  bytes : ∀ k < len, translate s'.pmm.mem s'.currentCr3 (r + k) = some (addr + k)
  leaves : ∀ i < uacpiPages len, ∃ es : List Nat, es.length = 3 ∧
    walk s'.pmm.mem s'.currentCr3 (r + i * 4096) =
      some (es ++ [(pageOf addr + i * 4096) ||| pagePresent ||| pageRw])

/-- A byte of a page that was counted. -/
theorem Mapped.byte (h : Mapped m m' root (pagePresent ||| pageRw) (paToVa addr) addr (uacpiPages len))
    (hfit : addr + len ≤ 2 ^ 47) {k : Nat} (hk : k < len)
    (hin : addr % 4096 + k < uacpiPages len * 4096) :
    translate m' root (paToVa addr + k) = some (addr + k) := by
  rcases h (paToVa addr + k) with ⟨-, hno⟩ | ⟨i, hi, hpath, es, hlen, hwalk⟩
  · have hi : (addr % 4096 + k) / 4096 < uacpiPages len := by omega
    refine absurd ?_ (hno _ hi)
    have := lt_of_lt_uacpiPages hi
    rw [path_paToVa_iff (by omega) (by omega)]
    omega
  · have := lt_of_lt_uacpiPages hi
    rw [path_paToVa_iff (by omega) (by omega)] at hpath
    rw [translate_of_walk hlen hwalk, leafEntry_frame (by omega), paToVa_of_lt (by omega)]
    unfold pageOf directMap
    congr 1
    omega

/-- A byte of the page that was not. -/
theorem Mapped.beyond {flags : Nat}
    (h : Mapped m m' root flags (paToVa addr) addr (uacpiPages len))
    (hfit : addr + len ≤ 2 ^ 47) {k : Nat} (hk : k < len)
    (hout : uacpiPages len * 4096 ≤ addr % 4096 + k) :
    translate m' root (paToVa addr + k) = translate m root (paToVa addr + k) := by
  rcases h (paToVa addr + k) with ⟨hsame, -⟩ | ⟨i, hi, hpath, -⟩
  · unfold translate
    rw [hsame]
  · have := lt_of_lt_uacpiPages hi
    rw [path_paToVa_iff (by omega) (by omega)] at hpath
    omega

/-- The entry of a page that was counted. -/
theorem Mapped.leaf (h : Mapped m m' root (pagePresent ||| pageRw) (paToVa addr) addr (uacpiPages len))
    (hfit : addr + len ≤ 2 ^ 47) {i : Nat} (hi : i < uacpiPages len) :
    ∃ es : List Nat, es.length = 3 ∧ walk m' root (paToVa addr + i * 4096) =
      some (es ++ [pageOf addr + i * 4096 + (addr % 4096 ||| 3)]) := by
  have hlt := lt_of_lt_uacpiPages hi
  rcases h (paToVa addr + i * 4096) with ⟨-, hno⟩ | ⟨i', hi', hpath, es, hlen, hwalk⟩
  · exact absurd rfl (hno i hi)
  · have := lt_of_lt_uacpiPages hi'
    rw [path_paToVa_iff (by omega) (by omega)] at hpath
    obtain rfl : i = i' := by omega
    rw [leafEntry_offset (by omega)] at hwalk
    exact ⟨es, hlen, hwalk⟩

theorem mapContract_iff (s' : Vmm) (hlen : 1 ≤ len) (hfit : addr + len ≤ 2 ^ 47)
    (h : Mapped s.pmm.mem s'.pmm.mem s'.currentCr3 (pagePresent ||| pageRw) (paToVa addr) addr
      (uacpiPages len)) :
    MapContract s' (paToVa addr) addr len ↔ addr % 4096 ≤ 3 ∧
      ∀ k < len, uacpiPages len * 4096 ≤ addr % 4096 + k →
        translate s.pmm.mem s'.currentCr3 (paToVa addr + k) = some (addr + k) := by
  have haligned : ∀ i, (pageOf addr + i * 4096) % 4096 = 0 := by
    intro i
    unfold pageOf
    omega
  constructor
  · intro hc
    refine ⟨?_, fun k hk hout => ?_⟩
    · have h0 : 0 < uacpiPages len := by
        rw [uacpiPages_eq (by omega)]
        omega
      obtain ⟨es, hes, hleaf⟩ := hc.leaves 0 h0
      obtain ⟨es', hes', hleaf'⟩ := h.leaf hfit h0
      rw [hleaf, Option.some.injEq, frame_or_flags (haligned 0)] at hleaf'
      have hlast := (List.append_inj hleaf' (hes.trans hes'.symm)).2
      rw [List.cons.injEq] at hlast
      have hbits := Nat.add_left_cancel hlast.1
      exact or_three_eq_iff.mp hbits.symm
    · rw [← h.beyond hfit hk hout]
      exact hc.bytes k hk
  · rintro ⟨hoff, hbefore⟩
    refine ⟨fun k hk => ?_, fun i hi => ?_⟩
    · by_cases hin : addr % 4096 + k < uacpiPages len * 4096
      · exact h.byte hfit hk hin
      · rw [h.beyond hfit hk (by omega)]
        exact hbefore k hk (by omega)
    · obtain ⟨es, hes, hleaf⟩ := h.leaf hfit hi
      rw [or_three_eq_iff.mpr hoff, ← frame_or_flags (haligned i)] at hleaf
      exact ⟨es, hes, hleaf⟩

end

/-- **The contract of `uacpi_kernel_map`** is met exactly if the offset of the address shows in no
flag and the bytes beyond the pages counted, those of `len` without the offset, have been
translated as asked for before. -/
theorem uacpi_map_contract {s : Vmm} {out : Finset (Nat × Nat)}
    (htree : PageTree s.pmm.mem s.currentCr3)
    (hlarge : pageFormat.LeavesAt (entryOf s.pmm.mem) 3 s.currentCr3)
    (hspare : Spare s.pmm out (IsTable s.pmm.mem s.currentCr3)) {addr len : Nat}
    (hlen : 1 ≤ len) (hfit : addr + len ≤ 2 ^ 47) :
    ∃ s' r, uacpiKernelMap s addr len = .ok (s', r) ∧ (r ≠ 0 →
      (MapContract s' r addr len ↔ addr % 4096 ≤ 3 ∧
        ∀ k < len, uacpiPages len * 4096 ≤ addr % 4096 + k →
          translate s.pmm.mem s.currentCr3 (paToVa addr + k) = some (addr + k))) := by
  have hinv := VmmInv.of_spare htree hspare
  obtain ⟨pmm, r, out', j, hrun, -, -, hr, hmapped⟩ :=
    uacpiKernelMap_spec hinv hlarge (by omega : addr < 2 ^ 64) len
  refine ⟨_, r, hrun, fun h0 => ?_⟩
  obtain ⟨rfl, rfl⟩ := hr h0
  have hhigh : 2 ^ 47 ≤ paToVa addr := by
    rw [paToVa_of_lt (by omega)]
    unfold directMap
    omega
  rw [mmapFlags_of_high hhigh] at hmapped
  exact mapContract_iff { s with pmm } hlen hfit hmapped

/-- Two pages, in a machine that has no tables but the root. -/
theorem uacpi_map_contract_boot : ∃ s' r, uacpiKernelMap bootVmm 0x5000 0x1800 = .ok (s', r) ∧
    r ≠ 0 ∧ MapContract s' r 0x5000 0x1800 := by
  obtain ⟨s', r, hrun, hiff⟩ := @uacpi_map_contract bootVmm ∅ boot_tree.1 boot_tree.2 boot_spare
    0x5000 0x1800 (by decide) (by decide)
  have hret : (uacpiKernelMap bootVmm 0x5000 0x1800).map Prod.snd = .ok 0xFFFF800000005000 := rfl
  rw [hrun] at hret
  obtain rfl : r = 0xFFFF800000005000 := Except.ok.inj hret
  refine ⟨s', _, hrun, by decide, (hiff (by decide)).mpr ⟨by decide, fun k hk hout => ?_⟩⟩
  rw [uacpiPages_eq (by decide)] at hout
  omega

/-- **The documented example** gets one page instead of two, and the offset `0xABC` in the flags
of its entry. -/
theorem uacpi_map_misaligned : PageTree bootVmm.pmm.mem bootVmm.currentCr3 ∧
    pageFormat.LeavesAt (entryOf bootVmm.pmm.mem) 3 bootVmm.currentCr3 ∧
    Spare bootVmm.pmm ∅ (IsTable bootVmm.pmm.mem bootVmm.currentCr3) ∧
    ∃ s' r, uacpiKernelMap bootVmm 0x1ABC 0xF00 = .ok (s', r) ∧ r ≠ 0 ∧
      translate s'.pmm.mem s'.currentCr3 (r + 0x544) = none ∧
      (walk s'.pmm.mem s'.currentCr3 r).map (·.getLastD 0) = some 0x1ABF ∧
      ¬ MapContract s' r 0x1ABC 0xF00 := by
  refine ⟨boot_tree.1, boot_tree.2, boot_spare, _, _, rfl, by decide, by rfl, by rfl, fun hc => ?_⟩
  have hbyte := hc.bytes 0x544 (by decide)
  revert hbyte
  decide

/-! ## `uacpi_kernel_unmap` -/

/-- `va` is in a page of the range's. -/
def InRange (addr len va : Nat) : Prop := ∃ k < len, pageNumber va = pageNumber (paToVa addr + k)

/-- **Undone**: `uacpi_kernel_unmap(r, len)` returns, and in the end no page of the range is mapped
and every other one is as in `s`. -/
def Undone (s s1 : Vmm) (r addr len : Nat) : Prop :=
  ∃ s2, uacpiKernelUnmap s1 r len = .ok s2 ∧
    (∀ va, InRange addr len va → translate s2.pmm.mem s2.currentCr3 va = none) ∧
    ∀ va, ¬ InRange addr len va →
      translate s2.pmm.mem s2.currentCr3 va = translate s.pmm.mem s.currentCr3 va

section

variable {addr len : Nat}

/-- The pages of the range are those counted. -/
theorem inRange_iff (ha : addr % 4096 = 0) (hfit : addr + len ≤ 2 ^ 47) {va : Nat} :
    InRange addr len va ↔ ∃ i < uacpiPages len, path va = path (paToVa addr + i * 4096) := by
  have hdirect : addr < directMap := by
    unfold directMap
    omega
  constructor
  · rintro ⟨k, hk, hpage⟩
    refine ⟨k / 4096, ?_, ?_⟩
    · rw [uacpiPages_eq (by omega)]
      omega
    · rw [path_eq_iff, hpage, pageNumber_paToVa hdirect, pageNumber_paToVa hdirect]
      omega
  · rintro ⟨i, hi, hpath⟩
    exact ⟨i * 4096, lt_of_lt_uacpiPages hi, path_eq_iff.mp hpath⟩

/-- Given as a number of bytes, the number of pages is too short a range. -/
theorem rounds_lt {j : Nat} (hlong : 4096 < len) (hfit : addr + len ≤ 2 ^ 47)
    (hvis : ∀ i < j, Visits (paToVa addr) (uacpiPages len) i) : j + 1 ≤ uacpiPages len := by
  have hn : uacpiPages len = (len + 4095) / 4096 := uacpiPages_eq (by omega)
  by_contra hj
  have hlast := hvis (uacpiPages len - 1) (by omega) _ (Nat.le_refl _)
  rw [paToVa_of_lt (by omega), wrap64_of_lt (by unfold directMap; omega),
    wrap64_of_lt (by unfold directMap; omega)] at hlast
  omega

/-- One round takes one page. -/
theorem rounds_eq_one {j : Nat} (hlen : 1 ≤ len) (hshort : len ≤ 4096) (hroom : addr + 4096 < 2 ^ 47)
    (hvis : ∀ i < j, Visits (paToVa addr) (uacpiPages len) i)
    (hdone : j < munmapRounds →
      ¬ wrap64 (paToVa addr + j * 4096) < wrap64 (paToVa addr + uacpiPages len)) : j = 1 := by
  have hn : uacpiPages len = 1 := by
    rw [uacpiPages_eq (by omega)]
    omega
  rw [hn, paToVa_of_lt (by omega)] at hvis hdone
  unfold wrap64 directMap munmapRounds at hdone
  by_contra hj
  by_cases h0 : j = 0
  · subst h0
    omega
  · have hsecond := hvis 1 (by omega) 1 (Nat.le_refl 1)
    unfold wrap64 directMap at hsecond
    omega

/-- At the top of the address space the loop goes round for ever. -/
theorem rounds_wrap (j : Nat) (hlen : 1 ≤ len) (hshort : len ≤ 4096) (htop : addr + 4096 = 2 ^ 47) :
    wrap64 (paToVa addr + j * 4096) < wrap64 (paToVa addr + uacpiPages len) := by
  have hn : uacpiPages len = 1 := by
    rw [uacpiPages_eq (by omega)]
    omega
  rw [hn, paToVa_of_lt (by omega)]
  unfold wrap64 directMap
  omega

/-- The last of several pages is not among those that `munmap` visits. -/
theorem last_page_stays {m0 m m' : Mem} {root j : Nat} (hlong : 4096 < len) (hfit : addr + len ≤ 2 ^ 47)
    (ha : addr % 4096 = 0)
    (hmapped : Mapped m0 m root (pagePresent ||| pageRw) (paToVa addr) addr (uacpiPages len))
    (hvis : ∀ i < j, Visits (paToVa addr) (uacpiPages len) i)
    (hun : Unmapped m m' root (paToVa addr) j) :
    translate m' root (paToVa addr + (uacpiPages len - 1) * 4096) ≠ none := by
  have hn : uacpiPages len = (len + 4095) / 4096 := uacpiPages_eq (by omega)
  have hle := rounds_lt hlong hfit hvis
  have hlast := lt_of_lt_uacpiPages (show uacpiPages len - 1 < uacpiPages len by omega)
  rcases hun (paToVa addr + (uacpiPages len - 1) * 4096) with ⟨hsame, -⟩ | ⟨⟨i, hi, hpath⟩, -⟩
  · have hbyte := hmapped.byte hfit hlast (by omega)
    unfold translate at hbyte ⊢
    rw [hsame, hbyte]
    exact Option.some_ne_none _
  · rw [path_paToVa_iff (by omega) (by omega)] at hpath
    omega

end

/-- **`uacpi_kernel_unmap` after `uacpi_kernel_map`** undoes it exactly for a mapping of one page
that is not the last one of the direct map. -/
theorem uacpi_unmap_undoes {s : Vmm} {out : Finset (Nat × Nat)}
    (htree : PageTree s.pmm.mem s.currentCr3)
    (hlarge : pageFormat.LeavesAt (entryOf s.pmm.mem) 3 s.currentCr3)
    (hspare : Spare s.pmm out (IsTable s.pmm.mem s.currentCr3)) {addr len : Nat}
    (ha : addr % 4096 = 0) (hlen : 1 ≤ len) (hfit : addr + len ≤ 2 ^ 47) :
    ∃ s1 r, uacpiKernelMap s addr len = .ok (s1, r) ∧ (r ≠ 0 →
      (Undone s s1 r addr len ↔ len ≤ 4096 ∧ addr + 4096 < 2 ^ 47)) := by
  have hinv := VmmInv.of_spare htree hspare
  obtain ⟨pmm, r, out', j', hrun, hext, -, hr, hmapped⟩ :=
    uacpiKernelMap_spec hinv hlarge (by omega : addr < 2 ^ 64) len
  refine ⟨_, r, hrun, fun h0 => ?_⟩
  obtain ⟨rfl, rfl⟩ := hr h0
  have hhigh : 2 ^ 47 ≤ paToVa addr ∧ paToVa addr < 2 ^ 64 := by
    rw [paToVa_of_lt (by omega)]
    unfold directMap
    omega
  rw [mmapFlags_of_high hhigh.1] at hmapped
  obtain ⟨m, j, -, hunmap, -, hvis, hdone, hun⟩ :=
    munmap_spec (s := { s with pmm }) hext.inv (hext.leaves hlarge) hhigh.2 (uacpiPages len)
  change uacpiKernelUnmap { s with pmm } (paToVa addr) len = _ at hunmap
  constructor
  · rintro ⟨s2, hrun2, hgone, -⟩
    rw [hunmap] at hrun2
    split at hrun2
    · cases hrun2
    · rename_i hend
      cases hrun2
      have hshort : len ≤ 4096 := by
        by_contra hlong
        have hle := rounds_lt (by omega) hfit hvis
        apply last_page_stays (by omega) hfit ha hmapped hvis hun
        exact hgone _ ((inRange_iff ha hfit).mpr ⟨_, by omega, rfl⟩)
      refine ⟨hshort, ?_⟩
      by_contra htop
      exact hend (rounds_wrap j hlen hshort (by omega))
  · rintro ⟨hshort, hroom⟩
    obtain rfl := rounds_eq_one hlen hshort hroom hvis hdone
    have hn : uacpiPages len = 1 := by
      rw [uacpiPages_eq (by omega)]
      omega
    refine ⟨_, hunmap.trans (if_neg (hdone (by decide))), fun va hva => ?_, fun va hva => ?_⟩
    · rw [inRange_iff ha hfit, hn] at hva
      rcases hun va with ⟨-, hno⟩ | ⟨-, hnone⟩
      · obtain ⟨i, hi, hpath⟩ := hva
        exact absurd hpath (hno i hi)
      · unfold translate
        rw [hnone]
        rfl
    · rw [inRange_iff ha hfit, hn] at hva
      rcases hun va with ⟨hsame, -⟩ | ⟨hin, -⟩
      · rcases hmapped va with ⟨hsame', -⟩ | ⟨i, hi, hpath, -⟩
        · unfold translate
          rw [hsame, hsame']
        · exact absurd ⟨i, hn ▸ hi, hpath⟩ hva
      · exact absurd hin hva

theorem uacpi_unmap_undoes_boot : ∃ s1 r, uacpiKernelMap bootVmm 0x5000 0x1000 = .ok (s1, r) ∧
    r ≠ 0 ∧ Undone bootVmm s1 r 0x5000 0x1000 := by
  obtain ⟨s1, r, hrun, hiff⟩ := @uacpi_unmap_undoes bootVmm ∅ boot_tree.1 boot_tree.2 boot_spare
    0x5000 0x1000 rfl (by decide) (by decide)
  have hret : (uacpiKernelMap bootVmm 0x5000 0x1000).map Prod.snd = .ok 0xFFFF800000005000 := rfl
  rw [hrun] at hret
  obtain rfl : r = 0xFFFF800000005000 := Except.ok.inj hret
  exact ⟨s1, _, hrun, by decide, (hiff (by decide)).mpr ⟨by decide, by decide⟩⟩

/-- **Two pages** are mapped in an empty tree, and the second one stays. -/
theorem uacpi_unmap_leaves_page : PageTree bootVmm.pmm.mem bootVmm.currentCr3 ∧
    pageFormat.LeavesAt (entryOf bootVmm.pmm.mem) 3 bootVmm.currentCr3 ∧
    Spare bootVmm.pmm ∅ (IsTable bootVmm.pmm.mem bootVmm.currentCr3) ∧
    (∀ va, translate bootVmm.pmm.mem bootVmm.currentCr3 va = none) ∧
    ∃ s1 r, uacpiKernelMap bootVmm 0x5000 0x2000 = .ok (s1, r) ∧ r ≠ 0 ∧
      (∃ s2, uacpiKernelUnmap s1 r 0x2000 = .ok s2 ∧
        translate s2.pmm.mem s2.currentCr3 (r + 0x1000) = some 0x6000) ∧
      ¬ Undone bootVmm s1 r 0x5000 0x2000 := by
  refine ⟨boot_tree.1, boot_tree.2, boot_spare, fun va => ?_, _, _, rfl, by decide,
    ⟨_, rfl, by rfl⟩, ?_⟩
  · have hwalk : walk bootVmm.pmm.mem bootVmm.currentCr3 va = none := by
      apply walk_of_not_present (p := []) (q := [index 30 va, index 21 va, index 12 va]) rfl rfl
      rw [show bootVmm.pmm.mem = bootPmm.mem from rfl, boot_entry]
      rfl
    unfold translate
    rw [hwalk]
    rfl
  · rintro ⟨s2, hrun, hgone, -⟩
    have hpage := hgone 0xFFFF800000006000 ⟨0x1000, by decide, by decide⟩
    cases hrun
    revert hpage
    decide

end HelixKernel
