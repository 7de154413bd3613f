import HelixKernel.Extra.UacpiRuns
import HelixKernel.Mm.Boot
import HelixKernel.Mm.WriteLog

/-!
# The direct map under the firmware glue

`DirectMapped s`: the direct map leads to each page of the allocator's segments and to each
page table, where `alloc`, `free` and `get_or_create_table` take it to lead.

    direct_map_stays    it does so in every run in which no unmap visits the address of one of
                        these pages and no map gives it another frame; and a firmware call
                        that leaves it intact is of this kind
    direct_map_lost     firmware memory in a segment is mapped and unmapped -/

namespace HelixKernel

/-- A page of a segment. -/
def SegPage (s : Pmm) (p : Nat) : Prop :=
  ∃ seg ∈ s.segtab, seg.basePtr ≤ p ∧ p < seg.basePtr + seg.size ∧ p % 4096 = 0

/-- A page that is used through the direct map. -/
def DirectPage (s : Vmm) (p : Nat) : Prop := SegPage s.pmm p ∨ IsTable s.pmm.mem s.currentCr3 p

def DirectMapped (s : Vmm) : Prop :=
  ∀ p, DirectPage s p → translate s.pmm.mem s.currentCr3 (paToVa p) = some p

/-- The firmware mappings and the blocks that are outstanding. -/
structure GlueHeld where
  maps : List (Nat × Nat)
  blocks : Finset (Nat × Nat)

inductive GlueCall where
  | map (addr len : Nat)
  | unmap (addr len : Nat)
  | alloc (n : Nat)
  | free (p n : Nat)
deriving DecidableEq, Repr

namespace GlueCall

/-- The call, and the pointer it returns. -/
def run (s : Vmm) : GlueCall → Except Fault (Vmm × Nat)
  | map addr len => uacpiKernelMap s addr len
  | unmap addr len => do
    let s ← uacpiKernelUnmap s (paToVa addr) len
    .ok (s, 0)
  | alloc n => s.alloc n
  | free p n => do
    let s ← s.free p n
    .ok (s, 0)

/-- What is outstanding after a call that has returned `r`. -/
def apply (held : GlueHeld) (r : Nat) : GlueCall → GlueHeld
  | map addr len => if r = 0 then held else { held with maps := (addr, len) :: held.maps }
  | unmap addr len => { held with maps := held.maps.erase (addr, len) }
  | alloc n => { held with blocks := track held.blocks (vaToPa r) (orderFor n) }
  | free p n => { held with blocks := held.blocks.erase (vaToPa p, orderFor n) }

/-- What is unmapped or freed is outstanding. -/
def Valid (held : GlueHeld) : GlueCall → Prop
  | map addr len => addr < 2 ^ 64 ∧ len < 2 ^ 64
  | unmap addr len => (addr, len) ∈ held.maps
  | alloc _ => True
  | free p n => (vaToPa p, orderFor n) ∈ held.blocks

/-- A mapping has been made, of at most as many pages as there are, or the call is another one. -/
def Done (r : Nat) : GlueCall → Prop
  | map _ len => r ≠ 0 ∧ len ≤ 2 ^ 48
  | _ => True

/-- Where a map sets the entry of a page of the direct map, it sets the page's own frame; an unmap
visits no such page. -/
def Keeps (s : Vmm) : GlueCall → Prop
  | map addr len => ∀ i < uacpiPages len, ∀ p, DirectPage s p →
    path (paToVa p) = path (paToVa addr + i * 4096) → wrap64 (addr + i * 4096) &&& pageAddrMask = p
  | unmap addr len => ∀ i, Visits (paToVa addr) (uacpiPages len) i → ∀ p, DirectPage s p →
    path (paToVa p) ≠ path (paToVa addr + i * 4096)
  | _ => True

end GlueCall

/-- Runs from `s0` of calls that meet `C`; in between, whoever has a block may write to it. -/
inductive GlueReach (C : Vmm → GlueCall → Prop) (s0 : Vmm) (blocks : Finset (Nat × Nat)) :
    Vmm → GlueHeld → Prop
  | start : GlueReach C s0 blocks s0 ⟨[], blocks⟩
  | call {s s' : Vmm} {held : GlueHeld} {r : Nat} (c : GlueCall) (h : GlueReach C s0 blocks s held)
      (hv : c.Valid held) (hc : C s c) (hrun : c.run s = .ok (s', r)) :
      GlueReach C s0 blocks s' (c.apply held r)
  | write {s : Vmm} {held : GlueHeld} {m : Mem} (h : GlueReach C s0 blocks s held)
      (hm : ∀ a, m.word a ≠ s.pmm.mem.word a → ∃ pk ∈ held.blocks, InBlock pk.1 pk.2 a) :
      GlueReach C s0 blocks { s with pmm := { s.pmm with mem := m } } held

/-! ## Segments -/

section

variable {s s' : Pmm} {out : Finset (Nat × Nat)} {root : Nat} {V : Nat → Prop}

theorem SegPage.congr (he : s'.segtab.map PmmSegment.region = s.segtab.map PmmSegment.region)
    {p : Nat} (h : SegPage s' p) : SegPage s p := by
  obtain ⟨seg', hs', hlow, hhigh, hp⟩ := h
  have hin := List.mem_map_of_mem (f := PmmSegment.region) hs'
  rw [he] at hin
  obtain ⟨seg, hs, hreg⟩ := List.mem_map.mp hin
  have hbase : seg.basePtr = seg'.basePtr := congrArg (fun r => r.1) hreg
  have hsize : seg.size = seg'.size := congrArg (fun r => r.2.1) hreg
  exact ⟨seg, hs, by omega, by omega, hp⟩

/-- Free pages are pages of segments. -/
theorem VmmInv.segPage (h : VmmInv s out root V) {a : Nat} (ha : FreePage s.segtab out a) :
    SegPage s a := by
  obtain ⟨B, hB⟩ := h.spare.inv
  have haligned := h.spare.aligned ha
  obtain ⟨seg, hs, x, hx, rfl, -⟩ := ha
  have hfits := (hB.segs seg hs).geom.fits
  refine ⟨seg, hs, by omega, ?_, haligned⟩
  have : x * 4096 < 2 ^ seg.maxOrder * 4096 := by omega
  omega

theorem VmmInv.maxOrder_le (h : VmmInv s out root V) : ∀ seg ∈ s.segtab, seg.maxOrder ≤ 15 := by
  obtain ⟨B, hB⟩ := h.spare.inv
  exact fun seg hs => (hB.segs seg hs).geom.order

/-- The segments keep their regions. -/
def SameRegions (s s' : Pmm) : Prop := (∀ seg ∈ s.segtab, seg.maxOrder ≤ 15) →
  s'.segtab.map PmmSegment.region = s.segtab.map PmmSegment.region

theorem maxOrder_le_of_region {l l' : List PmmSegment}
    (he : l'.map PmmSegment.region = l.map PmmSegment.region) (h : ∀ seg ∈ l, seg.maxOrder ≤ 15) :
    ∀ seg ∈ l', seg.maxOrder ≤ 15 := by
  intro seg' hs'
  have hin := List.mem_map_of_mem (f := PmmSegment.region) hs'
  rw [he] at hin
  obtain ⟨seg, hs, hreg⟩ := List.mem_map.mp hin
  have hM : seg.maxOrder = seg'.maxOrder := congrArg (fun r => r.2.2) hreg
  exact hM ▸ h seg hs

theorem sameRegions_steady : Steady SameRegions where
  refl _ _ := rfl
  trans h h' hM := (h' (maxOrder_le_of_region (h hM) hM)).trans (h hM)
  alloc _ := fun _ hr hM => ((alloc_inBounds hM 1).of_ok hr).1
  clear _ _ _ _ := rfl
  store _ _ _ _ := rfl

theorem uacpiKernelMap_region {s s' : Vmm} {addr len r : Nat}
    (hM : ∀ seg ∈ s.pmm.segtab, seg.maxOrder ≤ 15) (h : uacpiKernelMap s addr len = .ok (s', r)) :
    s'.pmm.segtab.map PmmSegment.region = s.pmm.segtab.map PmmSegment.region := by
  unfold uacpiKernelMap Vmm.mmap at h
  obtain ⟨⟨pmm, done⟩, hloop, h⟩ := bind_eq_ok.mp h
  cases h
  exact sameRegions_steady.mmapLoop _ _ _ _ _ _ _ hloop hM

end

/-! ## `alloc` and `free` beside a tree -/

section

variable {s : Pmm} {out : Finset (Nat × Nat)} {root : Nat} {V : Nat → Prop}

/-- Header stores into pages not in use leave the tree and its walks alone. -/
theorem PageTree.headers {m m' : Mem} (h : PageTree m root) {F : Nat → Prop}
    (hF : ∀ a, F a → ¬ InUse m root V a) (ht : m.Touch (fun w a => w = .header ∧ F a) m') :
    (∀ p, follow m' root p = follow m root p) ∧ PageTree m' root ∧
      (∀ q, walkPath m' root q = walkPath m root q) ∧
      (pageFormat.LeavesAt (entryOf m) 3 root → pageFormat.LeavesAt (entryOf m') 3 root) := by
  have hsame : ∀ a, IsTable m root (pageOf a) → m'.word a = m.word a := by
    intro a hn
    apply ht.same
    rintro w ⟨-, hf⟩
    exact hF a hf (.inl hn)
  obtain ⟨hfollow, htree⟩ := h.frame m' hsame
  exact ⟨hfollow, htree, h.frame_walks m' hsame⟩

/-- **`free` beside a page-table tree** of a block that holds no table. -/
theorem VmmInv.free (h : VmmInv s out root V) {p n : Nat} (hp : (p, orderFor n) ∈ out)
    (hblock : ∀ y, InBlock p (orderFor n) y → ¬ InUse s.mem root V y ∧ y < 2 ^ 47) :
    ∃ s', s.free p n = .ok s' ∧ VmmInv s' (out.erase (p, orderFor n)) root V ∧
      s'.segtab.map PmmSegment.region = s.segtab.map PmmSegment.region ∧
      (∀ q, follow s'.mem root q = follow s.mem root q) ∧
      (∀ q, walkPath s'.mem root q = walkPath s.mem root q) ∧
      (pageFormat.LeavesAt (entryOf s.mem) 3 root → pageFormat.LeavesAt (entryOf s'.mem) 3 root) := by
  obtain ⟨B, hB⟩ := h.spare.inv
  obtain ⟨s', hrun, hfree⟩ := free_pages hB hp
  have hunused : ∀ a, FreePage s'.segtab (out.erase (p, orderFor n)) a →
      ¬ InUse s.mem root V a ∧ a < 2 ^ 47 := by
    intro a ha
    rcases hfree.free a ha with hold | hin
    · exact ⟨h.not_inUse hold, h.spare.low a hold⟩
    · exact hblock a hin
  obtain ⟨hfollow, htree, hwalk, hleaves⟩ :=
    h.tree.headers (fun a ha => (hunused a ha).1) hfree.touch
  refine ⟨s', hrun, ⟨htree, hfree.inv, fun a ha => ?_, fun a ha => (hunused a ha).2⟩,
    hfree.region, hfollow, hwalk, hleaves⟩
  obtain ⟨B', hB'⟩ := hfree.inv
  have hno := (hunused a ha).1
  rw [← inUse_congr hfollow, InUse, pageOf_of_aligned (ha.aligned hB')] at hno
  exact hno

/-- A call that extends the tree finds its new tables in the segments. -/
theorem Extends.directPage {s : Vmm} (s' : Vmm) {out' : Finset (Nat × Nat)} {l : List MemStep}
    (h : VmmInv s.pmm out s.currentCr3 V) (hext : Extends s.pmm out s.currentCr3 V l s'.pmm out')
    (hroot : s'.currentCr3 = s.currentCr3)
    (hregion : s'.pmm.segtab.map PmmSegment.region = s.pmm.segtab.map PmmSegment.region) {p : Nat}
    (hp : DirectPage s' p) : DirectPage s p := by
  rcases hp with hp | hp
  · exact .inl (hp.congr hregion)
  · rw [hroot] at hp
    rcases hext.fresh p hp with hn | ⟨hf, -⟩
    · exact .inr hn
    · exact .inl (h.segPage hf)

end

/-! ## One call -/

theorem leafEntry_mask {flags : Nat} (hflags : flags &&& pageAddrMask = 0) (pa i : Nat) :
    leafEntry pa flags i &&& pageAddrMask = wrap64 (pa + i * 4096) &&& pageAddrMask := by
  rw [leafEntry, Nat.and_or_distrib_right, Nat.and_or_distrib_right, hflags,
    show pagePresent &&& pageAddrMask = 0 from rfl]
  simp

theorem translate_of_walks {m m' : Mem} {root : Nat}
    (h : ∀ q, walkPath m' root q = walkPath m root q) (va : Nat) :
    translate m' root va = translate m root va := by
  unfold translate walk
  rw [h]

/-- Blocks that hold no table, where the direct map reaches them. -/
def BlocksClear (m : Mem) (root : Nat) (blocks : Finset (Nat × Nat)) : Prop :=
  ∀ pk ∈ blocks, ∀ y, InBlock pk.1 pk.2 y → ¬ IsTable m root (pageOf y) ∧ y < 2 ^ 47

theorem BlocksClear.congr {m m' : Mem} {root : Nat} {blocks : Finset (Nat × Nat)}
    (h : BlocksClear m root blocks) (hfollow : ∀ q, follow m' root q = follow m root q) :
    BlocksClear m' root blocks := by
  intro pk hpk y hy
  refine ⟨?_, (h pk hpk y hy).2⟩
  rintro ⟨q, hq⟩
  exact (h pk hpk y hy).1 ⟨q, (hfollow q).symm.trans hq⟩

/-- New tables are in no block. -/
theorem BlocksClear.extends {s s' : Pmm} {root : Nat} {V : Nat → Prop}
    {blocks pages pages' : Finset (Nat × Nat)} {l : List MemStep} (h : BlocksClear s.mem root blocks)
    (hinv : VmmInv s pages root V) (hsub : blocks ⊆ pages) (hext : Extends s pages root V l s' pages') :
    BlocksClear s'.mem root blocks := by
  intro pk hpk y hy
  refine ⟨fun hn => ?_, (h pk hpk y hy).2⟩
  rcases hext.fresh _ hn with hn | ⟨hf, -⟩
  · exact (h pk hpk y hy).1 hn
  · exact hinv.spare.not_free (hsub hpk) hy hf

/-- **The invariant** of the runs. -/
structure GlueInv (s : Vmm) (held : GlueHeld) : Prop where
  tree : ∃ pages, held.blocks ⊆ pages ∧ VmmInv s.pmm pages s.currentCr3 fun _ => False
  leaves : pageFormat.LeavesAt (entryOf s.pmm.mem) 3 s.currentCr3
  clear : BlocksClear s.pmm.mem s.currentCr3 held.blocks
  ranged : ∀ a ∈ held.maps, a.1 < 2 ^ 64
  direct : DirectMapped s

namespace GlueInv

variable {s s' : Vmm} {held : GlueHeld} {addr len : Nat}

theorem aligned (h : GlueInv s held) {p : Nat} (hp : DirectPage s p) : p % 4096 = 0 := by
  obtain ⟨pages, -, hinv⟩ := h.tree
  rcases hp with ⟨-, -, -, -, ha⟩ | hp
  · exact ha
  · exact (hinv.tree.table p hp).1

/-- Where nothing but headers and the owners' blocks has been written. -/
theorem direct_of_walks (h : GlueInv s held) (hroot : s'.currentCr3 = s.currentCr3)
    (hregion : s'.pmm.segtab.map PmmSegment.region = s.pmm.segtab.map PmmSegment.region)
    (hfollow : ∀ q, follow s'.pmm.mem s.currentCr3 q = follow s.pmm.mem s.currentCr3 q)
    (hwalk : ∀ q, walkPath s'.pmm.mem s.currentCr3 q = walkPath s.pmm.mem s.currentCr3 q) :
    DirectMapped s' := by
  intro p hp
  rw [hroot, translate_of_walks hwalk]
  apply h.direct
  rcases hp with hp | ⟨q, hq⟩
  · exact .inl (hp.congr hregion)
  · rw [hroot] at hq
    exact .inr ⟨q, (hfollow q).symm.trans hq⟩

/-- What the pages of the direct map are after a map that has set `j` of its entries. -/
theorem direct_of_mapped (h : GlueInv s held) (s' : Vmm) (hroot : s'.currentCr3 = s.currentCr3)
    (hpage : ∀ p, DirectPage s' p → DirectPage s p) {j : Nat} (hj : j ≤ uacpiPages len)
    (hmapped : Mapped s.pmm.mem s'.pmm.mem s.currentCr3
      (mmapFlags (paToVa addr) (pagePresent ||| pageRw)) (paToVa addr) addr j)
    (hc : (GlueCall.map addr len).Keeps s) : DirectMapped s' := by
  intro p hp
  have hp' := hpage p hp
  have haligned := paToVa_aligned (h.aligned hp')
  rw [hroot]
  rcases hmapped (paToVa p) with ⟨hsame, -⟩ | ⟨i, hi, hpath, es, hes, hwalk⟩
  · have hbefore := h.direct p hp'
    unfold translate at hbefore ⊢
    rwa [hsame]
  · rw [translate_of_walk hes hwalk, leafEntry_mask (uacpiFlags_addr _),
      hc i (by omega) p hp' hpath, haligned]
    rfl

theorem map (h : GlueInv s held) (haddr : addr < 2 ^ 64) (len : Nat) :
    ∃ s' r, uacpiKernelMap s addr len = .ok (s', r) ∧
      ((GlueCall.map addr len).Keeps s → GlueInv s' ((GlueCall.map addr len).apply held r)) ∧
      (r ≠ 0 → len ≤ 2 ^ 48 → DirectMapped s' → (GlueCall.map addr len).Keeps s) := by
  obtain ⟨pages, hsub, hinv⟩ := h.tree
  obtain ⟨pmm, r, pages', j, hrun, hext, hj, hr, hmapped⟩ :=
    uacpiKernelMap_spec hinv h.leaves haddr len
  have hregion := uacpiKernelMap_region hinv.maxOrder_le hrun
  have hpage : ∀ p, DirectPage { s with pmm } p → DirectPage s p := fun p hp =>
    Extends.directPage { s with pmm } hinv hext rfl hregion hp
  refine ⟨_, r, hrun, fun hc => ?_, fun h0 hlen hdirect i hi p hp hpath => ?_⟩
  · have hdirect := h.direct_of_mapped { s with pmm } rfl hpage hj hmapped hc
    have hclear := h.clear.extends hinv hsub hext
    simp only [GlueCall.apply]
    by_cases h0 : r = 0
    · rw [if_pos h0]
      exact ⟨⟨pages', hsub.trans hext.grow, hext.inv⟩, hext.leaves h.leaves, hclear, h.ranged, hdirect⟩
    · rw [if_neg h0]
      exact ⟨⟨pages', hsub.trans hext.grow, hext.inv⟩, hext.leaves h.leaves, hclear,
        List.forall_mem_cons.mpr ⟨haddr, h.ranged⟩, hdirect⟩
  · obtain ⟨-, rfl⟩ := hr h0
    have hp' : DirectPage { s with pmm } p := by
      rcases hp with hp | hp
      · exact .inl (hp.congr hregion.symm)
      · exact .inr (hext.table hp)
    have haligned := paToVa_aligned (h.aligned hp)
    have hframe := hdirect p hp'
    rcases hmapped (paToVa p) with ⟨-, hno⟩ | ⟨i', hi', hpath', es, hes, hwalk⟩
    · exact absurd hpath (hno i hi)
    · have hn : uacpiPages len ≤ 2 ^ 36 := by
        rw [uacpiPages_eq (by omega)]
        omega
      obtain rfl := path_range_inj hn hi hi' (hpath.symm.trans hpath')
      rw [translate_of_walk hes hwalk, leafEntry_mask (uacpiFlags_addr _), haligned] at hframe
      exact Option.some.inj hframe

theorem unmap (h : GlueInv s held) (hv : (addr, len) ∈ held.maps) :
    uacpiKernelUnmap s (paToVa addr) len = .error .diverges ∨
    ∃ s', uacpiKernelUnmap s (paToVa addr) len = .ok s' ∧
      ((GlueCall.unmap addr len).Keeps s → GlueInv s' ((GlueCall.unmap addr len).apply held 0)) ∧
      (DirectMapped s' → (GlueCall.unmap addr len).Keeps s) := by
  obtain ⟨pages, hsub, hinv⟩ := h.tree
  obtain ⟨m, j, -, hrun, hext, hvis, -, hun⟩ :=
    munmap_spec hinv h.leaves (paToVa_lt (h.ranged _ hv)) (uacpiPages len)
  change uacpiKernelUnmap s (paToVa addr) len = _ at hrun
  by_cases hend : wrap64 (paToVa addr + j * 4096) < wrap64 (paToVa addr + uacpiPages len)
  · exact .inl (hrun.trans (if_pos hend))
  have hpage : ∀ p, DirectPage { s with pmm := { s.pmm with mem := m } } p → DirectPage s p :=
    fun p hp => Extends.directPage { s with pmm := { s.pmm with mem := m } } hinv hext rfl rfl hp
  refine .inr ⟨_, hrun.trans (if_neg hend), fun hc => ?_, fun hdirect i hvisit p hp hpath => ?_⟩
  · refine ⟨⟨pages, hsub, hext.inv⟩, hext.leaves h.leaves, h.clear.extends hinv hsub hext,
      fun a ha => ?_, fun p hp => ?_⟩
    · exact h.ranged a (List.mem_of_mem_erase ha)
    · have hbefore := h.direct p (hpage p hp)
      rcases hun (paToVa p) with ⟨hsame, -⟩ | ⟨⟨i, hi, hpath⟩, -⟩
      · unfold translate at hbefore ⊢
        rwa [hsame]
      · exact absurd hpath (hc i (hvis i hi) p (hpage p hp))
  · -- the loop has visited the page and left it without a translation
    have hlt : i < j := by
      by_contra hle
      exact hend (hvisit j (by omega))
    have hp' : DirectPage { s with pmm := { s.pmm with mem := m } } p := by
      rcases hp with hp | hp
      · exact .inl hp
      · exact .inr (hext.table hp)
    have hbyte := hdirect p hp'
    rcases hun (paToVa p) with ⟨-, hno⟩ | ⟨-, hnone⟩
    · exact hno i hlt hpath
    · unfold translate at hbyte
      rw [hnone] at hbyte
      cases hbyte

theorem alloc (h : GlueInv s held) (n : Nat) :
    ∃ s' p, s.alloc n = .ok (s', paToVa p) ∧ s'.currentCr3 = s.currentCr3 ∧ p < 2 ^ 47 ∧
      GlueInv s' { held with blocks := track held.blocks p (orderFor n) } ∧
      (p ≠ 0 → ∀ y, InBlock p (orderFor n) y → y < 2 ^ 47 ∧ SegPage s'.pmm (pageOf y)) := by
  obtain ⟨pages, hsub, hinv⟩ := h.tree
  obtain ⟨pmm, p, hrun, hlow, hinv', -, hfollow, hblock⟩ := hinv.alloc n
  obtain ⟨B, hB⟩ := hinv.spare.inv
  obtain ⟨pmm', p', hrun', hpages⟩ := alloc_pages hB n
  rw [hrun] at hrun'
  cases hrun'
  have hregion := ((alloc_inBounds hinv.maxOrder_le n).of_ok hrun).1
  obtain ⟨-, -, hwalk, hleaves⟩ :=
    hinv.tree.headers (fun a ha => hinv.not_inUse (hpages.free a ha)) hpages.touch
  have hnew : p ≠ 0 → ∀ y, InBlock p (orderFor n) y → y < 2 ^ 47 ∧ SegPage pmm (pageOf y) := by
    intro h0 y hy
    have hf := hpages.block h0 y hy
    have hpage := hinv.spare.low _ hf
    refine ⟨?_, (hinv.segPage hf).congr hregion.symm⟩
    unfold pageOf at hpage
    omega
  refine ⟨{ s with pmm }, p, ?_, rfl, hlow, ⟨⟨_, ?_, hinv'⟩, hleaves h.leaves, ?_, h.ranged, ?_⟩, hnew⟩
  · show (s.pmm.alloc n >>= _) = _
    rw [hrun, ok_bind]
  · simp only [track]
    split
    · exact hsub
    · exact Finset.insert_subset_insert _ hsub
  · apply BlocksClear.congr _ hfollow
    intro pk hpk
    simp only [track] at hpk
    split at hpk
    · exact h.clear pk hpk
    · rename_i h0
      rcases Finset.mem_insert.mp hpk with rfl | hpk
      · exact fun y hy =>
          ⟨fun hn => hblock _ (mem_newBlock.mpr ⟨h0, rfl⟩) y hy (.inl hn), (hnew h0 y hy).1⟩
      · exact h.clear pk hpk
  · exact h.direct_of_walks rfl hregion hfollow hwalk

theorem free (h : GlueInv s held) {p n : Nat} (hv : (vaToPa p, orderFor n) ∈ held.blocks) :
    ∃ s', s.free p n = .ok s' ∧
      GlueInv s' { held with blocks := held.blocks.erase (vaToPa p, orderFor n) } := by
  obtain ⟨pages, hsub, hinv⟩ := h.tree
  obtain ⟨pmm, hrun, hinv', hregion, hfollow, hwalk, hleaves⟩ := hinv.free (hsub hv) fun y hy => by
    refine ⟨?_, (h.clear _ hv y hy).2⟩
    rintro (hn | hv')
    · exact (h.clear _ hv y hy).1 hn
    · exact hv'
  refine ⟨{ s with pmm }, ?_, ⟨_, ?_, hinv'⟩, hleaves h.leaves, ?_, h.ranged, ?_⟩
  · show (s.pmm.free (vaToPa p) n >>= _) = _
    rw [hrun, ok_bind]
  · exact Finset.erase_subset_erase _ hsub
  · exact fun pk hpk => h.clear.congr hfollow pk (Finset.mem_of_mem_erase hpk)
  · exact h.direct_of_walks rfl hregion hfollow hwalk

/-- Writes of a block's owner. -/
theorem write (h : GlueInv s held) {m : Mem}
    (hm : ∀ a, m.word a ≠ s.pmm.mem.word a → ∃ pk ∈ held.blocks, InBlock pk.1 pk.2 a) :
    GlueInv { s with pmm := { s.pmm with mem := m } } held := by
  obtain ⟨pages, hsub, hinv⟩ := h.tree
  have hsame : ∀ a, IsTable s.pmm.mem s.currentCr3 (pageOf a) → m.word a = s.pmm.mem.word a := by
    intro a hn
    by_contra hne
    obtain ⟨pk, hpk, hy⟩ := hm a hne
    exact (h.clear pk hpk a hy).1 hn
  obtain ⟨hfollow, hinv'⟩ := hinv.write hsame fun a hne => by
    obtain ⟨pk, hpk, hy⟩ := hm a hne
    exact ⟨pk, hsub hpk, hy⟩
  obtain ⟨hwalk, hleaves⟩ := hinv.tree.frame_walks m hsame
  exact ⟨⟨pages, hsub, hinv'⟩, hleaves h.leaves, h.clear.congr hfollow, h.ranged,
    h.direct_of_walks rfl rfl hfollow hwalk⟩

/-- **One call.** -/
theorem step (h : GlueInv s held) {c : GlueCall} (hv : c.Valid held) :
    c.run s = .error .diverges ∨ ∃ s' r, c.run s = .ok (s', r) ∧
      (c.Keeps s → GlueInv s' (c.apply held r)) ∧ (c.Done r → DirectMapped s' → c.Keeps s) := by
  cases c with
  | map addr len =>
    obtain ⟨s', r, hrun, hkeeps, hexact⟩ := h.map hv.1 len
    exact .inr ⟨s', r, hrun, hkeeps, fun hd => hexact hd.1 hd.2⟩
  | unmap addr len =>
    rcases h.unmap hv with hrun | ⟨s', hrun, hkeeps, hexact⟩
    · refine .inl ?_
      simp only [GlueCall.run]
      rw [hrun, error_bind]
    · refine .inr ⟨s', 0, ?_, hkeeps, fun _ => hexact⟩
      simp only [GlueCall.run]
      rw [hrun, ok_bind]
  | alloc n =>
    obtain ⟨s', p, hrun, -, hlow, hinv, -⟩ := h.alloc n
    refine .inr ⟨s', paToVa p, hrun, fun _ => ?_, fun _ _ => trivial⟩
    simp only [GlueCall.apply]
    rw [vaToPa_paToVa hlow]
    exact hinv
  | free p n =>
    obtain ⟨s', hrun, hinv⟩ := h.free hv
    refine .inr ⟨s', 0, ?_, fun _ => hinv, fun _ _ => trivial⟩
    simp only [GlueCall.run]
    rw [hrun, ok_bind]

/-- The pointer that `alloc` returns leads to the block it stands for. -/
theorem alloc_pointer (h : GlueInv s held) (n : Nat) :
    ∃ s' p, s.alloc n = .ok (s', paToVa p) ∧ (p ≠ 0 → ∀ d < 2 ^ (orderFor n + 12),
      translate s'.pmm.mem s'.currentCr3 (paToVa p + d) = some (p + d)) := by
  obtain ⟨s', p, hrun, -, hlow, hinv, hblock⟩ := h.alloc n
  refine ⟨s', p, hrun, fun h0 d hd => ?_⟩
  obtain ⟨hlt, hpage⟩ := hblock h0 (p + d) ⟨by omega, by omega⟩
  have haligned : pageOf (p + d) % 4096 = 0 := by
    unfold pageOf
    omega
  have hbase := translate_add (d := (p + d) % 4096) (paToVa_aligned haligned) (by omega)
    (hinv.direct _ (.inl hpage))
  have hsplit : pageOf (p + d) + (p + d) % 4096 = p + d := by
    unfold pageOf
    omega
  rw [hsplit, paToVa_of_lt (by omega)] at hbase
  rw [paToVa_of_lt hlow, ← hbase]
  congr 1
  omega

/-- The pointer that `get_or_create_table` returns leads to the table. -/
theorem table_pointer (h : GlueInv s held) {q : List (Fin 512)} {t : Nat}
    (hq : follow s.pmm.mem s.currentCr3 q = some t) (hd : q.length < 3) (i : Fin 512) (flags : Nat) :
    ∃ pmm r, getOrCreateTable s.pmm (paToVa t) i flags = .ok (pmm, r) ∧
      (r = 0 ∨ ∃ c, r = paToVa c ∧ follow pmm.mem s.currentCr3 (q ++ [i]) = some c ∧
        translate pmm.mem s.currentCr3 r = some c) := by
  obtain ⟨pages, -, hinv⟩ := h.tree
  have hleaf : pageFormat.leaf q.length (entryOf s.pmm.mem t i) = false := by
    by_contra hleaf
    rw [Bool.not_eq_false] at hleaf
    have := h.leaves q t i hq hleaf
    omega
  obtain ⟨pmm, r, pages', hrun, hext, hwalk, -, -, hr⟩ := getOrCreateTable_spec hinv hq hd hleaf flags
  refine ⟨pmm, r, hrun, hr.imp id ?_⟩
  rintro ⟨c, rfl, hc⟩
  refine ⟨c, rfl, hc, ?_⟩
  rw [translate_of_walks hwalk]
  apply h.direct
  rcases hext.fresh c ⟨_, hc⟩ with hn | ⟨hf, -⟩
  · exact .inr hn
  · exact .inl (hinv.segPage hf)

end GlueInv

/-- Every run gets to such a state. -/
theorem GlueReach.inv {s0 s : Vmm} {blocks : Finset (Nat × Nat)} {held : GlueHeld}
    (h0 : GlueInv s0 ⟨[], blocks⟩) (h : GlueReach GlueCall.Keeps s0 blocks s held) :
    GlueInv s held := by
  induction h with
  | start => exact h0
  | call c _ hv hc hrun ih =>
    rcases ih.step hv with hdiv | ⟨s', r, hrun', hkeeps, -⟩
    · rw [hdiv] at hrun
      cases hrun
    · rw [hrun'] at hrun
      cases hrun
      exact hkeeps hc
  | write _ hm ih => exact ih.write hm

/-- **The direct map of the allocator's memory and of the page tables** stays through every run in
which each firmware call keeps it: the pointers of `alloc` and of `get_or_create_table` lead where
they should, and a further firmware call leaves the direct map intact only if it is such a call. -/
theorem direct_map_stays {s0 : Vmm} {pages blocks : Finset (Nat × Nat)}
    (htree : PageTree s0.pmm.mem s0.currentCr3)
    (hlarge : pageFormat.LeavesAt (entryOf s0.pmm.mem) 3 s0.currentCr3)
    (hspare : Spare s0.pmm pages (IsTable s0.pmm.mem s0.currentCr3)) (hsub : blocks ⊆ pages)
    (hclear : BlocksClear s0.pmm.mem s0.currentCr3 blocks) (hdirect : DirectMapped s0)
    {s : Vmm} {held : GlueHeld} (h : GlueReach GlueCall.Keeps s0 blocks s held) :
    DirectMapped s ∧
      (∀ n, ∃ s' p, s.alloc n = .ok (s', paToVa p) ∧ (p ≠ 0 → ∀ d < 2 ^ (orderFor n + 12),
        translate s'.pmm.mem s'.currentCr3 (paToVa p + d) = some (p + d))) ∧
      (∀ q t, follow s.pmm.mem s.currentCr3 q = some t → q.length < 3 → ∀ (i : Fin 512) flags,
        ∃ pmm r, getOrCreateTable s.pmm (paToVa t) i flags = .ok (pmm, r) ∧
          (r = 0 ∨ ∃ c, r = paToVa c ∧ follow pmm.mem s.currentCr3 (q ++ [i]) = some c ∧
            translate pmm.mem s.currentCr3 r = some c)) ∧
      ∀ c : GlueCall, c.Valid held →
        c.run s = .error .diverges ∨ ∃ s' r, c.run s = .ok (s', r) ∧
          (c.Keeps s → DirectMapped s') ∧ (c.Done r → DirectMapped s' → c.Keeps s) := by
  have h0 : GlueInv s0 ⟨[], blocks⟩ := by
    refine ⟨⟨pages, hsub, .of_spare htree hspare⟩, hlarge, hclear, ?_, hdirect⟩
    exact fun a ha => absurd ha List.not_mem_nil
  have hinv := h.inv h0
  refine ⟨hinv.direct, hinv.alloc_pointer, fun q t hq hd i flags => hinv.table_pointer hq hd i flags,
    fun c hv => ?_⟩
  rcases hinv.step hv with hdiv | ⟨s', r, hrun, hkeeps, hexact⟩
  · exact .inl hdiv
  · exact .inr ⟨s', r, hrun, fun hc => (hkeeps hc).direct, hexact⟩

/-! ## A machine with a direct map -/

/-- The root table and the segment are mapped where the direct map has them. -/
def bootDirect : Except Fault (Vmm × Nat) := do
  let (s, _) ← uacpiKernelMap bootVmm 0x1000 0x1000
  uacpiKernelMap s 0x100000 0x8000

theorem bootVmm_segPage {p : Nat} (h : SegPage bootPmm p) :
    0x100000 ≤ p ∧ p < 0x108000 ∧ p % 4096 = 0 := by
  obtain ⟨seg, hs, hlow, hhigh, ha⟩ := h
  obtain rfl := List.mem_singleton.mp hs
  exact ⟨hlow, hhigh, ha⟩

theorem bootVmm_table {n : Nat} (h : IsTable bootVmm.pmm.mem 0x1000 n) : n = 0x1000 := by
  obtain ⟨p, hp⟩ := h
  exact (follow_empty (boot_entry _) hp).2

theorem bootDirect_spec : ∃ s0 pages, bootDirect = .ok (s0, 0xFFFF800000100000) ∧
    PageTree s0.pmm.mem s0.currentCr3 ∧
    pageFormat.LeavesAt (entryOf s0.pmm.mem) 3 s0.currentCr3 ∧
    Spare s0.pmm pages (IsTable s0.pmm.mem s0.currentCr3) ∧ DirectMapped s0 ∧
    ∀ p, DirectPage s0 p → p % 4096 = 0 ∧ p < 2 ^ 47 := by
  have hinv0 : VmmInv bootVmm.pmm ∅ 0x1000 fun _ => False := .of_spare boot_tree.1 boot_spare
  obtain ⟨pmm1, r1, pages1, j1, hrun1, hext1, -, hr1, hmap1⟩ :=
    uacpiKernelMap_spec (s := bootVmm) hinv0 boot_tree.2 (by decide : 0x1000 < 2 ^ 64) 0x1000
  have hret1 : (uacpiKernelMap bootVmm 0x1000 0x1000).map Prod.snd = .ok 0xFFFF800000001000 := rfl
  rw [hrun1] at hret1
  obtain rfl : r1 = 0xFFFF800000001000 := Except.ok.inj hret1
  obtain ⟨pmm2, r2, pages2, j2, hrun2, hext2, -, hr2, hmap2⟩ :=
    uacpiKernelMap_spec (s := { bootVmm with pmm := pmm1 }) hext1.inv (hext1.leaves boot_tree.2)
      (by decide : 0x100000 < 2 ^ 64) 0x8000
  have hboot : bootDirect = .ok ({ bootVmm with pmm := pmm2 }, r2) := by
    unfold bootDirect
    rw [hrun1, ok_bind]
    exact hrun2
  have hret2 : bootDirect.map Prod.snd = .ok 0xFFFF800000100000 := rfl
  rw [hboot] at hret2
  obtain rfl : r2 = 0xFFFF800000100000 := Except.ok.inj hret2
  obtain rfl := (hr1 (by decide)).2
  obtain rfl := (hr2 (by decide)).2
  rw [mmapFlags_of_high (by decide)] at hmap1 hmap2
  have hregion1 := uacpiKernelMap_region hinv0.maxOrder_le hrun1
  have hregion2 := uacpiKernelMap_region hext1.inv.maxOrder_le hrun2
  have hseg : ∀ p, SegPage pmm1 p → translate pmm2.mem 0x1000 (paToVa p) = some p := by
    intro p hp
    obtain ⟨hlow, hhigh, -⟩ := bootVmm_segPage (hp.congr hregion1)
    have hbyte := hmap2.byte (by decide) (show p - 0x100000 < 0x8000 by omega)
      (by rw [uacpiPages_eq (by decide)]; omega)
    rw [paToVa_of_lt (by omega), Nat.add_right_comm, Nat.add_sub_cancel' hlow] at hbyte
    rw [paToVa_of_lt (by omega)]
    exact hbyte
  refine ⟨_, pages2, hboot, hext2.inv.tree, hext2.leaves (hext1.leaves boot_tree.2),
    hext2.inv.spare.mono fun a ha => .inl ha, fun p hp => ?_, fun p hp => ?_⟩
  · have hroot : translate pmm2.mem 0x1000 (paToVa 0x1000) = some 0x1000 := by
      have hbyte := hmap1.byte (by decide) (show 0 < 0x1000 by decide)
        (by rw [uacpiPages_eq (by decide)]; omega)
      rcases hmap2 (paToVa 0x1000) with ⟨hsame, -⟩ | ⟨i, hi, hpath, -⟩
      · unfold translate at hbyte ⊢
        exact (congrArg _ hsame).trans hbyte
      · rw [← Nat.add_zero (paToVa 0x1000), path_paToVa_iff (by decide)] at hpath
        · omega
        · have := lt_of_lt_uacpiPages hi
          omega
    rcases hp with hp | hp
    · exact hseg p (hp.congr hregion2)
    · rcases hext2.fresh p hp with hp | ⟨hf, -⟩
      · rcases hext1.fresh p hp with hp | ⟨hf, -⟩
        · rw [bootVmm_table hp]
          exact hroot
        · exact hseg p ((hinv0.segPage hf).congr hregion1.symm)
      · exact hseg p (hext1.inv.segPage hf)
  · rcases hp with hp | hp
    · have := bootVmm_segPage ((hp.congr hregion2).congr hregion1)
      omega
    · exact hext2.inv.tree.table p hp

/-- Below `2 ^ 47` a map sets nothing but each page's own frame. -/
theorem GlueCall.keeps_map_of_low {s : Vmm} {addr len : Nat} (hfit : addr + len ≤ 2 ^ 47)
    (hlow : ∀ p, DirectPage s p → p % 4096 = 0 ∧ p < 2 ^ 47) : (GlueCall.map addr len).Keeps s := by
  intro i hi p hp hpath
  obtain ⟨ha, hlt⟩ := hlow p hp
  have hin := lt_of_lt_uacpiPages hi
  rw [← Nat.add_zero (paToVa p), path_paToVa_iff (by omega) (by omega)] at hpath
  rw [wrap64_of_lt (by omega), and_pageAddrMask]
  omega

/-- A device is mapped and a block allocated beside the direct map. -/
theorem direct_map_stays_boot : ∃ s0 s held, bootDirect = .ok (s0, 0xFFFF800000100000) ∧
    GlueReach GlueCall.Keeps s0 ∅ s held ∧ held.maps = [(0x5000, 0x1000)] ∧
    held.blocks.card = 1 ∧ DirectMapped s := by
  obtain ⟨s0, pages, hboot, htree, hlarge, hspare, hdirect, hlow⟩ := bootDirect_spec
  have hrun : bootDirect = .ok (_, 0xFFFF800000100000) := rfl
  rw [hrun] at hboot
  cases hboot
  have h1 := @GlueReach.call GlueCall.Keeps _ ∅ _ _ _ _ (.map 0x5000 0x1000) .start
    ⟨by decide, by decide⟩ (GlueCall.keeps_map_of_low (by decide) hlow) rfl
  have h2 := h1.call (.alloc 0x1000) trivial trivial rfl
  refine ⟨_, _, _, hrun, h2, rfl, by decide, ?_⟩
  exact (direct_map_stays htree hlarge hspare (Finset.empty_subset _)
    (fun pk hpk => absurd hpk (Finset.notMem_empty _)) hdirect h2).1

/-- **The direct map is lost** at the first page of the segment, where firmware memory has been
mapped and unmapped. -/
theorem direct_map_lost : ∃ s0 pages, PageTree s0.pmm.mem s0.currentCr3 ∧
    pageFormat.LeavesAt (entryOf s0.pmm.mem) 3 s0.currentCr3 ∧
    Spare s0.pmm pages (IsTable s0.pmm.mem s0.currentCr3) ∧ DirectMapped s0 ∧
    ∃ s held, GlueReach (fun _ _ => True) s0 ∅ s held ∧ SegPage s.pmm 0x100000 ∧
      translate s.pmm.mem s.currentCr3 (paToVa 0x100000) = none ∧ ¬ DirectMapped s := by
  obtain ⟨s0, pages, hboot, htree, hlarge, hspare, hdirect, -⟩ := bootDirect_spec
  obtain ⟨s, held, h, hseg, hnone⟩ : ∃ s held, GlueReach (fun _ _ => True) s0 ∅ s held ∧
      SegPage s.pmm 0x100000 ∧ translate s.pmm.mem s.currentCr3 (paToVa 0x100000) = none := by
    have h0 : GlueReach (fun _ _ => True) s0 ∅ s0 ⟨[], ∅⟩ := .start
    have hrun : bootDirect = .ok (_, 0xFFFF800000100000) := rfl
    rw [hrun] at hboot
    cases hboot
    have h1 := h0.call (.map 0x100000 0x1000) ⟨by decide, by decide⟩ trivial rfl
    have h2 := h1.call (.unmap 0x100000 0x1000) (List.mem_cons_self ..) trivial rfl
    exact ⟨_, _, h2, ⟨_, List.mem_cons_self .., by decide, by decide, by decide⟩, by decide +kernel⟩
  refine ⟨s0, pages, htree, hlarge, hspare, hdirect, s, held, h, hseg, hnone, fun hd => ?_⟩
  rw [hd 0x100000 (.inl hseg)] at hnone
  cases hnone

end HelixKernel
