import HelixKernel.Mm.PmmBounds
import HelixKernel.Mm.PmmComplete
import HelixKernel.Mm.Vmm

/-!
# The heap's page provider (`kernel/src/extra/liballoc/liballoc_wrapper.cpp`)

`liballoc_alloc` is told a number of pages and hands it to `mm::vmm::alloc`, which
takes bytes.  `HeapReach memmap ok`: runs of `liballoc_alloc` and `liballoc_free`,
each allocation made where `ok` holds, with `out` the blocks the physical allocator
has reserved and `held` what the heap believes it has got.

    HeapOwned    every range the heap holds is inside a reserved block of its own,
                 and meets no free block

holds throughout the runs that ask for one page at a time and never run out of
memory (`heap_owned`), and the first other request ends it. -/

namespace HelixKernel

/-- `liballoc_alloc(npages)` -/
def liballocAlloc (s : Vmm) (npages : Nat) : Except Fault (Vmm × Nat) := s.alloc npages

/-- `liballoc_free(p, hint)` -/
def liballocFree (s : Vmm) (p hint : Nat) : Except Fault Vmm := s.free p hint

/-- Byte `y` is in the `npages` pages at `p`. -/
def InPages (p npages y : Nat) : Prop := p ≤ y ∧ y < p + npages * 4096

inductive HeapReach (memmap : List MemmapEntry) (ok : Vmm → Nat → Prop) :
    Vmm → Finset (Nat × Nat) → List (Nat × Nat) → Prop
  | start {s : Vmm} {out : Finset (Nat × Nat)} (h : Reach memmap s.pmm out) :
      HeapReach memmap ok s out []
  | alloc {s s' : Vmm} {out : Finset (Nat × Nat)} {held : List (Nat × Nat)} {npages p q : Nat}
      (hs : HeapReach memmap ok s out held) (hn : 1 ≤ npages ∧ npages < 2 ^ 31) (hok : ok s npages)
      (h : liballocAlloc s npages = .ok (s', p)) (hq : s.pmm.alloc npages = .ok (s'.pmm, q)) :
      HeapReach memmap ok s' (track out q (orderFor npages))
        (if p = 0 then held else (p, npages) :: held)
  | free {s s' : Vmm} {out : Finset (Nat × Nat)} {held : List (Nat × Nat)} {p npages : Nat}
      (hs : HeapReach memmap ok s out held) (hp : (p, npages) ∈ held)
      (h : liballocFree s p npages = .ok s') :
      HeapReach memmap ok s' (out.erase (vaToPa p, orderFor npages)) (held.erase (p, npages))
  | write {s : Vmm} {out : Finset (Nat × Nat)} {held : List (Nat × Nat)} {m : Mem}
      (hs : HeapReach memmap ok s out held)
      (h : ∀ a, m.word a ≠ s.pmm.mem.word a → ∃ pn ∈ held, InPages (vaToPa pn.1) pn.2 a) :
      HeapReach memmap ok { s with pmm := { s.pmm with mem := m } } out held

/-- The contract of `liballoc_alloc`. -/
structure HeapOwned (s : Vmm) (out : Finset (Nat × Nat)) (held : List (Nat × Nat)) : Prop where
  inside : ∀ pn ∈ held, ∃ k, (vaToPa pn.1, k) ∈ out ∧ pn.2 * 4096 ≤ 2 ^ (k + 12)
  apart : held.Pairwise fun pn qm =>
    ∀ y, ¬ (InPages (vaToPa pn.1) pn.2 y ∧ InPages (vaToPa qm.1) qm.2 y)
  free : ∀ pn ∈ held, ∀ seg ∈ s.pmm.segtab, ∀ k a, OnFreeList s.pmm seg k a →
    ∀ y, ¬ (InPages (vaToPa pn.1) pn.2 y ∧ InBlock a k y)

/-- One page is asked for, and some block is free. -/
def OnePage (s : Vmm) (npages : Nat) : Prop :=
  npages = 1 ∧ ∃ seg ∈ s.pmm.segtab, ∃ k a, OnFreeList s.pmm seg k a

/-! ## Sizes -/

theorem inPages_one {p y : Nat} : InPages p 1 y ↔ InBlock p 0 y := by
  unfold InPages InBlock
  omega

/-- More than one page of bytes asked for as bytes gives fewer pages. -/
theorem two_pow_orderFor_lt {n : Nat} (hn : 2 ≤ n) (hn' : n ≤ 2 ^ 64 - 4096) : 2 ^ orderFor n < n := by
  by_contra hge
  cases hk : orderFor n with
  | zero =>
    rw [hk] at hge
    omega
  | succ k =>
    have hlt : ¬ orderFor n ≤ k := by omega
    rw [orderFor_le_iff hn', Nat.pow_add] at hlt
    rw [hk, Nat.pow_succ] at hge
    omega

/-! ## The physical side -/

section

variable {memmap : List MemmapEntry} {s : Pmm} {out : Finset (Nat × Nat)}

/-- Segments lie inside the map. -/
theorem Reach.segment_le (hmm : WellFormedMap memmap) {top : Nat}
    (htop : ∀ r ∈ regions memmap, r.1 + r.2 ≤ top) (h : Reach memmap s out) :
    ∀ seg ∈ s.segtab, seg.basePtr + seg.size ≤ top := by
  intro seg hs
  have hin := List.mem_map_of_mem (f := PmmSegment.region) hs
  rw [(h.map_region hmm.regions_lt).1] at hin
  obtain ⟨bl, hbl, he⟩ := List.mem_map.mp hin
  have hbase : bl.1 = seg.basePtr := congrArg (fun r => r.1) he
  have hsize : bl.2 = seg.size := congrArg (fun r => r.2.1) he
  have := htop bl hbl
  omega

/-- Outstanding blocks are where the direct map reaches. -/
theorem Reach.out_lt (hmm : WellFormedMap memmap) (htop : ∀ r ∈ regions memmap, r.1 + r.2 ≤ 2 ^ 47)
    (h : Reach memmap s out) : ∀ pk ∈ out, pk.1 ≠ 0 ∧ pk.1 < 2 ^ 47 := by
  rintro ⟨p, k⟩ hpk
  obtain ⟨B, hB⟩ := h.inv hmm
  obtain ⟨seg, hs, b, hb, rfl, rfl⟩ := (hB.out_iff p k).mp hpk
  have hseg := hB.segs seg hs
  have := hseg.geom.addr_lt (hseg.within (.inr hb))
  have := h.segment_le hmm htop seg hs
  exact ⟨hseg.geom.addr_ne_zero b, by simp only; omega⟩

/-- `alloc` of one page fails exactly if nothing is free. -/
theorem alloc_ne_null_iff (hmm : WellFormedMap memmap) (h : Reach memmap s out) {n : Nat}
    (hn : orderFor n = 0) {s' : Pmm} {p : Nat} (hrun : s.alloc n = .ok (s', p)) :
    p ≠ 0 ↔ ∃ seg ∈ s.segtab, ∃ k a, OnFreeList s seg k a := by
  obtain ⟨B, hB⟩ := h.inv hmm
  obtain ⟨s'', p', hrun', hcase⟩ := alloc_spec hB n
  rw [hrun] at hrun'
  obtain ⟨rfl, rfl⟩ := Prod.mk.inj (Except.ok.inj hrun')
  constructor
  · intro hp
    cases hcase with
    | fail _ => exact absurd rfl hp
    | @found l1 l2 seg seg' mem' S' r htab _ hfrom =>
      have hs : seg ∈ s.segtab := by simp [htab]
      obtain ⟨f, hf, -⟩ := (hB.exists_candidate_iff hs _).mp ⟨_, hB.candidate_alloc hs hfrom⟩
      exact ⟨seg, hs, f.order, _, (hB.onFreeList_iff hs _ _).mpr ⟨f, hf, rfl, rfl⟩⟩
  · rintro ⟨seg, hs, k, a, hon⟩ hp
    obtain ⟨-, hsmall⟩ := hcase.null hB hp
    obtain ⟨b, hb, -, -⟩ := (hB.onFreeList_iff hs k a).mp hon
    have := hsmall seg hs b hb
    omega

end

/-! ## The heap's runs -/

variable {memmap : List MemmapEntry} {s : Vmm} {out : Finset (Nat × Nat)} {held : List (Nat × Nat)}

/-- The invariant: one page behind every pointer held, and no page behind two. -/
structure HeapInv (memmap : List MemmapEntry) (s : Vmm) (out : Finset (Nat × Nat))
    (held : List (Nat × Nat)) : Prop where
  reach : Reach memmap s.pmm out
  one : ∀ pn ∈ held, pn.2 = 1 ∧ (vaToPa pn.1, 0) ∈ out
  apart : held.Pairwise fun pn qm => vaToPa pn.1 ≠ vaToPa qm.1

namespace HeapInv

theorem owned (hmm : WellFormedMap memmap) (h : HeapInv memmap s out held) : HeapOwned s out held := by
  obtain ⟨B, hB⟩ := h.reach.inv hmm
  have hsafe := safe_of_inv hB
  constructor
  · intro pn hpn
    obtain ⟨hone, hout⟩ := h.one pn hpn
    refine ⟨0, hout, ?_⟩
    rw [hone]
    decide
  · refine h.apart.imp_of_mem fun {pn qm} hpn hqm hne y hy => hne ?_
    obtain ⟨hp, hpo⟩ := h.one pn hpn
    obtain ⟨hq, hqo⟩ := h.one qm hqm
    rw [hp, hq, inPages_one, inPages_one] at hy
    exact congrArg Prod.fst (hsafe.outOut _ hpo _ hqo ⟨y, hy⟩)
  · intro pn hpn seg hs k a hon y hy
    obtain ⟨hp, hpo⟩ := h.one pn hpn
    rw [hp, inPages_one] at hy
    exact hsafe.freeOut seg hs a k hon _ hpo ⟨y, hy.2, hy.1⟩

/-- The next page. -/
theorem cons (hmm : WellFormedMap memmap) (h : HeapInv memmap s out held) {pmm : Pmm} {q : Nat}
    (hrun : s.pmm.alloc 1 = .ok (pmm, q)) (hq : q ≠ 0) (hlt : q < 2 ^ 47) :
    HeapInv memmap { s with pmm } (insert (q, 0) out) ((paToVa q, 1) :: held) := by
  have hreach := h.reach.alloc hrun
  rw [track, if_neg hq, show orderFor 1 = 0 from rfl] at hreach
  refine ⟨hreach, ?_, List.pairwise_cons.mpr ⟨fun pn hpn heq => ?_, h.apart⟩⟩
  · intro pn hpn
    rcases List.mem_cons.mp hpn with rfl | hpn
    · exact ⟨rfl, by rw [vaToPa_paToVa hlt]; exact Finset.mem_insert_self _ _⟩
    · obtain ⟨hone, hout⟩ := h.one pn hpn
      exact ⟨hone, Finset.mem_insert_of_mem hout⟩
  · obtain ⟨B, hB⟩ := h.reach.inv hmm
    obtain ⟨s', p', hrun', hcase⟩ := alloc_spec hB 1
    rw [hrun] at hrun'
    cases hrun'
    rw [vaToPa_paToVa hlt] at heq
    refine hcase.fresh hB hq _ (h.one pn hpn).2 ⟨q, inBlock_self _ _, ?_⟩
    rw [heq]
    exact inBlock_self _ _

theorem erase (h : HeapInv memmap s out held) {pmm : Pmm} {p n : Nat} (hp : (p, n) ∈ held)
    (hrun : s.pmm.free (vaToPa p) n = .ok pmm) :
    HeapInv memmap { s with pmm } (out.erase (vaToPa p, orderFor n)) (held.erase (p, n)) := by
  obtain ⟨rfl, hout⟩ := h.one _ hp
  have hperm := List.perm_cons_erase hp
  have hap := (hperm.pairwise_iff fun {x y} hxy => Ne.symm hxy).mp h.apart
  obtain ⟨hne, hap⟩ := List.pairwise_cons.mp hap
  refine ⟨h.reach.free hout trivial hrun, fun qm hqm => ?_, hap⟩
  obtain ⟨hone, hqo⟩ := h.one qm (List.mem_of_mem_erase hqm)
  refine ⟨hone, Finset.mem_erase.mpr ⟨fun heq => hne qm hqm ?_, hqo⟩⟩
  exact (congrArg Prod.fst heq).symm

theorem write (h : HeapInv memmap s out held) {m : Mem}
    (hm : ∀ a, m.word a ≠ s.pmm.mem.word a → ∃ pn ∈ held, InPages (vaToPa pn.1) pn.2 a) :
    HeapInv memmap { s with pmm := { s.pmm with mem := m } } out held := by
  refine ⟨h.reach.write fun a ha => .inl ?_, h.one, h.apart⟩
  obtain ⟨pn, hpn, hy⟩ := hm a ha
  obtain ⟨hone, hout⟩ := h.one pn hpn
  rw [hone, inPages_one] at hy
  exact ⟨_, hout, hy⟩

end HeapInv

/-- `liballoc_alloc` is `pmm::alloc`, seen through the direct map. -/
theorem liballocAlloc_ok {s' : Vmm} {n p : Nat} :
    liballocAlloc s n = .ok (s', p) ↔
      ∃ pmm q, s.pmm.alloc n = .ok (pmm, q) ∧ s' = { s with pmm } ∧ p = paToVa q := by
  unfold liballocAlloc Vmm.alloc
  cases s.pmm.alloc n with
  | error e =>
    constructor
    · intro h
      cases h
    · rintro ⟨pmm, q, h, -⟩
      cases h
  | ok r =>
    constructor
    · intro h
      cases h
      exact ⟨r.1, r.2, rfl, rfl, rfl⟩
    · rintro ⟨pmm, q, h, rfl, rfl⟩
      cases h
      rfl

theorem liballocFree_ok {s' : Vmm} {p n : Nat} :
    liballocFree s p n = .ok s' ↔ ∃ pmm, s.pmm.free (vaToPa p) n = .ok pmm ∧ s' = { s with pmm } := by
  unfold liballocFree Vmm.free
  cases s.pmm.free (vaToPa p) n with
  | error e =>
    constructor
    · intro h
      cases h
    · rintro ⟨pmm, h, -⟩
      cases h
  | ok r =>
    constructor
    · intro h
      cases h
      exact ⟨r, rfl, rfl⟩
    · rintro ⟨pmm, h, rfl⟩
      cases h
      rfl

/-- An `alloc` of the heap that asks for one page while there is one. -/
theorem HeapInv.alloc (hmm : WellFormedMap memmap)
    (htop : ∀ r ∈ regions memmap, r.1 + r.2 ≤ 2 ^ 47) (h : HeapInv memmap s out held) {n q : Nat}
    {pmm : Pmm} (hok : OnePage s n) (hrun : s.pmm.alloc n = .ok (pmm, q)) :
    HeapInv memmap { s with pmm } (track out q (orderFor n)) ((paToVa q, n) :: held) := by
  obtain ⟨rfl, hfree⟩ := hok
  have hq := (alloc_ne_null_iff hmm h.reach rfl hrun).mpr hfree
  have hin : (q, orderFor 1) ∈ track out q (orderFor 1) := by
    rw [track, if_neg hq]
    exact Finset.mem_insert_self _ _
  rw [track, if_neg hq]
  have hreach : Reach memmap _ _ := h.reach.alloc hrun
  exact h.cons hmm hrun hq (hreach.out_lt hmm htop _ hin).2

theorem HeapReach.inv (hmm : WellFormedMap memmap)
    (htop : ∀ r ∈ regions memmap, r.1 + r.2 ≤ 2 ^ 47) (h : HeapReach memmap OnePage s out held) :
    HeapInv memmap s out held := by
  induction h with
  | start h => exact ⟨h, by simp, List.Pairwise.nil⟩
  | @alloc s s' out held npages p q _ _ hok h hq ih =>
    obtain ⟨pmm, q', hrun, rfl, rfl⟩ := liballocAlloc_ok.mp h
    rw [hrun] at hq
    cases hq
    have hinv := ih.alloc hmm htop hok hrun
    have hlow := hinv.reach.out_lt hmm htop _ (hinv.one _ (List.mem_cons_self ..)).2
    rw [if_neg]
    · exact hinv
    · intro hz
      rw [hz] at hlow
      exact hlow.1 rfl
  | free _ hp h ih =>
    obtain ⟨pmm, hrun, rfl⟩ := liballocFree_ok.mp h
    exact ih.erase hp hrun
  | write _ h ih => exact ih.write h

/-- **The heap owns what it holds, as long as it asks for single pages and gets them**; one
request of another size, or one when nothing is free, and it does not. -/
theorem heap_owned (hmm : WellFormedMap memmap) (htop : ∀ r ∈ regions memmap, r.1 + r.2 ≤ 2 ^ 47)
    (h : HeapReach memmap OnePage s out held) :
    HeapOwned s out held ∧
    ∀ npages, 1 ≤ npages → npages < 2 ^ 31 → ∃ s' p q,
      liballocAlloc s npages = .ok (s', p) ∧ s.pmm.alloc npages = .ok (s'.pmm, q) ∧ p ≠ 0 ∧
      (HeapOwned s' (track out q (orderFor npages)) ((p, npages) :: held) ↔ OnePage s npages) := by
  have hinv := h.inv hmm htop
  refine ⟨hinv.owned hmm, fun n hn hn' => ?_⟩
  obtain ⟨B, hB⟩ := hinv.reach.inv hmm
  obtain ⟨pmm, q, hrun, -⟩ := alloc_spec hB n
  have hreach : Reach memmap pmm _ := hinv.reach.alloc hrun
  have hin : q ≠ 0 → (q, orderFor n) ∈ track out q (orderFor n) := by
    intro hq
    rw [track, if_neg hq]
    exact Finset.mem_insert_self _ _
  have hlt : q < 2 ^ 47 := by
    by_cases hq : q = 0
    · rw [hq]
      decide
    · exact (hreach.out_lt hmm htop _ (hin hq)).2
  refine ⟨_, _, q, liballocAlloc_ok.mpr ⟨pmm, q, hrun, rfl, rfl⟩, hrun, paToVa_ne_zero hlt, ?_⟩
  constructor
  · intro hown
    obtain ⟨k, hk, hsize⟩ := hown.inside _ (List.mem_cons_self ..)
    simp only [vaToPa_paToVa hlt] at hk hsize
    have hq : q ≠ 0 := (hreach.out_lt hmm htop _ hk).1
    -- the block behind `p` is the one `alloc` returned
    obtain ⟨B', hB'⟩ := hreach.inv hmm
    have heq := (safe_of_inv hB').outOut _ hk _ (hin hq) ⟨q, inBlock_self _ _, inBlock_self _ _⟩
    have hke : k = orderFor n := congrArg Prod.snd heq
    have hone : n = 1 := by
      by_contra hne
      have := two_pow_orderFor_lt (n := n) (by omega) (by omega)
      rw [hke, Nat.pow_add] at hsize
      omega
    subst hone
    exact ⟨rfl, (alloc_ne_null_iff hmm hinv.reach rfl hrun).mp hq⟩
  · exact fun hok => (hinv.alloc hmm htop hok hrun).owned hmm

/-- On two pages, one page is asked for and got, and then the other one. -/
theorem heap_owned_twoPages : ∃ s,
    HeapReach twoPages OnePage s {(0x101000, 0), (0x100000, 0)}
      [(0xFFFF800000101000, 1), (0xFFFF800000100000, 1)] ∧
    HeapOwned s {(0x101000, 0), (0x100000, 0)} [(0xFFFF800000101000, 1), (0xFFFF800000100000, 1)] := by
  have r0 := @ReachWith.initialise twoPages (fun _ _ _ => True) zeroMem _ rfl
  have h0 := @HeapReach.start twoPages OnePage ⟨_, 0, 0⟩ _ r0
  have h1 := h0.alloc (by decide : 1 ≤ 1 ∧ 1 < 2 ^ 31)
    ⟨rfl, _, List.mem_cons_self .., 1, _, by decide, .head (by decide)⟩ rfl rfl
  have h2 := h1.alloc (by decide : 1 ≤ 1 ∧ 1 < 2 ^ 31)
    ⟨rfl, _, List.mem_cons_self .., 0, _, by decide, .head (by decide)⟩ rfl rfl
  exact ⟨_, h2, (heap_owned twoPages_wellFormed (by decide) h2).1⟩

/-- Two pages and then one: the second arena lies in the first. -/
theorem liballoc_arenas_overlap : ∃ s out,
    HeapReach twoPages (fun _ _ => True) s out [(0xFFFF800000101000, 1), (0xFFFF800000100000, 2)] ∧
    ∃ y, InPages (vaToPa 0xFFFF800000101000) 1 y ∧ InPages (vaToPa 0xFFFF800000100000) 2 y := by
  have r0 := @ReachWith.initialise twoPages (fun _ _ _ => True) zeroMem _ rfl
  have h0 := @HeapReach.start twoPages (fun _ _ => True) ⟨_, 0, 0⟩ _ r0
  have h1 := h0.alloc (by decide : 1 ≤ 2 ∧ 2 < 2 ^ 31) trivial rfl rfl
  have h2 := h1.alloc (by decide : 1 ≤ 1 ∧ 1 < 2 ^ 31) trivial rfl rfl
  exact ⟨_, _, h2, 0x101000, by unfold InPages; decide, by unfold InPages; decide⟩

end HelixKernel
