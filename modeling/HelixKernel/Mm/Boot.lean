import HelixKernel.Mm.PmmBounds
import HelixKernel.Mm.VmmMap

/-!
# From `pmm::initialise` to ACPI

Until `uacpi_initialize` has finished, memory still holds what the bootloader left:
the tables behind the CR3 that `vmm::initialise` adopts, and the pages `V` of the
memory map and of the ACPI tables.  `BootReach memmap m0 cr3 s blocks`: runs of the
calls made in that time, from memory `m0`, with `blocks` the blocks handed out.

    boot_careful          where `initialise` takes over none of these pages, no step of
                          any call of any run touches them
    boot_overwrites_root  the root table in bootloader-reclaimable memory: a header goes
                          into it, and then `alloc` hands it out -/

namespace HelixKernel

/-- The pages taken over: the first `2 ^ max_order` of each region. -/
def Managed (memmap : List MemmapEntry) (a : Nat) : Prop :=
  ∃ bl ∈ regions memmap, ∃ x < 2 ^ (newSegment bl.1 bl.2).maxOrder, a = bl.1 + x * 4096

inductive BootCall where
  | pmmAlloc (n : Nat)
  | vmmAlloc (n : Nat)
  | mmap (paddr vaddr n flags : Nat)

namespace BootCall

def run (s : Vmm) : BootCall → Except Fault (Vmm × Nat)
  | pmmAlloc n => do
    let (pmm, p) ← s.pmm.alloc n
    .ok ({ s with pmm }, p)
  | vmmAlloc n => s.alloc n
  | mmap paddr vaddr n flags => s.mmap paddr vaddr n flags

/-- The block handed out by a call that returns `r`. -/
def block : BootCall → Nat → List (Nat × Nat)
  | pmmAlloc n, r => newBlock r n
  | vmmAlloc n, r => newBlock (vaToPa r) n
  | mmap .., _ => []

/-- What the call does, in the order in which it does it. -/
def steps (s : Vmm) : BootCall → List MemStep
  | pmmAlloc n | vmmAlloc n => stepsAfter (s.pmm.alloc n) fun (_, p) => [.alloc n p]
  | mmap paddr vaddr n flags => s.mmapSteps paddr vaddr n flags

/-- An `mmap` meets no large page. -/
def Ok (s : Vmm) : BootCall → Prop
  | mmap paddr vaddr n _ =>
    paddr < 2 ^ 64 ∧ ∀ i < n, NotLarge s.pmm.mem s.currentCr3 (vaddr + i * 4096)
  | _ => True

end BootCall

/-- Runs of the calls; in between, whoever got a block may write to it. -/
inductive BootReach (memmap : List MemmapEntry) (m0 : Mem) (cr3 : Nat) :
    Vmm → List (Nat × Nat) → Prop
  | initialise {pmm : Pmm} (h : Pmm.initialise m0 memmap = .ok pmm) :
      BootReach memmap m0 cr3 (Vmm.initialise pmm cr3) []
  | call {s s' : Vmm} {blocks : List (Nat × Nat)} {r : Nat} (c : BootCall)
      (hs : BootReach memmap m0 cr3 s blocks) (hok : c.Ok s) (h : c.run s = .ok (s', r)) :
      BootReach memmap m0 cr3 s' (c.block r ++ blocks)
  | write {s : Vmm} {blocks : List (Nat × Nat)} {m : Mem} (hs : BootReach memmap m0 cr3 s blocks)
      (h : ∀ a, m.word a ≠ s.pmm.mem.word a → ∃ pk ∈ blocks, InBlock pk.1 pk.2 a) :
      BootReach memmap m0 cr3 { s with pmm := { s.pmm with mem := m } } blocks

/-! ## Stores elsewhere -/

section

variable {m m' : Mem} {root : Nat} {V : Nat → Prop}

/-- **Stores of the owners.**  They leave the tables alone and go to outstanding blocks. -/
theorem VmmInv.write {s : Pmm} {out : Finset (Nat × Nat)} {V : Nat → Prop} (h : VmmInv s out root V)
    {m : Mem} (hsame : ∀ a, IsTable s.mem root (pageOf a) → m.word a = s.mem.word a)
    (hm : ∀ a, m.word a ≠ s.mem.word a → ∃ pk ∈ out, InBlock pk.1 pk.2 a) :
    (∀ p, follow m root p = follow s.mem root p) ∧ VmmInv { s with mem := m } out root V := by
  obtain ⟨hfollow, htree⟩ := h.tree.frame m hsame
  refine ⟨hfollow, htree, (h.spare.mono ?_).write fun a hne hf => ?_⟩
  · rintro a (⟨p, hp⟩ | hv)
    · exact .inl ⟨p, (hfollow p).symm.trans hp⟩
    · exact .inr hv
  · obtain ⟨pk, hpk, hy⟩ := hm a hne
    apply h.spare.not_free hpk hy
    rwa [pageOf_of_aligned (h.spare.aligned hf)]

end

/-! ## `alloc` -/

section

variable {s s' : Pmm} {out : Finset (Nat × Nat)} {root : Nat} {V : Nat → Prop}

/-- **`alloc` beside a page-table tree** keeps the tree, and its block is no table's. -/
theorem VmmInv.alloc (h : VmmInv s out root V) (n : Nat) :
    ∃ s' p, s.alloc n = .ok (s', p) ∧ p < 2 ^ 47 ∧ VmmInv s' (track out p (orderFor n)) root V ∧
      Careful root V s (.alloc n p) s' ∧ (∀ q, follow s'.mem root q = follow s.mem root q) ∧
      BlocksApart s.mem root V (newBlock p n) := by
  obtain ⟨B, hB⟩ := h.spare.inv
  obtain ⟨s', p, hrun, hp⟩ := alloc_pages hB n
  obtain ⟨hcareful, hfollow, htree⟩ := hp.careful h
  refine ⟨s', p, hrun, ?_, ⟨htree, hp.inv, ?_, ?_⟩, hcareful, hfollow, hcareful.2⟩
  · by_cases h0 : p = 0
    · omega
    · exact h.spare.low p (hp.page h0)
  · intro a ha
    have hno := h.not_inUse (hp.free a ha)
    rw [← inUse_congr hfollow, InUse, pageOf_of_aligned (h.spare.aligned (hp.free a ha))] at hno
    exact hno
  · intro a ha
    exact h.spare.low a (hp.free a ha)

end

/-! ## Runs -/

/-- Where a run has got to. -/
structure BootInv (cr3 : Nat) (V : Nat → Prop) (s : Vmm) (blocks : List (Nat × Nat)) : Prop where
  root : s.currentCr3 = cr3 ∧ s.kernelCr3 = cr3
  inv : ∃ out, (∀ pk ∈ blocks, pk ∈ out) ∧ VmmInv s.pmm out cr3 V
  apart : BlocksApart s.pmm.mem cr3 V blocks

variable {memmap : List MemmapEntry} {m0 : Mem} {cr3 : Nat} {V : Nat → Prop} {s : Vmm}
  {blocks : List (Nat × Nat)}

/-- `initialise` writes its headers into pages it takes over. -/
theorem initialise_careful (hmm : WellFormedMap memmap) (htop : ∀ r ∈ regions memmap, r.1 + r.2 ≤ 2 ^ 47)
    (htree : PageTree m0 cr3) (hmiss : ∀ a, Managed memmap a → ¬ InUse m0 cr3 V a) :
    ∃ pmm, Pmm.initialise m0 memmap = .ok pmm ∧ m0.Touch (HeaderApart m0 cr3 V) pmm.mem ∧
      BootInv cr3 V (Vmm.initialise pmm cr3) [] := by
  obtain ⟨pmm, B, hrun, hB, -, -, htouch⟩ := initialise_spec hmm m0
  have hmap := (initialise_inBounds hmm.regions_lt m0).of_ok hrun
  have hregion : ∀ seg ∈ pmm.segtab, ∃ bl ∈ regions memmap,
      bl.1 = seg.basePtr ∧ bl.2 = seg.size ∧ (newSegment bl.1 bl.2).maxOrder = seg.maxOrder := by
    intro seg hs
    have hin := List.mem_map_of_mem (f := PmmSegment.region) hs
    rw [hmap] at hin
    obtain ⟨bl, hbl, he⟩ := List.mem_map.mp hin
    exact ⟨bl, hbl, congrArg (fun r => r.1) he, congrArg (fun r => r.2.1) he,
      congrArg (fun r => r.2.2) he⟩
  have hfree : ∀ a, FreePage pmm.segtab ∅ a → Managed memmap a ∧ a < 2 ^ 47 := by
    rintro a ⟨seg, hs, x, hx, rfl, -⟩
    obtain ⟨bl, hbl, hbase, hsize, hM⟩ := hregion seg hs
    have hend := htop bl hbl
    have hfits := (hB.segs seg hs).geom.fits
    refine ⟨⟨bl, hbl, x, ?_, ?_⟩, ?_⟩
    · rwa [hM]
    · rw [hbase]
    · have : x * 4096 < 2 ^ seg.maxOrder * 4096 := by omega
      omega
  have hheaders : m0.Touch (HeaderApart m0 cr3 V) pmm.mem := htouch.mono fun w a hw => by
    obtain ⟨hw, ha⟩ := (hB.headers_iff w a).mp hw
    exact ⟨hw, hmiss a (hfree a ha).1⟩
  obtain ⟨hfollow, htree'⟩ := htree.frame pmm.mem fun a hn =>
    hheaders.same a fun w hw => hw.2 (.inl hn)
  refine ⟨pmm, hrun, hheaders, ⟨rfl, rfl⟩,
    ⟨∅, ?_, htree', ⟨B, hB⟩, fun a ha => ?_, fun a ha => (hfree a ha).2⟩, ?_⟩
  · simp
  · have hno := hmiss a (hfree a ha).1
    rw [← inUse_congr hfollow, InUse, pageOf_of_aligned (ha.aligned hB)] at hno
    exact hno
  · intro pk hpk
    simp at hpk

namespace BootInv

theorem alloc (h : BootInv cr3 V s blocks) (n : Nat) :
    ∃ pmm p, s.pmm.alloc n = .ok (pmm, p) ∧ p < 2 ^ 47 ∧
      Does (Careful cr3 V) s.pmm (stepsAfter (s.pmm.alloc n) fun (_, p) => [.alloc n p]) pmm ∧
      BlocksApart s.pmm.mem cr3 V (newBlock p n) ∧
      BootInv cr3 V { s with pmm } (newBlock p n ++ blocks) := by
  obtain ⟨out, hout, hinv⟩ := h.inv
  obtain ⟨pmm, p, hrun, hlow, hinv', hcareful, hfollow, hnew⟩ := hinv.alloc n
  refine ⟨pmm, p, hrun, hlow, ?_, hnew, h.root, ⟨_, ?_, hinv'⟩, ?_⟩
  · rw [hrun, stepsAfter_ok]
    exact .single hrun hcareful
  · intro pk hpk
    rcases List.mem_append.mp hpk with hpk | hpk
    · obtain ⟨h0, rfl⟩ := mem_newBlock.mp hpk
      rw [track, if_neg h0]
      exact Finset.mem_insert_self _ _
    · unfold track
      split
      · exact hout pk hpk
      · exact Finset.mem_insert_of_mem (hout pk hpk)
  · intro pk hpk y hy
    rw [inUse_congr hfollow]
    rcases List.mem_append.mp hpk with hpk | hpk
    · exact hnew pk hpk y hy
    · exact h.apart pk hpk y hy

theorem mmap (h : BootInv cr3 V s blocks) {paddr vaddr n flags : Nat}
    (hok : (BootCall.mmap paddr vaddr n flags).Ok s) :
    ∃ s' r, s.mmap paddr vaddr n flags = .ok (s', r) ∧
      Does (Careful cr3 V) s.pmm (s.mmapSteps paddr vaddr n flags) s'.pmm ∧ BootInv cr3 V s' blocks := by
  obtain ⟨out, hout, hinv⟩ := h.inv
  have hlarge : ∀ i < n, NotLarge s.pmm.mem cr3 (vaddr + i * 4096) := by
    rw [← h.root.1]
    exact hok.2
  obtain ⟨pmm, done, out', j, hrun, hext, -⟩ :=
    mmapLoop_rounds (mmapFlags vaddr flags) n s.pmm out vaddr paddr hinv hok.1 fun i hi _ => hlarge i hi
  refine ⟨{ s with pmm }, if done then vaddr else 0, ?_, ?_, h.root, ⟨out', ?_, hext.inv⟩, ?_⟩
  · unfold Vmm.mmap
    rw [h.root.1, hrun, ok_bind]
  · unfold Vmm.mmapSteps
    rw [h.root.1]
    exact hext.steps
  · intro pk hpk
    exact hext.grow (hout pk hpk)
  · intro pk hpk y hy
    rintro (hn | hv)
    · rcases hext.fresh _ hn with hn | ⟨hf, -⟩
      · exact h.apart pk hpk y hy (.inl hn)
      · exact hinv.spare.not_free (hout pk hpk) hy hf
    · exact h.apart pk hpk y hy (.inr hv)

/-- **One call.** -/
theorem call (h : BootInv cr3 V s blocks) (c : BootCall) (hok : c.Ok s) :
    ∃ s' r, c.run s = .ok (s', r) ∧ Does (Careful cr3 V) s.pmm (c.steps s) s'.pmm ∧
      BlocksApart s.pmm.mem cr3 V (c.block r) ∧ BootInv cr3 V s' (c.block r ++ blocks) := by
  cases c with
  | pmmAlloc n =>
    obtain ⟨pmm, p, hrun, -, hsteps, hnew, hinv⟩ := h.alloc n
    refine ⟨{ s with pmm }, p, ?_, hsteps, hnew, hinv⟩
    show (s.pmm.alloc n >>= _) = _
    rw [hrun, ok_bind]
  | vmmAlloc n =>
    obtain ⟨pmm, p, hrun, hlow, hsteps, hnew, hinv⟩ := h.alloc n
    refine ⟨{ s with pmm }, paToVa p, ?_, hsteps, ?_⟩
    · show (s.pmm.alloc n >>= _) = _
      rw [hrun, ok_bind]
    · have hblock : (BootCall.vmmAlloc n).block (paToVa p) = newBlock p n := by
        show newBlock (vaToPa (paToVa p)) n = _
        rw [vaToPa_paToVa hlow]
      rw [hblock]
      exact ⟨hnew, hinv⟩
  | mmap paddr vaddr n flags =>
    obtain ⟨s', r, hrun, hsteps, hinv⟩ := h.mmap hok
    refine ⟨s', r, hrun, hsteps, ?_, hinv⟩
    intro pk hpk
    cases hpk

/-- Writes of a block's owner. -/
theorem write (h : BootInv cr3 V s blocks) {m : Mem}
    (hm : ∀ a, m.word a ≠ s.pmm.mem.word a → ∃ pk ∈ blocks, InBlock pk.1 pk.2 a) :
    BootInv cr3 V { s with pmm := { s.pmm with mem := m } } blocks := by
  obtain ⟨out, hout, hinv⟩ := h.inv
  have hsame : ∀ a, IsTable s.pmm.mem cr3 (pageOf a) → m.word a = s.pmm.mem.word a := by
    intro a hn
    by_contra hne
    obtain ⟨pk, hpk, hy⟩ := hm a hne
    exact h.apart pk hpk a hy (.inl hn)
  obtain ⟨hfollow, hinv'⟩ := hinv.write hsame fun a hne => by
    obtain ⟨pk, hpk, hy⟩ := hm a hne
    exact ⟨pk, hout pk hpk, hy⟩
  refine ⟨h.root, ⟨out, hout, hinv'⟩, ?_⟩
  intro pk hpk y hy
  rw [inUse_congr hfollow]
  exact h.apart pk hpk y hy

end BootInv

/-- Every run gets to such a state. -/
theorem BootReach.inv (hmm : WellFormedMap memmap) (htop : ∀ r ∈ regions memmap, r.1 + r.2 ≤ 2 ^ 47)
    (htree : PageTree m0 cr3) (hmiss : ∀ a, Managed memmap a → ¬ InUse m0 cr3 V a)
    (h : BootReach memmap m0 cr3 s blocks) : BootInv cr3 V s blocks := by
  induction h with
  | initialise h =>
    obtain ⟨pmm, hrun, -, hinv⟩ := initialise_careful hmm htop htree hmiss
    rw [hrun] at h
    cases h
    exact hinv
  | call c _ hok h ih =>
    obtain ⟨s', r, hrun, -, -, hinv⟩ := ih.call c hok
    rw [hrun] at h
    cases h
    exact hinv
  | write _ h ih => exact ih.write h

/-- **What is in use is left alone** through every run, if `initialise` takes over none of it:
`initialise` puts its headers elsewhere, each step of each call is careful where it is made, those
in the middle of an `mmap` included, and nothing in use is in a block handed out. -/
theorem boot_careful (hmm : WellFormedMap memmap) (htop : ∀ r ∈ regions memmap, r.1 + r.2 ≤ 2 ^ 47)
    (htree : PageTree m0 cr3) (hmiss : ∀ a, Managed memmap a → ¬ InUse m0 cr3 V a) :
    (∃ pmm, Pmm.initialise m0 memmap = .ok pmm ∧ m0.Touch (HeaderApart m0 cr3 V) pmm.mem) ∧
    ∀ s blocks, BootReach memmap m0 cr3 s blocks → s.kernelCr3 = cr3 ∧
      BlocksApart s.pmm.mem cr3 V blocks ∧
      ∀ c : BootCall, c.Ok s → ∃ s' r, c.run s = .ok (s', r) ∧
        Does (Careful cr3 V) s.pmm (c.steps s) s'.pmm ∧
        BlocksApart s.pmm.mem cr3 V (c.block r) := by
  constructor
  · obtain ⟨pmm, hrun, hheaders, -⟩ := initialise_careful hmm htop htree hmiss
    exact ⟨pmm, hrun, hheaders⟩
  · intro s blocks h
    have hinv := h.inv hmm htop htree hmiss
    refine ⟨hinv.root.2, hinv.apart, fun c hok => ?_⟩
    obtain ⟨s', r, hrun, hsteps, hnew, -⟩ := hinv.call c hok
    exact ⟨s', r, hrun, hsteps, hnew⟩

/-- A page is mapped and another one allocated beside a tree at `0x1000` and a table at `0x2000`;
the three new tables are the blocks the `mmap` has got. -/
theorem boot_careful_eightPages :
    (∃ pmm, Pmm.initialise zeroMem eightPages = .ok pmm ∧
      zeroMem.Touch (HeaderApart zeroMem 0x1000 (· = 0x2000)) pmm.mem) ∧
    MemStep.returned (bootVmm.mmapSteps 0x5000 0x400000 1 2) =
      [(0x100000, 0), (0x101000, 0), (0x102000, 0)] ∧
    (∃ s', Does (Careful 0x1000 (· = 0x2000)) bootPmm (bootVmm.mmapSteps 0x5000 0x400000 1 2) s') ∧
    ∃ s, BootReach eightPages zeroMem 0x1000 s [(0x103000, 0)] ∧
      BlocksApart s.pmm.mem 0x1000 (· = 0x2000) [(0x103000, 0)] := by
  have hmiss : ∀ a, Managed eightPages a → ¬ InUse zeroMem 0x1000 (· = 0x2000) a := by
    rintro a ⟨bl, hbl, x, -, rfl⟩ huse
    obtain rfl := List.mem_singleton.mp (show bl ∈ [(0x100000, 0x8000)] from hbl)
    unfold InUse pageOf at huse
    rcases huse with ⟨p, hp⟩ | hv
    · have := (follow_empty (fun i => rfl) hp).2
      omega
    · omega
  have h := boot_careful eightPages_wellFormed (by decide)
    (emptyTree (fun i => rfl) rfl (by decide)).1 hmiss
  have h0 := @BootReach.initialise eightPages zeroMem 0x1000 bootPmm bootPmm_initialise
  have hok : (BootCall.mmap 0x5000 0x400000 1 2).Ok bootVmm :=
    ⟨by decide, fun i _ => notLarge_of_leavesAt boot_tree.2 _⟩
  have h1 := h0.call (.mmap 0x5000 0x400000 1 2) hok rfl
  have h2 := h1.call (.pmmAlloc 1) trivial rfl
  obtain ⟨s', r, -, hsteps, -⟩ := (h.2 _ _ h0).2.2 (.mmap 0x5000 0x400000 1 2) hok
  exact ⟨h.1, rfl, ⟨s'.pmm, hsteps⟩, _, h2, (h.2 _ _ h2).2.1⟩

/-! ## Tables in bootloader-reclaimable memory -/

/-- A PML4 at `0x100000` whose first entry leads to the PDPT at `0x101000`. -/
def rootMem : Mem where
  word a := if a = 0x100000 then 0x101003 else 0
  writes := []

/-- They are in the first two pages of an entry; the memory map is in the third. -/
def reclaimable : List MemmapEntry :=
  [{ base := 0x100000, length := 0x3000, type := .bootloaderReclaimable, base_lt := oneMiB_lt }]

theorem rootMem_follow {p : List (Fin 512)} {n : Nat} (hp : follow rootMem 0x100000 p = some n) :
    (p = [] ∧ n = 0x100000) ∨ (p = [0] ∧ n = 0x101000) := by
  have hentry : ∀ t i, t + 8 * i.val ≠ 0x100000 → entryOf rootMem t i = 0 := fun t i h => if_neg h
  cases p with
  | nil => exact .inl ⟨rfl, (Option.some.inj hp).symm⟩
  | cons i p =>
    unfold follow RadixFormat.follow at hp
    by_cases hi : i = 0
    · subst hi
      change pageFormat.follow (entryOf rootMem) 1 0x101000 p = some n at hp
      cases p with
      | nil => exact .inr ⟨rfl, (Option.some.inj hp).symm⟩
      | cons j p =>
        unfold RadixFormat.follow at hp
        rw [hentry _ j (by omega)] at hp
        cases hp
    · have : i.val ≠ 0 := fun h => hi (Fin.ext h)
      rw [hentry _ i (by omega)] at hp
      cases hp

/-- `initialise` writes a header over the first entry of the PML4, and `alloc` hands both tables
out. -/
theorem boot_overwrites_root : WellFormedMap reclaimable ∧ PageTree rootMem 0x100000 ∧
    (∀ n, IsTable rootMem 0x100000 n → 0x100000 ≤ n ∧ n + 4096 ≤ 0x103000) ∧
    (∃ pmm, Pmm.initialise rootMem reclaimable = .ok pmm ∧
      follow rootMem 0x100000 [0] = some 0x101000 ∧ follow pmm.mem 0x100000 [0] = none ∧
      ¬ rootMem.Touch (HeaderApart rootMem 0x100000 (· = 0x102000)) pmm.mem) ∧
    ∃ s, BootReach reclaimable rootMem 0x100000 s [(0x100000, 1)] ∧
      ¬ BlocksApart s.pmm.mem 0x100000 (· = 0x102000) [(0x100000, 1)] := by
  have hroot : InUse rootMem 0x100000 (· = 0x102000) 0x100000 := .inl ⟨[], rfl⟩
  refine ⟨⟨by decide, by decide, List.pairwise_singleton _ _, ?_⟩, ⟨?_, ?_⟩, ?_, ?_, ?_⟩
  · intro e he base length h
    rw [List.mem_singleton.mp he] at h
    cases h
    decide
  · intro p q n hp hq
    rcases rootMem_follow hp with ⟨rfl, rfl⟩ | ⟨rfl, rfl⟩ <;>
    rcases rootMem_follow hq with ⟨rfl, h⟩ | ⟨rfl, h⟩ <;> first | rfl | cases h
  · rintro n ⟨p, hp⟩
    rcases rootMem_follow hp with ⟨-, rfl⟩ | ⟨-, rfl⟩ <;> decide
  · rintro n ⟨p, hp⟩
    rcases rootMem_follow hp with ⟨-, rfl⟩ | ⟨-, rfl⟩ <;> decide
  · refine ⟨_, rfl, rfl, rfl, fun hheaders => ?_⟩
    obtain ⟨ws, hws, hall⟩ := hheaders.log
    rw [show rootMem.writes = [] from rfl, List.append_nil] at hws
    refine (hall (.header, 0x100000) ?_).2 hroot
    rw [← hws]
    exact List.mem_cons_self ..
  · have h0 := @BootReach.initialise reclaimable rootMem 0x100000 _ rfl
    have h1 := h0.call (.pmmAlloc 0x2000) trivial rfl
    refine ⟨_, h1, fun hapart => ?_⟩
    exact hapart _ (List.mem_singleton_self _) 0x100000 (inBlock_self _ _) (.inl ⟨[], rfl⟩)

end HelixKernel
