import HelixKernel.Machine.Bytes
import HelixKernel.Mm.PmmComplete
import HelixKernel.Mm.PmmSpare

/-!
# The free lists in the bytes of memory

Memory is a flat array of bytes here: the `next` pointer of a free block is the
`load64` of its first eight bytes, and a client writes single bytes of the blocks
it owns (`ByteReach`).  A free block is a largest aligned block of its segment
that no outstanding block overlaps (`FreeBlock`); the lists are not mentioned.

    every list holds the free blocks of its order   PmmInv.listsIntact
    alloc and free store off the outstanding blocks  PmmInv.spares
    both over every run                              free_lists_survive -/

namespace HelixKernel

/-- Runs of `alloc`, `free` of outstanding blocks, and byte writes by the owners. -/
inductive ByteReach (memmap : List MemmapEntry) : Pmm → Finset (Nat × Nat) → Prop
  | initialise {mem : Mem} {s : Pmm} (h : Pmm.initialise mem memmap = .ok s) :
      ByteReach memmap s ∅
  | alloc {s s' : Pmm} {out : Finset (Nat × Nat)} {n p : Nat} (hs : ByteReach memmap s out)
      (h : s.alloc n = .ok (s', p)) : ByteReach memmap s' (track out p (orderFor n))
  | free {s s' : Pmm} {out : Finset (Nat × Nat)} {p n : Nat} (hs : ByteReach memmap s out)
      (hp : (p, orderFor n) ∈ out) (h : s.free p n = .ok s') :
      ByteReach memmap s' (out.erase (p, orderFor n))
  | write {s : Pmm} {out : Finset (Nat × Nat)} {pk : Nat × Nat} {y : Nat}
      (hs : ByteReach memmap s out) (hpk : pk ∈ out) (hy : InBlock pk.1 pk.2 y) (v : Nat) :
      ByteReach memmap { s with mem := s.mem.storeByte .client y v } out

/-- A largest aligned block that no outstanding one overlaps. -/
structure FreeBlock (seg : PmmSegment) (out : Finset (Nat × Nat)) (a k : Nat) : Prop where
  candidate : Candidate seg out k a
  largest : ∀ a' k', Candidate seg out k' a' → Overlap a k a' k' → k' ≤ k

/-- Every `free_list[k]` is a null-terminated chain, without repetition, of the free blocks of
order `k`, linked by the bytes of memory. -/
def ListsIntact (s : Pmm) (out : Finset (Nat × Nat)) : Prop :=
  ∀ seg ∈ s.segtab, ∀ k (_ : k < 16), ∃ xs, Chain 0 s.mem.load64 seg.freeList[k] xs ∧ xs.Nodup ∧
    ∀ a, a ∈ xs ↔ FreeBlock seg out a k

/-- The stores that lead from `m` to `m'` are 64-bit stores outside the blocks of `out`, whose
bytes are as they were. -/
structure Spares (out : Finset (Nat × Nat)) (m m' : Mem) : Prop where
  stores : ∃ ws, m'.writes = ws ++ m.writes ∧
    ∀ e ∈ ws, ∀ i < 8, ∀ pk ∈ out, ¬ InBlock pk.1 pk.2 (e.2 + i)
  bytes : ∀ pk ∈ out, ∀ y, InBlock pk.1 pk.2 y → m'.byte y = m.byte y

/-! ## Free blocks -/

section

variable {s s' : Pmm} {out : Finset (Nat × Nat)} {B : Nat → BuddySystem} {seg : PmmSegment}

/-- The free blocks of the buddy system are candidates. -/
theorem PmmInv.candidate_free (h : PmmInv s.mem.word s.segtab out B) (hs : seg ∈ s.segtab) {b : Block}
    (hb : b ∈ (B seg.basePtr).free) : Candidate seg out b.order (blockAddr seg.basePtr b) := by
  have hw := (h.segs seg hs).within (.inl hb)
  exact (h.candidate_iff hs _ _).mpr
    ⟨b, hw, rfl, rfl, fun c hc x hx => (B seg.basePtr).apart hb hc hx⟩

/-- A candidate lies in one of them. -/
theorem PmmInv.candidate_within (h : PmmInv s.mem.word s.segtab out B) (hs : seg ∈ s.segtab) {a k : Nat}
    (hc : Candidate seg out k a) : ∃ b : Block, b.order = k ∧ a = blockAddr seg.basePtr b ∧
      ∃ f ∈ (B seg.basePtr).free, k ≤ f.order ∧ ∀ x ∈ b, x ∈ f := by
  obtain ⟨b, hw, rfl, rfl, hu⟩ := (h.candidate_iff hs k a).mp hc
  rw [← (h.segs seg hs).maxOrder] at hw
  exact ⟨b, rfl, rfl, (B seg.basePtr).exists_free hw hu⟩

/-- **The free blocks of the buddy system are those of memory.** -/
theorem PmmInv.freeBlock_iff (h : PmmInv s.mem.word s.segtab out B) (hs : seg ∈ s.segtab) (a k : Nat) :
    FreeBlock seg out a k ↔
      ∃ b ∈ (B seg.basePtr).free, b.order = k ∧ a = blockAddr seg.basePtr b := by
  constructor
  · rintro ⟨hcand, hlargest⟩
    obtain ⟨b, rfl, rfl, f, hf, hord, hbf⟩ := h.candidate_within hs hcand
    have hfirst := hbf _ b.first_mem
    -- the free block around `b` is no larger than `b`
    have hle : f.order ≤ b.order := hlargest _ _ (h.candidate_free hs hf)
      ⟨_, inBlock_page.mpr b.first_mem, inBlock_page.mpr hfirst⟩
    rw [Block.ext_of_mem b.first_mem hfirst (by omega)]
    exact ⟨f, hf, rfl, rfl⟩
  · rintro ⟨b, hb, rfl, rfl⟩
    refine ⟨h.candidate_free hs hb, fun a' k' hcand ho => ?_⟩
    -- a candidate that meets `b` lies in a free block, which is `b`
    obtain ⟨c, rfl, rfl, f, hf, hord, hcf⟩ := h.candidate_within hs hcand
    obtain ⟨y, hyb, hyc⟩ := ho
    have hxc := hcf _ (inBlock_iff.mp hyc).2
    rw [(B seg.basePtr).free_apart hb hf (inBlock_iff.mp hyb).2 hxc]
    exact hord

/-- The `next` pointers of the free blocks are 64-bit addresses. -/
theorem SegInv.load64_eq {m : Mem} {S : BuddySystem} (h : SegInv m.word seg S) {k hd : Nat}
    {xs : List Nat} (hc : Chain 0 m.word hd xs)
    (hm : ∀ a, a ∈ xs ↔ ∃ b ∈ S.free, b.order = k ∧ a = blockAddr seg.basePtr b) :
    ∀ a ∈ xs, m.load64 a = m.word a := by
  have hlt : ∀ a ∈ xs, a < 2 ^ 64 := by
    intro a ha
    obtain ⟨b, hb, -, rfl⟩ := (hm a).mp ha
    exact Nat.lt_trans (h.geom.addr_lt (h.within (.inl hb))) h.geom.top
  intro a ha
  obtain ⟨b, hb, -, hab⟩ := (hm a).mp ha
  have halign := h.geom.aligned
  unfold blockAddr at hab
  refine m.load64_eq (by omega) ?_
  rcases hc.next_mem ha with h0 | hnext
  · rw [h0]
    decide
  · exact hlt _ hnext

theorem PmmInv.listsIntact (h : PmmInv s.mem.word s.segtab out B) : ListsIntact s out := by
  intro seg hs k hk
  have hseg := h.segs seg hs
  obtain ⟨xs, hc, hm⟩ := hseg.lists.chain k hk
  have hbytes := hc.congr (hseg.load64_eq hc hm)
  refine ⟨xs, hbytes, hbytes.nodup, fun a => ?_⟩
  rw [hm, h.freeBlock_iff hs]

/-! ## Stores -/

/-- Stores into free pages spare the outstanding blocks. -/
theorem PmmInv.spares (h : PmmInv s'.mem.word s'.segtab out B) {m : Mem}
    (ht : m.Touch (fun w a => w = .header ∧ FreePage s'.segtab out a) s'.mem) :
    Spares out m s'.mem := by
  obtain ⟨ws, hws, hlog⟩ := ht.log
  refine ⟨⟨ws, hws, fun e he i hi pk hpk hin => ?_⟩, fun pk hpk y hy => Mem.byte_congr ?_⟩
  · have hfree := (hlog e he).2
    have halign := hfree.aligned h
    have hpage := (inBlock_pageOf (h.out_aligned hpk)).mpr hin
    rw [show pageOf (e.2 + i) = e.2 by unfold pageOf; omega] at hpage
    obtain ⟨-, -, -, -, -, hno⟩ := hfree
    exact hno pk hpk hpage
  · refine ht.same _ fun w hw => ?_
    have hfree := hw.2
    have halign := hfree.aligned h
    have hpage := (inBlock_pageOf (h.out_aligned hpk)).mpr hy
    rw [show pageOf y = y / 8 * 8 by unfold pageOf; omega] at hpage
    obtain ⟨-, -, -, -, -, hno⟩ := hfree
    exact hno pk hpk hpage

end

/-! ## Runs -/

theorem ByteReach.reach {memmap : List MemmapEntry} (hmm : WellFormedMap memmap) {s : Pmm}
    {out : Finset (Nat × Nat)} (h : ByteReach memmap s out) : Reach memmap s out := by
  induction h with
  | initialise h => exact .initialise h
  | alloc _ h ih => exact .alloc ih h
  | free _ hp h ih => exact .free ih hp trivial h
  | @write s out pk y _ hpk hy v ih =>
    obtain ⟨B, hB⟩ := ih.inv hmm
    refine .write ih fun a ha => .inl ⟨pk, hpk, ?_⟩
    -- the byte and its word are in one page
    have hword : a = y / 8 * 8 := by
      by_contra hne
      exact ha (if_neg hne)
    have hpage := (inBlock_pageOf (hB.out_aligned hpk)).mpr hy
    rw [hword, ← inBlock_pageOf (hB.out_aligned hpk),
      show pageOf (y / 8 * 8) = pageOf y by unfold pageOf; omega]
    exact hpage

/-- **The free lists survive the clients' writes.**  In every state of every run each list is
the chain of the free blocks of its order, `alloc` and `free` return, and neither stores into
an outstanding block. -/
theorem free_lists_survive {memmap : List MemmapEntry} (hmm : WellFormedMap memmap) :
    (∀ mem, ∃ s, Pmm.initialise mem memmap = .ok s) ∧
    ∀ s out, ByteReach memmap s out → ListsIntact s out ∧
      (∀ n, ∃ s' p, s.alloc n = .ok (s', p) ∧ Spares (track out p (orderFor n)) s.mem s'.mem) ∧
      ∀ p n, (p, orderFor n) ∈ out →
        ∃ s', s.free p n = .ok s' ∧ Spares (out.erase (p, orderFor n)) s.mem s'.mem := by
  refine ⟨fun mem => ?_, fun s out h => ?_⟩
  · obtain ⟨s, B, hrun, -⟩ := initialise_spec hmm mem
    exact ⟨s, hrun⟩
  · obtain ⟨B, hB⟩ := (h.reach hmm).inv hmm
    refine ⟨hB.listsIntact, fun n => ?_, fun p n hp => ?_⟩
    · obtain ⟨s', p, hrun, hcase⟩ := alloc_pages hB n
      obtain ⟨B', hB'⟩ := hcase.inv
      exact ⟨s', p, hrun, hB'.spares hcase.touch⟩
    · obtain ⟨s', hrun, hcase⟩ := free_pages hB hp
      obtain ⟨B', hB'⟩ := hcase.inv
      exact ⟨s', hrun, hB'.spares hcase.touch⟩

theorem twoPages_byteRun : ∃ s, ByteReach twoPages s {(0x101000, 0)} := by
  have r0 := @ByteReach.initialise twoPages zeroMem _ rfl
  have r1 := (r0.alloc (n := 1) rfl).alloc (n := 4096) rfl
  exact ⟨_, r1.free (p := 0x100000) (n := 1) (by decide) rfl⟩

/-- The owner of the second page writes two bytes, the first page is allocated again, and the
bytes are still there. -/
theorem free_lists_survive_twoPages : ∃ s s' p, ByteReach twoPages s {(0x101000, 0)} ∧
    ListsIntact s {(0x101000, 0)} ∧ s.alloc 1 = .ok (s', p) ∧
    s'.mem.byte 0x101003 = 0xAB ∧ s'.mem.byte 0x101004 = 0xCD := by
  obtain ⟨s, hs⟩ := twoPages_byteRun
  have hin : ∀ y, 0x101000 ≤ y → y < 0x102000 → InBlock 0x101000 0 y := fun _ h1 h2 => ⟨h1, h2⟩
  have hpk := Finset.mem_singleton_self (0x101000, 0)
  have hw := (hs.write hpk (hin 0x101003 (by decide) (by decide)) 0xAB).write hpk
    (hin 0x101004 (by decide) (by decide)) 0xCD
  obtain ⟨hlists, halloc, -⟩ := (free_lists_survive twoPages_wellFormed).2 _ _ hw
  obtain ⟨s', p, hrun, hspares⟩ := halloc 1
  have hmem : (0x101000, 0) ∈ track {(0x101000, 0)} p (orderFor 1) := by
    unfold track
    split <;> simp
  refine ⟨_, s', p, hw, hlists, hrun, ?_, ?_⟩
  · rw [hspares.bytes _ hmem 0x101003 (hin _ (by decide) (by decide)),
      Mem.byte_storeByte_ne _ _ _ (by decide)]
    exact Mem.byte_storeByte_self _ _ _ _
  · rw [hspares.bytes _ hmem 0x101004 (hin _ (by decide) (by decide))]
    exact Mem.byte_storeByte_self _ _ _ _

end HelixKernel
