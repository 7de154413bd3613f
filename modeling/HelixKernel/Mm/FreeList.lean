import HelixKernel.Lib.Chain
import HelixKernel.Lib.BuddySystem
import HelixKernel.Mm.PmmOrder

/-!
The sixteen free lists of a segment as one set of blocks.

`FreeLists word seg F`: for each order `k`, the list at `free_list[k]` (threaded
through memory) is a chain of exactly the addresses of the blocks of order `k` in
`F`.  The list operations of `pmm.cpp` are the set operations on `F`:

    add_block     F ↦ insert b F     (FreeLists.push)
    remove_block  F ↦ F.erase b      (FreeLists.pop)
    the walk of free: finds b iff b ∈ F, and unlinks it: F ↦ F.erase b
                                      (FreeLists.findBuddy_none, FreeLists.unlink) -/

namespace HelixKernel

/-! ## Block addresses -/

/-- The address of a block of the segment at `base`. -/
def blockAddr (base : Nat) (b : Block) : Nat := base + b.first * 4096

theorem Block.ext_first {b c : Block} (ho : b.order = c.order) (hf : b.first = c.first) : b = c :=
  Block.ext_of_mem b.first_mem (hf ▸ c.first_mem) ho

theorem blockAddr_inj {base : Nat} {b c : Block} :
    blockAddr base b = blockAddr base c ↔ b.first = c.first := by
  unfold blockAddr
  omega

/-- Flipping bit `order + 12` of a block's offset gives its buddy's. -/
theorem first_xor (b : Block) :
    b.first * 4096 ^^^ 1 <<< (b.order + 12) = b.buddy.first * 4096 := by
  have key : ∀ c : Block, c.first * 4096 = c.idx <<< (c.order + 12) := by
    intro c
    rw [Nat.shiftLeft_eq, Nat.pow_add, ← Nat.mul_assoc]
    rfl
  rw [key, key, ← Nat.shiftLeft_xor_distrib]
  rfl

/-! ## The lists of a segment -/

structure FreeLists (word : Nat → Nat) (seg : PmmSegment) (F : Finset Block) : Prop where
  chain : ∀ k (_ : k < 16), ∃ xs, Chain 0 word seg.freeList[k] xs ∧
    ∀ a, a ∈ xs ↔ ∃ b ∈ F, b.order = k ∧ a = blockAddr seg.basePtr b

namespace PmmSegment

/-- The segment with other lists. -/
def withLists (seg : PmmSegment) (fl : Vector Nat 16) : PmmSegment := { seg with freeList := fl }

/-- The segment with another head of list `k`. -/
def withHead (seg : PmmSegment) (k : Nat) (hk : k < 16) (b : Nat) : PmmSegment :=
  seg.withLists (seg.freeList.set k b)

variable (seg : PmmSegment) (fl fl' : Vector Nat 16)

@[simp] theorem withLists_basePtr : (seg.withLists fl).basePtr = seg.basePtr := rfl
@[simp] theorem withLists_maxOrder : (seg.withLists fl).maxOrder = seg.maxOrder := rfl
@[simp] theorem withLists_freeList : (seg.withLists fl).freeList = fl := rfl
@[simp] theorem withLists_withLists : (seg.withLists fl).withLists fl' = seg.withLists fl' := rfl
@[simp] theorem withLists_self : seg.withLists seg.freeList = seg := rfl

end PmmSegment

theorem addBlock_eq (mem : Mem) (seg : PmmSegment) {k : Nat} (hk : k < 16) (b : Nat) :
    addBlock mem seg k b = .ok (mem.store .header b seg.freeList[k], seg.withHead k hk b) := by
  simp [addBlock, PmmSegment.head, PmmSegment.setHead, PmmSegment.withHead, PmmSegment.withLists, hk]

theorem removeBlock_eq (mem : Mem) (seg : PmmSegment) {k : Nat} (hk : k < 16)
    (hne : seg.freeList[k] ≠ 0) :
    removeBlock mem seg k =
      .ok (seg.freeList[k], seg.withHead k hk (mem.word seg.freeList[k])) := by
  simp [removeBlock, PmmSegment.head, PmmSegment.setHead, PmmSegment.withHead, PmmSegment.withLists,
    hk, hne]

namespace FreeLists

variable {word word' : Nat → Nat} {mem : Mem} {seg : PmmSegment} {F : Finset Block}

/-- **Frame.**  Only the first words of the free blocks matter. -/
theorem frame (h : FreeLists word seg F)
    (hw : ∀ b ∈ F, word' (blockAddr seg.basePtr b) = word (blockAddr seg.basePtr b)) :
    FreeLists word' seg F where
  chain k hk := by
    obtain ⟨xs, hc, hm⟩ := h.chain k hk
    refine ⟨xs, hc.congr fun a ha => ?_, hm⟩
    obtain ⟨b, hb, -, rfl⟩ := (hm a).mp ha
    exact hw b hb

/-- `FreeLists` does not read the counters. -/
theorem withUsed (h : FreeLists word seg F) (u : Nat) :
    FreeLists word { seg with pagesUsed := u } F := ⟨h.chain⟩

theorem push (h : FreeLists mem.word seg F) {b : Block} (hk : b.order < 16)
    (h0 : blockAddr seg.basePtr b ≠ 0) (hnew : ∀ c ∈ F, c.first ≠ b.first) :
    FreeLists (mem.store .header (blockAddr seg.basePtr b) seg.freeList[b.order]).word
      (seg.withHead b.order hk (blockAddr seg.basePtr b)) (insert b F) where
  chain k hk' := by
    obtain ⟨xs, hc, hm⟩ := h.chain k hk'
    have hsame : ∀ a ∈ xs, (mem.store .header (blockAddr seg.basePtr b)
        seg.freeList[b.order]).word a = mem.word a := by
      intro a ha
      obtain ⟨c, hcF, -, rfl⟩ := (hm a).mp ha
      exact mem.store_word_ne _ _ fun he => hnew c hcF (blockAddr_inj.mp he)
    show ∃ xs', Chain 0 _ ((seg.freeList.set b.order (blockAddr seg.basePtr b))[k]) xs' ∧ _
    by_cases hkb : b.order = k
    · subst hkb
      refine ⟨blockAddr seg.basePtr b :: xs, ?_, fun a => ?_⟩
      · rw [Vector.getElem_set_self]
        exact hc.push h0 (mem.store_word_self _ _ _) hsame
      · rw [List.mem_cons, hm a]
        simp only [Finset.mem_insert]
        constructor
        · rintro (rfl | ⟨c, hcF, hco, rfl⟩)
          · exact ⟨b, .inl rfl, rfl, rfl⟩
          · exact ⟨c, .inr hcF, hco, rfl⟩
        · rintro ⟨c, rfl | hcF, hco, rfl⟩
          · exact .inl rfl
          · exact .inr ⟨c, hcF, hco, rfl⟩
    · refine ⟨xs, ?_, fun a => ?_⟩
      · rw [Vector.getElem_set_ne hk hk' hkb]
        exact hc.congr hsame
      · rw [hm a]
        constructor
        · rintro ⟨c, hcF, hco, rfl⟩
          exact ⟨c, Finset.mem_insert_of_mem hcF, hco, rfl⟩
        · rintro ⟨c, hcF, hco, rfl⟩
          rcases Finset.mem_insert.mp hcF with rfl | hcF
          · exact absurd hco hkb
          · exact ⟨c, hcF, hco, rfl⟩

/-- Taking `b` out of list `b.order` and nothing out of the others. -/
theorem erase_of_chain (h : FreeLists word seg F) {b : Block} (hk : b.order < 16) {hd : Nat}
    {xs : List Nat} (hc : Chain 0 word' hd xs)
    (hm : ∀ a, a ∈ xs ↔ ∃ c ∈ F, c.order = b.order ∧ a = blockAddr seg.basePtr c ∧ c ≠ b)
    (hother : ∀ c ∈ F, c.order ≠ b.order →
      word' (blockAddr seg.basePtr c) = word (blockAddr seg.basePtr c)) :
    FreeLists word' (seg.withHead b.order hk hd) (F.erase b) where
  chain k hk' := by
    show ∃ xs', Chain 0 _ ((seg.freeList.set b.order hd)[k]) xs' ∧ _
    by_cases hkb : b.order = k
    · subst hkb
      refine ⟨xs, by rwa [Vector.getElem_set_self], fun a => ?_⟩
      rw [hm a]
      constructor
      · rintro ⟨c, hcF, hco, rfl, hne⟩
        exact ⟨c, Finset.mem_erase.mpr ⟨hne, hcF⟩, hco, rfl⟩
      · rintro ⟨c, hcF, hco, rfl⟩
        obtain ⟨hne, hcF⟩ := Finset.mem_erase.mp hcF
        exact ⟨c, hcF, hco, rfl, hne⟩
    · obtain ⟨ys, hcy, hmy⟩ := h.chain k hk'
      refine ⟨ys, ?_, fun a => ?_⟩
      · rw [Vector.getElem_set_ne hk hk' hkb]
        refine hcy.congr fun a ha => ?_
        obtain ⟨c, hcF, hco, rfl⟩ := (hmy a).mp ha
        exact hother c hcF (fun he => hkb (he.symm.trans hco))
      · rw [hmy a]
        constructor
        · rintro ⟨c, hcF, hco, rfl⟩
          refine ⟨c, Finset.mem_erase.mpr ⟨?_, hcF⟩, hco, rfl⟩
          rintro rfl
          exact hkb hco
        · rintro ⟨c, hcF, hco, rfl⟩
          exact ⟨c, Finset.mem_of_mem_erase hcF, hco, rfl⟩

theorem head_eq_zero_iff (h : FreeLists word seg F) {k : Nat} (hk : k < 16) :
    seg.freeList[k] = 0 ↔ ∀ b ∈ F, b.order ≠ k := by
  obtain ⟨xs, hc, hm⟩ := h.chain k hk
  rw [hc.nil_iff]
  constructor
  · rintro rfl b hb rfl
    exact absurd ((hm _).mpr ⟨b, hb, rfl, rfl⟩) List.not_mem_nil
  · intro hno
    refine List.eq_nil_iff_forall_not_mem.mpr fun a ha => ?_
    obtain ⟨b, hb, hbo, -⟩ := (hm a).mp ha
    exact hno b hb hbo

theorem pop (h : FreeLists word seg F) {k : Nat} (hk : k < 16) (hne : seg.freeList[k] ≠ 0) :
    ∃ b ∈ F, b.order = k ∧ seg.freeList[k] = blockAddr seg.basePtr b ∧
      FreeLists word (seg.withHead k hk (word seg.freeList[k])) (F.erase b) := by
  obtain ⟨xs, hc, hm⟩ := h.chain k hk
  obtain ⟨t, rfl, ht⟩ := hc.pop hne
  obtain ⟨b, hb, rfl, hba⟩ := (hm _).mp List.mem_cons_self
  refine ⟨b, hb, rfl, hba, h.erase_of_chain hk ht (fun a => ?_) fun _ _ _ => rfl⟩
  have hnd := List.nodup_cons.mp hc.nodup
  constructor
  · intro ha
    obtain ⟨c, hcF, hco, rfl⟩ := (hm a).mp (List.mem_cons_of_mem _ ha)
    refine ⟨c, hcF, hco, rfl, ?_⟩
    rintro rfl
    exact hnd.1 (hba ▸ ha)
  · rintro ⟨c, hcF, hco, rfl, hcb⟩
    rcases List.mem_cons.mp ((hm _).mpr ⟨c, hcF, hco, rfl⟩) with he | ha
    · exact absurd (Block.ext_first hco (blockAddr_inj.mp (he.trans hba))) hcb
    · exact ha

end FreeLists

/-! ## The walk of `free` -/

theorem findBuddy_none {mem : Mem} {target : Nat} : ∀ (xs : List Nat) (fuel prev h : Nat),
    Chain 0 mem.word h xs → xs.length ≤ fuel → target ∉ xs →
    findBuddy mem target fuel prev h = .ok none := by
  intro xs
  induction xs with
  | nil =>
    intro fuel prev h hc _ _
    have h0 : h = 0 := hc
    subst h0
    cases fuel <;> simp [findBuddy]
  | cons x xs ih =>
    intro fuel prev h hc hlen hno
    obtain ⟨rfl, hx, ht⟩ := hc
    cases fuel with
    | zero => simp at hlen
    | succ fuel =>
      have hne : h ≠ target := fun he => hno (he ▸ List.mem_cons_self)
      unfold findBuddy
      rw [if_neg hx, if_neg hne]
      exact ih fuel h _ ht (by simpa using hlen) fun hm => hno (List.mem_cons_of_mem _ hm)

theorem findBuddy_some {mem : Mem} {target : Nat} : ∀ (l1 l2 : List Nat) (fuel prev h : Nat),
    Chain 0 mem.word h (l1 ++ target :: l2) → l1.length < fuel →
    findBuddy mem target fuel prev h = .ok (some (l1.getLastD prev)) := by
  intro l1
  induction l1 with
  | nil =>
    intro l2 fuel prev h hc hlen
    obtain ⟨rfl, hx, -⟩ := hc
    cases fuel with
    | zero => simp at hlen
    | succ fuel => simp [findBuddy, hx]
  | cons x l1 ih =>
    intro l2 fuel prev h hc hlen
    have hnd := hc.nodup
    obtain ⟨rfl, hx, ht⟩ := hc
    cases fuel with
    | zero => simp at hlen
    | succ fuel =>
      have hne : h ≠ target := by
        rintro rfl
        simp at hnd
      unfold findBuddy
      rw [if_neg hx, if_neg hne, ih l2 fuel h _ ht (by simpa using hlen), List.getLastD_cons]

namespace FreeLists

variable {mem : Mem} {seg : PmmSegment} {F : Finset Block}

theorem length_le_walkFuel (hb : ∀ b ∈ F, blockAddr seg.basePtr b < 2 ^ 64) {k hd : Nat}
    {xs : List Nat} (hc : Chain 0 mem.word hd xs)
    (hm : ∀ a, a ∈ xs ↔ ∃ b ∈ F, b.order = k ∧ a = blockAddr seg.basePtr b) :
    xs.length ≤ walkFuel := by
  refine hc.length_le fun a ha => ?_
  obtain ⟨b, hbF, -, rfl⟩ := (hm a).mp ha
  exact hb b hbF

/-- The walk misses a block that is not free. -/
theorem findBuddy_none (h : FreeLists mem.word seg F)
    (hb : ∀ b ∈ F, blockAddr seg.basePtr b < 2 ^ 64) {b : Block} (hk : b.order < 16) (hbF : b ∉ F) :
    findBuddy mem (blockAddr seg.basePtr b) walkFuel 0 seg.freeList[b.order] = .ok none := by
  obtain ⟨xs, hc, hm⟩ := h.chain b.order hk
  refine HelixKernel.findBuddy_none xs _ _ _ hc (length_le_walkFuel hb hc hm) fun ha => ?_
  obtain ⟨c, hcF, hco, he⟩ := (hm _).mp ha
  exact hbF (Block.ext_first hco (blockAddr_inj.mp he).symm ▸ hcF)

/-- The walk finds a free block, and unlinking it takes it out of the set. -/
theorem unlink (h : FreeLists mem.word seg F)
    (hb : ∀ b ∈ F, blockAddr seg.basePtr b < 2 ^ 64)
    (hF : ∀ b ∈ F, ∀ c ∈ F, b.first = c.first → b = c) {b : Block} (hk : b.order < 16)
    (hbF : b ∈ F) :
    ∃ prev mem' fl,
      findBuddy mem (blockAddr seg.basePtr b) walkFuel 0 seg.freeList[b.order] = .ok (some prev) ∧
      unlinkBlock mem seg b.order prev (blockAddr seg.basePtr b) =
        .ok (mem', seg.withLists fl) ∧
      FreeLists mem'.word (seg.withLists fl) (F.erase b) ∧
      mem.Touch (fun w a => w = .header ∧ ∃ c ∈ F, a = blockAddr seg.basePtr c) mem' := by
  obtain ⟨xs, hc, hm⟩ := h.chain b.order hk
  have hlen := length_le_walkFuel hb hc hm
  obtain ⟨l1, l2, rfl⟩ := List.append_of_mem ((hm _).mpr ⟨b, hbF, rfl, rfl⟩)
  have hfind := findBuddy_some l1 l2 walkFuel 0 _ hc (by simp at hlen; omega)
  have hnd := hc.nodup
  rw [List.nodup_append, List.nodup_cons] at hnd
  -- the addresses left over are those of the other free blocks of this order
  have hrest : ∀ a, a ∈ l1 ++ l2 ↔ ∃ c ∈ F, c.order = b.order ∧ a = blockAddr seg.basePtr c ∧ c ≠ b := by
    intro a
    constructor
    · intro ha
      obtain ⟨c, hcF, hco, rfl⟩ := (hm a).mp (by
        rcases List.mem_append.mp ha with ha | ha <;> simp [ha])
      refine ⟨c, hcF, hco, rfl, ?_⟩
      rintro rfl
      rcases List.mem_append.mp ha with ha | ha
      · exact hnd.2.2 _ ha _ List.mem_cons_self rfl
      · exact hnd.2.1.1 ha
    · rintro ⟨c, hcF, hco, rfl, hcb⟩
      have ha := (hm _).mpr ⟨c, hcF, hco, rfl⟩
      rcases List.mem_append.mp ha with ha | ha
      · exact List.mem_append_left _ ha
      · rcases List.mem_cons.mp ha with he | ha
        · exact absurd (Block.ext_first hco (blockAddr_inj.mp he)) hcb
        · exact List.mem_append_right _ ha
  rcases List.eq_nil_or_concat l1 with rfl | ⟨l, p, rfl⟩
  · -- the buddy is at the head
    obtain ⟨he, -, ht⟩ := hc
    refine ⟨0, mem, seg.freeList.set b.order (mem.word (blockAddr seg.basePtr b)), hfind, ?_, ?_,
      Mem.Touch.refl _ _⟩
    · simp [unlinkBlock, PmmSegment.setHead, PmmSegment.withLists, hk]
    · exact h.erase_of_chain hk ht (by simpa using hrest) fun _ _ _ => rfl
  · -- `p` is its predecessor
    simp only [List.concat_eq_append] at *
    have hp0 : p ≠ 0 := hc.mem_ne_null p (by simp)
    obtain ⟨c, hcF, hco, hpc⟩ := (hm p).mp (by simp)
    refine ⟨p, mem.store .header p (mem.word (blockAddr seg.basePtr b)), seg.freeList, by simpa using hfind,
      by simp [unlinkBlock, hp0], ?_, Mem.Touch.store _ _ ⟨rfl, c, hcF, hpc⟩⟩
    have hchain : Chain 0 (mem.store .header p (mem.word (blockAddr seg.basePtr b))).word
        seg.freeList[b.order] (l ++ p :: l2) := by
      refine Chain.unlink (by simpa using hc) (mem.store_word_self _ _ _) fun a _ hne => ?_
      exact mem.store_word_ne _ _ hne
    have herase := h.erase_of_chain hk hchain (by simpa using hrest) fun d hdF hdo => by
      refine mem.store_word_ne _ _ fun he => hdo ?_
      rw [hF d hdF c hcF (blockAddr_inj.mp (he.trans hpc)), hco]
    simpa [PmmSegment.withHead] using herase

end FreeLists

end HelixKernel
