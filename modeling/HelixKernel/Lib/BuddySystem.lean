import Mathlib.Algebra.Order.BigOperators.Group.Finset
import HelixKernel.Lib.Block

/-!
# The binary buddy system, abstractly

`Tiling M S`: the blocks of `S` partition the pages `0, …, 2 ^ M - 1`.
A `BuddySystem` is such a partition split into free and used blocks in which no
two buddies are both free.  Its four operations each keep the invariant, so a
program that only performs them keeps it over any run:

* `take` a free block, `place` a used one back (its buddy not being free);
* `split` a used block (the upper half becomes free), `merge` a used block with
  its free buddy.

The free blocks are a function of the used ones (`BuddySystem.free_ext`): they
are the maximal blocks without a used page (`BuddySystem.mem_free_iff`).
A run of unused pages that is a block lies in one free block
(`BuddySystem.exists_free`), so searching the free blocks finds every candidate. -/

namespace HelixKernel

/-! ## Tilings -/

/-- `S` partitions the first `2 ^ M` pages. -/
structure Tiling (M : Nat) (S : Finset Block) : Prop where
  within : ∀ b ∈ S, b.Within M
  cover : ∀ x, x < 2 ^ M → ∃ b ∈ S, x ∈ b
  apart : ∀ b ∈ S, ∀ c ∈ S, ∀ x, x ∈ b → x ∈ c → b = c

namespace Tiling

variable {M : Nat} {S : Finset Block}

theorem root (M : Nat) : Tiling M {⟨M, 0⟩} where
  within b hb := by rw [Finset.mem_singleton.mp hb]; exact Block.within_root M
  cover x hx := ⟨⟨M, 0⟩, Finset.mem_singleton_self _, Nat.div_eq_of_lt hx⟩
  apart b hb c hc x _ _ := by rw [Finset.mem_singleton.mp hb, Finset.mem_singleton.mp hc]

/-- A member's proper part is no member. -/
theorem not_mem_of_mem {b c : Block} (hT : Tiling M S) (hb : b ∈ S) {x : Nat} (hxb : x ∈ b)
    (hxc : x ∈ c) (hne : c ≠ b) : c ∉ S :=
  fun hc => hne (hT.apart c hc b hb x hxc hxb)

/-- Replacing some members by others with the same pages. -/
theorem replace {T : Finset Block} {P : Block → Prop} (hT : Tiling M S)
    (hw : ∀ b ∈ T, b.Within M)
    (hold : ∀ b ∈ T, P b ∨ b ∈ S)
    (hkeep : ∀ b ∈ S, b ∈ T ∨ ∀ x ∈ b, ∃ c ∈ T, P c ∧ x ∈ c)
    (hnew : ∀ b ∈ T, P b → ∀ c ∈ T, ∀ x, x ∈ b → x ∈ c → b = c) : Tiling M T where
  within := hw
  cover x hx := by
    obtain ⟨b, hb, hxb⟩ := hT.cover x hx
    rcases hkeep b hb with h | h
    · exact ⟨b, h, hxb⟩
    · obtain ⟨c, hc, -, hxc⟩ := h x hxb
      exact ⟨c, hc, hxc⟩
  apart b hb c hc x hxb hxc := by
    rcases hold b hb with hPb | hSb
    · exact hnew b hb hPb c hc x hxb hxc
    · rcases hold c hc with hPc | hSc
      · exact (hnew c hc hPc b hb x hxc hxb).symm
      · exact hT.apart b hSb c hSc x hxb hxc

theorem split (hT : Tiling M S) {k j : Nat} (hp : (⟨k + 1, j⟩ : Block) ∈ S) :
    Tiling M (insert (Block.left k j) (insert (Block.right k j) (S.erase ⟨k + 1, j⟩))) := by
  have hpw := hT.within _ hp
  refine hT.replace (P := fun b => b = Block.left k j ∨ b = Block.right k j) ?_ ?_ ?_ ?_
  · intro b hb
    rcases Finset.mem_insert.mp hb with rfl | hb
    · exact hpw.left
    · rcases Finset.mem_insert.mp hb with rfl | hb
      · exact hpw.right
      · exact hT.within b (Finset.mem_of_mem_erase hb)
  · intro b hb
    simp only [Finset.mem_insert, Finset.mem_erase] at hb
    tauto
  · intro b hb
    by_cases hbp : b = ⟨k + 1, j⟩
    · right
      intro x hx
      rw [hbp, Block.mem_halves] at hx
      rcases hx with hx | hx
      · exact ⟨_, by simp, .inl rfl, hx⟩
      · exact ⟨_, by simp, .inr rfl, hx⟩
    · left
      simp [hb, hbp]
  · -- a half meets no other member: that member would meet the block split
    intro b _ hPb c hc x hxb hxc
    have hxp : x ∈ (⟨k + 1, j⟩ : Block) := by
      rw [Block.mem_halves]
      rcases hPb with rfl | rfl
      · exact .inl hxb
      · exact .inr hxb
    simp only [Finset.mem_insert, Finset.mem_erase] at hc
    rcases hc with rfl | rfl | ⟨hne, hcS⟩
    · rcases hPb with rfl | rfl <;> exact Block.ext_of_mem hxb hxc rfl
    · rcases hPb with rfl | rfl <;> exact Block.ext_of_mem hxb hxc rfl
    · exact absurd (hT.apart c hcS _ hp x hxc hxp) hne

theorem merge (hT : Tiling M S) {b : Block} (hb : b ∈ S) (hb' : b.buddy ∈ S) (hM : b.order < M) :
    Tiling M (insert b.parent ((S.erase b).erase b.buddy)) := by
  refine hT.replace (P := fun c => c = b.parent) ?_ ?_ ?_ ?_
  · intro c hc
    rcases Finset.mem_insert.mp hc with rfl | hc
    · exact (hT.within b hb).parent hM
    · exact hT.within c (Finset.mem_of_mem_erase (Finset.mem_of_mem_erase hc))
  · intro c hc
    simp only [Finset.mem_insert, Finset.mem_erase] at hc
    tauto
  · intro c hc
    by_cases h1 : c = b
    · exact .inr fun x hx => ⟨_, by simp, rfl, Block.mem_parent.mpr (.inl (h1 ▸ hx))⟩
    · by_cases h2 : c = b.buddy
      · exact .inr fun x hx => ⟨_, by simp, rfl, Block.mem_parent.mpr (.inr (h2 ▸ hx))⟩
      · left
        simp [hc, h1, h2]
  · rintro _ _ rfl c hc x hxp hxc
    simp only [Finset.mem_insert, Finset.mem_erase] at hc
    rcases hc with rfl | ⟨h2, h1, hcS⟩
    · rfl
    · rcases Block.mem_parent.mp hxp with hx | hx
      · exact absurd (hT.apart c hcS b hb x hxc hx) h1
      · exact absurd (hT.apart c hcS _ hb' x hxc hx) h2

/-- The sizes of the blocks add up to the whole. -/
theorem sum_size (hT : Tiling M S) : ∑ b ∈ S, 2 ^ b.order = 2 ^ M := by
  have hU : S.biUnion Block.pages = Finset.range (2 ^ M) := by
    ext x
    simp only [Finset.mem_biUnion, Block.mem_pages, Finset.mem_range]
    constructor
    · rintro ⟨b, hb, hx⟩
      exact (hT.within b hb).lt hx
    · exact hT.cover x
  have hdisj : (S : Set Block).PairwiseDisjoint Block.pages := by
    intro b hb c hc hne
    refine Finset.disjoint_left.mpr fun x hxb hxc => hne ?_
    exact hT.apart b hb c hc x (Block.mem_pages.mp hxb) (Block.mem_pages.mp hxc)
  rw [← Finset.card_range (2 ^ M), ← hU, Finset.card_biUnion hdisj]
  simp

end Tiling

/-! ## Buddy systems -/

/-- A tiling into free and used blocks without two free buddies. -/
structure BuddySystem where
  maxOrder : Nat
  free : Finset Block
  used : Finset Block
  disj : Disjoint free used
  tiles : Tiling maxOrder (free ∪ used)
  coalesced : ∀ b ∈ free, b.order < maxOrder → b.buddy ∉ free

namespace BuddySystem

/-- Everything free, in one block. -/
def init (M : Nat) : BuddySystem where
  maxOrder := M
  free := {⟨M, 0⟩}
  used := ∅
  disj := Finset.disjoint_empty_right _
  tiles := by simpa using Tiling.root M
  coalesced b hb hM := by
    rw [Finset.mem_singleton.mp hb] at hM
    exact absurd hM (Nat.lt_irrefl M)

variable (S : BuddySystem)

theorem not_used {b : Block} (hb : b ∈ S.free) : b ∉ S.used := Finset.disjoint_left.mp S.disj hb

theorem not_free {b : Block} (hb : b ∈ S.used) : b ∉ S.free := Finset.disjoint_right.mp S.disj hb

theorem within_free {b : Block} (hb : b ∈ S.free) : b.Within S.maxOrder :=
  S.tiles.within b (Finset.mem_union_left _ hb)

theorem within_used {b : Block} (hb : b ∈ S.used) : b.Within S.maxOrder :=
  S.tiles.within b (Finset.mem_union_right _ hb)

/-- A free and a used block have no page in common. -/
theorem apart {b c : Block} (hb : b ∈ S.free) (hc : c ∈ S.used) {x : Nat} (hxb : x ∈ b) : x ∉ c := by
  intro hxc
  have := S.tiles.apart b (Finset.mem_union_left _ hb) c (Finset.mem_union_right _ hc) x hxb hxc
  exact S.not_used hb (this ▸ hc)

theorem free_apart {b c : Block} (hb : b ∈ S.free) (hc : c ∈ S.free) {x : Nat} (hxb : x ∈ b)
    (hxc : x ∈ c) : b = c :=
  S.tiles.apart b (Finset.mem_union_left _ hb) c (Finset.mem_union_left _ hc) x hxb hxc

/-- Free blocks starting at the same page are the same. -/
theorem free_first {b c : Block} (hb : b ∈ S.free) (hc : c ∈ S.free) (he : b.first = c.first) :
    b = c := S.free_apart hb hc b.first_mem (he ▸ c.first_mem)

theorem used_apart {b c : Block} (hb : b ∈ S.used) (hc : c ∈ S.used) {x : Nat} (hxb : x ∈ b)
    (hxc : x ∈ c) : b = c :=
  S.tiles.apart b (Finset.mem_union_right _ hb) c (Finset.mem_union_right _ hc) x hxb hxc

/-! ### The operations -/

/-- A free block becomes used. -/
def take (b : Block) (hb : b ∈ S.free) : BuddySystem where
  maxOrder := S.maxOrder
  free := S.free.erase b
  used := insert b S.used
  disj := by
    refine Finset.disjoint_left.mpr fun c hc hu => ?_
    obtain ⟨hne, hc⟩ := Finset.mem_erase.mp hc
    exact S.not_used hc (Finset.mem_of_mem_insert_of_ne hu hne)
  tiles := by
    have he : S.free.erase b ∪ insert b S.used = S.free ∪ S.used := by
      rw [Finset.union_insert, ← Finset.insert_union, Finset.insert_erase hb]
    rw [he]
    exact S.tiles
  coalesced c hc hM hb' :=
    S.coalesced c (Finset.mem_of_mem_erase hc) hM (Finset.mem_of_mem_erase hb')

/-- A used block whose buddy is not free becomes free. -/
def place (b : Block) (hb : b ∈ S.used) (hbud : b.order < S.maxOrder → b.buddy ∉ S.free) :
    BuddySystem where
  maxOrder := S.maxOrder
  free := insert b S.free
  used := S.used.erase b
  disj := by
    refine Finset.disjoint_left.mpr fun c hc hu => ?_
    obtain ⟨hne, hu⟩ := Finset.mem_erase.mp hu
    exact S.not_used (Finset.mem_of_mem_insert_of_ne hc hne) hu
  tiles := by
    have he : insert b S.free ∪ S.used.erase b = S.free ∪ S.used := by
      rw [Finset.insert_union, ← Finset.union_insert, Finset.insert_erase hb]
    rw [he]
    exact S.tiles
  coalesced c hc hM hc' := by
    rcases Finset.mem_insert.mp hc with rfl | hcf
    · exact hbud hM (Finset.mem_of_mem_insert_of_ne hc' c.buddy_ne)
    · rcases Finset.mem_insert.mp hc' with h | hc'
      · rw [← h, Block.buddy_order, Block.buddy_buddy] at hbud
        exact hbud hM hcf
      · exact S.coalesced c hcf hM hc'

/-- A used block is replaced by its lower half; the upper half becomes free. -/
def split (k j : Nat) (hb : (⟨k + 1, j⟩ : Block) ∈ S.used) : BuddySystem where
  maxOrder := S.maxOrder
  free := insert (Block.right k j) S.free
  used := insert (Block.left k j) (S.used.erase ⟨k + 1, j⟩)
  disj := by
    have hT := S.tiles
    have hp := Finset.mem_union_right S.free hb
    have hleft : Block.left k j ∉ S.free ∪ S.used :=
      hT.not_mem_of_mem hp (Block.mem_halves.mpr (.inl (Block.first_mem _))) (Block.first_mem _)
        (by simp [Block.left])
    have hright : Block.right k j ∉ S.free ∪ S.used :=
      hT.not_mem_of_mem hp (Block.mem_halves.mpr (.inr (Block.first_mem _))) (Block.first_mem _)
        (by simp [Block.right])
    refine Finset.disjoint_left.mpr fun c hc hu => ?_
    rcases Finset.mem_insert.mp hc with rfl | hc
    · rcases Finset.mem_insert.mp hu with h | hu
      · simp [Block.left, Block.right] at h
      · exact hright (Finset.mem_union_right _ (Finset.mem_of_mem_erase hu))
    · rcases Finset.mem_insert.mp hu with rfl | hu
      · exact hleft (Finset.mem_union_left _ hc)
      · exact S.not_used hc (Finset.mem_of_mem_erase hu)
  tiles := by
    have hpf : (⟨k + 1, j⟩ : Block) ∉ S.free := S.not_free hb
    have he : insert (Block.right k j) S.free ∪ insert (Block.left k j) (S.used.erase ⟨k + 1, j⟩) =
        insert (Block.left k j) (insert (Block.right k j) ((S.free ∪ S.used).erase ⟨k + 1, j⟩)) := by
      rw [Finset.erase_union_distrib, Finset.erase_eq_of_notMem hpf, Finset.union_insert,
        Finset.insert_union]
    rw [he]
    exact S.tiles.split (Finset.mem_union_right _ hb)
  coalesced c hc hM hc' := by
    -- the buddy of the new free half is the half still in use
    have hl : Block.left k j ∉ S.free := fun h =>
      S.apart h hb (Block.first_mem _) (Block.mem_halves.mpr (.inl (Block.first_mem _)))
    rcases Finset.mem_insert.mp hc with rfl | hc
    · rw [Block.buddy_right] at hc'
      rcases Finset.mem_insert.mp hc' with h | h
      · simp [Block.left, Block.right] at h
      · exact hl h
    · rcases Finset.mem_insert.mp hc' with h | hc'
      · rw [← Block.buddy_buddy c, h, Block.buddy_right] at hc
        exact hl hc
      · exact S.coalesced c hc hM hc'

/-- A used block absorbs its free buddy. -/
def merge (b : Block) (hb : b ∈ S.used) (hb' : b.buddy ∈ S.free) (hM : b.order < S.maxOrder) :
    BuddySystem where
  maxOrder := S.maxOrder
  free := S.free.erase b.buddy
  used := insert b.parent (S.used.erase b)
  disj := by
    have hp : b.parent ∉ S.free ∪ S.used :=
      S.tiles.not_mem_of_mem (Finset.mem_union_right _ hb) b.first_mem
        (Block.mem_parent_of_mem b.first_mem) (fun h => by simpa using congrArg Block.order h)
    refine Finset.disjoint_left.mpr fun c hc hu => ?_
    rcases Finset.mem_insert.mp hu with rfl | hu
    · exact hp (Finset.mem_union_left _ (Finset.mem_of_mem_erase hc))
    · exact S.not_used (Finset.mem_of_mem_erase hc) (Finset.mem_of_mem_erase hu)
  tiles := by
    have hbf : b ∉ S.free := S.not_free hb
    have hbu : b.buddy ∉ S.used.erase b :=
      fun h => S.not_used hb' (Finset.mem_of_mem_erase h)
    have he : S.free.erase b.buddy ∪ insert b.parent (S.used.erase b) =
        insert b.parent (((S.free ∪ S.used).erase b).erase b.buddy) := by
      rw [Finset.erase_union_distrib, Finset.erase_union_distrib, Finset.erase_eq_of_notMem hbf,
        Finset.erase_eq_of_notMem hbu, Finset.union_insert]
    rw [he]
    exact S.tiles.merge (Finset.mem_union_right _ hb) (Finset.mem_union_left _ hb') hM
  coalesced c hc hM hc' :=
    S.coalesced c (Finset.mem_of_mem_erase hc) hM (Finset.mem_of_mem_erase hc')

/-! ### What the used blocks say about the free ones -/

/-- **No fragmentation.**  A block without a used page lies in one free block. -/
theorem exists_free {b : Block} (hb : b.Within S.maxOrder) (hu : ∀ c ∈ S.used, ∀ x ∈ b, x ∉ c) :
    ∃ f ∈ S.free, b.order ≤ f.order ∧ ∀ x ∈ b, x ∈ f := by
  obtain ⟨k, j⟩ := b
  -- by induction on the order: two halves in two free blocks would be two free buddies
  induction k generalizing j with
  | zero =>
    have hx := Block.first_mem ⟨0, j⟩
    obtain ⟨f, hf, hxf⟩ := S.tiles.cover _ (hb.lt hx)
    rcases Finset.mem_union.mp hf with hf | hf
    · exact ⟨f, hf, Nat.zero_le _, fun y hy => Block.nested hx hxf (Nat.zero_le _) hy⟩
    · exact absurd hxf (hu f hf _ hx)
  | succ k ih =>
    obtain ⟨f, hf, hkf, hfl⟩ := ih (2 * j) hb.left fun c hc x hx =>
      hu c hc x (Block.mem_halves.mpr (.inl hx))
    obtain ⟨g, hg, hkg, hgr⟩ := ih (2 * j + 1) hb.right fun c hc x hx =>
      hu c hc x (Block.mem_halves.mpr (.inr hx))
    have hxl := Block.first_mem (Block.left k j)
    have hxr := Block.first_mem (Block.right k j)
    by_cases h1 : k + 1 ≤ f.order
    · exact ⟨f, hf, h1, fun x hx =>
        Block.nested (Block.mem_halves.mpr (.inl hxl)) (hfl _ hxl) h1 hx⟩
    · by_cases h2 : k + 1 ≤ g.order
      · exact ⟨g, hg, h2, fun x hx =>
          Block.nested (Block.mem_halves.mpr (.inr hxr)) (hgr _ hxr) h2 hx⟩
      · have hfe : f = Block.left k j :=
          Block.ext_of_mem (hfl _ hxl) hxl (by simp only [Block.left] at hkf ⊢; omega)
        have hge : g = Block.right k j :=
          Block.ext_of_mem (hgr _ hxr) hxr (by simp only [Block.right] at hkg ⊢; omega)
        subst hfe hge
        have hlt : (Block.left k j).order < S.maxOrder := by
          have := hb.1
          simp only [Block.left] at this ⊢
          omega
        have := S.coalesced _ hf hlt
        rw [Block.buddy_left] at this
        exact absurd hg this

/-- The free blocks are the maximal blocks without a used page. -/
theorem mem_free_iff (b : Block) :
    b ∈ S.free ↔ b.Within S.maxOrder ∧ (∀ c ∈ S.used, ∀ x ∈ b, x ∉ c) ∧
      (b.order < S.maxOrder → ∃ c ∈ S.used, ∃ x ∈ b.parent, x ∈ c) := by
  constructor
  · intro hb
    have hw := S.within_free hb
    refine ⟨hw, fun c hc x hx => S.apart hb hc hx, fun hM => ?_⟩
    by_contra hno
    have hno' : ∀ c ∈ S.used, ∀ x ∈ b.parent, x ∉ c := fun c hc x hx hxc => hno ⟨c, hc, x, hx, hxc⟩
    obtain ⟨f, hf, hord, hpf⟩ := S.exists_free (hw.parent hM) hno'
    have hbf := S.free_apart hb hf b.first_mem (hpf _ (Block.mem_parent_of_mem b.first_mem))
    subst hbf
    simp at hord
  · rintro ⟨hw, hu, hmax⟩
    obtain ⟨f, hf, hord, hbf⟩ := S.exists_free hw hu
    rcases Nat.lt_or_eq_of_le hord with hlt | heq
    · have hM : b.order < S.maxOrder := by
        have := (S.within_free hf).1
        omega
      obtain ⟨c, hc, x, hx, hxc⟩ := hmax hM
      have hxf : x ∈ f := Block.nested (Block.mem_parent_of_mem b.first_mem) (hbf _ b.first_mem)
        (by rw [Block.parent_order]; omega) hx
      exact absurd hxc (S.apart hf hc hxf)
    · have := Block.ext_of_mem b.first_mem (hbf _ b.first_mem) heq
      rwa [this]

/-- **Canonicity.**  The used blocks determine the free ones. -/
theorem free_ext {S T : BuddySystem} (hM : S.maxOrder = T.maxOrder) (hu : S.used = T.used) :
    S.free = T.free := by
  ext b
  rw [mem_free_iff, mem_free_iff, hM, hu]

/-- With nothing in use there is one free block, the whole. -/
theorem free_of_used_empty (hu : S.used = ∅) : S.free = {⟨S.maxOrder, 0⟩} :=
  free_ext (T := init S.maxOrder) rfl hu

/-- Free and used pages add up. -/
theorem sum_size : ∑ b ∈ S.free, 2 ^ b.order + ∑ b ∈ S.used, 2 ^ b.order = 2 ^ S.maxOrder := by
  rw [← Finset.sum_union S.disj, S.tiles.sum_size]

end BuddySystem

end HelixKernel
