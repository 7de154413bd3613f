import Mathlib.Data.Nat.Bitwise
import Mathlib.Order.Interval.Finset.Nat

/-!
Dyadic blocks of pages.

The block `⟨k, j⟩` is the run of `2 ^ k` pages `j * 2 ^ k, …, (j + 1) * 2 ^ k - 1`:
a page `x` is in it iff `x / 2 ^ k = j`.  Two blocks with a common page are
nested (`Block.nested`), so two different blocks of one order are disjoint
(`Block.ext_of_mem`).  A block and its `buddy` are the two halves of its
`parent` (`Block.mem_parent`). -/

namespace HelixKernel

/-- The `2 ^ order` pages starting at page `idx * 2 ^ order`. -/
structure Block where
  order : Nat
  idx : Nat
deriving DecidableEq, Repr

namespace Block

instance : Membership Nat Block where
  mem b x := x / 2 ^ b.order = b.idx

theorem mem_def {b : Block} {x : Nat} : x ∈ b ↔ x / 2 ^ b.order = b.idx := Iff.rfl

instance (b : Block) (x : Nat) : Decidable (x ∈ b) := decidable_of_iff _ mem_def.symm

/-- The first page of a block. -/
def first (b : Block) : Nat := b.idx * 2 ^ b.order

theorem mem_iff_range {b : Block} {x : Nat} :
    x ∈ b ↔ b.first ≤ x ∧ x < b.first + 2 ^ b.order := by
  rw [mem_def, Nat.div_eq_iff (Nat.two_pow_pos _), first]
  have := Nat.two_pow_pos b.order
  omega

theorem first_mem (b : Block) : b.first ∈ b := by
  rw [mem_iff_range]
  have := Nat.two_pow_pos b.order
  omega

/-! ## Nesting -/

theorem ext_of_mem {b c : Block} {x : Nat} (hb : x ∈ b) (hc : x ∈ c) (h : b.order = c.order) :
    b = c := by
  obtain ⟨k, i⟩ := b
  obtain ⟨l, j⟩ := c
  simp only at h
  subst h
  simp only [mem_def] at hb hc
  rw [← hb, ← hc]

/-- A block that meets a larger one is inside it. -/
theorem nested {b c : Block} {x y : Nat} (hb : x ∈ b) (hc : x ∈ c) (h : b.order ≤ c.order)
    (hy : y ∈ b) : y ∈ c := by
  have hpow : 2 ^ c.order = 2 ^ b.order * 2 ^ (c.order - b.order) := by
    rw [← Nat.pow_add]
    congr 1
    omega
  rw [mem_def] at hb hc hy ⊢
  rw [hpow, ← Nat.div_div_eq_div_mul] at hc ⊢
  rw [hy, ← hb]
  exact hc

/-! ## Buddies -/

def buddy (b : Block) : Block := ⟨b.order, b.idx ^^^ 1⟩

def parent (b : Block) : Block := ⟨b.order + 1, b.idx / 2⟩

@[simp] theorem buddy_order (b : Block) : b.buddy.order = b.order := rfl
@[simp] theorem parent_order (b : Block) : b.parent.order = b.order + 1 := rfl

theorem xor_one_div (i : Nat) : (i ^^^ 1) / 2 = i / 2 := by
  rw [Nat.xor_div_two]
  simp

theorem xor_one_mod (i : Nat) : (i ^^^ 1) % 2 = (i + 1) % 2 := Nat.xor_mod_two_eq

@[simp] theorem buddy_buddy (b : Block) : b.buddy.buddy = b := by
  simp [buddy]

theorem buddy_ne (b : Block) : b.buddy ≠ b := by
  intro h
  have hi : b.idx ^^^ 1 = b.idx := congrArg Block.idx h
  have := xor_one_mod b.idx
  omega

@[simp] theorem buddy_parent (b : Block) : b.buddy.parent = b.parent := by
  simp only [parent, buddy, xor_one_div]

theorem mem_parent_of_mem {b : Block} {x : Nat} (h : x ∈ b) : x ∈ b.parent := by
  rw [mem_def] at h ⊢
  rw [parent_order, Nat.pow_succ, ← Nat.div_div_eq_div_mul, h]
  rfl

/-- **A parent is the union of its two halves.** -/
theorem mem_parent {b : Block} {x : Nat} : x ∈ b.parent ↔ x ∈ b ∨ x ∈ b.buddy := by
  constructor
  · intro h
    rw [mem_def, parent_order, Nat.pow_succ, ← Nat.div_div_eq_div_mul] at h
    have hd := xor_one_div b.idx
    have hm := xor_one_mod b.idx
    simp only [mem_def, buddy]
    simp only [parent] at h
    omega
  · rintro (h | h)
    · exact mem_parent_of_mem h
    · rw [← buddy_parent]
      exact mem_parent_of_mem h

/-! ## Halves -/

/-- The lower half of `⟨k + 1, j⟩`. -/
def left (k j : Nat) : Block := ⟨k, 2 * j⟩

/-- The upper half of `⟨k + 1, j⟩`. -/
def right (k j : Nat) : Block := ⟨k, 2 * j + 1⟩

theorem xor_one_odd (j : Nat) : (2 * j + 1) ^^^ 1 = 2 * j := by
  have := xor_one_div (2 * j + 1)
  have := xor_one_mod (2 * j + 1)
  omega

@[simp] theorem buddy_left (k j : Nat) : (left k j).buddy = right k j := by
  simp [left, right, buddy]

@[simp] theorem buddy_right (k j : Nat) : (right k j).buddy = left k j := by
  simp [left, right, buddy, xor_one_odd]

@[simp] theorem parent_left (k j : Nat) : (left k j).parent = ⟨k + 1, j⟩ := by
  simp [left, parent]

theorem mem_halves {k j x : Nat} : x ∈ (⟨k + 1, j⟩ : Block) ↔ x ∈ left k j ∨ x ∈ right k j := by
  rw [← parent_left, mem_parent, buddy_left]

/-- A block or its buddy is the lower half of the parent. -/
theorem first_parent (b : Block) : b.parent.first = min b.first b.buddy.first := by
  obtain ⟨k, i⟩ := b
  simp only [parent, buddy, first]
  rw [Nat.pow_succ, Nat.mul_comm (2 ^ k) 2, ← Nat.mul_assoc]
  have hd := xor_one_div i
  have hm := xor_one_mod i
  rcases Nat.mod_two_eq_zero_or_one i with h | h
  · have h1 : i / 2 * 2 = i := by omega
    have h2 : i ≤ i ^^^ 1 := by omega
    rw [h1, Nat.min_eq_left (Nat.mul_le_mul_right _ h2)]
  · have h1 : i / 2 * 2 = i ^^^ 1 := by omega
    have h2 : i ^^^ 1 ≤ i := by omega
    rw [h1, Nat.min_eq_right (Nat.mul_le_mul_right _ h2)]

/-! ## Blocks inside the first `2 ^ M` pages -/

/-- `b` lies within pages `0, …, 2 ^ M - 1`. -/
def Within (M : Nat) (b : Block) : Prop := b.order ≤ M ∧ b.first + 2 ^ b.order ≤ 2 ^ M

theorem Within.lt {M : Nat} {b : Block} (h : b.Within M) {x : Nat} (hx : x ∈ b) : x < 2 ^ M := by
  have := mem_iff_range.mp hx
  have := h.2
  omega

theorem within_iff_mem {M : Nat} {b : Block} (h : b.order ≤ M) {x : Nat} (hx : x ∈ b) :
    b.Within M ↔ x < 2 ^ M := by
  refine ⟨fun hw => hw.lt hx, fun hlt => ⟨h, ?_⟩⟩
  -- the root block ⟨M, 0⟩ meets b, hence contains its last page
  have hroot : x ∈ (⟨M, 0⟩ : Block) := by
    rw [mem_def]
    exact Nat.div_eq_of_lt hlt
  have hpos := Nat.two_pow_pos b.order
  have hlast : b.first + 2 ^ b.order - 1 ∈ b := by
    rw [mem_iff_range]
    omega
  have := mem_iff_range.mp (nested hx hroot h hlast)
  simp only [first] at this hlast ⊢
  omega

theorem within_root (M : Nat) : (⟨M, 0⟩ : Block).Within M := by
  simp [Within, first]

theorem Within.parent {M : Nat} {b : Block} (h : b.Within M) (hM : b.order < M) :
    b.parent.Within M := by
  rw [within_iff_mem (by simp only [parent_order]; omega) (mem_parent_of_mem b.first_mem)]
  exact h.lt b.first_mem

theorem Within.buddy {M : Nat} {b : Block} (h : b.Within M) (hM : b.order < M) :
    b.buddy.Within M := by
  refine (within_iff_mem (b := b.buddy) h.1 b.buddy.first_mem).mpr ?_
  exact (h.parent hM).lt (mem_parent.mpr (.inr b.buddy.first_mem))

theorem Within.left {M k j : Nat} (h : (⟨k + 1, j⟩ : Block).Within M) : (left k j).Within M := by
  have hk : (Block.left k j).order ≤ M := by
    have := h.1
    simp only [Block.left] at this ⊢
    omega
  rw [within_iff_mem hk (first_mem _)]
  exact h.lt (mem_halves.mpr (.inl (first_mem _)))

theorem Within.right {M k j : Nat} (h : (⟨k + 1, j⟩ : Block).Within M) : (right k j).Within M := by
  have hk : (Block.right k j).order ≤ M := by
    have := h.1
    simp only [Block.right] at this ⊢
    omega
  rw [within_iff_mem hk (first_mem _)]
  exact h.lt (mem_halves.mpr (.inr (first_mem _)))

/-- The pages of a block, as a set of `2 ^ order` numbers. -/
def pages (b : Block) : Finset Nat := Finset.Ico b.first (b.first + 2 ^ b.order)

@[simp] theorem mem_pages {b : Block} {x : Nat} : x ∈ b.pages ↔ x ∈ b := by
  rw [pages, Finset.mem_Ico, mem_iff_range]

@[simp] theorem card_pages (b : Block) : b.pages.card = 2 ^ b.order := by
  simp [pages]

end Block

end HelixKernel
