import HelixKernel.Mm.Pmm

/-!
The two doubling loops of `pmm.cpp`.  `orderFor n` is the least order whose block
holds `n` bytes (`orderFor_le_iff`, for sizes whose rounding does not wrap), and
`newSegment` gets the largest order that fits the region (`newSegment_maxOrder`). -/

namespace HelixKernel

/-! ## `while ((1ULL << order) < pages) order++;` -/

theorem orderLoop_spec (pages : Nat) : ∀ (fuel order : Nat), (∀ j, j < order → 2 ^ j < pages) →
    pages ≤ 2 ^ (order + fuel) →
    pages ≤ 2 ^ orderLoop pages fuel order ∧ ∀ j, j < orderLoop pages fuel order → 2 ^ j < pages := by
  intro fuel
  induction fuel with
  | zero =>
    intro order hlt hle
    exact ⟨hle, hlt⟩
  | succ fuel ih =>
    intro order hlt hle
    unfold orderLoop
    rw [Nat.one_shiftLeft]
    split
    · next hnext =>
      refine ih (order + 1) (fun j hj => ?_) (by rwa [Nat.add_right_comm, Nat.add_assoc])
      rcases Nat.lt_succ_iff_lt_or_eq.mp hj with hj | rfl
      · exact hlt j hj
      · exact hnext
    · next hstop => exact ⟨by omega, hlt⟩

theorem pagesFor_lt (n : Nat) : pagesFor n < 2 ^ 52 := by
  unfold pagesFor
  have := wrap64_lt (n + 0xFFF)
  rw [Nat.shiftRight_eq_div_pow]
  omega

theorem orderFor_spec (n : Nat) :
    pagesFor n ≤ 2 ^ orderFor n ∧ ∀ j, j < orderFor n → 2 ^ j < pagesFor n := by
  refine orderLoop_spec _ 64 0 (fun j hj => absurd hj (Nat.not_lt_zero j)) ?_
  have := pagesFor_lt n
  omega

theorem orderFor_le_iff_pages (n k : Nat) : orderFor n ≤ k ↔ pagesFor n ≤ 2 ^ k := by
  obtain ⟨hle, hlt⟩ := orderFor_spec n
  constructor
  · intro h
    exact Nat.le_trans hle (Nat.pow_le_pow_right (by decide) h)
  · intro h
    by_contra hk
    have := hlt k (by omega)
    omega

/-- `orderFor n` is the least order whose block holds `n` bytes. -/
theorem orderFor_le_iff {n : Nat} (hn : n ≤ 2 ^ 64 - 4096) (k : Nat) :
    orderFor n ≤ k ↔ n ≤ 2 ^ (k + 12) := by
  rw [orderFor_le_iff_pages, pagesFor, wrap64_of_lt (by omega), Nat.shiftRight_eq_div_pow, Nat.pow_add]
  generalize 2 ^ k = K
  omega

/-! ## `while ((1ULL << (order + 1)) <= pages) order++;` -/

theorem maxOrderLoop_spec (pages : Nat) : ∀ (fuel order : Nat), 2 ^ order ≤ pages ∨ order = 0 →
    pages < 2 ^ (order + 1 + fuel) →
    (2 ^ maxOrderLoop pages fuel order ≤ pages ∨ maxOrderLoop pages fuel order = 0) ∧
      pages < 2 ^ (maxOrderLoop pages fuel order + 1) := by
  intro fuel
  induction fuel with
  | zero =>
    intro order hle hlt
    exact ⟨hle, hlt⟩
  | succ fuel ih =>
    intro order hle hlt
    unfold maxOrderLoop
    rw [Nat.one_shiftLeft]
    split
    · next hnext => exact ih (order + 1) (.inl hnext) (by rwa [Nat.add_right_comm (order + 1)])
    · next hstop => exact ⟨hle, by omega⟩

theorem newSegment_maxOrder (base : Nat) {length : Nat} (hl : length < 2 ^ 64) :
    (2 ^ (newSegment base length).maxOrder ≤ length / 4096 ∨ (newSegment base length).maxOrder = 0) ∧
      length / 4096 < 2 ^ ((newSegment base length).maxOrder + 1) := by
  have h12 : length >>> 12 = length / 4096 := Nat.shiftRight_eq_div_pow length 12
  unfold newSegment
  simp only [h12]
  exact maxOrderLoop_spec (length / 4096) 64 0 (.inr rfl) (by omega)

/-- Sixteen lists are enough exactly for regions below 2^16 pages. -/
theorem newSegment_maxOrder_le_iff (base : Nat) {length : Nat} (hl : length < 2 ^ 64) :
    (newSegment base length).maxOrder ≤ 15 ↔ length / 4096 < 2 ^ 16 := by
  obtain ⟨hlow, hhigh⟩ := newSegment_maxOrder base hl
  constructor
  · intro h
    have : 2 ^ ((newSegment base length).maxOrder + 1) ≤ 2 ^ 16 :=
      Nat.pow_le_pow_right (by decide) (by omega)
    omega
  · intro h
    by_contra hno
    have : 2 ^ 16 ≤ 2 ^ (newSegment base length).maxOrder := Nat.pow_le_pow_right (by decide) (by omega)
    omega

end HelixKernel
