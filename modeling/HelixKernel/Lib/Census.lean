import HelixKernel.Lib.Interleave
import Mathlib.Algebra.BigOperators.Group.Finset.Basic
import Mathlib.Algebra.Order.BigOperators.Group.Finset
import Mathlib.Data.Fintype.Card
import Mathlib.Tactic.Common

/-!
Rules for runs of contexts, beside that of `Lib/Interleave`.

An invariant of whole states is kept if each step keeps it (`Reaches.rule`).  Where finitely many
contexts count themselves in a shared number, the invariant is an equation between this number
and a census, how many of them are at certain places, and a step changes a census by what it says
of one context (`Step.census`).  A run of one system is one of a coarser one if each of its steps
is matched there (`Reaches.simulates`).  And if in every state of a run in which some context has
still to go somewhere one of them can take a step towards it, all get there (`Reaches.drains`). -/

namespace HelixKernel

namespace Contexts

variable {ι σ τ : Type} {move : σ → τ → σ → τ → Prop} {Q : σ → τ → τ → Prop}
  {s s' s₀ : Contexts ι σ τ} {i j : ι}

/-! ## Invariants -/

theorem Reaches.rule {I : Contexts ι σ τ → Prop} (h : Reaches move Q s₀ s) (h₀ : I s₀)
    (hstep : ∀ s s' i, I s → s.Allowed Q i → Step move i s s' → I s') : I s := by
  induction h with
  | refl => exact h₀
  | tail _ ha hs ih => exact hstep _ _ _ ih ha hs

/-- The steps of a run are matched, one by one, by runs of another system. -/
theorem Reaches.simulates {σ' τ' : Type} {move' : σ' → τ' → σ' → τ' → Prop}
    {Q' : σ' → τ' → τ' → Prop} {R : Contexts ι σ τ → Contexts ι σ' τ' → Prop}
    {t₀ : Contexts ι σ' τ'} (h : Reaches move Q s₀ s) (h₀ : R s₀ t₀)
    (hstep : ∀ s s' t i, Reaches move' Q' t₀ t → R s t → s.Allowed Q i → Step move i s s' →
      ∃ t', Reaches move' Q' t t' ∧ R s' t') :
    ∃ t, Reaches move' Q' t₀ t ∧ R s t := by
  induction h with
  | refl => exact ⟨t₀, .refl, h₀⟩
  | tail _ ha hs ih =>
    obtain ⟨t, hreach, hR⟩ := ih
    obtain ⟨t', hreach', hR'⟩ := hstep _ _ _ _ hreach hR ha hs
    exact ⟨t', hreach.trans hreach', hR'⟩

/-- A run that goes on with a step of context `i`, where nothing restricts the order. -/
theorem Reaches.next [DecidableEq ι] {x : σ} {l : τ} (h : Reaches move (fun _ _ _ => True) s₀ s)
    (hmove : move s.shared (s.loc i) x l) : Reaches move (fun _ _ _ => True) s₀ (s.set i x l) :=
  h.tail (fun _ _ => trivial) (step_set hmove)

variable [Fintype ι]

/-! ## Counting -/

/-- How many contexts are at a place that `p` says. -/
def census (p : τ → Bool) (s : Contexts ι σ τ) : Nat := ∑ i, (p (s.loc i)).toNat

variable {p q : τ → Bool}

theorem census_le_card : s.census p ≤ Fintype.card ι := by
  have hone : ∀ i ∈ (Finset.univ : Finset ι), (p (s.loc i)).toNat ≤ 1 := fun i _ => Bool.toNat_le _
  simpa [census] using Finset.sum_le_card_nsmul Finset.univ _ 1 hone

theorem census_start {l : τ} (hl : p l = false) (hs : ∀ i, s.loc i = l) : s.census p = 0 := by
  simp [census, hs, hl]

theorem census_mono (h : ∀ l, p l = true → q l = true) : s.census p ≤ s.census q := by
  refine Finset.sum_le_sum fun i _ => ?_
  cases hp : p (s.loc i) with
  | false => simp
  | true => rw [h _ hp]

theorem exists_of_census_pos (h : 0 < s.census p) : ∃ i, p (s.loc i) = true := by
  obtain ⟨i, -, hi⟩ := Finset.exists_ne_zero_of_sum_ne_zero (Nat.pos_iff_ne_zero.1 h)
  exact ⟨i, by simpa using hi⟩

variable [DecidableEq ι]

/-- The others, and context `i`. -/
theorem census_split (i : ι) (p : τ → Bool) (s : Contexts ι σ τ) :
    s.census p = (p (s.loc i)).toNat + ∑ j ∈ Finset.univ.erase i, (p (s.loc j)).toNat :=
  (Finset.add_sum_erase _ (fun j => (p (s.loc j)).toNat) (Finset.mem_univ i)).symm

theorem census_pos (hi : p (s.loc i) = true) : 1 ≤ s.census p := by
  rw [census_split i, hi]
  exact Nat.le_add_right 1 _

omit [DecidableEq ι] in
theorem census_lt_card (hi : p (s.loc i) = false) : s.census p < Fintype.card ι := by
  have hlt : ∑ j, (p (s.loc j)).toNat < ∑ _j : ι, 1 := by
    refine Finset.sum_lt_sum (fun j _ => Bool.toNat_le _) ⟨i, Finset.mem_univ i, ?_⟩
    simp [hi]
  simpa [census] using hlt

theorem census_two (hne : i ≠ j) (hi : p (s.loc i) = true) (hj : p (s.loc j) = true) :
    2 ≤ s.census p := by
  have hrest : (p (s.loc j)).toNat ≤ ∑ k ∈ Finset.univ.erase i, (p (s.loc k)).toNat :=
    Finset.single_le_sum (f := fun k => (p (s.loc k)).toNat) (fun _ _ => Nat.zero_le _)
      (Finset.mem_erase.2 ⟨hne.symm, Finset.mem_univ j⟩)
  rw [hj] at hrest
  rw [census_split i, hi]
  exact Nat.add_le_add_left hrest 1

/-- Where only context `i` is at a place that `q` says. -/
theorem census_of_alone (hq : s.census q ≤ 1) (hi : q (s.loc i) = true)
    (hpq : ∀ l, p l = true → q l = true) : s.census p = (p (s.loc i)).toNat := by
  have hle : s.census p ≤ 1 := (census_mono hpq).trans hq
  cases hp : p (s.loc i) with
  | true =>
    have hpos : 1 ≤ s.census p := census_pos hp
    simpa using Nat.le_antisymm hle hpos
  | false =>
    refine Nat.eq_zero_of_not_pos fun hpos => ?_
    obtain ⟨j, hj⟩ := exists_of_census_pos hpos
    have hne : i ≠ j := by
      rintro rfl
      simp [hp] at hj
    exact absurd (census_two hne hi (hpq _ hj)) (by omega)

/-- **What a step does to a census.** -/
theorem Step.census (h : Step move i s s') (p : τ → Bool) :
    s'.census p + (p (s.loc i)).toNat = s.census p + (p (s'.loc i)).toNat := by
  have hothers : ∑ j ∈ Finset.univ.erase i, (p (s'.loc j)).toNat =
      ∑ j ∈ Finset.univ.erase i, (p (s.loc j)).toNat :=
    Finset.sum_congr rfl fun j hj => by rw [h.others j (Finset.ne_of_mem_erase hj)]
  rw [census_split i p s', census_split i p s, hothers]
  omega

/-! ## Getting somewhere -/

/-- The way the contexts have still to go. -/
def way (rank : τ → Nat) (s : Contexts ι σ τ) : Nat := ∑ i, rank (s.loc i)

theorem Step.way_lt {rank : τ → Nat} (h : Step move i s s')
    (hlt : rank (s'.loc i) < rank (s.loc i)) : s'.way rank < s.way rank := by
  refine Finset.sum_lt_sum (fun j _ => ?_) ⟨i, Finset.mem_univ i, hlt⟩
  by_cases hj : j = i
  · rw [hj]
    exact hlt.le
  · rw [h.others j hj]

/-- **All get there** if one can always take a step towards it. -/
theorem Reaches.drains {rank : τ → Nat} (h : Reaches move Q s₀ s)
    (hstep : ∀ s, Reaches move Q s₀ s → (∃ i, rank (s.loc i) ≠ 0) →
      ∃ i s', s.Allowed Q i ∧ Step move i s s' ∧ rank (s'.loc i) < rank (s.loc i)) :
    ∃ s', Reaches move Q s s' ∧ ∀ i, rank (s'.loc i) = 0 := by
  induction hn : s.way rank using Nat.strong_induction_on generalizing s with
  | _ n ih =>
    by_cases hall : ∃ i, rank (s.loc i) ≠ 0
    · obtain ⟨i, s₁, ha, hs, hlt⟩ := hstep s h hall
      obtain ⟨s', hreach, hs'⟩ := ih _ (hn ▸ hs.way_lt hlt) (h.tail ha hs) rfl
      exact ⟨s', (Reaches.single ha hs).trans hreach, hs'⟩
    · refine ⟨s, .refl, fun i => ?_⟩
      by_contra hi
      exact hall ⟨i, hi⟩

end Contexts

end HelixKernel
