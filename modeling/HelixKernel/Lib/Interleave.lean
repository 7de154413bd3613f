import Mathlib.Logic.Function.Basic

/-!
Contexts, any number of them, that take atomic steps over a shared state in any order.

`move x l x' l'` is what one of them does: it goes from `l` to `l'`, and the shared state from `x`
to `x'`.  Where the order is restricted, a context at `l` steps only if `Q x l m` for every other
one, at `m`.  What holds of each context and of every two of them holds in every state that is
reached, if one step keeps it beside one other context (`Reaches.pairwise`). -/

namespace HelixKernel

/-- The shared state, and where each context is. -/
structure Contexts (ι σ τ : Type) where
  shared : σ
  loc : ι → τ

namespace Contexts

variable {ι σ τ : Type}

/-- Context `i` takes a step. -/
structure Step (move : σ → τ → σ → τ → Prop) (i : ι) (s s' : Contexts ι σ τ) : Prop where
  own : move s.shared (s.loc i) s'.shared (s'.loc i)
  others : ∀ j, j ≠ i → s'.loc j = s.loc j

/-- Context `i` may take one. -/
def Allowed (Q : σ → τ → τ → Prop) (i : ι) (s : Contexts ι σ τ) : Prop :=
  ∀ j, j ≠ i → Q s.shared (s.loc i) (s.loc j)

inductive Reaches (move : σ → τ → σ → τ → Prop) (Q : σ → τ → τ → Prop) (s : Contexts ι σ τ) :
    Contexts ι σ τ → Prop where
  | refl : Reaches move Q s s
  | tail {s' s'' : Contexts ι σ τ} {i : ι} : Reaches move Q s s' → s'.Allowed Q i →
      Step move i s' s'' → Reaches move Q s s''

/-- `I` holds of each context, and `J` of every two. -/
structure Pairwise (I : σ → τ → Prop) (J : τ → τ → Prop) (s : Contexts ι σ τ) : Prop where
  each : ∀ i, I s.shared (s.loc i)
  both : ∀ i j, i ≠ j → J (s.loc i) (s.loc j)

/-- One step, beside one other context at `m`, keeps them. -/
structure StepKeeps (move : σ → τ → σ → τ → Prop) (Q : σ → τ → τ → Prop) (I : σ → τ → Prop)
    (J : τ → τ → Prop) : Prop where
  own {x x' : σ} {l l' : τ} : move x l x' l' → I x l → I x' l'
  other {x x' : σ} {l l' m : τ} : move x l x' l' → Q x l m → I x l → I x m → J l m →
    I x' m ∧ J l' m
  symm {l m : τ} : J l m → J m l

variable {move : σ → τ → σ → τ → Prop} {Q : σ → τ → τ → Prop} {I : σ → τ → Prop} {J : τ → τ → Prop}
  {s s' s'' : Contexts ι σ τ} {i : ι}

/-! ## Invariants -/

theorem Pairwise.step (h : Pairwise I J s) (hk : StepKeeps move Q I J) (ha : s.Allowed Q i)
    (hstep : Step move i s s') : Pairwise I J s' := by
  have hbeside : ∀ j, j ≠ i → I s'.shared (s'.loc j) ∧ J (s'.loc i) (s'.loc j) := by
    intro j hj
    rw [hstep.others j hj]
    exact hk.other hstep.own (ha j hj) (h.each i) (h.each j) (h.both i j (Ne.symm hj))
  constructor
  · intro j
    by_cases hj : j = i
    · rw [hj]
      exact hk.own hstep.own (h.each i)
    · exact (hbeside j hj).1
  · intro j k hjk
    by_cases hj : j = i
    · rw [hj]
      exact (hbeside k fun hk => hjk (hj.trans hk.symm)).2
    · by_cases hki : k = i
      · rw [hki]
        exact hk.symm (hbeside j hj).2
      · rw [hstep.others j hj, hstep.others k hki]
        exact h.both j k hjk

/-- **The invariant rule.** -/
theorem Reaches.pairwise (h : Reaches move Q s s') (hk : StepKeeps move Q I J)
    (hs : Pairwise I J s) : Pairwise I J s' := by
  induction h with
  | refl => exact hs
  | tail _ ha hstep ih => exact ih.step hk ha hstep

/-! ## Runs -/

theorem Reaches.trans (h : Reaches move Q s s') (h' : Reaches move Q s' s'') :
    Reaches move Q s s'' := by
  induction h' with
  | refl => exact h
  | tail _ ha hstep ih => exact ih.tail ha hstep

theorem Reaches.single (ha : s.Allowed Q i) (hstep : Step move i s s') : Reaches move Q s s' :=
  .tail .refl ha hstep

variable [DecidableEq ι]

/-- Context `i` has gone to `l`, and the shared state to `x`. -/
def set (s : Contexts ι σ τ) (i : ι) (x : σ) (l : τ) : Contexts ι σ τ :=
  ⟨x, Function.update s.loc i l⟩

variable {x : σ} {l : τ} {j : ι}

@[simp] theorem set_shared : (s.set i x l).shared = x := rfl

@[simp] theorem set_loc_self : (s.set i x l).loc i = l := by
  simp [set]

theorem set_loc_of_ne (h : j ≠ i) : (s.set i x l).loc j = s.loc j := by
  simp [set, h]

theorem step_set (h : move s.shared (s.loc i) x l) : Step move i s (s.set i x l) where
  own := by
    rw [set_shared, set_loc_self]
    exact h
  others _ hj := set_loc_of_ne hj

end Contexts

end HelixKernel
