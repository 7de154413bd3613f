import HelixKernel.Lib.ByteWords

/-!
Counted loops.

`forUp lo hi` and `forDown hi lo` are the loops `for (i = lo; i < hi; i++)` and
`for (i = hi; i > lo; ) { i--; ... }`; an invariant that each turn takes on by one holds at the end
(`forUp_returns`, `forDown_returns`). -/

namespace HelixKernel

section Loops

variable {m : Type → Type} [Monad m] {σ : Type}

def upFrom (body : Nat → σ → m σ) (lo : Nat) : Nat → σ → m σ
  | 0, s => pure s
  | n + 1, s => do
    let s ← body lo s
    upFrom body (lo + 1) n s

/-- `for (i = lo; i < hi; i++)`, with the loop's variables as its state. -/
def forUp (lo hi : Nat) (body : Nat → σ → m σ) (s : σ) : m σ := upFrom body lo (hi - lo) s

def downFrom (body : Nat → σ → m σ) (lo : Nat) : Nat → σ → m σ
  | 0, s => pure s
  | n + 1, s => do
    let s ← body (lo + n) s
    downFrom body lo n s

/-- `for (i = hi; i > lo; ) { i--; ... }` -/
def forDown (hi lo : Nat) (body : Nat → σ → m σ) (s : σ) : m σ := downFrom body lo (hi - lo) s

end Loops

section Returns

variable {ε σ : Type} {body : Nat → σ → Except ε σ} {lo hi : Nat} {s : σ}

theorem upFrom_returns (I : Nat → σ → Prop) (n : Nat) (h : I lo s)
    (hstep : ∀ i s, lo ≤ i → i < lo + n → I i s → Returns (I (i + 1)) (body i s)) :
    Returns (I (lo + n)) (upFrom body lo n s) := by
  induction n generalizing lo s with
  | zero => exact .ok h
  | succ n ih =>
    refine Returns.bind (hstep lo s (Nat.le_refl lo) (by omega) h) fun s' h' => ?_
    have hrest := ih h' fun i t hlo hhi => hstep i t (by omega) (by omega)
    rwa [show lo + 1 + n = lo + (n + 1) by omega] at hrest

/-- An invariant of the loop: it holds before the first turn, and each turn takes it on by one. -/
theorem forUp_returns (I : Nat → σ → Prop) (hle : lo ≤ hi) (h : I lo s)
    (hstep : ∀ i s, lo ≤ i → i < hi → I i s → Returns (I (i + 1)) (body i s)) :
    Returns (I hi) (forUp lo hi body s) := by
  have hrun := upFrom_returns I (hi - lo) h fun i t hlo hhi => hstep i t hlo (by omega)
  rwa [Nat.add_sub_cancel' hle] at hrun

theorem downFrom_returns (I : Nat → σ → Prop) (n : Nat) (h : I (lo + n) s)
    (hstep : ∀ i s, lo ≤ i → i < lo + n → I (i + 1) s → Returns (I i) (body i s)) :
    Returns (I lo) (downFrom body lo n s) := by
  induction n generalizing s with
  | zero => exact .ok h
  | succ n ih =>
    refine Returns.bind (hstep (lo + n) s (by omega) (by omega) h) fun s' h' => ?_
    exact ih h' fun i t hlo hhi => hstep i t hlo (by omega)

theorem forDown_returns (I : Nat → σ → Prop) (hle : lo ≤ hi) (h : I hi s)
    (hstep : ∀ i s, lo ≤ i → i < hi → I (i + 1) s → Returns (I i) (body i s)) :
    Returns (I lo) (forDown hi lo body s) := by
  refine downFrom_returns I (hi - lo) ?_ fun i t hlo hhi => hstep i t hlo (by omega)
  rwa [Nat.add_sub_cancel' hle]

end Returns

end HelixKernel
