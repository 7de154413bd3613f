import Mathlib.Data.List.Nodup
import Mathlib.Data.Finset.Card
import Mathlib.Logic.Function.Basic

/-!
Null-terminated singly linked chains.

`next` is the link field of every cell, `null` the terminator.  A list threaded
through its own cells (an intrusive list) is described twice:

* `Linked null next h a`: following `next` from `h` meets `a` before `null`.
  It makes sense for any `next`, also for one that runs in a circle.
* `Chain null next h xs`: the cells met from `h` are exactly `xs`, in order, and
  then `null`.  A chain never repeats a cell (`Chain.nodup`).

The operations of an intrusive list are updates of `next` at one cell:
`Chain.push` (new head), `Chain.snoc` (new last cell), `Chain.pop` (old head),
`Chain.unlink` (a cell behind its predecessor); `Chain.congr` is the frame rule. -/

namespace HelixKernel

variable {α : Type}

/-- Following `next` from `h` visits exactly `xs` and then `null`. -/
def Chain (null : α) (next : α → α) : α → List α → Prop
  | h, [] => h = null
  | h, x :: xs => h = x ∧ x ≠ null ∧ Chain null next (next x) xs

/-- Following `next` from `h` meets `a` before `null`. -/
inductive Linked (null : α) (next : α → α) : α → α → Prop
  | head {h : α} : h ≠ null → Linked null next h h
  | step {h a : α} : h ≠ null → Linked null next (next h) a → Linked null next h a

variable {null : α} {next next' : α → α} {h : α} {xs ys : List α}

theorem Linked.ne_null {a : α} (hl : Linked null next h a) : h ≠ null := by
  cases hl with
  | head hne => exact hne
  | step hne _ => exact hne

theorem Chain.nil_iff (hc : Chain null next h xs) : h = null ↔ xs = [] := by
  cases xs with
  | nil => simpa [Chain] using hc
  | cons x xs =>
    obtain ⟨rfl, hx, -⟩ := hc
    simp [hx]

theorem Chain.mem_ne_null (hc : Chain null next h xs) : ∀ a ∈ xs, a ≠ null := by
  induction xs generalizing h with
  | nil => simp
  | cons x xs ih =>
    obtain ⟨rfl, hx, ht⟩ := hc
    intro a ha
    rcases List.mem_cons.mp ha with rfl | ha
    · exact hx
    · exact ih ht a ha

/-- The cells are determined by the head. -/
theorem Chain.unique (hx : Chain null next h xs) (hy : Chain null next h ys) : xs = ys := by
  induction xs generalizing h ys with
  | nil => exact (hy.nil_iff.mp hx).symm
  | cons x xs ih =>
    obtain ⟨rfl, hne, ht⟩ := hx
    cases ys with
    | nil => exact absurd hy hne
    | cons y ys =>
      obtain ⟨rfl, -, ht'⟩ := hy
      rw [ih ht ht']

theorem Chain.suffix {l1 l2 : List α} {x : α} (hc : Chain null next h (l1 ++ x :: l2)) :
    Chain null next x (x :: l2) := by
  induction l1 generalizing h with
  | nil =>
    obtain ⟨rfl, hx, ht⟩ := hc
    exact ⟨rfl, hx, ht⟩
  | cons y l1 ih => exact ih hc.2.2

/-- A cell links to the null or to another cell. -/
theorem Chain.next_mem (hc : Chain null next h xs) {a : α} (ha : a ∈ xs) :
    next a = null ∨ next a ∈ xs := by
  obtain ⟨l1, l2, rfl⟩ := List.append_of_mem ha
  obtain ⟨-, -, ht⟩ := hc.suffix
  cases l2 with
  | nil => exact .inl ht
  | cons y l2 =>
    obtain ⟨hy, -, -⟩ := ht
    rw [hy]
    exact .inr (by simp)

/-- A chain never comes back to a cell: the two tails would be the same list
at different lengths. -/
theorem Chain.nodup (hc : Chain null next h xs) : xs.Nodup := by
  induction xs generalizing h with
  | nil => exact List.nodup_nil
  | cons x xs ih =>
    have hhead : Chain null next x (x :: xs) := ⟨rfl, hc.2.1, hc.2.2⟩
    refine List.nodup_cons.mpr ⟨fun hx => ?_, ih hc.2.2⟩
    obtain ⟨l1, l2, rfl⟩ := List.append_of_mem hx
    have htail : Chain null next x (x :: l2) :=
      Chain.suffix (show Chain null next x ((x :: l1) ++ x :: l2) from hhead)
    have hlen := congrArg List.length (hhead.unique htail)
    simp at hlen
    omega

theorem Chain.linked_iff (hc : Chain null next h xs) (a : α) :
    Linked null next h a ↔ a ∈ xs := by
  constructor
  · intro hl
    induction hl generalizing xs with
    | head hne =>
      cases xs with
      | nil => exact absurd hc hne
      | cons x xs => obtain ⟨rfl, -, -⟩ := hc; exact List.mem_cons_self
    | step hne _ ih =>
      cases xs with
      | nil => exact absurd hc hne
      | cons x xs => obtain ⟨rfl, -, ht⟩ := hc; exact List.mem_cons_of_mem _ (ih ht)
  · intro ha
    induction xs generalizing h with
    | nil => cases ha
    | cons x xs ih =>
      obtain ⟨rfl, hx, ht⟩ := hc
      rcases List.mem_cons.mp ha with rfl | ha
      · exact .head hx
      · exact .step hx (ih ht ha)

/-- **Frame.**  A chain only depends on the links of its own cells. -/
theorem Chain.congr (hc : Chain null next h xs) (he : ∀ a ∈ xs, next' a = next a) :
    Chain null next' h xs := by
  induction xs generalizing h with
  | nil => exact hc
  | cons x xs ih =>
    obtain ⟨rfl, hx, ht⟩ := hc
    refine ⟨rfl, hx, ?_⟩
    rw [he h List.mem_cons_self]
    exact ih ht fun a ha => he a (List.mem_cons_of_mem _ ha)

theorem Chain.push {b : α} (hc : Chain null next h xs) (hb : b ≠ null)
    (hn : next' b = h) (he : ∀ a ∈ xs, next' a = next a) :
    Chain null next' b (b :: xs) := by
  refine ⟨rfl, hb, ?_⟩
  rw [hn]
  exact hc.congr he

theorem Chain.pop (hc : Chain null next h xs) (hh : h ≠ null) :
    ∃ t, xs = h :: t ∧ Chain null next (next h) t := by
  cases xs with
  | nil => exact absurd hc hh
  | cons x t =>
    obtain ⟨rfl, -, ht⟩ := hc
    exact ⟨t, rfl, ht⟩

/-- Linking `p` past its successor `x` takes `x` out. -/
theorem Chain.unlink {l1 l2 : List α} {p x : α}
    (hc : Chain null next h (l1 ++ p :: x :: l2)) (hp : next' p = next x)
    (he : ∀ a ∈ l1 ++ p :: x :: l2, a ≠ p → next' a = next a) :
    Chain null next' h (l1 ++ p :: l2) := by
  induction l1 generalizing h with
  | nil =>
    have hnd := hc.nodup
    obtain ⟨rfl, hp0, rfl, hx0, ht⟩ := hc
    refine ⟨rfl, hp0, ?_⟩
    rw [hp]
    refine ht.congr fun a ha => he a (by simp [ha]) ?_
    rintro rfl
    simp [ha] at hnd
  | cons y l1 ih =>
    have hnd := hc.nodup
    obtain ⟨rfl, hy0, ht⟩ := hc
    have hne : h ≠ p := by
      rintro rfl
      simp at hnd
    refine ⟨rfl, hy0, ?_⟩
    rw [he h (by simp) hne]
    exact ih ht fun a ha => he a (List.mem_cons_of_mem _ ha)

/-- A new cell behind the last one. -/
theorem Chain.snoc {p b : α} (hc : Chain null next h (xs ++ [p])) (hp : next' p = b)
    (hb : b ≠ null) (hn : next' b = null) (he : ∀ a ∈ xs, next' a = next a) :
    Chain null next' h (xs ++ [p, b]) := by
  induction xs generalizing h with
  | nil =>
    obtain ⟨rfl, hp0, -⟩ := hc
    exact ⟨rfl, hp0, hp, hb, hn⟩
  | cons y xs ih =>
    obtain ⟨rfl, hy0, ht⟩ := hc
    refine ⟨rfl, hy0, ?_⟩
    rw [he h List.mem_cons_self]
    exact ih ht fun a ha => he a (List.mem_cons_of_mem _ ha)

/-- Cells below `n` make a chain of at most `n` of them. -/
theorem Chain.length_le {next : Nat → Nat} {h null n : Nat} {xs : List Nat}
    (hc : Chain null next h xs) (hb : ∀ a ∈ xs, a < n) : xs.length ≤ n := by
  have hsub : xs.toFinset ⊆ Finset.range n := by
    intro a ha
    exact Finset.mem_range.mpr (hb a (List.mem_toFinset.mp ha))
  have hcard := Finset.card_le_card hsub
  rwa [List.toFinset_card_of_nodup hc.nodup, Finset.card_range] at hcard

end HelixKernel
