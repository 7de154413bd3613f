import Mathlib.Data.Finset.Card
import Mathlib.Logic.Function.Basic

/-!
A write-back buffer over an array: pending writes in a queue, and for each place of the array
the number of its pending write, if it has one.

    view_put  : a put changes what is read at its place and nowhere else
    used_lt   : a place that has no pending write finds room for one, if the queue is as long as
      the array
    view_commit : committing a pending write leaves what is read as it is

`Tracked` is the invariant between flushes.  During one, and whenever a write is committed with
its entry left in the queue, only `Loose` holds: the place no longer knows its entry. -/

namespace HelixKernel

/-- The array `base`, and `used` writes `value k` to `place k` that it has not seen yet. -/
structure WriteBack (ι α : Type) where
  base : ι → α
  place : Nat → ι
  value : Nat → α
  used : Nat
  /-- which of the writes is the place's -/
  slot : ι → Option Nat

namespace WriteBack

variable {ι α : Type}

/-- What is read at a place. -/
def view (w : WriteBack ι α) (i : ι) : α :=
  match w.slot i with
  | none => w.base i
  | some k => w.value k

/-- A write: into the place's entry, or into a new one if it changes anything. -/
def put [DecidableEq ι] [DecidableEq α] (w : WriteBack ι α) (i : ι) (a : α) : WriteBack ι α :=
  match w.slot i with
  | some k => { w with value := Function.update w.value k a }
  | none =>
    if w.base i = a then w
    else
      { w with
        place := Function.update w.place w.used i
        value := Function.update w.value w.used a
        used := w.used + 1
        slot := Function.update w.slot i (some w.used) }

/-- The `k`-th pending write goes to the array, if its place has one at all. -/
def commit [DecidableEq ι] (w : WriteBack ι α) (k : Nat) : WriteBack ι α :=
  match w.slot (w.place k) with
  | none => w
  | some _ =>
    { w with
      base := Function.update w.base (w.place k) (w.value k)
      slot := Function.update w.slot (w.place k) none }

/-- Places in use name entries of their own; an entry may have been committed. -/
structure Loose (w : WriteBack ι α) (S : Finset ι) : Prop where
  inside : ∀ k < w.used, w.place k ∈ S
  own : ∀ k < w.used, w.slot (w.place k) = none ∨ w.slot (w.place k) = some k
  named : ∀ i ∈ S, ∀ k, w.slot i = some k → k < w.used ∧ w.place k = i

/-- Entries and places that have one correspond. -/
structure Tracked (w : WriteBack ι α) (S : Finset ι) : Prop where
  inside : ∀ k < w.used, w.place k ∈ S
  own : ∀ k < w.used, w.slot (w.place k) = some k
  named : ∀ i ∈ S, ∀ k, w.slot i = some k → k < w.used ∧ w.place k = i

variable {w : WriteBack ι α} {S : Finset ι} {i j : ι} {a : α} {k : Nat}

theorem Tracked.loose (h : w.Tracked S) : w.Loose S := ⟨h.inside, fun k hk => .inr (h.own k hk), h.named⟩

theorem view_none (h : w.slot i = none) : w.view i = w.base i := by rw [view, h]

theorem view_some (h : w.slot i = some k) : w.view i = w.value k := by rw [view, h]

/-- The entries are at different places. -/
theorem Tracked.place_inj (h : w.Tracked S) {k l : Nat} (hk : k < w.used) (hl : l < w.used)
    (heq : w.place k = w.place l) : k = l := by
  have hown := h.own k hk
  rw [heq, h.own l hl] at hown
  exact (Option.some.inj hown).symm

theorem Tracked.place_ne (h : w.Tracked S) (hslot : w.slot i = none) (hk : k < w.used) :
    w.place k ≠ i := by
  intro heq
  have hown := h.own k hk
  rw [heq, hslot] at hown
  cases hown

/-- There are no more entries than places. -/
theorem Tracked.used_le (h : w.Tracked S) : w.used ≤ S.card := by
  have hinj : Set.InjOn w.place (Finset.range w.used) := by
    intro k hk l hl heq
    exact h.place_inj (Finset.mem_range.mp hk) (Finset.mem_range.mp hl) heq
  have hcard := Finset.card_le_card_of_injOn w.place
    (fun k hk => h.inside k (Finset.mem_range.mp hk)) hinj
  rwa [Finset.card_range] at hcard

/-- While a place has no entry, there are fewer. -/
theorem Tracked.used_lt [DecidableEq ι] (h : w.Tracked S) (hi : i ∈ S) (hslot : w.slot i = none) :
    w.used < S.card := by
  have hothers : w.Tracked (S.erase i) := by
    refine ⟨fun k hk => ?_, h.own, fun j hj => h.named j (Finset.mem_of_mem_erase hj)⟩
    exact Finset.mem_erase.mpr ⟨h.place_ne hslot hk, h.inside k hk⟩
  have hle := hothers.used_le
  rw [Finset.card_erase_of_mem hi] at hle
  have := Finset.card_pos.mpr ⟨i, hi⟩
  omega

section Put

variable [DecidableEq ι] [DecidableEq α]

theorem Tracked.put (h : w.Tracked S) (hi : i ∈ S) (a : α) : (w.put i a).Tracked S := by
  unfold WriteBack.put
  split
  · exact ⟨h.inside, h.own, h.named⟩
  · rename_i hslot
    split
    · exact h
    · constructor
      · intro k hk
        change k < w.used + 1 at hk
        show Function.update w.place w.used i k ∈ S
        rcases Nat.lt_succ_iff_lt_or_eq.mp hk with hlt | rfl
        · rw [Function.update_of_ne (by omega)]
          exact h.inside k hlt
        · rwa [Function.update_self]
      · intro k hk
        change k < w.used + 1 at hk
        show Function.update w.slot i (some w.used) (Function.update w.place w.used i k) = some k
        rcases Nat.lt_succ_iff_lt_or_eq.mp hk with hlt | rfl
        · have hplace : Function.update w.place w.used i k = w.place k :=
            Function.update_of_ne (Nat.ne_of_lt hlt) ..
          rw [hplace, Function.update_of_ne (h.place_ne hslot hlt), h.own k hlt]
        · rw [Function.update_self, Function.update_self]
      · intro j hj k hk
        change Function.update w.slot i (some w.used) j = some k at hk
        show k < w.used + 1 ∧ Function.update w.place w.used i k = j
        by_cases hji : j = i
        · subst hji
          rw [Function.update_self] at hk
          obtain rfl := Option.some.inj hk
          exact ⟨Nat.lt_succ_self _, Function.update_self ..⟩
        · rw [Function.update_of_ne hji] at hk
          obtain ⟨hlt, hplace⟩ := h.named j hj k hk
          rw [Function.update_of_ne (by omega)]
          exact ⟨by omega, hplace⟩

/-- A put is a write. -/
theorem Tracked.view_put (h : w.Tracked S) (hi : i ∈ S) (a : α) (hj : j ∈ S) :
    (w.put i a).view j = if j = i then a else w.view j := by
  unfold WriteBack.put
  split
  · rename_i k hslot
    by_cases hji : j = i
    · subst hji
      rw [if_pos rfl, view]
      simp only [hslot, Function.update_self]
    · rw [if_neg hji, view, view]
      cases hsj : w.slot j with
      | none => rfl
      | some l =>
        show Function.update w.value k a l = w.value l
        refine Function.update_of_ne (fun heq => hji ?_) ..
        rw [← (h.named j hj l hsj).2, heq, (h.named i hi k hslot).2]
  · rename_i hslot
    split
    · rename_i hbase
      by_cases hji : j = i
      · rw [if_pos hji, hji, view_none hslot, hbase]
      · rw [if_neg hji]
    · by_cases hji : j = i
      · subst hji
        rw [if_pos rfl, view]
        simp only [Function.update_self]
      · rw [if_neg hji, view, view]
        simp only [Function.update_of_ne hji]
        cases hsj : w.slot j with
        | none => rfl
        | some l =>
          have hlt := (h.named j hj l hsj).1
          exact Function.update_of_ne (by omega) ..

/-- A place that a put changes has an entry after it. -/
theorem put_slot (h : w.view i ≠ a) : (w.put i a).slot i ≠ none := by
  unfold WriteBack.put
  split
  · rename_i k hslot
    show w.slot i ≠ none
    rw [hslot]
    exact Option.some_ne_none k
  · rename_i hslot
    rw [view_none hslot] at h
    rw [if_neg h]
    show Function.update w.slot i (some w.used) i ≠ none
    rw [Function.update_self]
    exact Option.some_ne_none w.used

end Put

section Commit

variable [DecidableEq ι]

theorem Loose.commit (h : w.Loose S) (k : Nat) : (w.commit k).Loose S := by
  unfold WriteBack.commit
  split
  · exact h
  · constructor
    · exact h.inside
    · intro l hl
      show Function.update w.slot (w.place k) none (w.place l) = none ∨
        Function.update w.slot (w.place k) none (w.place l) = some l
      by_cases hp : w.place l = w.place k
      · rw [hp, Function.update_self]
        exact .inl rfl
      · rw [Function.update_of_ne hp]
        exact h.own l hl
    · intro i hi l hl
      change Function.update w.slot (w.place k) none i = some l at hl
      by_cases hik : i = w.place k
      · rw [hik, Function.update_self] at hl
        cases hl
      · rw [Function.update_of_ne hik] at hl
        exact h.named i hi l hl

theorem Loose.view_commit (h : w.Loose S) (hk : k < w.used) : (w.commit k).view i = w.view i := by
  unfold WriteBack.commit
  split
  · rfl
  · rename_i l hslot
    by_cases hi : i = w.place k
    · subst hi
      have hown : w.slot (w.place k) = some k := by
        rcases h.own k hk with hnone | hsome
        · rw [hnone] at hslot
          cases hslot
        · exact hsome
      rw [view_some hown, view]
      simp only [Function.update_self]
    · rw [view, view]
      simp only [Function.update_of_ne hi]

end Commit

/-- With no entry left, the empty queue is tracked. -/
theorem tracked_of_clear (hused : w.used = 0) (hclear : ∀ i ∈ S, w.slot i = none) : w.Tracked S := by
  refine ⟨fun k hk => ?_, fun k hk => ?_, fun i hi k hk => ?_⟩
  · omega
  · omega
  · rw [hclear i hi] at hk
    cases hk

end WriteBack

end HelixKernel
