import Mathlib.Data.List.Basic

/-!
An interval cut into tiles.

`Tiles size a b ts`: the tiles `ts`, each of its own `size` and none of them empty, fill the
addresses from `a` up to `b` in this order.  Tiles are put together (`Tiles.merge`) and cut in two
(`Tiles.cut`); of the others only the sizes matter (`Tiles.congr`). -/

namespace HelixKernel

def Tiles (size : Nat → Nat) : Nat → Nat → List Nat → Prop
  | a, b, [] => a = b
  | a, b, t :: ts => a = t ∧ 0 < size t ∧ Tiles size (t + size t) b ts

namespace Tiles

variable {size size' : Nat → Nat} {a b c t u : Nat} {ts l1 l2 : List Nat}

theorem le (h : Tiles size a b ts) : a ≤ b := by
  induction ts generalizing a with
  | nil => exact Nat.le_of_eq h
  | cons t ts ih =>
    obtain ⟨rfl, -, ht⟩ := h
    exact Nat.le_trans (Nat.le_add_right a (size a)) (ih ht)

/-- **Frame.** -/
theorem congr (h : Tiles size a b ts) (he : ∀ t ∈ ts, size' t = size t) : Tiles size' a b ts := by
  induction ts generalizing a with
  | nil => exact h
  | cons t ts ih =>
    obtain ⟨rfl, hpos, ht⟩ := h
    rw [← he a List.mem_cons_self] at hpos ht
    exact ⟨rfl, hpos, ih ht fun u hu => he u (.tail a hu)⟩

theorem append : Tiles size a c (l1 ++ l2) ↔ ∃ b, Tiles size a b l1 ∧ Tiles size b c l2 := by
  induction l1 generalizing a with
  | nil => exact ⟨fun h => ⟨a, rfl, h⟩, fun ⟨b, hab, h⟩ => (show a = b from hab) ▸ h⟩
  | cons t l1 ih =>
    constructor
    · rintro ⟨rfl, hpos, h⟩
      obtain ⟨b, h1, h2⟩ := ih.mp h
      exact ⟨b, ⟨rfl, hpos, h1⟩, h2⟩
    · rintro ⟨b, ⟨rfl, hpos, h1⟩, h2⟩
      exact ⟨rfl, hpos, ih.mpr ⟨b, h1, h2⟩⟩

/-- A tile, those before it and those behind it. -/
theorem middle : Tiles size a b (l1 ++ t :: l2) ↔
    Tiles size a t l1 ∧ 0 < size t ∧ Tiles size (t + size t) b l2 := by
  rw [append]
  constructor
  · rintro ⟨c, h1, rfl, hpos, h2⟩
    exact ⟨h1, hpos, h2⟩
  · rintro ⟨h1, hpos, h2⟩
    exact ⟨t, h1, rfl, hpos, h2⟩

theorem mem (h : Tiles size a b ts) (ht : t ∈ ts) : a ≤ t ∧ 0 < size t ∧ t + size t ≤ b := by
  obtain ⟨l1, l2, rfl⟩ := List.append_of_mem ht
  obtain ⟨h1, hpos, h2⟩ := middle.mp h
  exact ⟨h1.le, hpos, h2.le⟩

theorem apart (h : Tiles size a b ts) (ht : t ∈ ts) (hu : u ∈ ts) :
    t = u ∨ t + size t ≤ u ∨ u + size u ≤ t := by
  obtain ⟨l1, l2, rfl⟩ := List.append_of_mem ht
  obtain ⟨h1, -, h2⟩ := middle.mp h
  obtain hu | hu := List.mem_append.mp hu
  · exact .inr (.inr (h1.mem hu).2.2)
  · cases hu with
    | head => exact .inl rfl
    | tail _ hu => exact .inr (.inl (h2.mem hu).1)

/-- `t` and the tile `u` behind it. -/
theorem next (h : Tiles size a b (l1 ++ t :: u :: l2)) : u = t + size t :=
  (middle.mp h).2.2.1.symm

theorem merge (h : Tiles size a b (l1 ++ t :: u :: l2)) (ht : size' t = size t + size u)
    (he : ∀ v ∈ l1 ++ l2, size' v = size v) : Tiles size' a b (l1 ++ t :: l2) := by
  obtain ⟨h1, hpos, rfl, -, h2⟩ := middle.mp h
  refine middle.mpr ⟨h1.congr fun v hv => he v (List.mem_append_left l2 hv), by omega, ?_⟩
  rw [ht, ← Nat.add_assoc]
  exact h2.congr fun v hv => he v (List.mem_append_right l1 hv)

theorem cut (h : Tiles size a b (l1 ++ t :: l2)) (hu : t + size' t = u) (ht : 0 < size' t)
    (hpos : 0 < size' u) (hsum : size' t + size' u = size t)
    (he : ∀ v ∈ l1 ++ l2, size' v = size v) : Tiles size' a b (l1 ++ t :: u :: l2) := by
  obtain ⟨h1, -, h2⟩ := middle.mp h
  refine middle.mpr ⟨h1.congr fun v hv => he v (List.mem_append_left l2 hv), ht, hu, hpos, ?_⟩
  rw [← hu, Nat.add_assoc, hu, hsum]
  exact h2.congr fun v hv => he v (List.mem_append_right l1 hv)

end Tiles

end HelixKernel
