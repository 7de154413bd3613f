import HelixKernel.Klibc.Cstring

/-!
# What the copies leave

Each loop copies into a set of offsets that grows by one a round, and the byte it reads next
must not have been written: `Copied.step`.  For the two loops of `memmove` the direction sees to
it, whatever the overlap.

    m.Mapped dest n → m.Mapped src n → m.memmove dest src n leaves at dest what was at src
                                                                      (memmove_correct) -/

namespace HelixKernel.ByteMem

variable {m m₀ m' : ByteMem} {p q dest src n i : Nat} {A : Nat → Prop}

/-! ## Bytes copied so far -/

/-- At the offsets in `A` there is at `dest` what was at `src`, and elsewhere what was there. -/
structure Copied (m m' : ByteMem) (dest src : Nat) (A : Nat → Prop) : Prop where
  copied : ∀ i, A i → m'.byte (dest + i) = m.byte (src + i)
  frame : ∀ a, (∀ i, A i → a ≠ dest + i) → m'.byte a = m.byte a

namespace Copied

/-- Nothing yet. -/
theorem none (m : ByteMem) (dest src : Nat) (hA : ∀ i, ¬ A i) : Copied m m dest src A :=
  ⟨fun i h => absurd h (hA i), fun _ _ => rfl⟩

theorem of_iff {B : Nat → Prop} (h : Copied m m' dest src A) (hAB : ∀ i, A i ↔ B i) :
    Copied m m' dest src B := by
  obtain rfl : A = B := funext fun i => propext (hAB i)
  exact h

/-- Outside the range, everything is as it was. -/
theorem outside (h : Copied m m' dest src (· < n)) {a : Nat} (ha : a < dest ∨ dest + n ≤ a) :
    m'.byte a = m.byte a := by
  apply h.frame
  intro i hi
  omega

/-- One more byte. -/
theorem step (h : Copied m₀ m dest src A) {j : Nat} (hd : ∃ c, m₀.byte (dest + j) = some c)
    (hs : ∃ b, m₀.byte (src + j) = some b) (hj : ¬ A j) (hsj : ∀ i, A i → src + j ≠ dest + i) :
    ∃ b m', m.load (src + j) = .ok b ∧ m.store (dest + j) b = .ok m' ∧
      Copied m₀ m' dest src fun i => A i ∨ i = j := by
  obtain ⟨c, hc⟩ := hd
  obtain ⟨b, hb⟩ := hs
  have hdj : ∀ i, A i → dest + j ≠ dest + i := by
    intro i hi he
    exact hj (by rwa [show j = i by omega])
  have hb' : m.byte (src + j) = some b := (h.frame _ hsj).trans hb
  have hc' : m.byte (dest + j) = some c := (h.frame _ hdj).trans hc
  refine ⟨b, m.set (dest + j) b, load_of_byte hb', store_of_byte hc' b, ?_, ?_⟩
  · rintro i (hi | rfl)
    · rw [m.byte_set_ne (Ne.symm (hdj i hi)) b]
      exact h.copied i hi
    · rw [byte_set_self hc' b, hb]
  · intro a ha
    rw [m.byte_set_ne (ha j (.inr rfl)) b]
    exact h.frame a fun i hi => ha i (.inl hi)

end Copied

/-- Upwards, out of bytes that are not below the copies, or are all below them. -/
theorem copyUp_copied {todo : Nat} (hd : m₀.Mapped dest n) (hs : m₀.Mapped src n)
    (hdir : dest ≤ src ∨ src + n ≤ dest) (h : Copied m₀ m dest src (· < i)) (hn : i + todo = n) :
    ∃ m', m.copyUp dest src i todo = .ok m' ∧ Copied m₀ m' dest src (· < n) := by
  induction todo generalizing m i with
  | zero =>
    obtain rfl : i = n := hn
    exact ⟨m, rfl, h⟩
  | succ todo ih =>
    obtain ⟨b, m', hload, hstore, hstep⟩ :=
      h.step (hd i (by omega)) (hs i (by omega)) (by omega) (by omega)
    obtain ⟨m'', hrun, hall⟩ := ih (hstep.of_iff fun j => (Nat.lt_succ_iff_lt_or_eq).symm)
      (by omega)
    refine ⟨m'', ?_, hall⟩
    unfold copyUp
    rw [hload]
    show (m.store (dest + i) b >>= fun m => m.copyUp dest src (i + 1) todo) = _
    rw [hstore]
    exact hrun

/-- Downwards, out of bytes that are not above the copies, or are all above them. -/
theorem copyDown_copied (hd : m₀.Mapped dest n) (hs : m₀.Mapped src n)
    (hdir : src ≤ dest ∨ dest + n ≤ src) (h : Copied m₀ m dest src fun j => i ≤ j ∧ j < n)
    (hn : i ≤ n) :
    ∃ m', m.copyDown dest src i = .ok m' ∧ Copied m₀ m' dest src (· < n) := by
  induction i generalizing m with
  | zero => exact ⟨m, rfl, h.of_iff fun j => ⟨fun hj => hj.2, fun hj => ⟨Nat.zero_le j, hj⟩⟩⟩
  | succ i ih =>
    obtain ⟨b, m', hload, hstore, hstep⟩ :=
      h.step (hd i (by omega)) (hs i (by omega)) (by omega) (by omega)
    obtain ⟨m'', hrun, hall⟩ := ih (hstep.of_iff fun j => by omega) (by omega)
    refine ⟨m'', ?_, hall⟩
    unfold copyDown
    rw [hload]
    show (m.store (dest + i) b >>= fun m => m.copyDown dest src i) = _
    rw [hstore]
    exact hrun

theorem memcpy_copied (hd : m.Mapped dest n) (hs : m.Mapped src n)
    (hdir : dest ≤ src ∨ src + n ≤ dest) :
    ∃ m', m.memcpy dest src n = .ok m' ∧ Copied m m' dest src (· < n) :=
  copyUp_copied hd hs hdir (.none m dest src fun i => by omega) (Nat.zero_add n)

theorem memmove_copied (hd : m.Mapped dest n) (hs : m.Mapped src n) :
    ∃ m', m.memmove dest src n = .ok m' ∧ Copied m m' dest src (· < n) := by
  unfold memmove
  by_cases hgt : src > dest
  · rw [if_pos hgt]
    exact copyUp_copied hd hs (.inl (Nat.le_of_lt hgt))
      (.none m dest src fun i => by omega) (Nat.zero_add n)
  · rw [if_neg hgt]
    by_cases hlt : src < dest
    · rw [if_pos hlt]
      exact copyDown_copied hd hs (.inl (Nat.le_of_lt hlt))
        (.none m dest src fun i => by omega) (Nat.le_refl n)
    · -- the ranges are one, and nothing is copied
      rw [if_neg hlt]
      obtain rfl : src = dest := by omega
      exact ⟨m, rfl, fun _ _ => rfl, fun _ _ => rfl⟩

/-- **`memmove` copies whatever the overlap.**  In a memory with all of its bytes the two ranges
are there when they do not wrap around (`mapped_full`). -/
theorem memmove_correct (m : ByteMem) (dest src n : Nat) (hd : m.Mapped dest n)
    (hs : m.Mapped src n) :
    ∃ m', m.memmove dest src n = .ok m' ∧
      (∀ i < n, m'.byte (dest + i) = m.byte (src + i)) ∧
      ∀ a, (a < dest ∨ dest + n ≤ a) → m'.byte a = m.byte a := by
  obtain ⟨m', hrun, h⟩ := memmove_copied hd hs
  exact ⟨m', hrun, h.copied, fun a ha => h.outside ha⟩

/-- Upwards by three, up to the top of the address space. -/
theorem memmove_correct_overlap :
    ∃ m', (full fun a => UInt8.ofNat a).memmove (2 ^ 64 - 7) (2 ^ 64 - 10) 7 = .ok m' ∧
      (∀ i < 7, m'.byte (2 ^ 64 - 7 + i) =
        (full fun a => UInt8.ofNat a).byte (2 ^ 64 - 10 + i)) ∧
      ∀ a, (a < 2 ^ 64 - 7 ∨ 2 ^ 64 - 7 + 7 ≤ a) →
        m'.byte a = (full fun a => UInt8.ofNat a).byte a :=
  memmove_correct _ _ _ _ (mapped_full _ (by decide)) (mapped_full _ (by decide))

end HelixKernel.ByteMem
