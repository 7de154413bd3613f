import HelixKernel.Klibc.Copies

/-!
# Copies between kernel and user memory

Both functions take their source and destination as `void*` and pass them to `memcpy`, the
destination first.  `copy_from_user(data, kernel_memory, n)` copies from `data`;
`copy_to_user(data, user_memory, n)` copies to it.  A buffer thus reaches the user and comes back
when the user had its contents already, and not otherwise (`user_round_trip`). -/

namespace HelixKernel.ByteMem

variable {m m' : ByteMem} {data userMemory kernelMemory a u b n : Nat} {r : Int}

/-- `copy_to_user(data, user_memory, n)` -/
def copyToUser (m : ByteMem) (data userMemory n : Nat) : Except ByteFault (ByteMem × Int) :=
  if data = 0 then .ok (m, -1)
  else if userMemory = 0 then .ok (m, -1)
  else do
    let m ← m.memcpy data userMemory n
    .ok (m, 0)

/-- `copy_from_user(data, kernel_memory, n)` -/
def copyFromUser (m : ByteMem) (data kernelMemory n : Nat) : Except ByteFault (ByteMem × Int) :=
  if data = 0 then .ok (m, -1)
  else if kernelMemory = 0 then .ok (m, -1)
  else do
    let m ← m.memcpy kernelMemory data n
    .ok (m, 0)

/-- Buffers of `n` bytes with none in common. -/
def Apart (n p q : Nat) : Prop := p + n ≤ q ∨ q + n ≤ p

theorem memcpy_apart {dest src : Nat} (hd : m.Mapped dest n) (hs : m.Mapped src n)
    (hapart : Apart n dest src) :
    ∃ m', m.memcpy dest src n = .ok m' ∧ Copied m m' dest src (· < n) := by
  refine memcpy_copied hd hs ?_
  unfold Apart at hapart
  omega

/-- What `copy_to_user` returns 0 with: the bytes of `user_memory` at `data`. -/
theorem copyToUser_copied (hd : m.Mapped data n) (hu : m.Mapped userMemory n)
    (hapart : Apart n data userMemory) (hd0 : data ≠ 0) (hu0 : userMemory ≠ 0) :
    ∃ m', m.copyToUser data userMemory n = .ok (m', 0) ∧
      Copied m m' data userMemory (· < n) := by
  obtain ⟨m', hcpy, hcop⟩ := memcpy_apart hd hu hapart
  refine ⟨m', ?_, hcop⟩
  unfold copyToUser
  rw [if_neg hd0, if_neg hu0, hcpy]
  rfl

/-- What `copy_from_user` returns 0 with: the bytes of `data` at `kernel_memory`. -/
theorem copyFromUser_copied (hd : m.Mapped data n) (hk : m.Mapped kernelMemory n)
    (hapart : Apart n data kernelMemory) (hd0 : data ≠ 0) (hk0 : kernelMemory ≠ 0) :
    ∃ m', m.copyFromUser data kernelMemory n = .ok (m', 0) ∧
      Copied m m' kernelMemory data (· < n) := by
  obtain ⟨m', hcpy, hcop⟩ := memcpy_apart hk hd (Or.symm hapart)
  refine ⟨m', ?_, hcop⟩
  unfold copyFromUser
  rw [if_neg hd0, if_neg hk0, hcpy]
  rfl

/-- A null `user_memory` is refused. -/
theorem copyToUser_null (hd0 : data ≠ 0) : m.copyToUser data 0 n = .ok (m, -1) := by
  unfold copyToUser
  rw [if_neg hd0, if_pos rfl]

/-- The `n` bytes at `p` in `m` are those at `q` in `m'`. -/
def SameBytes (n : Nat) (m : ByteMem) (p : Nat) (m' : ByteMem) (q : Nat) : Prop :=
  ∀ i < n, m.byte (p + i) = m'.byte (q + i)

/-- To the user and back: `a` goes to `u` and everything but `u` stays, then `u` goes to `b` and
stays. -/
def RoundTrip (m : ByteMem) (a u b n : Nat) : Prop :=
  ∀ m₁, m.copyToUser a u n = .ok (m₁, 0) →
    (∀ x, (x < u ∨ u + n ≤ x) → m₁.byte x = m.byte x) ∧ SameBytes n m₁ u m a ∧
    ∀ m₂, m₁.copyFromUser u b n = .ok (m₂, 0) → SameBytes n m₂ u m₁ u ∧ SameBytes n m₂ b m a

/-- **The round trip is the identity exactly when `u` is null or has the bytes of `a` already.** -/
theorem user_round_trip (m : ByteMem) (a u b n : Nat) (ha : m.Mapped a n) (hu : m.Mapped u n)
    (hb : m.Mapped b n) (hau : Apart n a u) (hub : Apart n u b) (ha0 : a ≠ 0) (hb0 : b ≠ 0) :
    RoundTrip m a u b n ↔ u = 0 ∨ SameBytes n m a m u := by
  by_cases hu0 : u = 0
  · subst hu0
    refine ⟨fun _ => .inl rfl, fun _ m₁ h => ?_⟩
    rw [copyToUser_null ha0] at h
    cases h
  · obtain ⟨m₁, hto, hcop⟩ := copyToUser_copied ha hu hau ha0 hu0
    constructor
    · intro h
      obtain ⟨-, hsame, -⟩ := h m₁ hto
      refine .inr fun i hi => ?_
      unfold Apart at hau
      rw [← hsame i hi]
      exact hcop.outside (by omega)
    · rintro (h0 | hsame) m' h
      · exact absurd h0 hu0
      · obtain rfl : m₁ = m' := (Prod.mk.inj (Except.ok.inj (hto.symm.trans h))).1
        -- what was copied was there
        obtain rfl : m₁ = m := by
          ext1
          funext x
          by_cases hx : x < a ∨ a + n ≤ x
          · exact hcop.outside hx
          · obtain ⟨i, rfl⟩ : ∃ i, x = a + i := ⟨x - a, by omega⟩
            rw [hcop.copied i (by omega), hsame i (by omega)]
        refine ⟨fun _ _ => rfl, fun i hi => (hsame i hi).symm, fun m₂ hfrom => ?_⟩
        obtain ⟨m', hfrom', hcop'⟩ := copyFromUser_copied hu hb hub hu0 hb0
        obtain rfl : m' = m₂ := (Prod.mk.inj (Except.ok.inj (hfrom'.symm.trans hfrom))).1
        unfold Apart at hub
        refine ⟨fun i hi => hcop'.outside (by omega), fun i hi => ?_⟩
        rw [hcop'.copied i hi, hsame i hi]

/-- Eight bytes each, and all the same ones. -/
theorem user_round_trip_same :
    RoundTrip (full fun _ => 7) 16 32 48 8 ↔
      32 = 0 ∨ SameBytes 8 (full fun _ => 7) 16 (full fun _ => 7) 32 :=
  user_round_trip _ 16 32 48 8 (mapped_full _ (by decide)) (mapped_full _ (by decide))
    (mapped_full _ (by decide)) (.inl (by decide)) (.inl (by decide)) (by decide) (by decide)

/-- One byte, 16, to a user who has 32: now it is 32 at both. -/
theorem user_round_trip_lost : ¬ RoundTrip (full fun a => UInt8.ofNat a) 16 32 48 1 := by
  intro h
  obtain ⟨m', hto, hcop⟩ := copyToUser_copied (m := full fun a => UInt8.ofNat a) (n := 1)
    (mapped_full (p := 16) _ (by decide)) (mapped_full (p := 32) _ (by decide))
    (.inl (by decide)) (by decide) (by decide)
  have hkept : m'.byte 16 = (full fun a => UInt8.ofNat a).byte 16 := (h m' hto).1 16 (by decide)
  have hover : m'.byte 16 = (full fun a => UInt8.ofNat a).byte 32 := hcop.copied 0 (by decide)
  rw [hkept] at hover
  exact absurd hover (by decide)

end HelixKernel.ByteMem
