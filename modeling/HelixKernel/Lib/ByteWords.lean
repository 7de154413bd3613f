import HelixKernel.Lib.ByteMem

/-!
Numbers of several bytes in a memory of bytes, and records of such numbers.

`loadWord` and `storeWord` are a load and a store of `n` bytes, the least significant one first;
`word` is the value there.  `Wrote m m' a n`: `m'` differs from `m` at most in the `n` bytes at `a`,
and has the same bytes in it. -/

namespace HelixKernel

/-- It returns, and what it returns has `Q`. -/
def Returns {ε β : Type} (Q : β → Prop) (x : Except ε β) : Prop := ∃ b, x = .ok b ∧ Q b

namespace Returns

variable {ε α β : Type} {P : α → Prop} {Q Q' : β → Prop} {x : Except ε α} {y : Except ε β}
  {f : α → Except ε β}

theorem ok {b : β} (h : Q b) : Returns (ε := ε) Q (.ok b) := ⟨b, rfl, h⟩

theorem bind (hx : Returns P x) (hf : ∀ a, P a → Returns Q (f a)) : Returns Q (x >>= f) := by
  obtain ⟨a, rfl, ha⟩ := hx
  exact hf a ha

/-- A first step whose result is known. -/
theorem bind_ok {a : α} (hx : x = .ok a) (hf : Returns Q (f a)) : Returns Q (x >>= f) := by
  rw [hx]
  exact hf

theorem mono (hy : Returns Q y) (h : ∀ b, Q b → Q' b) : Returns Q' y := by
  obtain ⟨b, rfl, hb⟩ := hy
  exact ⟨b, rfl, h b hb⟩

end Returns

namespace ByteMem

variable {m m' m'' : ByteMem} {a b n k v : Nat}

/-- `n` bytes at `a`, as a number. -/
def loadWord (m : ByteMem) (a : Nat) : Nat → Except ByteFault Nat
  | 0 => .ok 0
  | n + 1 => do
    let b ← m.load a
    let rest ← loadWord m (a + 1) n
    .ok (b.toNat + 256 * rest)

/-- The number `v` into the `n` bytes at `a`. -/
def storeWord (m : ByteMem) (a v : Nat) : Nat → Except ByteFault ByteMem
  | 0 => .ok m
  | n + 1 => do
    let m ← m.store a (UInt8.ofNat v)
    storeWord m (a + 1) (v / 256) n

/-- The value of the `n` bytes at `a`; a byte that is not there counts as zero. -/
def word (m : ByteMem) (a : Nat) : Nat → Nat
  | 0 => 0
  | n + 1 => ((m.byte a).getD 0).toNat + 256 * word m (a + 1) n

/-- At most the `n` bytes at `a` have changed, and none has come or gone. -/
structure Wrote (m m' : ByteMem) (a n : Nat) : Prop where
  frame : ∀ x, (x < a ∨ a + n ≤ x) → m'.byte x = m.byte x
  there : ∀ x, (m'.byte x).isSome = (m.byte x).isSome

/-! ## Bytes that are there -/

theorem Mapped.mono (h : m.Mapped a n) (hb : a ≤ b) (hk : b + k ≤ a + n) : m.Mapped b k := by
  intro i hi
  obtain ⟨c, hc⟩ := h (b - a + i) (by omega)
  exact ⟨c, by rwa [show a + (b - a + i) = b + i by omega] at hc⟩

theorem Mapped.of_there (h : m.Mapped a n) (hm : ∀ x, (m'.byte x).isSome = (m.byte x).isSome) :
    m'.Mapped a n := by
  intro i hi
  obtain ⟨c, hc⟩ := h i hi
  have hsome := hm (a + i)
  rw [hc] at hsome
  exact Option.isSome_iff_exists.mp hsome

theorem Mapped.first (h : m.Mapped a (n + 1)) : ∃ c, m.byte a = some c := h 0 (Nat.succ_pos n)

theorem Mapped.lt (h : m.Mapped a n) (hn : 0 < n) : a + n ≤ 2 ^ 64 := by
  obtain ⟨c, hc⟩ := h (n - 1) (by omega)
  have := m.lt _ c hc
  omega

namespace Wrote

theorem refl (m : ByteMem) (a n : Nat) : m.Wrote m a n := ⟨fun _ _ => rfl, fun _ => rfl⟩

theorem mapped (h : m.Wrote m' a n) (hm : m.Mapped b k) : m'.Mapped b k := hm.of_there h.there

end Wrote

theorem isSome_set (m : ByteMem) (a x : Nat) (c : UInt8) :
    ((m.set a c).byte x).isSome = (m.byte x).isSome := by
  by_cases hx : x = a
  · subst hx
    show (if x = x then _ else _ : Option UInt8).isSome = _
    rw [if_pos rfl, Option.isSome_map]
  · rw [byte_set_ne m hx]

/-! ## Words -/

theorem loadWord_eq (h : m.Mapped a n) : m.loadWord a n = .ok (m.word a n) := by
  induction n generalizing a with
  | zero => rfl
  | succ n ih =>
    obtain ⟨c, hc⟩ := h.first
    rw [loadWord, load_of_byte hc, ih (h.mono (Nat.le_succ a) (by omega)), word, hc]
    rfl

theorem word_lt (m : ByteMem) (a n : Nat) : m.word a n < 256 ^ n := by
  induction n generalizing a with
  | zero => exact Nat.one_pos
  | succ n ih =>
    have hrest := ih (a + 1)
    have hbyte := ((m.byte a).getD 0).toNat_lt
    rw [word, Nat.pow_succ]
    omega

theorem word_congr (h : ∀ x, a ≤ x → x < a + n → m'.byte x = m.byte x) :
    m'.word a n = m.word a n := by
  induction n generalizing a with
  | zero => rfl
  | succ n ih =>
    rw [word, word, h a (Nat.le_refl a) (by omega),
      ih fun x hx hx' => h x (by omega) (by omega)]

theorem storeWord_spec (h : m.Mapped a n) (v : Nat) :
    Returns (fun m' => m.Wrote m' a n ∧ m'.word a n = v % 256 ^ n) (m.storeWord a v n) := by
  induction n generalizing m a v with
  | zero => exact .ok ⟨.refl m a 0, (Nat.mod_one v).symm⟩
  | succ n ih =>
    obtain ⟨c, hc⟩ := h.first
    have hset := byte_set_self hc (UInt8.ofNat v)
    rw [storeWord, store_of_byte hc]
    refine (ih ((h.mono (Nat.le_succ a) (by omega)).of_there (m.isSome_set a · _)) _).mono ?_
    rintro m' ⟨hwrote, hword⟩
    constructor
    · refine ⟨fun x hx => ?_, fun x => (hwrote.there x).trans (m.isSome_set a x _)⟩
      rw [hwrote.frame x (by omega), byte_set_ne m (by omega)]
    · rw [word, hwrote.frame a (by omega), hset, hword, Nat.pow_succ']
      simp only [Option.getD_some, UInt8.toNat_ofNat']
      exact (Nat.mod_mul).symm

/-- The bytes of a word are its digits. -/
theorem word_byte (h : m.Mapped a n) {i : Nat} (hi : i < n) :
    m.byte (a + i) = some (UInt8.ofNat (m.word a n / 256 ^ i)) := by
  induction n generalizing a i with
  | zero => cases hi
  | succ n ih =>
    obtain ⟨c, hc⟩ := h.first
    have hdiv : (c.toNat + 256 * m.word (a + 1) n) / 256 = m.word (a + 1) n := by
      have hlt := c.toNat_lt
      omega
    rw [word, hc, Option.getD_some]
    cases i with
    | zero =>
      rw [Nat.add_zero, hc, Nat.pow_zero, Nat.div_one]
      congr 1
      refine UInt8.toNat_inj.mp ?_
      have hlt := c.toNat_lt
      rw [UInt8.toNat_ofNat']
      omega
    | succ i =>
      rw [Nat.pow_succ', ← Nat.div_div_eq_div_mul, hdiv, show a + (i + 1) = a + 1 + i by omega]
      exact ih (h.mono (Nat.le_succ a) (by omega)) (by omega)

theorem storeWord_bytes (h : m.Mapped a n) (v : Nat) :
    Returns (fun m' => m.Wrote m' a n ∧
      ∀ i < n, m'.byte (a + i) = some (UInt8.ofNat (v / 256 ^ i))) (m.storeWord a v n) := by
  refine (storeWord_spec h v).mono ?_
  rintro m' ⟨hw, hword⟩
  refine ⟨hw, fun i hi => ?_⟩
  rw [word_byte (hw.mapped h) hi, hword]
  congr 1
  refine UInt8.toNat_inj.mp ?_
  rw [UInt8.toNat_ofNat', UInt8.toNat_ofNat']
  have hpow : 256 ^ n = 256 ^ i * (256 * 256 ^ (n - i - 1)) := by
    rw [← Nat.pow_succ', ← Nat.pow_add]
    congr 1
    omega
  rw [hpow, Nat.mod_mul_right_div_self, Nat.mod_mul_right_mod]

theorem Wrote.word_eq (h : m.Wrote m' a n) (hb : b + k ≤ a ∨ a + n ≤ b) :
    m'.word b k = m.word b k :=
  word_congr fun x hx hx' => h.frame x (by omega)

end ByteMem

end HelixKernel
