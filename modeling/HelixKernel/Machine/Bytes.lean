import HelixKernel.Machine.Memory

/-!
Memory as a flat array of bytes.

The word at an address divisible by 8 is the little-endian value of the eight
bytes there: `byte` reads one of them, `storeByte` replaces it, and `load64` is
the 64-bit load.  A word that fits in 64 bits is what `load64` reads
(`load64_eq`). -/

namespace HelixKernel

/-! ## Bytes of a number -/

/-- Byte `i` of `w`, the least significant one first. -/
def digit256 (w i : Nat) : Nat := w / 256 ^ i % 256

/-- `w` with byte `i` replaced by `v`. -/
def setDigit256 (w i v : Nat) : Nat :=
  w % 256 ^ i + 256 ^ i * (v % 256 + 256 * (w / 256 ^ (i + 1)))

theorem setDigit256_mod (w i v : Nat) : setDigit256 w i v % 256 ^ i = w % 256 ^ i := by
  unfold setDigit256
  rw [Nat.add_mul_mod_self_left, Nat.mod_mod]

theorem setDigit256_div (w i v : Nat) :
    setDigit256 w i v / 256 ^ i = v % 256 + 256 * (w / 256 ^ (i + 1)) := by
  have hpos : 0 < 256 ^ i := Nat.pow_pos (by decide)
  unfold setDigit256
  rw [Nat.add_mul_div_left _ _ hpos, Nat.div_eq_of_lt (Nat.mod_lt _ hpos), Nat.zero_add]

theorem setDigit256_div_succ (w i v : Nat) :
    setDigit256 w i v / 256 ^ (i + 1) = w / 256 ^ (i + 1) := by
  calc setDigit256 w i v / 256 ^ (i + 1)
      = setDigit256 w i v / 256 ^ i / 256 := by rw [Nat.div_div_eq_div_mul, Nat.pow_succ]
    _ = w / 256 ^ (i + 1) := by
      rw [setDigit256_div]
      omega

theorem digit256_setDigit256_self (w i v : Nat) : digit256 (setDigit256 w i v) i = v % 256 := by
  unfold digit256
  rw [setDigit256_div]
  omega

/-- The bytes below `i` are those of the remainder. -/
theorem digit256_mod {w i j : Nat} (h : j < i) : digit256 (w % 256 ^ i) j = digit256 w j := by
  have hi : 256 ^ i = 256 ^ j * 256 ^ (i - j) := by
    rw [← Nat.pow_add]
    congr 1
    omega
  have hdvd : 256 ∣ 256 ^ (i - j) := Nat.pow_dvd_pow 256 (show 1 ≤ i - j by omega)
  unfold digit256
  rw [hi, Nat.mod_mul_right_div_self, Nat.mod_mod_of_dvd _ hdvd]

/-- The bytes from `i` on are those of the quotient. -/
theorem digit256_div {w i j : Nat} (h : i ≤ j) : digit256 (w / 256 ^ i) (j - i) = digit256 w j := by
  unfold digit256
  rw [Nat.div_div_eq_div_mul, ← Nat.pow_add, Nat.add_sub_cancel' h]

theorem digit256_setDigit256_ne {w i j : Nat} (v : Nat) (h : j ≠ i) :
    digit256 (setDigit256 w i v) j = digit256 w j := by
  rcases Nat.lt_or_gt_of_ne h with hlt | hgt
  · rw [← digit256_mod hlt, setDigit256_mod, digit256_mod hlt]
  · rw [← digit256_div (Nat.succ_le_of_lt hgt), setDigit256_div_succ,
      digit256_div (Nat.succ_le_of_lt hgt)]

/-! ## Bytes of memory -/

namespace Mem

def byte (m : Mem) (y : Nat) : Nat := digit256 (m.word (y / 8 * 8)) (y % 8)

/-- `*(uint8_t*)y = v` -/
def storeByte (m : Mem) (w : Writer) (y v : Nat) : Mem where
  word := fun x => if x = y / 8 * 8 then setDigit256 (m.word x) (y % 8) v else m.word x
  writes := (w, y) :: m.writes

/-- The little-endian value of the `n` bytes at `a`. -/
def load (m : Mem) (a : Nat) : Nat → Nat
  | 0 => 0
  | n + 1 => m.load a n + 256 ^ n * m.byte (a + n)

/-- `*(uint64_t*)a` -/
def load64 (m : Mem) (a : Nat) : Nat := m.load a 8

variable {m m' : Mem}

theorem byte_congr {y : Nat} (h : m'.word (y / 8 * 8) = m.word (y / 8 * 8)) :
    m'.byte y = m.byte y := by
  unfold byte
  rw [h]

theorem byte_storeByte_self (m : Mem) (w : Writer) (y v : Nat) :
    (m.storeByte w y v).byte y = v % 256 := by
  unfold byte storeByte
  dsimp only
  rw [if_pos rfl, digit256_setDigit256_self]

/-- **Frame.**  A byte store changes one byte. -/
theorem byte_storeByte_ne (m : Mem) (w : Writer) {y z : Nat} (v : Nat) (h : z ≠ y) :
    (m.storeByte w y v).byte z = m.byte z := by
  unfold byte storeByte
  dsimp only
  split
  · rw [digit256_setDigit256_ne v (by omega)]
  · rfl

theorem load_eq (m : Mem) {a : Nat} (ha : a % 8 = 0) {n : Nat} (hn : n ≤ 8) :
    m.load a n = m.word a % 256 ^ n := by
  induction n with
  | zero => rw [Nat.pow_zero, Nat.mod_one, load]
  | succ n ih =>
    have hw : (a + n) / 8 * 8 = a := by omega
    have hi : (a + n) % 8 = n := by omega
    rw [load, ih (by omega), byte, hw, hi, digit256, ← Nat.mod_pow_succ]

/-- The 64-bit load at an aligned address. -/
theorem load64_eq (m : Mem) {a : Nat} (ha : a % 8 = 0) (hw : m.word a < 2 ^ 64) :
    m.load64 a = m.word a := by
  rw [load64, m.load_eq ha (Nat.le_refl 8)]
  exact Nat.mod_eq_of_lt hw

end Mem

end HelixKernel
