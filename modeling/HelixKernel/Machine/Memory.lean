import Mathlib.Algebra.Group.Nat.Defs
import Mathlib.Logic.Function.Basic
import Mathlib.Tactic.Common

/-!
Physical memory, 64-bit wrap-around and the ways a kernel routine can go wrong.

Memory is a map from word addresses to 64-bit words together with the log of the
stores made so far, newest first, each with the part of the kernel that made it.
`Mem.Touch A m m'` is the frame condition: `m'` comes from `m` by stores `A`
allows, so every other word is unchanged. -/

namespace HelixKernel

/-- Unsigned 64-bit arithmetic: the value modulo `2 ^ 64`. -/
def wrap64 (x : Nat) : Nat := x % 2 ^ 64

theorem wrap64_of_lt {x : Nat} (h : x < 2 ^ 64) : wrap64 x = x := Nat.mod_eq_of_lt h

theorem wrap64_lt (x : Nat) : wrap64 x < 2 ^ 64 := Nat.mod_lt _ (by decide)

/-- `x - y` on `uint64_t`. -/
def sub64 (x y : Nat) : Nat := wrap64 (x + 2 ^ 64 - wrap64 y)

theorem sub64_of_le {x y : Nat} (h : y ≤ x) (hx : x < 2 ^ 64) : sub64 x y = x - y := by
  unfold sub64 wrap64
  rw [Nat.mod_eq_of_lt (show y < 2 ^ 64 by omega)]
  omega

/-- As many cells as there are addresses: a longer walk goes round in a circle. -/
def walkFuel : Nat := 2 ^ 64

/-- What stops a routine short of its return. -/
inductive Fault where
  /-- `free_list[i]` with `i` outside the sixteen heads -/
  | outOfBounds (i : Nat)
  /-- a loop that never ends -/
  | diverges
deriving DecidableEq, Repr

@[simp] theorem ok_bind {ε α β : Type} (a : α) (f : α → Except ε β) :
    (Except.ok a >>= f) = f a := rfl

@[simp] theorem error_bind {ε α β : Type} (e : ε) (f : α → Except ε β) :
    (Except.error e >>= f) = Except.error e := rfl

theorem bind_eq_ok {ε α β : Type} {x : Except ε α} {f : α → Except ε β} {b : β} :
    (x >>= f) = .ok b ↔ ∃ a, x = .ok a ∧ f a = .ok b := by
  cases x <;> simp

/-- The routine makes no access outside the heads, and what it returns, if it does, has `Q`. -/
def InBounds {α : Type} (Q : α → Prop) : Except Fault α → Prop
  | .ok a => Q a
  | .error .diverges => True
  | .error (.outOfBounds _) => False

namespace InBounds

variable {α β : Type} {P : α → Prop} {Q : β → Prop} {x : Except Fault α} {f : α → Except Fault β}

theorem bind (hx : InBounds P x) (hf : ∀ a, P a → InBounds Q (f a)) : InBounds Q (x >>= f) := by
  match x with
  | .ok a => exact hf a hx
  | .error .diverges => exact trivial
  | .error (.outOfBounds _) => exact hx.elim

theorem mono {P' : α → Prop} (hx : InBounds P x) (h : ∀ a, P a → P' a) : InBounds P' x := by
  match x with
  | .ok a => exact h a hx
  | .error .diverges => exact trivial
  | .error (.outOfBounds _) => exact hx.elim

theorem ne_outOfBounds (hx : InBounds P x) (i : Nat) : x ≠ .error (.outOfBounds i) := by
  rintro rfl
  exact hx

theorem of_ok {a : α} (hx : InBounds P x) (h : x = .ok a) : P a := by
  subst h
  exact hx

end InBounds

/-- What the routine returns, if it does, has `Q`. -/
def Yields {α : Type} (Q : α → Prop) (x : Except Fault α) : Prop := ∀ a, x = .ok a → Q a

namespace Yields

variable {α β : Type} {P : α → Prop} {Q : β → Prop} {x : Except Fault α} {f : α → Except Fault β}

theorem ok {a : α} (h : P a) : Yields P (.ok a) := by
  intro b hb
  cases hb
  exact h

theorem bind (hx : Yields P x) (hf : ∀ a, P a → Yields Q (f a)) : Yields Q (x >>= f) := by
  intro b hb
  obtain ⟨a, ha, hb⟩ := bind_eq_ok.mp hb
  exact hf a (hx a ha) b hb

/-- Nothing need be known of `x`. -/
theorem bind_any (hf : ∀ a, Yields Q (f a)) : Yields Q (x >>= f) :=
  bind (P := fun _ => True) (fun _ _ => trivial) fun a _ => hf a

end Yields

/-! ## Memory -/

/-- Who stores: the allocator into a free block's header, the page-table code,
or the owner of a block. -/
inductive Writer where
  | header
  | table
  | client
deriving DecidableEq, Repr

structure Mem where
  word : Nat → Nat
  writes : List (Writer × Nat)

namespace Mem

def store (m : Mem) (w : Writer) (a v : Nat) : Mem where
  word := fun x => if x = a then v else m.word x
  writes := (w, a) :: m.writes

/-- `memset(p, 0, n)`, word by word. -/
def clear (m : Mem) (w : Writer) (p n : Nat) : Mem where
  word := fun x => if p ≤ x ∧ x < p + n then 0 else m.word x
  writes := (List.range (n / 8)).map (fun i => (w, p + 8 * i)) ++ m.writes

@[simp] theorem store_word_self (m : Mem) (w : Writer) (a v : Nat) : (m.store w a v).word a = v := by
  simp [store]

theorem store_word_ne (m : Mem) (w : Writer) {a x : Nat} (v : Nat) (h : x ≠ a) :
    (m.store w a v).word x = m.word x := by
  simp [store, h]

theorem clear_word_mem (m : Mem) (w : Writer) {p n x : Nat} (h : p ≤ x ∧ x < p + n) :
    (m.clear w p n).word x = 0 := by
  simp [clear, h]

theorem clear_word_ne (m : Mem) (w : Writer) {p n x : Nat} (h : ¬ (p ≤ x ∧ x < p + n)) :
    (m.clear w p n).word x = m.word x := by
  simp [clear, h]

/-! ## Frames -/

/-- `m'` comes from `m` by stores that `A` allows. -/
structure Touch (A : Writer → Nat → Prop) (m m' : Mem) : Prop where
  log : ∃ ws, m'.writes = ws ++ m.writes ∧ ∀ e ∈ ws, A e.1 e.2
  same : ∀ a, (∀ w, ¬ A w a) → m'.word a = m.word a

variable {A B : Writer → Nat → Prop} {m m' m'' : Mem}

theorem Touch.refl (A : Writer → Nat → Prop) (m : Mem) : Touch A m m :=
  ⟨⟨[], rfl, by simp⟩, fun _ _ => rfl⟩

theorem Touch.trans (h : Touch A m m') (h' : Touch A m' m'') : Touch A m m'' := by
  obtain ⟨ws, hw, ha⟩ := h.log
  obtain ⟨ws', hw', ha'⟩ := h'.log
  refine ⟨⟨ws' ++ ws, by rw [hw', hw, List.append_assoc], fun e he => ?_⟩, fun a hna => ?_⟩
  · rcases List.mem_append.mp he with he | he
    · exact ha' e he
    · exact ha e he
  · rw [h'.same a hna, h.same a hna]

theorem Touch.mono (h : Touch A m m') (hAB : ∀ w a, A w a → B w a) : Touch B m m' := by
  obtain ⟨ws, hw, ha⟩ := h.log
  exact ⟨⟨ws, hw, fun e he => hAB _ _ (ha e he)⟩,
    fun a hna => h.same a fun w hA => hna w (hAB w a hA)⟩

theorem Touch.store (m : Mem) {w : Writer} {a : Nat} (v : Nat) (h : A w a) :
    Touch A m (m.store w a v) := by
  refine ⟨⟨[(w, a)], rfl, by simpa using h⟩, fun x hx => m.store_word_ne w v ?_⟩
  rintro rfl
  exact hx w h

theorem Touch.clear (m : Mem) {w : Writer} {p n : Nat}
    (h : ∀ a, p ≤ a → a < p + n → A w a) : Touch A m (m.clear w p n) := by
  refine ⟨⟨_, rfl, fun e he => ?_⟩, fun x hx => m.clear_word_ne w fun hr => hx w (h x hr.1 hr.2)⟩
  obtain ⟨i, hi, rfl⟩ := List.mem_map.mp he
  have := List.mem_range.mp hi
  exact h _ (by simp) (by simp only; omega)

/-- The log of `m'` ends with the log of `m`: no store is taken back. -/
def Grows (m m' : Mem) : Prop := m.writes <:+ m'.writes

theorem Grows.refl (m : Mem) : m.Grows m := List.suffix_refl _

theorem Grows.trans (h : m.Grows m') (h' : m'.Grows m'') : m.Grows m'' := List.IsSuffix.trans h h'

theorem Grows.store (m : Mem) (w : Writer) (a v : Nat) : m.Grows (m.store w a v) :=
  List.suffix_cons _ _

theorem Grows.clear (m : Mem) (w : Writer) (p n : Nat) : m.Grows (m.clear w p n) :=
  List.suffix_append _ _

end Mem

end HelixKernel
