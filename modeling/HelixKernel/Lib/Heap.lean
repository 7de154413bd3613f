import HelixKernel.Machine.Memory

/-!
A heap of blocks with their pointers, `β` being what a block holds.  Loads, stores and
`free` through a pointer to no live block are faults; `malloc` is a parameter of whoever
allocates, constrained by `Heap.Fresh`. -/

namespace HelixKernel

inductive HeapFault where
  /-- a load or a store outside the live blocks -/
  | access (p : Nat)
  /-- `free` of what is no live block -/
  | free (p : Nat)
  /-- a loop that never ends -/
  | diverges
  /-- `malloc` has returned null -/
  | noMemory
  /-- the number of bytes asked of `malloc` does not fit `size_t` -/
  | overflow
deriving DecidableEq, Repr

/-- What a routine returns has `Q`, and nothing stops it but a lack of memory. -/
def Runs {β : Type} (Q : β → Prop) : Except HeapFault β → Prop
  | .ok b => Q b
  | .error .noMemory => True
  | .error .overflow => True
  | .error _ => False

namespace Runs

variable {α β : Type} {P : α → Prop} {Q : β → Prop} {x : Except HeapFault α}
  {f : α → Except HeapFault β}

theorem cases (hx : Runs P x) :
    (∃ a, x = .ok a ∧ P a) ∨ x = .error .noMemory ∨ x = .error .overflow := by
  cases x with
  | ok a => exact .inl ⟨a, rfl, hx⟩
  | error e =>
    cases e with
    | noMemory => exact .inr (.inl rfl)
    | overflow => exact .inr (.inr rfl)
    | access p => exact hx.elim
    | free p => exact hx.elim
    | diverges => exact hx.elim

theorem bind (hx : Runs P x) (hf : ∀ a, P a → Runs Q (f a)) : Runs Q (x >>= f) := by
  rcases hx.cases with ⟨a, rfl, ha⟩ | rfl | rfl
  · exact hf a ha
  · exact trivial
  · exact trivial

/-- A first step known to succeed. -/
theorem bind_ok {a : α} (hx : x = .ok a) (hf : Runs Q (f a)) : Runs Q (x >>= f) := by
  rw [hx]
  exact hf

theorem of_ok {a : α} (hx : Runs P x) (h : x = .ok a) : P a := by
  subst h
  exact hx

/-- What is known of the result by other means. -/
theorem and_ok {P' : α → Prop} (hx : Runs P x) (h : ∀ a, x = .ok a → P' a) :
    Runs (fun a => P a ∧ P' a) x := by
  rcases hx.cases with ⟨a, rfl, ha⟩ | rfl | rfl
  · exact ⟨ha, h a rfl⟩
  · exact trivial
  · exact trivial

theorem mono {P' : α → Prop} (hx : Runs P x) (h : ∀ a, P a → P' a) : Runs P' x := by
  rcases hx.cases with ⟨a, rfl, ha⟩ | rfl | rfl
  · exact h a ha
  · exact trivial
  · exact trivial

end Runs

/-- Moreover it says when memory lacks: `malloc` returns null only if `A`, and a size does not
fit only if `B`. -/
def RunsUnless {β : Type} (A B : Prop) (Q : β → Prop) : Except HeapFault β → Prop
  | .ok b => Q b
  | .error .noMemory => A
  | .error .overflow => B
  | .error _ => False

namespace RunsUnless

variable {α β : Type} {A B : Prop} {P : α → Prop} {Q : β → Prop} {x : Except HeapFault α}
  {f : α → Except HeapFault β}

theorem cases (hx : RunsUnless A B P x) :
    (∃ a, x = .ok a ∧ P a) ∨ (x = .error .noMemory ∧ A) ∨ (x = .error .overflow ∧ B) := by
  cases x with
  | ok a => exact .inl ⟨a, rfl, hx⟩
  | error e =>
    cases e with
    | noMemory => exact .inr (.inl ⟨rfl, hx⟩)
    | overflow => exact .inr (.inr ⟨rfl, hx⟩)
    | access p => exact hx.elim
    | free p => exact hx.elim
    | diverges => exact hx.elim

theorem bind (hx : RunsUnless A B P x) (hf : ∀ a, P a → RunsUnless A B Q (f a)) :
    RunsUnless A B Q (x >>= f) := by
  rcases hx.cases with ⟨a, rfl, ha⟩ | ⟨rfl, hA⟩ | ⟨rfl, hB⟩
  · exact hf a ha
  · exact hA
  · exact hB

theorem mono {A' B' : Prop} {P' : α → Prop} (hx : RunsUnless A B P x) (hA : A → A') (hB : B → B')
    (h : ∀ a, P a → P' a) : RunsUnless A' B' P' x := by
  rcases hx.cases with ⟨a, rfl, ha⟩ | ⟨rfl, hA'⟩ | ⟨rfl, hB'⟩
  · exact h a ha
  · exact hA hA'
  · exact hB hB'

theorem imp {P' : α → Prop} (hx : RunsUnless A B P x) (h : ∀ a, P a → P' a) :
    RunsUnless A B P' x :=
  hx.mono id id h

theorem of_ok {a : α} (hx : RunsUnless A B P x) (h : x = .ok a) : P a := by
  subst h
  exact hx

theorem ok (hx : RunsUnless A B P x) (hA : ¬ A) (hB : ¬ B) : ∃ a, x = .ok a ∧ P a := by
  rcases hx.cases with h | ⟨-, hA'⟩ | ⟨-, hB'⟩
  · exact h
  · exact absurd hA' hA
  · exact absurd hB' hB

theorem runs (hx : RunsUnless A B P x) : Runs P x := by
  rcases hx.cases with ⟨a, rfl, ha⟩ | ⟨rfl, -⟩ | ⟨rfl, -⟩
  · exact ha
  · exact trivial
  · exact trivial

end RunsUnless

structure Heap (β : Type) where
  block : Nat → Option β

namespace Heap

variable {β : Type}

def empty : Heap β := ⟨fun _ => none⟩

def set (h : Heap β) (p : Nat) (b : Option β) : Heap β := ⟨Function.update h.block p b⟩

def load (h : Heap β) (p : Nat) : Except HeapFault β :=
  match h.block p with
  | some b => .ok b
  | none => .error (.access p)

def store (h : Heap β) (p : Nat) (b : β) : Except HeapFault (Heap β) :=
  if (h.block p).isSome then .ok (h.set p (some b)) else .error (.access p)

/-- `free(p)`; nothing for the null pointer. -/
def free (h : Heap β) (p : Nat) : Except HeapFault (Heap β) :=
  if p = 0 then .ok h
  else if (h.block p).isSome then .ok (h.set p none)
  else .error (.free p)

/-- What `malloc` promises of a pointer that is not null. -/
structure Fresh (h : Heap β) (p : Nat) : Prop where
  ne_null : p ≠ 0
  lt : p < 2 ^ 64
  unused : h.block p = none

variable {h : Heap β} {p x : Nat} {b : β}

@[simp] theorem set_block_self (h : Heap β) (p : Nat) (b : Option β) : (h.set p b).block p = b := by
  simp [set]

theorem set_block_ne (h : Heap β) (b : Option β) (hx : x ≠ p) :
    (h.set p b).block x = h.block x := by
  simp [set, hx]

@[simp] theorem set_set (h : Heap β) (p : Nat) (b b' : Option β) :
    (h.set p b).set p b' = h.set p b' := by
  simp [set]

theorem set_eq_self {b : Option β} (hb : h.block p = b) : h.set p b = h := by
  subst hb
  simp [set]

theorem load_of_block (hb : h.block p = some b) : h.load p = .ok b := by
  simp [load, hb]

theorem store_of_block {b' : β} (hb : h.block p = some b) :
    h.store p b' = .ok (h.set p (some b')) := by
  simp [store, hb]

theorem free_of_block (hp : p ≠ 0) (hb : h.block p = some b) : h.free p = .ok (h.set p none) := by
  simp [free, hp, hb]

theorem free_spec (hb : (h.block p).isSome) :
    ∃ h', h.free p = .ok h' ∧ ∀ x, x ≠ p → h'.block x = h.block x := by
  by_cases hp : p = 0
  · exact ⟨h, by simp [free, hp], fun x _ => rfl⟩
  · exact ⟨h.set p none, by simp [free, hp, hb], fun x hx => set_block_ne _ _ hx⟩

end Heap

end HelixKernel
