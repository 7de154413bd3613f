import HelixKernel.Lib.Heap

/-!
Blocks of cells, as `malloc(sizeof(T) * n)` hands them out to hold elements of a type `T`.

A cell holds an element or, before one is constructed in it and after it is destroyed, no
element.  `memmove` copies cells, occupied or not, one by one and in the direction that
lets the ranges overlap; `memmove_within` and `memmove_across` say that it copies them as if
all at once. -/

namespace HelixKernel

/-- `sizeof(T)` and `T()`. -/
structure ElemType (α : Type) where
  size : Nat
  default : α
  size_pos : 0 < size

@[ext]
structure CellBlock (α : Type) where
  length : Nat
  cell : Nat → Option α

namespace CellBlock

variable {α : Type}

def set (b : CellBlock α) (i : Nat) (c : Option α) : CellBlock α :=
  { b with cell := Function.update b.cell i c }

/-- `f 0, …, f (n - 1)` in the cells from `i` on. -/
def paste (b : CellBlock α) (i n : Nat) (f : Nat → Option α) : CellBlock α :=
  { b with cell := fun j => if i ≤ j ∧ j < i + n then f (j - i) else b.cell j }

@[simp] theorem set_length (b : CellBlock α) (i : Nat) (c : Option α) :
    (b.set i c).length = b.length := rfl

@[simp] theorem paste_length (b : CellBlock α) (i n : Nat) (f : Nat → Option α) :
    (b.paste i n f).length = b.length := rfl

theorem paste_cell (b : CellBlock α) (i n : Nat) (f : Nat → Option α) (j : Nat) :
    (b.paste i n f).cell j = if i ≤ j ∧ j < i + n then f (j - i) else b.cell j := rfl

theorem set_eq_paste (b : CellBlock α) (i : Nat) (c : Option α) :
    b.set i c = b.paste i 1 fun _ => c := by
  refine CellBlock.ext rfl (funext fun j => ?_)
  rw [paste_cell]
  by_cases h : j = i
  · subst h
    simp [set]
  · rw [if_neg (by omega)]
    exact Function.update_of_ne h _ _

@[simp] theorem paste_zero (b : CellBlock α) (i : Nat) (f : Nat → Option α) :
    b.paste i 0 f = b := by
  refine CellBlock.ext rfl (funext fun j => ?_)
  rw [paste_cell, if_neg (by omega)]

/-- One more cell at the end of the range, -/
theorem paste_set_end (b : CellBlock α) (i n : Nat) (f : Nat → Option α) :
    (b.paste i n f).set (i + n) (f n) = b.paste i (n + 1) f := by
  refine CellBlock.ext rfl (funext fun j => ?_)
  rw [set_eq_paste, paste_cell, paste_cell, paste_cell]
  by_cases h : j = i + n
  · subst h
    rw [if_pos (by omega), if_pos (by omega)]
    congr
    omega
  · rw [if_neg (by omega)]
    by_cases hr : i ≤ j ∧ j < i + n
    · rw [if_pos hr, if_pos (by omega)]
    · rw [if_neg hr, if_neg (by omega)]

/-- and one more at its beginning. -/
theorem paste_set_begin (b : CellBlock α) (i n : Nat) (f : Nat → Option α) :
    (b.paste (i + 1) n fun j => f (j + 1)).set i (f 0) = b.paste i (n + 1) f := by
  refine CellBlock.ext rfl (funext fun j => ?_)
  rw [set_eq_paste, paste_cell, paste_cell, paste_cell]
  by_cases h : j = i
  · subst h
    rw [if_pos (by omega), if_pos (by omega), Nat.sub_self]
  · rw [if_neg (by omega)]
    by_cases hr : i + 1 ≤ j ∧ j < i + 1 + n
    · rw [if_pos hr, if_pos (by omega)]
      congr
      omega
    · rw [if_neg hr, if_neg (by omega)]

/-- The first cell before the rest of the range. -/
theorem set_paste_begin (b : CellBlock α) (i n : Nat) (f : Nat → Option α) :
    (b.set i (f 0)).paste (i + 1) n (fun j => f (j + 1)) = b.paste i (n + 1) f := by
  rw [← paste_set_begin]
  refine CellBlock.ext rfl (funext fun j => ?_)
  rw [set_eq_paste, set_eq_paste, paste_cell, paste_cell, paste_cell, paste_cell]
  by_cases h : j = i
  · rw [if_neg (by omega), if_pos (by omega), if_pos (by omega)]
  · rw [if_neg (by omega : ¬ (i ≤ j ∧ j < i + 1)), if_neg (by omega : ¬ (i ≤ j ∧ j < i + 1))]

end CellBlock

/-- The heap, and what `malloc` will return, one pointer a call. -/
structure BlockHeap (α : Type) where
  heap : Heap (CellBlock α)
  supply : List Nat

namespace BlockHeap

variable {α : Type}

def block (m : BlockHeap α) (p : Nat) : Option (CellBlock α) := m.heap.block p

def put (m : BlockHeap α) (p : Nat) (b : CellBlock α) : BlockHeap α :=
  { m with heap := m.heap.set p (some b) }

/-- What `malloc` promises of a block of `bytes` bytes at `p`. -/
def Allocatable (m : BlockHeap α) (p bytes : Nat) : Prop :=
  p ≠ 0 ∧ p + bytes < 2 ^ 64 ∧ (m.block p).isNone = true

instance (m : BlockHeap α) (p bytes : Nat) : Decidable (m.Allocatable p bytes) :=
  inferInstanceAs (Decidable (_ ∧ _ ∧ _))

/-- `malloc(sizeof(T) * n)`; the model stops where the product wraps or null is returned. -/
def malloc (t : ElemType α) (m : BlockHeap α) (n : Nat) : Except HeapFault (BlockHeap α × Nat) :=
  if 2 ^ 64 ≤ t.size * n then .error .overflow
  else match m.supply with
    | [] => .error .noMemory
    | p :: supply =>
      if m.Allocatable p (t.size * n) then
        .ok (⟨m.heap.set p (some ⟨n, fun _ => none⟩), supply⟩, p)
      else .error .noMemory

def free (m : BlockHeap α) (p : Nat) : Except HeapFault (BlockHeap α) := do
  let heap ← m.heap.free p
  .ok { m with heap }

def readCell (m : BlockHeap α) (p i : Nat) : Except HeapFault (Option α) := do
  let b ← m.heap.load p
  if i < b.length then .ok (b.cell i) else .error (.access p)

def writeCell (m : BlockHeap α) (p i : Nat) (c : Option α) : Except HeapFault (BlockHeap α) := do
  let b ← m.heap.load p
  if i < b.length then .ok (m.put p (b.set i c)) else .error (.access p)

/-- Reading an element; there must be one. -/
def readElem (m : BlockHeap α) (p i : Nat) : Except HeapFault α := do
  match ← m.readCell p i with
  | some a => .ok a
  | none => .error (.access p)

/-- `new (p + i) T(a)` -/
def construct (m : BlockHeap α) (p i : Nat) (a : α) : Except HeapFault (BlockHeap α) :=
  m.writeCell p i (some a)

/-- `p[i].~T()`; there must be an element. -/
def destroy (m : BlockHeap α) (p i : Nat) : Except HeapFault (BlockHeap α) := do
  let _ ← m.readElem p i
  m.writeCell p i none

/-- `for (i = 0; i < n; i++) pdest[i] = psrc[i];` with `todo` rounds left. -/
def copyForward (m : BlockHeap α) (dst di src si : Nat) : Nat → Nat → Except HeapFault (BlockHeap α)
  | 0, _ => .ok m
  | todo + 1, i => do
    let c ← m.readCell src (si + i)
    let m ← m.writeCell dst (di + i) c
    copyForward m dst di src si todo (i + 1)

/-- `for (i = n; i > 0; i--) pdest[i-1] = psrc[i-1];` -/
def copyBackward (m : BlockHeap α) (dst di src si : Nat) : Nat → Except HeapFault (BlockHeap α)
  | 0 => .ok m
  | i + 1 => do
    let c ← m.readCell src (si + i)
    let m ← m.writeCell dst (di + i) c
    copyBackward m dst di src si i

/-- `memmove(dst + di, src + si, sizeof(T) * n)` -/
def memmove (t : ElemType α) (m : BlockHeap α) (dst di src si n : Nat) :
    Except HeapFault (BlockHeap α) :=
  if src + t.size * si > dst + t.size * di then m.copyForward dst di src si n 0
  else if src + t.size * si < dst + t.size * di then m.copyBackward dst di src si n
  else .ok m

/-! ## What they do -/

section

variable {t : ElemType α} {m : BlockHeap α} {p x i n : Nat} {b : CellBlock α}

@[simp] theorem put_block_self (m : BlockHeap α) (p : Nat) (b : CellBlock α) :
    (m.put p b).block p = some b := by
  simp [put, block]

theorem put_block_ne (m : BlockHeap α) (b : CellBlock α) (hx : x ≠ p) :
    (m.put p b).block x = m.block x := by
  simp [put, block, Heap.set_block_ne _ _ hx]

@[simp] theorem put_put (m : BlockHeap α) (p : Nat) (b b' : CellBlock α) :
    (m.put p b).put p b' = m.put p b' := by
  simp [put]

theorem put_eq_self (hb : m.block p = some b) : m.put p b = m := by
  unfold put
  rw [Heap.set_eq_self hb]

/-- **`malloc`** returns a block of its own. -/
theorem malloc_runs (t : ElemType α) (m : BlockHeap α) (n : Nat) :
    Runs (fun r => r.2 ≠ 0 ∧ r.2 + t.size * n < 2 ^ 64 ∧ m.block r.2 = none ∧
      r.1.block r.2 = some ⟨n, fun _ => none⟩ ∧ ∀ x, x ≠ r.2 → r.1.block x = m.block x)
      (m.malloc t n) := by
  unfold malloc
  split
  · exact trivial
  · split
    · exact trivial
    · split
      · rename_i p supply _ hp
        refine ⟨hp.1, hp.2.1, by simpa using hp.2.2, ?_, fun x hx => ?_⟩
        · simp [block]
        · simp [block, Heap.set_block_ne _ _ hx]
      · exact trivial

/-- The pointer is the next that `malloc` has. -/
theorem malloc_ok {r : BlockHeap α × Nat} (h : m.malloc t n = .ok r) :
    ∃ rest, m.supply = r.2 :: rest := by
  unfold malloc at h
  split at h
  · cases h
  · split at h
    · cases h
    · rename_i p supply hs
      split at h
      · cases h
        exact ⟨supply, hs⟩
      · cases h

theorem free_of_block (hp : p ≠ 0) (hb : m.block p = some b) :
    ∃ m', m.free p = .ok m' ∧ m'.block p = none ∧ ∀ x, x ≠ p → m'.block x = m.block x := by
  refine ⟨{ m with heap := m.heap.set p none }, ?_, by simp [block], fun x hx => ?_⟩
  · simp [free, Heap.free_of_block hp hb]
  · simp [block, Heap.set_block_ne _ _ hx]

theorem readCell_of_block (hb : m.block p = some b) (hi : i < b.length) :
    m.readCell p i = .ok (b.cell i) := by
  simp [readCell, Heap.load_of_block hb, hi]

theorem writeCell_of_block (c : Option α) (hb : m.block p = some b) (hi : i < b.length) :
    m.writeCell p i c = .ok (m.put p (b.set i c)) := by
  simp [writeCell, Heap.load_of_block hb, hi]

theorem readElem_of_block {a : α} (hb : m.block p = some b) (hi : i < b.length)
    (ha : b.cell i = some a) : m.readElem p i = .ok a := by
  simp [readElem, readCell_of_block hb hi, ha]

theorem construct_of_block (a : α) (hb : m.block p = some b) (hi : i < b.length) :
    m.construct p i a = .ok (m.put p (b.set i (some a))) :=
  writeCell_of_block _ hb hi

theorem destroy_of_block {a : α} (hb : m.block p = some b) (hi : i < b.length)
    (ha : b.cell i = some a) : m.destroy p i = .ok (m.put p (b.set i none)) := by
  simp [destroy, readElem_of_block hb hi ha, writeCell_of_block none hb hi]

end

/-! ## `memmove` -/

section

variable {t : ElemType α} {m : BlockHeap α} {dst src di si n : Nat} {bd bs : CellBlock α}

/-- The block read from, while the range from `j` of the block written to is filled. -/
theorem put_paste_block (hd : m.block dst = some bd) (hs : m.block src = some bs) {j k : Nat}
    {f : Nat → Option α} {x : Nat} (hx : src = dst → ¬ (j ≤ x ∧ x < j + k)) :
    ∃ b, (m.put dst (bd.paste j k f)).block src = some b ∧ b.length = bs.length ∧
      b.cell x = bs.cell x := by
  by_cases h : src = dst
  · subst h
    rw [hd] at hs
    cases hs
    exact ⟨_, put_block_self _ _ _, rfl, by rw [CellBlock.paste_cell, if_neg (hx rfl)]⟩
  · exact ⟨bs, by rw [put_block_ne _ _ h]; exact hs, rfl, rfl⟩

/-- The forward loop after `i` of its rounds; a range moved down is read ahead of the
writes. -/
theorem copyForward_spec (hd : m.block dst = some bd) (hs : m.block src = some bs)
    (hsafe : src = dst → di ≤ si) {k i : Nat} (hdl : di + (i + k) ≤ bd.length)
    (hsl : si + (i + k) ≤ bs.length) :
    (m.put dst (bd.paste di i fun j => bs.cell (si + j))).copyForward dst di src si k i =
      .ok (m.put dst (bd.paste di (i + k) fun j => bs.cell (si + j))) := by
  induction k generalizing i with
  | zero => rfl
  | succ k ih =>
    obtain ⟨b, hb, hlen, hcell⟩ := put_paste_block (x := si + i) (j := di) (k := i)
      (f := fun j => bs.cell (si + j)) hd hs (fun h => by have := hsafe h; omega)
    have hread := readCell_of_block (i := si + i) hb (by omega)
    have hwrite := writeCell_of_block (i := di + i) (b.cell (si + i))
      (put_block_self m dst (bd.paste di i fun j => bs.cell (si + j))) (by simp; omega)
    simp only [copyForward, hread, ok_bind]
    rw [hwrite, hcell, put_put, CellBlock.paste_set_end _ _ _ fun j => bs.cell (si + j)]
    simp only [ok_bind]
    have hnext : i + (k + 1) = i + 1 + k := by omega
    rw [hnext, ih (by omega) (by omega)]

/-- The backward loop with `i` rounds left; a range moved up is read behind the writes. -/
theorem copyBackward_spec (hd : m.block dst = some bd) (hs : m.block src = some bs)
    (hsafe : src = dst → si ≤ di) {i k : Nat} (hdl : di + (i + k) ≤ bd.length)
    (hsl : si + (i + k) ≤ bs.length) :
    (m.put dst (bd.paste (di + i) k fun j => bs.cell (si + (j + i)))).copyBackward dst di src si i =
      .ok (m.put dst (bd.paste di (i + k) fun j => bs.cell (si + j))) := by
  induction i generalizing k with
  | zero => simp [copyBackward]
  | succ i ih =>
    obtain ⟨b, hb, hlen, hcell⟩ := put_paste_block (x := si + i) (j := di + (i + 1)) (k := k)
      (f := fun j => bs.cell (si + (j + (i + 1)))) hd hs (fun h => by have := hsafe h; omega)
    have hread := readCell_of_block (i := si + i) hb (by omega)
    have hwrite := writeCell_of_block (i := di + i) (b.cell (si + i))
      (put_block_self m dst (bd.paste (di + (i + 1)) k fun j => bs.cell (si + (j + (i + 1)))))
      (by simp; omega)
    have hset := CellBlock.paste_set_begin bd (di + i) k fun j => bs.cell (si + (j + i))
    simp only [Nat.zero_add, Nat.add_assoc, Nat.add_comm 1 i] at hset
    simp only [copyBackward, hread, ok_bind]
    rw [hwrite, hcell, put_put, hset]
    simp only [ok_bind]
    have hnext : i + 1 + k = i + (k + 1) := by omega
    rw [hnext, ih (by omega) (by omega)]

/-- **`memmove` within a block**, the ranges overlapping or not. -/
theorem memmove_within (t : ElemType α) (di si n : Nat) (hb : m.block dst = some bd)
    (hdl : di + n ≤ bd.length) (hsl : si + n ≤ bd.length) :
    m.memmove t dst di dst si n = .ok (m.put dst (bd.paste di n fun j => bd.cell (si + j))) := by
  have hlt : ∀ a b : Nat, t.size * a < t.size * b ↔ a < b := fun a b =>
    Nat.mul_lt_mul_left t.size_pos
  have hstart : m = m.put dst bd := (put_eq_self hb).symm
  unfold memmove
  split
  · rename_i h
    have hdi : di < si := by
      rw [gt_iff_lt, Nat.add_lt_add_iff_left, hlt] at h
      exact h
    have := copyForward_spec (m := m) hb hb (fun _ => by omega) (k := n) (i := 0)
      (by omega : di + (0 + n) ≤ bd.length) (by omega : si + (0 + n) ≤ bd.length)
    simpa [← hstart] using this
  · split
    · rename_i h
      have hdi : si < di := by
        rw [Nat.add_lt_add_iff_left, hlt] at h
        exact h
      have := copyBackward_spec (m := m) hb hb (fun _ => by omega) (i := n) (k := 0)
        (by omega : di + (n + 0) ≤ bd.length) (by omega : si + (n + 0) ≤ bd.length)
      simpa [← hstart] using this
    · rename_i h1 h2
      have hdi : di = si := by
        rw [gt_iff_lt, Nat.add_lt_add_iff_left, hlt] at h1
        rw [Nat.add_lt_add_iff_left, hlt] at h2
        omega
      subst hdi
      have hsame : bd.paste di n (fun j => bd.cell (di + j)) = bd := by
        unfold CellBlock.paste
        congr
        ext j : 1
        split
        · show bd.cell (di + (j - di)) = bd.cell j
          congr 1
          omega
        · rfl
      rw [hsame, put_eq_self hb]

/-- **`memmove` to another block.** -/
theorem memmove_across (t : ElemType α) (hne : dst ≠ src) (hd : m.block dst = some bd)
    (hs : m.block src = some bs) (hdl : n ≤ bd.length) (hsl : n ≤ bs.length) :
    m.memmove t dst 0 src 0 n = .ok (m.put dst (bd.paste 0 n bs.cell)) := by
  have hstart : m = m.put dst bd := (put_eq_self hd).symm
  unfold memmove
  split
  · have := copyForward_spec (m := m) hd hs (fun h => absurd h.symm hne) (k := n) (i := 0)
      (by omega : 0 + (0 + n) ≤ bd.length) (by omega : 0 + (0 + n) ≤ bs.length)
    simpa [← hstart] using this
  · split
    · have := copyBackward_spec (m := m) hd hs (fun h => absurd h.symm hne) (i := n) (k := 0)
        (by omega : 0 + (n + 0) ≤ bd.length) (by omega : 0 + (n + 0) ≤ bs.length)
      simpa [← hstart] using this
    · rename_i h1 h2
      omega

end

end BlockHeap

end HelixKernel
