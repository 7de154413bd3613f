import HelixKernel.Klibc.VectorList
import Mathlib.Data.List.Lex

/-!
# Comparisons of vectors

`operator==` and `operator<` are loops over the elements, the other four are made of them.  The two
loops compute equality and the lexicographic order of the lists that the vectors hold
(`operatorEq_eq`, `operatorLt_lex`), so the laws of the vectors are the laws of this order
(`comparisons_order`).  A vector that is a proper prefix comes first because its size does. -/

namespace HelixKernel

/-- `<` and `==` of an element type: a strict total order and its equality. -/
structure ElemOrder (α : Type) where
  lt : α → α → Bool
  eq : α → α → Bool
  irrefl : ∀ a, ¬ lt a a
  trans : ∀ a b c, lt a b → lt b c → lt a c
  total : ∀ a b, lt a b ∨ a = b ∨ lt b a
  eq_iff : ∀ a b, eq a b ↔ a = b

namespace Vec

variable {α : Type}

/-! ## The operators -/

/-- The loop of `operator==` from `i` on, with `todo` elements to go. -/
def eqLoop (o : ElemOrder α) (m : BlockHeap α) (a b : Vec) : Nat → Nat → Except HeapFault Bool
  | _, 0 => .ok true
  | i, todo + 1 => do
    let x ← m.readElem a.data i
    let y ← m.readElem b.data i
    if !o.eq x y then .ok false else eqLoop o m a b (i + 1) todo

/-- `a == b` -/
def operatorEq (o : ElemOrder α) (m : BlockHeap α) (a b : Vec) : Except HeapFault Bool :=
  if a.size ≠ b.size then .ok false else eqLoop o m a b 0 a.size

/-- `a != b` -/
def operatorNe (o : ElemOrder α) (m : BlockHeap α) (a b : Vec) : Except HeapFault Bool := do
  let r ← operatorEq o m a b
  .ok (!r)

/-- The loop of `operator<`, and the sizes behind it. -/
def ltLoop (o : ElemOrder α) (m : BlockHeap α) (a b : Vec) : Nat → Nat → Except HeapFault Bool
  | _, 0 => .ok (a.size < b.size)
  | i, todo + 1 => do
    let x ← m.readElem a.data i
    let y ← m.readElem b.data i
    if o.lt x y then .ok true
    else if o.lt y x then .ok false
    else ltLoop o m a b (i + 1) todo

/-- `a < b` -/
def operatorLt (o : ElemOrder α) (m : BlockHeap α) (a b : Vec) : Except HeapFault Bool :=
  let n := if a.size < b.size then a.size else b.size
  ltLoop o m a b 0 n

/-- `a <= b` -/
def operatorLe (o : ElemOrder α) (m : BlockHeap α) (a b : Vec) : Except HeapFault Bool := do
  let r ← operatorLt o m b a
  .ok (!r)

/-- `a > b` -/
def operatorGt (o : ElemOrder α) (m : BlockHeap α) (a b : Vec) : Except HeapFault Bool :=
  operatorLt o m b a

/-- `a >= b` -/
def operatorGe (o : ElemOrder α) (m : BlockHeap α) (a b : Vec) : Except HeapFault Bool := do
  let r ← operatorLt o m a b
  .ok (!r)

end Vec

variable {α : Type} {o : ElemOrder α} {t : ElemType α} {m : BlockHeap α} {a b c : Vec}
  {xs ys zs : List α} {x y : α} {i todo p : Nat}

/-! ## The order of lists -/

namespace ElemOrder

/-- The lexicographic order. -/
def Lex (o : ElemOrder α) : List α → List α → Prop := List.Lex fun x y => o.lt x y

theorem lex_irrefl (o : ElemOrder α) (xs : List α) : ¬ o.Lex xs xs := List.lex_irrefl o.irrefl xs

theorem lex_trans (h : o.Lex xs ys) (h' : o.Lex ys zs) : o.Lex xs zs :=
  List.lex_trans (fun hxy hyz => o.trans _ _ _ hxy hyz) h h'

theorem lex_total (o : ElemOrder α) (xs ys : List α) : o.Lex xs ys ∨ xs = ys ∨ o.Lex ys xs := by
  have htri : Std.Trichotomous fun x y => o.lt x y = true :=
    ⟨fun x y hxy hyx => ((o.total x y).resolve_left hxy).resolve_right hyx⟩
  by_cases hlt : o.Lex xs ys
  · exact .inl hlt
  · by_cases hgt : o.Lex ys xs
    · exact .inr (.inr hgt)
    · exact .inr (.inl ((List.Lex.trichotomous _).trichotomous xs ys hlt hgt))

theorem lex_asymm (h : o.Lex xs ys) : ¬ o.Lex ys xs := fun h' => o.lex_irrefl xs (lex_trans h h')

/-- What comes before is what does not come after, and equal is what comes neither way. -/
theorem not_lex_iff : ¬ o.Lex ys xs ↔ o.Lex xs ys ∨ xs = ys := by
  constructor
  · intro hnot
    rcases o.lex_total xs ys with h | h | h
    · exact .inl h
    · exact .inr h
    · exact absurd h hnot
  · rintro (h | rfl)
    · exact lex_asymm h
    · exact o.lex_irrefl xs

theorem eq_iff_not_lex : xs = ys ↔ ¬ o.Lex xs ys ∧ ¬ o.Lex ys xs := by
  constructor
  · rintro rfl
    exact ⟨o.lex_irrefl xs, o.lex_irrefl xs⟩
  · rintro ⟨h, h'⟩
    exact (not_lex_iff.mp h').resolve_left h

/-- A proper prefix comes first. -/
theorem lex_of_prefix (h : xs <+: ys) (hne : xs ≠ ys) : o.Lex xs ys := by
  obtain ⟨zs, rfl⟩ := h
  cases zs with
  | nil => exact absurd (List.append_nil xs).symm hne
  | cons z zs =>
    have hlex : o.Lex (xs ++ []) (xs ++ z :: zs) := List.Lex.append_left _ .nil xs
    rwa [List.append_nil] at hlex

/-- One element each. -/
theorem lex_cons_iff (o : ElemOrder α) (x y : α) (xs ys : List α) :
    o.Lex (x :: xs) (y :: ys) ↔ o.lt x y ∨ ¬ o.lt y x ∧ o.Lex xs ys := by
  unfold Lex
  rw [List.cons_lex_cons_iff]
  constructor
  · rintro (h | ⟨rfl, h⟩)
    · exact .inl h
    · exact .inr ⟨o.irrefl x, h⟩
  · rintro (h | ⟨hyx, h⟩)
    · exact .inl h
    · exact (o.total x y).imp_right fun hor => ⟨hor.resolve_right hyx, h⟩

end ElemOrder

/-! ## What the loops read -/

/-- The elements in the block at `p`, from the `i`th on. -/
def ElemsAt (m : BlockHeap α) (p : Nat) : Nat → List α → Prop
  | _, [] => True
  | i, x :: xs => m.readElem p i = .ok x ∧ ElemsAt m p (i + 1) xs

theorem ElemsAt.of_reads (h : ∀ k (hk : k < xs.length), m.readElem p (i + k) = .ok xs[k]) :
    ElemsAt m p i xs := by
  induction xs generalizing i with
  | nil => trivial
  | cons x xs ih =>
    refine ⟨h 0 (by simp), ih fun k hk => ?_⟩
    have hnext := h (k + 1) (by simpa using hk)
    rw [Nat.add_right_comm, Nat.add_assoc]
    exact hnext

theorem Owns.elemsAt (h : Owns t m a xs) : ElemsAt m a.data 0 xs := by
  refine .of_reads fun k hk => ?_
  have hle := h.length_le
  obtain ⟨b, hb, hcells⟩ := h.storage
  rw [Nat.zero_add]
  apply BlockHeap.readElem_of_block (hb.block (hb.data_ne (i := k) (by omega)))
  · rw [hb.length]
    omega
  · rw [hcells k hk, List.getElem?_eq_getElem hk]

/-! ## What the operators return -/

/-- It returns whether `P`. -/
def Decides (f : Except HeapFault Bool) (P : Prop) : Prop := ∃ r, f = .ok r ∧ (r = true ↔ P)

namespace Decides

variable {f : Except HeapFault Bool} {P P' : Prop}

theorem ok_true (h : Decides f P) : f = .ok true ↔ P := by
  obtain ⟨r, rfl, hr⟩ := h
  rw [Except.ok.injEq, hr]

theorem ok_false (h : Decides f P) : f = .ok false ↔ ¬ P := by
  obtain ⟨r, rfl, hr⟩ := h
  rw [Except.ok.injEq, ← hr, Bool.not_eq_true]

theorem not (h : Decides f P) : Decides (f >>= fun r => .ok (!r)) (¬ P) := by
  obtain ⟨r, rfl, hr⟩ := h
  refine ⟨!r, rfl, ?_⟩
  rw [← hr, Bool.not_eq_true, Bool.not_eq_true']

theorem of_iff (h : Decides f P) (hP : P ↔ P') : Decides f P' := by
  obtain ⟨r, hf, hr⟩ := h
  exact ⟨r, hf, hr.trans hP⟩

end Decides

open Vec

theorem eqLoop_decides (hx : ElemsAt m a.data i xs) (hy : ElemsAt m b.data i ys)
    (hxs : xs.length = todo) (hys : ys.length = todo) :
    Decides (eqLoop o m a b i todo) (xs = ys) := by
  induction todo generalizing i xs ys with
  | zero =>
    obtain rfl := List.eq_nil_of_length_eq_zero hxs
    obtain rfl := List.eq_nil_of_length_eq_zero hys
    exact ⟨true, rfl, by simp⟩
  | succ todo ih =>
    obtain ⟨x, xs, rfl⟩ := List.exists_cons_of_length_eq_add_one hxs
    obtain ⟨y, ys, rfl⟩ := List.exists_cons_of_length_eq_add_one hys
    rw [eqLoop, hx.1]
    show Decides (m.readElem b.data i >>= _) _
    rw [hy.1]
    show Decides (if (!o.eq x y) = true then _ else eqLoop o m a b (i + 1) todo) _
    by_cases hxy : x = y
    · subst hxy
      rw [if_neg (by simp [o.eq_iff])]
      exact (ih hx.2 hy.2 (Nat.succ.inj hxs) (Nat.succ.inj hys)).of_iff (by simp)
    · have hne : o.eq x y = false := by
        rw [← Bool.not_eq_true, o.eq_iff]
        exact hxy
      rw [hne]
      exact ⟨false, rfl, by simp [hxy]⟩

theorem operatorEq_eq (o : ElemOrder α) (ha : Owns t m a xs) (hb : Owns t m b ys) :
    Decides (operatorEq o m a b) (xs = ys) := by
  unfold operatorEq
  by_cases hsize : a.size = b.size
  · rw [if_neg (not_not.mpr hsize)]
    exact eqLoop_decides ha.elemsAt hb.elemsAt ha.size.symm (hb.size.symm.trans hsize.symm)
  · rw [if_pos hsize]
    refine ⟨false, rfl, iff_of_false Bool.false_ne_true ?_⟩
    rintro rfl
    exact hsize (ha.size.trans hb.size.symm)

/-- The loop ends where the lists first differ, or where one ends. -/
theorem ltLoop_decides (hx : ElemsAt m a.data i xs) (hy : ElemsAt m b.data i ys)
    (ha : a.size = i + xs.length) (hb : b.size = i + ys.length)
    (htodo : todo = min xs.length ys.length) :
    Decides (ltLoop o m a b i todo) (o.Lex xs ys) := by
  induction xs generalizing i ys todo with
  | nil =>
    obtain rfl : todo = 0 := by simpa using htodo
    refine ⟨decide (a.size < b.size), rfl, ?_⟩
    rw [decide_eq_true_iff, ha, hb]
    cases ys with
    | nil => exact iff_of_false (Nat.lt_irrefl _) (o.lex_irrefl [])
    | cons y ys => exact iff_of_true (by simp) .nil
  | cons x xs ih =>
    rw [List.length_cons] at ha htodo
    cases ys with
    | nil =>
      obtain rfl : todo = 0 := by simpa using htodo
      refine ⟨decide (a.size < b.size), rfl, iff_of_false ?_ fun h => by cases h⟩
      rw [decide_eq_true_iff, ha, hb, List.length_nil]
      omega
    | cons y ys =>
      rw [List.length_cons] at hb htodo
      obtain ⟨todo, rfl⟩ : ∃ k, todo = k + 1 := ⟨todo - 1, by omega⟩
      have hrest := ih hx.2 hy.2 (by omega) (by omega) (by omega : todo = min xs.length ys.length)
      rw [ltLoop, hx.1]
      show Decides (m.readElem b.data i >>= _) _
      rw [hy.1]
      show Decides (if o.lt x y = true then _ else if o.lt y x = true then _ else
        ltLoop o m a b (i + 1) todo) _
      by_cases hxy : o.lt x y
      · rw [if_pos hxy]
        exact ⟨true, rfl, iff_of_true rfl ((o.lex_cons_iff x y xs ys).mpr (.inl hxy))⟩
      · rw [if_neg hxy]
        by_cases hyx : o.lt y x
        · rw [if_pos hyx]
          exact ⟨false, rfl, by simp [o.lex_cons_iff, hxy, hyx]⟩
        · rw [if_neg hyx]
          exact hrest.of_iff (by simp [o.lex_cons_iff, hxy, hyx])

theorem operatorLt_lex (o : ElemOrder α) (ha : Owns t m a xs) (hb : Owns t m b ys) :
    Decides (operatorLt o m a b) (o.Lex xs ys) := by
  refine ltLoop_decides ha.elemsAt hb.elemsAt (by simpa using ha.size) (by simpa using hb.size) ?_
  rw [ha.size, hb.size]
  split <;> omega

/-! ## The laws -/

/-- What is asked of the six operators for two vectors that hold `xs` and `ys`. -/
structure Compared (o : ElemOrder α) (m : BlockHeap α) (a b : Vec) (xs ys : List α) : Prop where
  total : operatorLt o m a b = .ok true ∨ operatorEq o m a b = .ok true ∨
    operatorLt o m b a = .ok true
  eq_iff : operatorEq o m a b = .ok true ↔
    operatorLt o m a b = .ok false ∧ operatorLt o m b a = .ok false
  equality : operatorEq o m a b = .ok true ↔ xs = ys
  ne : Decides (operatorNe o m a b) (¬ operatorEq o m a b = .ok true)
  le : Decides (operatorLe o m a b) (operatorLt o m a b = .ok true ∨ operatorEq o m a b = .ok true)
  gt : Decides (operatorGt o m a b) (operatorLt o m b a = .ok true)
  ge : Decides (operatorGe o m a b) (operatorGt o m a b = .ok true ∨ operatorEq o m a b = .ok true)
  prefix_lt : xs <+: ys → xs ≠ ys → operatorLt o m a b = .ok true

theorem compared (o : ElemOrder α) (ha : Owns t m a xs) (hb : Owns t m b ys) :
    Compared o m a b xs ys := by
  have hlt := operatorLt_lex o ha hb
  have hgt := operatorLt_lex o hb ha
  have heq := operatorEq_eq o ha hb
  constructor
  · rw [hlt.ok_true, hgt.ok_true, heq.ok_true]
    exact o.lex_total xs ys
  · rw [hlt.ok_false, hgt.ok_false, heq.ok_true]
    exact ElemOrder.eq_iff_not_lex
  · exact heq.ok_true
  · rw [heq.ok_true]
    exact heq.not
  · rw [hlt.ok_true, heq.ok_true]
    exact hgt.not.of_iff ElemOrder.not_lex_iff
  · rw [hgt.ok_true]
    exact hgt
  · rw [show operatorGt o m a b = operatorLt o m b a from rfl, hgt.ok_true, heq.ok_true, eq_comm]
    exact hlt.not.of_iff ElemOrder.not_lex_iff
  · intro hpre hne
    exact hlt.ok_true.mpr (ElemOrder.lex_of_prefix hpre hne)

/-- **The comparisons of vectors are those of a strict total order**, in every memory and for
every strict total order of the elements. -/
theorem comparisons_order (o : ElemOrder α) (t : ElemType α) (m : BlockHeap α) :
    (∀ a xs, Owns t m a xs → operatorLt o m a a = .ok false) ∧
    (∀ a b c xs ys zs, Owns t m a xs → Owns t m b ys → Owns t m c zs →
      operatorLt o m a b = .ok true → operatorLt o m b c = .ok true →
        operatorLt o m a c = .ok true) ∧
    ∀ a b xs ys, Owns t m a xs → Owns t m b ys → Compared o m a b xs ys := by
  refine ⟨fun a xs ha => ?_, fun a b c xs ys zs ha hb hc hab hbc => ?_, fun a b xs ys ha hb => ?_⟩
  · exact (operatorLt_lex o ha ha).ok_false.mpr (o.lex_irrefl xs)
  · have hxy := (operatorLt_lex o ha hb).ok_true.mp hab
    have hyz := (operatorLt_lex o hb hc).ok_true.mp hbc
    exact (operatorLt_lex o ha hc).ok_true.mpr (ElemOrder.lex_trans hxy hyz)
  · exact compared o ha hb

/-- `size_t` -/
def wordOrder : ElemOrder Nat where
  lt x y := x < y
  eq x y := x = y
  irrefl _ h := absurd (of_decide_eq_true h) (Nat.lt_irrefl _)
  trans _ _ _ hab hbc :=
    decide_eq_true (Nat.lt_trans (of_decide_eq_true hab) (of_decide_eq_true hbc))
  total x y := by
    simp only [decide_eq_true_eq]
    omega
  eq_iff x y := decide_eq_true_iff

/-- A full vector whose block holds its elements. -/
theorem owns_block {t : ElemType α} {m : BlockHeap α} (p : Nat) (xs : List α) (hp : p ≠ 0)
    (hxs : xs ≠ []) (hroom : p + t.size * xs.length < 2 ^ 64)
    (hb : m.block p = some ⟨xs.length, fun i => xs[i]?⟩) : Owns t m ⟨p, xs.length, xs.length⟩ xs :=
  ⟨rfl, _, ⟨by simp [hp, hxs], Nat.le_refl _, hroom, rfl, fun _ => hb⟩, fun _ _ => rfl⟩

/-- [5, 7] comes before [5, 8], and this before [5, 8, 1]; so the first comes before the last, and
the last not before the first. -/
theorem comparisons_order_three : ∃ m a b c, Owns ⟨8, 0, by decide⟩ m a [5, 7] ∧
    Owns ⟨8, 0, by decide⟩ m b [5, 8] ∧ Owns ⟨8, 0, by decide⟩ m c [5, 8, 1] ∧
    operatorLt wordOrder m a b = .ok true ∧ operatorLt wordOrder m b c = .ok true ∧
    operatorLt wordOrder m a c = .ok true ∧ operatorEq wordOrder m b c = .ok false := by
  let m : BlockHeap Nat := ((BlockHeap.mk Heap.empty []).put 0x1000 ⟨2, fun i => [5, 7][i]?⟩).put 0x2000
    ⟨2, fun i => [5, 8][i]?⟩ |>.put 0x3000 ⟨3, fun i => [5, 8, 1][i]?⟩
  have ha : Owns ⟨8, 0, by decide⟩ m ⟨0x1000, 2, 2⟩ [5, 7] :=
    owns_block 0x1000 [5, 7] (by decide) (by decide) (by decide) rfl
  have hb : Owns ⟨8, 0, by decide⟩ m ⟨0x2000, 2, 2⟩ [5, 8] :=
    owns_block 0x2000 [5, 8] (by decide) (by decide) (by decide) rfl
  have hc : Owns ⟨8, 0, by decide⟩ m ⟨0x3000, 3, 3⟩ [5, 8, 1] :=
    owns_block 0x3000 [5, 8, 1] (by decide) (by decide) (by decide) rfl
  have hab : operatorLt wordOrder m ⟨0x1000, 2, 2⟩ ⟨0x2000, 2, 2⟩ = .ok true := rfl
  obtain ⟨-, htrans, hcompared⟩ := comparisons_order wordOrder ⟨8, 0, by decide⟩ m
  have hbc := (hcompared _ _ _ _ hb hc).prefix_lt ⟨[1], rfl⟩ (by decide)
  exact ⟨m, _, _, _, ha, hb, hc, hab, hbc, htrans _ _ _ _ _ _ ha hb hc hab hbc, rfl⟩

end HelixKernel
