import HelixKernel.Klibc.VectorObjects

/-!
# The objects of a vector

`Holds m v xs`: an object lives in each of the first `size_` cells of the buffer of `v` and in
no other, and their values are `xs`.  `Only m p m' p'`: the buffer at `p` has been replaced by
the one at `p'`, and all the others are as they were.  Every operation that may allocate is
`insertArgs` or `reserve`; the conditions under which they run short are exact. -/

namespace HelixKernel

variable {α : Type} {t : ElemType α}

structure Holds (m : ObjHeap t) (v : Vec) (xs : List α) : Prop where
  size : v.size = xs.length
  null : v.data = 0 ↔ v.capacity = 0
  le : v.size ≤ v.capacity
  lt : v.capacity < 2 ^ 64
  block : v.data ≠ 0 → ∃ id, m.block v.data = some ⟨id, v.capacity⟩
  cells : ∀ i, (m.cell (v.data, i)).map Obj.value = xs[i]?

structure Only (m : ObjHeap t) (p : Nat) (m' : ObjHeap t) (p' : Nat) : Prop where
  block : ∀ x, x ≠ p → x ≠ p' → m'.block x = m.block x
  cell : ∀ x i, x ≠ p → x ≠ p' → m'.cell (x, i) = m.cell (x, i)
  fresh : p' = p ∨ p' = 0 ∨ m.block p' = none
  gone : p' ≠ p → m'.block p = none

def DoneObj (m : ObjHeap t) (v : Vec) (xs : List α) (r : ObjHeap t × Vec) : Prop :=
  Holds r.1 r.2 xs ∧ Only m v.data r.1 r.2.data

/-- A buffer that is asked for `capacity` elements is long enough for `n`. -/
def Roomy (t : ElemType α) (capacity n : Nat) : Prop := t.size * n ≤ wrap64 (t.size * capacity)

/-- The capacity that `reserve` leaves. -/
def reserved (capacity n : Nat) : Nat := if n > capacity then VecObj.newCap capacity n else capacity

namespace Only

variable {m m' m'' : ObjHeap t} {p p' p'' : Nat}

theorem refl (m : ObjHeap t) (p : Nat) : Only m p m p :=
  ⟨fun _ _ _ => rfl, fun _ _ _ _ => rfl, .inl rfl, fun h => absurd rfl h⟩

/-- A change of the objects in one buffer. -/
theorem of_same (hb : m'.block = m.block)
    (hc : ∀ x i, x ≠ p → m'.cell (x, i) = m.cell (x, i)) : Only m p m' p :=
  ⟨fun x _ _ => by rw [hb], fun x i hx _ => hc x i hx, .inl rfl, fun h => absurd rfl h⟩

theorem trans (h : Only m p m' p') (h' : Only m' p' m'' p'') : Only m p m'' p'' := by
  -- a buffer in between is there neither before nor after
  have hmid : ∀ x, x = p' → x ≠ p → x ≠ p'' → m.block x = none ∧ m''.block x = none := by
    rintro x rfl hp hp''
    refine ⟨?_, h'.gone hp''.symm⟩
    rcases h.fresh with heq | h0 | hnone
    · exact absurd heq hp
    · rw [h0]
      exact m.null
    · exact hnone
  refine ⟨fun x hx hx'' => ?_, fun x i hx hx'' => ?_, ?_, fun hne => ?_⟩
  · by_cases hx' : x = p'
    · obtain ⟨hm, hm''⟩ := hmid x hx' hx hx''
      rw [hm, hm'']
    · rw [h'.block x hx' hx'', h.block x hx hx']
  · by_cases hx' : x = p'
    · obtain ⟨hm, hm''⟩ := hmid x hx' hx hx''
      rw [ObjHeap.cell_of_block hm, ObjHeap.cell_of_block hm'']
    · rw [h'.cell x i hx' hx'', h.cell x i hx hx']
  · rcases h'.fresh with heq | h0 | hnone
    · rw [heq]
      exact h.fresh
    · exact .inr (.inl h0)
    · by_cases hp : p'' = p
      · exact .inl hp
      · by_cases hp' : p'' = p'
        · rw [hp']
          exact h.fresh
        · rw [← h.block p'' hp hp']
          exact .inr (.inr hnone)
  · by_cases hp : p = p'
    · rw [hp]
      exact h'.gone fun heq => hne (heq.trans hp.symm)
    · rw [h'.block p hp hne.symm]
      exact h.gone fun heq => hp heq.symm

/-- A buffer that is there afterwards, and is not the new one, was there before. -/
theorem kept (h : Only m p m' p') {x : Nat} {b : Buffer} (hb : m'.block x = some b) (hx : x ≠ p') :
    x ≠ p ∧ m.block x = some b := by
  have hxp : x ≠ p := by
    rintro rfl
    rw [h.gone hx.symm] at hb
    cases hb
  rw [h.block x hxp hx] at hb
  exact ⟨hxp, hb⟩

end Only

theorem DoneObj.trans {m m' : ObjHeap t} {v v' : Vec} {xs : List α} {r : ObjHeap t × Vec}
    (h : Only m v.data m' v'.data) (hr : DoneObj m' v' xs r) : DoneObj m v xs r :=
  ⟨hr.1, h.trans hr.2⟩

/-! ## Ranges of cells -/

namespace ObjHeap

variable {m : ObjHeap t} {p i n : Nat}

theorem destroyRange_spec (hlive : ∀ j, i ≤ j → j < i + n → ∃ o, m.cell (p, j) = some o) :
    ∃ m', VecObj.destroyRange m p i n = .ok m' ∧ m'.block = m.block ∧
      m'.cell = m.lifted p i n ∧ m'.reads = m.reads := by
  induction n generalizing m i with
  | zero =>
    refine ⟨m, rfl, rfl, ?_, rfl⟩
    funext k
    rw [lifted, if_neg (by simp only [InRange]; omega)]
  | succ n ih =>
    obtain ⟨o, ho⟩ := hlive i (by omega) (by omega)
    obtain ⟨m1, hrun, hb, hc, hr⟩ := destroy_of_cell ho
    have hrest : ∀ j, i + 1 ≤ j → j < i + 1 + n → ∃ o, m1.cell (p, j) = some o := by
      intro j hj hj'
      have hne : (p, j) ≠ (p, i) := by
        intro heq
        cases heq
        omega
      rw [hc, Function.update_of_ne hne]
      exact hlive j (by omega) (by omega)
    obtain ⟨m2, hrun2, hb2, hc2, hr2⟩ := ih hrest
    refine ⟨m2, ?_, hb2.trans hb, ?_, hr2.trans hr⟩
    · simp only [VecObj.destroyRange, hrun, ok_bind]
      exact hrun2
    · rw [hc2]
      funext k
      obtain ⟨q, j⟩ := k
      simp only [lifted, hc, InRange, Function.update_apply, Prod.mk.injEq]
      grind

/-- What constructing objects of the values in `ls` leaves; its names are the objects that
the values were read from. -/
structure Filled (m : ObjHeap t) (p i : Nat) (ls : List (List Nat × α)) (m' : ObjHeap t) : Prop where
  block : m'.block = m.block
  other : ∀ k, ¬ InRange p i ls.length k → m'.cell k = m.cell k
  cells : ∀ j < ls.length, (m'.cell (p, i + j)).map Obj.value = (ls[j]?).map Prod.snd
  reads : m'.reads = (ls.map Prod.fst).reverse.flatten ++ m.reads

theorem Filled.cons {m1 m2 : ObjHeap t} {ids : List Nat} {a : α} {ls : List (List Nat × α)}
    {o : Obj α} (ho : o.value = a) (hb : m1.block = m.block)
    (hc : m1.cell = Function.update m.cell (p, i) (some o)) (hr : m1.reads = ids ++ m.reads)
    (h : Filled m1 p (i + 1) ls m2) : Filled m p i ((ids, a) :: ls) m2 := by
  have hother : ∀ k, k ≠ (p, i) → m1.cell k = m.cell k := fun k hk => by
    rw [hc, Function.update_of_ne hk]
  refine ⟨h.block.trans hb, fun k hk => ?_, fun j hj => ?_, ?_⟩
  · obtain ⟨q, j⟩ := k
    simp only [InRange, List.length_cons] at hk
    have hne : (q, j) ≠ (p, i) := by
      intro heq
      cases heq
      omega
    rw [h.other (q, j) (by simp only [InRange]; omega), hother _ hne]
  · cases j with
    | zero =>
      have hfirst := h.other (p, i) (by simp only [InRange]; omega)
      rw [Nat.add_zero, hfirst, hc, Function.update_self, Option.map_some, ho]
      rfl
    | succ j =>
      rw [List.length_cons] at hj
      have hnext := h.cells j (by omega)
      rw [Nat.add_right_comm] at hnext
      exact hnext
  · rw [h.reads, hr]
    simp

theorem constructRange_spec {b : Buffer} {args : List (Arg α)} {ls : List (List Nat × α)}
    (hargs : List.Forall₂ (fun arg r => m.refers arg = some r) args ls)
    (hb : m.block p = some b) (hi : i + args.length ≤ b.length)
    (hfree : ∀ j, i ≤ j → j < i + args.length → m.cell (p, j) = none) :
    RunsUnless False (0 < args.length ∧ ¬ m.Within p (i + args.length)) (Filled m p i ls)
      (VecObj.constructRange m p i args) := by
  induction args generalizing m i ls with
  | nil =>
    cases hargs
    exact ⟨rfl, fun _ _ => rfl, fun j hj => absurd hj (by simp), rfl⟩
  | cons arg args ih =>
    cases hargs with
    | @cons _ r _ ls hr hrest =>
      obtain ⟨ids, a⟩ := r
      rw [List.length_cons] at hi hfree ⊢
      have hempty := hfree i (by omega) (by omega)
      have hfirst := construct_runs hr hb (by omega) hempty
      refine RunsUnless.bind (hfirst.mono id (fun hw => ⟨by omega, fun h => ?_⟩) fun _ h => h) ?_
      · exact hw (h.mono (by omega))
      · rintro m1 ⟨hb1, hc1, hr1⟩
        -- the constructors that follow read what they would have read before
        have hkeep : ∀ k o, m.cell k = some o → m1.cell k = some o := by
          intro k o hk
          have hne : k ≠ (p, i) := by
            rintro rfl
            rw [hempty] at hk
            cases hk
          rw [hc1, Function.update_of_ne hne, hk]
        have hargs1 := hrest.imp fun arg r h => refers_of_cell hkeep h
        have hfree1 : ∀ j, i + 1 ≤ j → j < i + 1 + args.length → m1.cell (p, j) = none := by
          intro j hj hj'
          have hne : (p, j) ≠ (p, i) := by
            intro heq
            cases heq
            omega
          rw [hc1, Function.update_of_ne hne]
          exact hfree j (by omega) (by omega)
        have hnext := ih hargs1 (by rw [hb1]; exact hb) (by omega) hfree1
        refine hnext.mono id (fun hw => ⟨by omega, fun h => hw.2 ?_⟩) fun m2 h2 => ?_
        · rw [within_congr hb1, show i + 1 + args.length = i + (args.length + 1) by omega]
          exact h
        · exact h2.cons rfl hb1 hc1 hr1

/-- Constructors that return have written into the buffer, and only add to what has been read. -/
theorem constructRange_ok {m' : ObjHeap t} {args : List (Arg α)}
    (h : VecObj.constructRange m p i args = .ok m') :
    m'.block = m.block ∧ m.reads <:+ m'.reads ∧ (0 < args.length → m.Within p (i + args.length)) := by
  induction args generalizing m i with
  | nil =>
    cases h
    exact ⟨rfl, List.suffix_refl _, fun h => absurd h (by simp)⟩
  | cons arg args ih =>
    obtain ⟨m1, hfirst, hrest⟩ := bind_eq_ok.mp h
    obtain ⟨ids, a, -, hw, hb1, -, hr1⟩ := construct_ok hfirst
    obtain ⟨hb, hr, hnext⟩ := ih hrest
    refine ⟨hb.trans hb1, ?_, fun _ => ?_⟩
    · rw [hr1] at hr
      exact (List.suffix_append ids m.reads).trans hr
    · rw [List.length_cons]
      by_cases h0 : 0 < args.length
      · rw [← within_congr hb1, show i + (args.length + 1) = i + 1 + args.length by omega]
        exact hnext h0
      · rw [show args.length = 0 by omega]
        exact hw

/-- The first of them has read its argument. -/
theorem constructRange_first {m' : ObjHeap t} {arg : Arg α} {args : List (Arg α)}
    (h : VecObj.constructRange m p i (arg :: args) = .ok m') :
    ∃ ids a, m.refers arg = some (ids, a) ∧ (ids ++ m.reads) <:+ m'.reads := by
  obtain ⟨m1, hfirst, hrest⟩ := bind_eq_ok.mp h
  obtain ⟨ids, a, hread, -, -, -, hr1⟩ := construct_ok hfirst
  refine ⟨ids, a, hread, ?_⟩
  rw [← hr1]
  exact (constructRange_ok hrest).2.1

end ObjHeap

/-! ## Storage -/

namespace Holds

variable {m m' : ObjHeap t} {v : Vec} {xs : List α} {p i n : Nat}

theorem empty (m : ObjHeap t) : Holds m .empty [] := by
  refine ⟨rfl, Iff.rfl, Nat.le_refl 0, show 0 < 2 ^ 64 by omega, fun h => absurd rfl h, fun i => ?_⟩
  show (m.cell (0, i)).map Obj.value = none
  rw [ObjHeap.cell_of_block m.null]
  rfl

theorem data_ne (h : Holds m v xs) (hpos : 0 < v.capacity) : v.data ≠ 0 := by
  intro h0
  have := h.null.mp h0
  omega

theorem cell_some (h : Holds m v xs) (hi : i < xs.length) : ∃ o, m.cell (v.data, i) = some o := by
  have hc := h.cells i
  rw [List.getElem?_eq_getElem hi] at hc
  obtain ⟨o, ho, -⟩ := Option.map_eq_some_iff.mp hc
  exact ⟨o, ho⟩

theorem cell_none (h : Holds m v xs) (hi : xs.length ≤ i) : m.cell (v.data, i) = none := by
  have hc := h.cells i
  rw [List.getElem?_eq_none hi] at hc
  exact Option.map_eq_none_iff.mp hc

theorem done_refl (h : Holds m v xs) : DoneObj m v xs (m, v) := ⟨h, .refl m v.data⟩

/-- The live elements are in the buffer. -/
theorem within_size (h : Holds m v xs) (hpos : 0 < v.size) : m.Within v.data v.size := by
  have hsize := h.size
  obtain ⟨o, ho⟩ := h.cell_some (i := v.size - 1) (by omega)
  have hw := ObjHeap.within_of_cell ho
  rw [Nat.sub_add_cancel hpos] at hw
  exact hw

theorem within_iff (h : Holds m v xs) (hpos : 0 < v.capacity) :
    m.Within v.data n ↔ n ≤ v.capacity ∧ Roomy t v.capacity n := by
  obtain ⟨id, hb⟩ := h.block (h.data_ne hpos)
  exact ObjHeap.within_of_block hb

/-- Another buffer, or no change. -/
theorem frame (h : Holds m v xs) (hb : v.data ≠ 0 → m'.block v.data = m.block v.data)
    (hc : v.data ≠ 0 → ∀ i, m'.cell (v.data, i) = m.cell (v.data, i)) : Holds m' v xs := by
  refine ⟨h.size, h.null, h.le, h.lt, fun h0 => ?_, fun i => ?_⟩
  · rw [hb h0]
    exact h.block h0
  · by_cases h0 : v.data = 0
    · rw [← h.cells i, h0, ObjHeap.cell_of_block m.null, ObjHeap.cell_of_block m'.null]
    · rw [hc h0, h.cells i]

/-- The elements go to a new buffer, and the old one is freed. -/
theorem relocate {m1 : ObjHeap t} {new : Nat} (h : Holds m v xs) (h0 : v.data ≠ 0) (hp : p ≠ 0)
    (hfresh : m.block p = none) (hn : v.size ≤ n) (hn0 : n ≠ 0) (hlt : n < 2 ^ 64)
    (hb : m1.block = Function.update m.block p (some ⟨new, n⟩)) (hc : m1.cell = m.cell) :
    RunsUnless False (¬ Roomy t n v.size)
      (fun m' => DoneObj m v xs (m', { v with data := p, capacity := n }) ∧ m'.reads = m1.reads)
      (VecObj.relocate m1 v p) := by
  have hsize := h.size
  have hle := h.le
  obtain ⟨old, hold⟩ := h.block h0
  have hne : p ≠ v.data := by
    rintro rfl
    rw [hfresh] at hold
    cases hold
  have hempty : ∀ i, m.cell (p, i) = none := ObjHeap.cell_of_block hfresh
  have hb1 : m1.block v.data = some ⟨old, v.capacity⟩ := by
    rw [hb, Function.update_of_ne hne.symm, hold]
  have hbp : m1.block p = some ⟨new, n⟩ := by
    rw [hb, Function.update_self]
  have hfree : ∀ j < v.size, m1.lifted v.data 0 v.size (p, 0 + j) = none := by
    intro j hj
    rw [ObjHeap.lifted_other m1 hne, hc, hempty]
  have hmove := ObjHeap.memmove_runs 0 0 v.size hb1
    (by simpa using hle) hbp (by simpa using hn) hfree
  unfold VecObj.relocate
  refine RunsUnless.bind (hmove.mono id (fun hw hroomy => hw.2 ?_) fun _ h => h) ?_
  · -- the old buffer has the elements, and the new one is long enough
    have hlive := h.within_size hw.1
    rw [Nat.zero_add, ObjHeap.within_of_block hbp, ObjHeap.within_of_block hb1]
    rw [ObjHeap.within_of_block hold] at hlive
    exact ⟨hlive, hn, hroomy⟩
  rintro m2 ⟨hb2, hc2, hr2⟩
  have hmoved : ∀ q j, m2.cell (q, j) =
      if q = p ∧ j < v.size then m.cell (v.data, j)
      else if q = v.data ∧ j < v.size then none else m.cell (q, j) := by
    intro q j
    simp only [hc2, ObjHeap.moved, ObjHeap.lifted, ObjHeap.InRange, hc, Nat.zero_le, true_and,
      Nat.zero_add, Nat.sub_zero]
  have hdead : ∀ i, m2.cell (v.data, i) = none := by
    intro i
    rw [hmoved, if_neg fun h => hne h.1.symm]
    by_cases hi : i < v.size
    · rw [if_pos ⟨rfl, hi⟩]
    · rw [if_neg fun h => hi h.2]
      exact h.cell_none (by omega)
  obtain ⟨m3, hrun, hb3, hc3, hr3⟩ := ObjHeap.free_of_block (by rw [hb2]; exact hb1) hdead
  rw [hrun]
  have hblock : ∀ x, x ≠ v.data → m3.block x = m1.block x := by
    intro x hx
    rw [hb3, Function.update_of_ne hx, hb2]
  refine ⟨⟨⟨hsize, ?_, hn, hlt, fun _ => ⟨new, ?_⟩, fun i => ?_⟩, ?_⟩, hr3.trans hr2⟩
  · show p = 0 ↔ n = 0
    omega
  · show m3.block p = some ⟨new, n⟩
    rw [hblock p hne, hbp]
  · show (m3.cell (p, i)).map Obj.value = xs[i]?
    rw [hc3, hmoved]
    by_cases hi : i < v.size
    · rw [if_pos ⟨rfl, hi⟩, h.cells]
    · rw [if_neg fun h => hi h.2, if_neg fun h => hi h.2, hempty, List.getElem?_eq_none (by omega)]
      rfl
  · refine ⟨fun x hx hx' => ?_, fun x i hx hx' => ?_, .inr (.inr hfresh), fun _ => ?_⟩
    · rw [hblock x hx, hb, Function.update_of_ne hx']
    · show m3.cell (x, i) = m.cell (x, i)
      rw [hc3, hmoved, if_neg fun h => hx' h.1, if_neg fun h => hx h.1]
    · show m3.block v.data = none
      rw [hb3, Function.update_self]

end Holds

theorem le_newCap (capacity n : Nat) : n ≤ VecObj.newCap capacity n := by
  unfold VecObj.newCap
  split <;> omega

theorem newCap_lt (capacity : Nat) {n : Nat} (hn : n < 2 ^ 64) : VecObj.newCap capacity n < 2 ^ 64 := by
  have htwice : VecObj.twice capacity < 2 ^ 64 := by
    have := wrap64_lt (capacity * 2)
    unfold VecObj.twice
    split <;> omega
  unfold VecObj.newCap
  split <;> omega

theorem Roomy.mono {capacity n k : Nat} (h : Roomy t capacity n) (hk : k ≤ n) :
    Roomy t capacity k :=
  Nat.le_trans (Nat.mul_le_mul_left t.size hk) h

namespace Holds

variable {m m' : ObjHeap t} {v : Vec} {xs : List α} {p i n : Nat}

/-- What `grow` and `reserve` leave. -/
structure Reserved (m : ObjHeap t) (v : Vec) (xs : List α) (n : Nat) (r : ObjHeap t × Vec) : Prop where
  done : DoneObj m v xs r
  capacity : r.2.capacity = reserved v.capacity n
  reads : r.1.reads = m.reads
  stays : n ≤ v.capacity → r = (m, v)
  moves : v.capacity < n → m.block r.2.data = none

theorem grow (h : Holds m v xs) (hn : v.capacity < n) (hlt : n < 2 ^ 64) :
    RunsUnless (¬ m.Supplies) (¬ Roomy t (VecObj.newCap v.capacity n) n) (Reserved m v xs n)
      (VecObj.grow m v n) := by
  have hle := h.le
  have hcap := le_newCap v.capacity n
  unfold VecObj.grow
  refine RunsUnless.bind ((ObjHeap.malloc_runs m _).mono id False.elim fun _ h => h) ?_
  rintro ⟨m1, p⟩ ⟨hp, hfresh, ⟨id, hb⟩, hc, hr⟩
  simp only at hp hfresh hb hc hr ⊢
  have hreserved : reserved v.capacity n = VecObj.newCap v.capacity n := if_pos hn
  by_cases h0 : v.data = 0
  · -- there are no elements
    have hz := h.null.mp h0
    have hsize := h.size
    rw [VecObj.relocateIf, if_neg (by simp [h0])]
    obtain rfl : xs = [] := List.eq_nil_of_length_eq_zero (by omega)
    refine ⟨⟨⟨hsize, ?_, ?_, newCap_lt v.capacity hlt, fun _ => ⟨id, ?_⟩, fun i => ?_⟩, ?_⟩,
      hreserved.symm, hr, fun h => absurd h (by omega), fun _ => hfresh⟩
    · show p = 0 ↔ VecObj.newCap v.capacity n = 0
      omega
    · show v.size ≤ VecObj.newCap v.capacity n
      omega
    · show m1.block p = _
      rw [hb, Function.update_self]
    · show (m1.cell (p, i)).map Obj.value = none
      rw [hc, ObjHeap.cell_of_block hfresh]
      rfl
    · refine ⟨fun x _ hx => ?_, fun x i _ _ => ?_, .inr (.inr hfresh), fun _ => ?_⟩
      · show m1.block x = m.block x
        rw [hb, Function.update_of_ne hx]
      · show m1.cell (x, i) = m.cell (x, i)
        rw [hc]
      · show m1.block v.data = none
        rw [h0]
        exact m1.null
  · rw [VecObj.relocateIf, if_pos h0]
    have hmove := h.relocate h0 hp hfresh (by omega) (by omega) (newCap_lt v.capacity hlt) hb hc
    refine RunsUnless.bind (hmove.mono False.elim (fun hs hroomy => hs ?_) fun _ h => h) ?_
    · exact hroomy.mono (by omega)
    · rintro m2 ⟨hdone, hr2⟩
      exact ⟨hdone, hreserved.symm, hr2.trans hr, fun h => absurd h (by omega), fun _ => hfresh⟩

theorem reserve (h : Holds m v xs) (hlt : n < 2 ^ 64) :
    RunsUnless (v.capacity < n ∧ ¬ m.Supplies) (v.capacity < n ∧ ¬ Roomy t (reserved v.capacity n) n)
      (Reserved m v xs n) (VecObj.reserve m v n) := by
  unfold VecObj.reserve
  split
  · rename_i hn
    have hgrow := h.grow hn hlt
    rw [show reserved v.capacity n = VecObj.newCap v.capacity n from if_pos hn]
    exact hgrow.mono (fun hm => ⟨hn, hm⟩) (fun hs => ⟨hn, hs⟩) fun _ h => h
  · rename_i hn
    exact ⟨h.done_refl, (if_neg hn).symm, rfl, fun _ => rfl, fun h => absurd h hn⟩

theorem le_reserved (capacity n : Nat) : n ≤ reserved capacity n := by
  have := le_newCap capacity n
  unfold reserved
  split <;> omega

theorem Reserved.size {r : ObjHeap t × Vec} (h : Reserved m v xs n r) (hv : Holds m v xs) :
    r.2.size = v.size :=
  h.done.1.size.trans hv.size.symm

/-! ## Inserting -/

/-- What `shift_right` does to the objects in the buffer at `p`. -/
structure Shifted (m : ObjHeap t) (p i n : Nat) (m' : ObjHeap t) : Prop where
  block : m'.block = m.block
  here : ∀ j, m'.cell (p, j) =
    if j < i then m.cell (p, j) else if j < i + n then none else m.cell (p, j - n)
  there : ∀ x j, x ≠ p → m'.cell (x, j) = m.cell (x, j)
  reads : m'.reads = m.reads

theorem shifted_of_moved (h : Holds m v xs) (hi : i ≤ v.size) (hb : m'.block = m.block)
    (hc : m'.cell = m.moved v.data (i + n) v.data i (v.size - i)) (hr : m'.reads = m.reads) :
    Shifted m v.data i n m' := by
  have hsize := h.size
  refine ⟨hb, fun j => ?_, fun x j hx => ?_, hr⟩
  · simp only [hc, ObjHeap.moved, ObjHeap.lifted, ObjHeap.InRange, true_and]
    by_cases hd : i + n ≤ j ∧ j < i + n + (v.size - i)
    · rw [if_pos hd, if_neg (by omega), if_neg (by omega)]
      congr 2
      omega
    · rw [if_neg hd]
      by_cases hs : i ≤ j ∧ j < i + (v.size - i)
      · rw [if_pos hs, if_neg (by omega), if_pos (by omega)]
      · rw [if_neg hs]
        by_cases hji : j < i
        · rw [if_pos hji]
        · rw [if_neg hji, h.cell_none (by omega)]
          split
          · rfl
          · rw [h.cell_none (by omega)]
  · rw [hc, ObjHeap.moved_other m hx hx]

theorem shiftRight (h : Holds m v xs) (hi : i ≤ v.size) (hn : 0 < n) (hfit : v.size + n < 2 ^ 64) :
    RunsUnless (v.capacity < v.size + n ∧ ¬ m.Supplies)
      (¬ Roomy t (reserved v.capacity (v.size + n)) (v.size + n))
      (fun r => ∃ m0, Reserved m v xs (v.size + n) (m0, r.2) ∧ Shifted m0 r.2.data i n r.1)
      (VecObj.shiftRight m v i n) := by
  unfold VecObj.shiftRight
  rw [wrap64_of_lt hfit]
  refine RunsUnless.bind ((h.reserve hfit).mono id (fun hs => hs.2) fun _ h => h) ?_
  rintro ⟨m0, v0⟩ hr
  have h0 := hr.done.1
  have hsize : v0.size = v.size := hr.size h
  have hlen := h.size
  have hcap : v0.capacity = reserved v.capacity (v.size + n) := hr.capacity
  have hle := le_reserved v.capacity (v.size + n)
  have hpos : 0 < v0.capacity := by omega
  obtain ⟨id0, hb0⟩ := h0.block (h0.data_ne hpos)
  have hsub : sub64 v0.size i = v0.size - i := sub64_of_le (by omega) (by omega)
  simp only at h0 hsize hcap hpos hb0 hsub ⊢
  rw [hsub]
  have hfree : ∀ j < v0.size - i, m0.lifted v0.data i (v0.size - i) (v0.data, i + n + j) = none := by
    intro j hj
    unfold ObjHeap.lifted
    split
    · rfl
    · rename_i hout
      refine h0.cell_none ?_
      have hlen0 := h0.size
      simp only [ObjHeap.InRange, true_and] at hout
      omega
  have hmove := ObjHeap.memmove_runs (i + n) i (v0.size - i) hb0 (by simp only; omega) hb0
    (by simp only; omega) hfree
  refine RunsUnless.bind (hmove.mono False.elim (fun hw hroomy => hw.2 ?_) fun _ h => h) ?_
  · rw [← hcap] at hroomy
    rw [h0.within_iff hpos, h0.within_iff hpos]
    exact ⟨⟨by omega, hroomy.mono (by omega)⟩, by omega, hroomy.mono (by omega)⟩
  · rintro m1 ⟨hb1, hc1, hr1⟩
    exact ⟨m0, hr, shifted_of_moved h0 (show i ≤ v0.size by omega) hb1 hc1 hr1⟩

/-- What the insertion of the values in `ls` leaves. -/
structure Inserted (m : ObjHeap t) (v : Vec) (xs : List α) (i : Nat) (ls : List (List Nat × α))
    (r : ObjHeap t × Vec) : Prop where
  done : DoneObj m v (inserted xs i (ls.map Prod.snd)) r
  capacity : r.2.capacity = reserved v.capacity (xs.length + ls.length)
  reads : r.1.reads = (ls.map Prod.fst).reverse.flatten ++ m.reads

/-- The objects in the gap, those before it and those after it. -/
theorem inserted_of_filled {m0 m1 m2 : ObjHeap t} {v0 : Vec} {ls : List (List Nat × α)}
    (hi : i ≤ xs.length) (hfit : xs.length + ls.length < 2 ^ 64)
    (hr : Reserved m v xs (xs.length + ls.length) (m0, v0))
    (hs : Shifted m0 v0.data i ls.length m1) (hf : ObjHeap.Filled m1 v0.data i ls m2) :
    Inserted m v xs i ls (m2, { v0 with size := wrap64 (v0.size + ls.length) }) := by
  have h0 := hr.done.1
  have hsize := h0.size
  have hcap : v0.capacity = reserved v.capacity (xs.length + ls.length) := hr.capacity
  have hle := le_reserved v.capacity (xs.length + ls.length)
  have hsum : wrap64 (v0.size + ls.length) = xs.length + ls.length := by
    simp only at hsize
    rw [hsize]
    exact wrap64_of_lt hfit
  have hblock : m2.block = m0.block := hf.block.trans hs.block
  have hother : ∀ x j, x ≠ v0.data → m2.cell (x, j) = m0.cell (x, j) := by
    intro x j hx
    rw [hf.other _ fun h => hx h.1, hs.there x j hx]
  have hlen : (inserted xs i (ls.map Prod.snd)).length = xs.length + ls.length := by
    rw [length_inserted hi, List.length_map]
  rw [hsum]
  refine ⟨⟨⟨hlen.symm, h0.null, ?_, h0.lt, fun hd => ?_, fun j => ?_⟩, hr.done.2.trans ?_⟩, hcap, ?_⟩
  · simp only
    omega
  · rw [hblock]
    exact h0.block hd
  · show (m2.cell (v0.data, j)).map Obj.value = _
    have hcell0 := h0.cells
    simp only at hcell0
    rw [inserted, getElem?_insert hi, List.length_map]
    by_cases hji : j < i
    · rw [hf.other _ (by simp only [ObjHeap.InRange]; omega), hs.here, if_pos hji, if_pos hji, hcell0]
    · by_cases hjn : j < i + ls.length
      · have hfill := hf.cells (j - i) (by omega)
        rw [Nat.add_sub_cancel' (by omega)] at hfill
        rw [hfill, if_neg hji, if_pos hjn, List.getElem?_map]
      · rw [hf.other _ (by simp only [ObjHeap.InRange]; omega), hs.here, if_neg hji, if_neg hjn,
          if_neg hji, if_neg hjn, hcell0]
  · exact .of_same hblock hother
  · show m2.reads = _
    rw [hf.reads, hs.reads]
    exact congrArg _ hr.reads

/-- **What every insertion does**; `ls` is what the constructors read. -/
theorem insertArgs (h : Holds m v xs) (args : List (Arg α)) (ls : List (List Nat × α))
    (hi : i ≤ xs.length) (hn : 0 < args.length) (hfit : xs.length + args.length < 2 ^ 64)
    (hargs : ∀ m0 m1 v0, Reserved m v xs (xs.length + args.length) (m0, v0) →
      Shifted m0 v0.data i args.length m1 →
        List.Forall₂ (fun arg r => m1.refers arg = some r) args ls) :
    RunsUnless (v.capacity < xs.length + args.length ∧ ¬ m.Supplies)
      (¬ Roomy t (reserved v.capacity (xs.length + args.length)) (xs.length + args.length))
      (Inserted m v xs i ls) (VecObj.insertArgs m v i args) := by
  have hsize := h.size
  unfold VecObj.insertArgs
  have hshift := h.shiftRight (i := i) (n := args.length) (by omega) hn (by omega)
  rw [hsize] at hshift
  refine RunsUnless.bind hshift ?_
  rintro ⟨m1, v0⟩ ⟨m0, hr, hs⟩
  have h0 := hr.done.1
  have hcap : v0.capacity = reserved v.capacity (xs.length + args.length) := hr.capacity
  have hle := le_reserved v.capacity (xs.length + args.length)
  have hpos : 0 < v0.capacity := by omega
  obtain ⟨id0, hb0⟩ := h0.block (h0.data_ne hpos)
  simp only at h0 hs hb0 ⊢
  have hread := hargs m0 m1 v0 hr hs
  have hlen := hread.length_eq
  have hgap : ∀ j, i ≤ j → j < i + args.length → m1.cell (v0.data, j) = none := by
    intro j hj hj'
    rw [hs.here, if_neg (by omega), if_pos hj']
  have hfill := ObjHeap.constructRange_spec hread (by rw [hs.block]; exact hb0)
    (by simp only; omega) hgap
  refine RunsUnless.bind (hfill.mono False.elim (fun hw hroomy => hw.2 ?_) fun _ h => h) ?_
  · rw [← hcap] at hroomy
    rw [ObjHeap.within_of_block (by rw [hs.block]; exact hb0)]
    exact ⟨by simp only; omega, hroomy.mono (by omega)⟩
  · intro m2 hf
    rw [hlen] at hr hs hfit ⊢
    exact inserted_of_filled hi hfit hr hs hf

/-- Arguments that are values are read the same in any state. -/
theorem refers_values (m : ObjHeap t) (as : List α) :
    List.Forall₂ (fun arg r => m.refers arg = some r) (as.map .value) (as.map fun a => ([], a)) := by
  induction as with
  | nil => exact .nil
  | cons a as ih => exact .cons rfl ih

theorem map_snd_values (as : List α) : (as.map fun a => (([] : List Nat), a)).map Prod.snd = as := by
  rw [List.map_map]
  exact List.map_id as

theorem insertValues (h : Holds m v xs) (hi : i ≤ xs.length) (as : List α) (hn : 0 < as.length)
    (hfit : xs.length + as.length < 2 ^ 64) :
    RunsUnless (v.capacity < xs.length + as.length ∧ ¬ m.Supplies)
      (¬ Roomy t (reserved v.capacity (xs.length + as.length)) (xs.length + as.length))
      (fun r => DoneObj m v (inserted xs i as) r ∧
        r.2.capacity = reserved v.capacity (xs.length + as.length))
      (VecObj.insertArgs m v i (as.map .value)) := by
  have hins := h.insertArgs (as.map .value) (as.map fun a => ([], a)) hi (by simpa using hn)
    (by simpa using hfit) fun _ m1 _ _ _ => refers_values m1 as
  rw [List.length_map] at hins
  refine hins.imp fun r hr => ⟨?_, ?_⟩
  · have hdone := hr.done
    rw [map_snd_values] at hdone
    exact hdone
  · rw [hr.capacity, List.length_map]

/-- Where the sum of the sizes needs no growth, because it fits or because it has wrapped, an
insertion that returns has written up to it. -/
theorem insertArgs_within {r : ObjHeap t × Vec} {args : List (Arg α)} (h : Holds m v xs)
    (hi : i ≤ v.size) (hn : 0 < args.length) (hsum : wrap64 (v.size + args.length) ≤ v.capacity)
    (hrun : VecObj.insertArgs m v i args = .ok r) : m.Within v.data (v.size + args.length) := by
  have hle := h.le
  have hlt := h.lt
  have hkeep : VecObj.reserve m v (wrap64 (v.size + args.length)) = .ok (m, v) := if_neg (by omega)
  have hsub : sub64 v.size i = v.size - i := sub64_of_le hi (by omega)
  unfold VecObj.insertArgs VecObj.shiftRight at hrun
  rw [hkeep, ok_bind] at hrun
  simp only [hsub] at hrun
  obtain ⟨⟨m1, v1⟩, hshift, hrun⟩ := bind_eq_ok.mp hrun
  obtain ⟨m1', hmove, hshift⟩ := bind_eq_ok.mp hshift
  cases hshift
  obtain ⟨m2, hfill, -⟩ := bind_eq_ok.mp hrun
  obtain ⟨hmw, hb, -, -⟩ := ObjHeap.memmove_ok hmove
  have hfw := (ObjHeap.constructRange_ok hfill).2.2 hn
  rw [ObjHeap.within_congr hb] at hfw
  by_cases h0 : 0 < v.size - i
  · have hw := hmw h0
    rw [show i + args.length + (v.size - i) = v.size + args.length by omega] at hw
    exact hw
  · rw [show i = v.size by omega] at hfw
    exact hfw

/-! ### Insertion at the end -/

theorem reserve_size {r : ObjHeap t × Vec} (h : VecObj.reserve m v n = .ok r) :
    r.2.size = v.size := by
  unfold VecObj.reserve at h
  split at h
  · unfold VecObj.grow at h
    obtain ⟨r1, -, h⟩ := bind_eq_ok.mp h
    obtain ⟨m2, -, h⟩ := bind_eq_ok.mp h
    cases h
    rfl
  · cases h
    rfl

/-- What follows a step may use what the step returns. -/
theorem bind_congr_ok {β γ : Type} {x : Except HeapFault β} {f g : β → Except HeapFault γ}
    (h : ∀ a, x = .ok a → f a = g a) : (x >>= f) = x >>= g := by
  cases x with
  | error e => rfl
  | ok a => exact h a rfl

theorem shiftRight_end (hlt : v.size < 2 ^ 64) (n : Nat) :
    VecObj.shiftRight m v v.size n = VecObj.reserve m v (wrap64 (v.size + n)) := by
  unfold VecObj.shiftRight
  generalize wrap64 (v.size + n) = k
  cases hr : VecObj.reserve m v k with
  | error e => rfl
  | ok r =>
    have hzero : sub64 r.2.size v.size = 0 := by
      rw [reserve_size hr, sub64_of_le (Nat.le_refl _) hlt, Nat.sub_self]
    rw [ok_bind]
    simp only [hzero]
    rfl

theorem insertArgs_end (hlt : v.size < 2 ^ 64) (args : List (Arg α)) :
    VecObj.insertArgs m v v.size args = (do
      let (m1, v1) ← VecObj.reserve m v (wrap64 (v.size + args.length))
      let m2 ← VecObj.constructRange m1 v1.data v.size args
      .ok (m2, { v1 with size := wrap64 (v.size + args.length) })) := by
  unfold VecObj.insertArgs
  rw [shiftRight_end hlt]
  refine bind_congr_ok fun r hr => ?_
  have hsize := reserve_size hr
  obtain ⟨m1, v1⟩ := r
  simp only at hsize ⊢
  rw [hsize]

theorem emplaceBack_eq (hlt : v.size + 1 < 2 ^ 64) (arg : Arg α) :
    VecObj.emplaceBack m v arg = VecObj.insertArgs m v v.size [arg] := by
  have hgrow : VecObj.growFull m v = VecObj.reserve m v (wrap64 (v.size + 1)) := by
    unfold VecObj.growFull VecObj.reserve
    rw [wrap64_of_lt hlt]
    exact if_congr Nat.lt_succ_iff.symm rfl rfl
  rw [insertArgs_end (by omega)]
  unfold VecObj.emplaceBack
  rw [hgrow]
  refine bind_congr_ok fun r hr => ?_
  have hsize := reserve_size hr
  obtain ⟨m1, v1⟩ := r
  simp only at hsize ⊢
  rw [hsize]
  unfold VecObj.constructRange VecObj.constructRange
  cases m1.construct v1.data v.size arg with
  | error e => rfl
  | ok m2 => rfl

theorem resize_eq {count : Nat} (hlt : count < 2 ^ 64) (hc : v.size < count) (arg : Arg α) :
    VecObj.resize m v count arg =
      VecObj.insertArgs m v v.size (List.replicate (count - v.size) arg) := by
  have hsum : wrap64 (v.size + (count - v.size)) = count := by
    rw [Nat.add_sub_cancel' (by omega), wrap64_of_lt hlt]
  rw [insertArgs_end (by omega), List.length_replicate, hsum]
  unfold VecObj.resize
  rw [if_neg (by omega), if_pos hc]
  refine bind_congr_ok fun r hr => ?_
  have hsize := reserve_size hr
  obtain ⟨m1, v1⟩ := r
  simp only at hsize ⊢
  rw [hsize]

theorem copyFrom_eq {u : Vec} (hv : v.size = 0) (hlt : u.size < 2 ^ 64) :
    VecObj.copyFrom m v u =
      VecObj.insertArgs m v v.size ((List.range u.size).map (.elem u.data)) := by
  have hsum : wrap64 (v.size + u.size) = u.size := by
    rw [hv, Nat.zero_add, wrap64_of_lt hlt]
  rw [insertArgs_end (by omega), List.length_map, List.length_range, hsum, hv]
  rfl

end Holds

end HelixKernel
