import HelixKernel.Klibc.VectorList
import Mathlib.Logic.Equiv.Basic

/-!
# The vector refines a list

`VectorCall.apply`: what each call means for the lists of elements of the live vectors.

    vector_refines    in every run the vectors hold these lists, in storage of their own of
                      `capacity_` elements, and iterators denote the positions they should;
                      only a lack of memory stops a call -/

namespace HelixKernel

variable {α : Type}

/-- The elements of the vectors that live. -/
abbrev Lists (α : Type) := Nat → Option (List α)

def Lists.set (ls : Lists α) (x : Nat) (xs : List α) : Lists α := Function.update ls x (some xs)

/-- The list of `x`, changed by `f`. -/
def Lists.on (ls : Lists α) (x : Nat) (f : List α → List α) : Lists α :=
  Function.update ls x ((ls x).map f)

def resized (xs : List α) (n : Nat) (a : α) : List α :=
  xs.take n ++ List.replicate (n - xs.length) a

def inserted (xs : List α) (i : Nat) (ys : List α) : List α := xs.take i ++ ys ++ xs.drop i

theorem length_inserted {xs : List α} {i : Nat} (hi : i ≤ xs.length) (ys : List α) :
    (inserted xs i ys).length = xs.length + ys.length := by
  simp [inserted]
  omega

namespace VectorCall

/-- The meaning of each call on lists. -/
def apply (t : ElemType α) (ls : Lists α) : VectorCall α → Lists α
  | default x => ls.set x []
  | sized x count => ls.set x (List.replicate count t.default)
  | filled x count a => ls.set x (List.replicate count a)
  | copy x y => Function.update ls x (ls y)
  | move x y => Function.update (Function.update ls x (ls y)) y (some [])
  | ofList x as => ls.set x as
  | ofRange x as => ls.set x as
  | destroy x => Function.update ls x none
  | assignCopy x y => Function.update ls x (ls y)
  | assignMove x y =>
    if x ≠ y then Function.update (Function.update ls x (ls y)) y (some []) else ls
  | assignCount x count a => ls.set x (List.replicate count a)
  | assignRange x as => ls.set x as
  | reserve _ _ => ls
  | shrinkToFit _ => ls
  | clear x => ls.set x []
  | insert x i a => ls.on x fun xs => inserted xs i [a]
  | insertCount x i count a => ls.on x fun xs => inserted xs i (List.replicate count a)
  | insertRange x i as => ls.on x fun xs => inserted xs i as
  | emplaceBack x a => ls.on x fun xs => xs ++ [a]
  | erase x i => ls.on x fun xs => xs.eraseIdx i
  | eraseRange x i j => ls.on x fun xs => xs.take i ++ xs.drop j
  | pushBack x a => ls.on x fun xs => xs ++ [a]
  | popBack x => ls.on x List.dropLast
  | resize x count => ls.on x fun xs => resized xs count t.default
  | resizeValue x count a => ls.on x fun xs => resized xs count a
  | swap x y => Function.update (Function.update ls x (ls y)) y (ls x)

/-- Where the returned iterator or reference points: the vector and the position in it. -/
def position (ls : Lists α) : VectorCall α → Option (Nat × Nat)
  | insert x i _ => some (x, i)
  | insertCount x i _ _ => some (x, i)
  | insertRange x i _ => some (x, i)
  | emplaceBack x _ => (ls x).map fun xs => (x, xs.length)
  | erase x i => some (x, i)
  | eraseRange x i _ => some (x, i)
  | _ => none

/-- The vectors it names live, or do not yet, and positions are inside. -/
def Ready (ls : Lists α) : VectorCall α → Prop
  | default x => ls x = none
  | sized x _ => ls x = none
  | filled x _ _ => ls x = none
  | copy x y => ls x = none ∧ ls y ≠ none
  | move x y => ls x = none ∧ ls y ≠ none
  | ofList x _ => ls x = none
  | ofRange x _ => ls x = none
  | assignCopy x y => ls x ≠ none ∧ ls y ≠ none
  | assignMove x y => ls x ≠ none ∧ ls y ≠ none
  | swap x y => ls x ≠ none ∧ ls y ≠ none
  | insert x i _ => ∃ xs, ls x = some xs ∧ i ≤ xs.length
  | insertCount x i _ _ => ∃ xs, ls x = some xs ∧ i ≤ xs.length
  | insertRange x i _ => ∃ xs, ls x = some xs ∧ i ≤ xs.length
  | erase x i => ∃ xs, ls x = some xs ∧ i < xs.length
  | eraseRange x i j => ∃ xs, ls x = some xs ∧ i ≤ j ∧ j ≤ xs.length
  | destroy x => ls x ≠ none
  | assignCount x _ _ => ls x ≠ none
  | assignRange x _ => ls x ≠ none
  | reserve x _ => ls x ≠ none
  | shrinkToFit x => ls x ≠ none
  | clear x => ls x ≠ none
  | emplaceBack x _ => ls x ≠ none
  | pushBack x _ => ls x ≠ none
  | popBack x => ls x ≠ none
  | resize x _ => ls x ≠ none
  | resizeValue x _ _ => ls x ≠ none

/-- Moreover the bytes of what it leaves can be counted in a `size_t`. -/
def Valid (t : ElemType α) (ls : Lists α) (c : VectorCall α) : Prop :=
  c.Ready ls ∧ ∀ x xs, c.apply t ls x = some xs → t.size * xs.length < 2 ^ 64

end VectorCall

/-- **Refinement**: the live vectors own the lists, each in a block of its own. -/
structure VecRefines (t : ElemType α) (w : Vectors α) (ls : Lists α) : Prop where
  live : ∀ x, ls x = none → w.obj x = none
  owns : ∀ x xs, ls x = some xs → ∃ v, w.obj x = some v ∧ Owns t w.mem v xs
  apart : ∀ x y v u, x ≠ y → w.obj x = some v → w.obj y = some u → v.data ≠ 0 → v.data ≠ u.data

/-- The address of position `i` of vector `x`. -/
def Vectors.address (t : ElemType α) (w : Vectors α) (xi : Nat × Nat) : Option Nat :=
  (w.obj xi.1).map fun v => v.iter t xi.2

namespace VecRefines

variable {t : ElemType α} {w : Vectors α} {ls : Lists α} {m : BlockHeap α} {v : Vec}
  {x y : Nat} {xs xs' : List α}

/-- A vector that is there owns a list. -/
theorem owns_obj (h : VecRefines t w ls) (hv : w.obj x = some v) :
    ∃ xs, ls x = some xs ∧ Owns t w.mem v xs := by
  cases hx : ls x with
  | none =>
    rw [h.live x hx] at hv
    cases hv
  | some xs =>
    obtain ⟨u, hu, ho⟩ := h.owns x xs hx
    rw [hv] at hu
    cases hu
    exact ⟨xs, rfl, ho⟩

theorem block_ne (h : VecRefines t w ls) (hv : w.obj x = some v) (h0 : v.data ≠ 0) :
    ∃ b, w.mem.block v.data = some b := by
  obtain ⟨xs, -, ho⟩ := h.owns_obj hv
  obtain ⟨b, hb, -⟩ := ho.storage
  exact ⟨b, hb.block h0⟩

/-- The storage of `x` changes, or `x` gets its first, and all the others stay. -/
theorem set (h : VecRefines t w ls) {v' : Vec}
    (hv : ∀ y u, y ≠ x → w.obj y = some u → u.data ≠ 0 → u.data ≠ v.data)
    (hd : Done t w.mem v xs' (m, v')) :
    VecRefines t (w.setObj m x (some v')) (ls.set x xs') := by
  obtain ⟨ho, hk⟩ := hd
  have hnew : ∀ y u, y ≠ x → w.obj y = some u → u.data ≠ 0 → u.data ≠ v'.data := by
    intro y u hy hu h0 heq
    obtain ⟨b, hb⟩ := h.block_ne hu h0
    rcases hk.fresh with hp | hp | hp
    · exact hv y u hy hu h0 (heq.trans hp)
    · exact h0 (heq.trans hp)
    · rw [heq] at hb
      exact absurd (hb.symm.trans hp) (by simp)
  refine ⟨fun y hy => ?_, fun y ys hy => ?_, fun y z u u' hyz hu hu' h0 => ?_⟩
  · by_cases hyx : y = x
    · simp [Lists.set, hyx] at hy
    · simp only [Lists.set, Function.update_of_ne hyx] at hy
      simp only [Vectors.setObj, Function.update_of_ne hyx]
      exact h.live y hy
  · by_cases hyx : y = x
    · subst hyx
      simp only [Lists.set, Function.update_self, Option.some.injEq] at hy
      subst hy
      exact ⟨v', by simp [Vectors.setObj], ho⟩
    · simp only [Lists.set, Function.update_of_ne hyx] at hy
      obtain ⟨u, hu, hou⟩ := h.owns y ys hy
      refine ⟨u, by simpa [Vectors.setObj, Function.update_of_ne hyx] using hu, ?_⟩
      exact hou.frame fun b h0 hb => hk.keep _ b h0 (hv y u hyx hu h0) hb
  · simp only [Vectors.setObj] at hu hu'
    by_cases hy : y = x
    · have hz : z ≠ x := fun hz => hyz (hy.trans hz.symm)
      rw [hy, Function.update_self] at hu
      rw [Function.update_of_ne hz] at hu'
      cases hu
      intro heq
      exact hnew z u' hz hu' (heq ▸ h0) heq.symm
    · rw [Function.update_of_ne hy] at hu
      by_cases hz : z = x
      · rw [hz, Function.update_self] at hu'
        cases hu'
        exact hnew y u hy hu h0
      · rw [Function.update_of_ne hz] at hu'
        exact h.apart y z u u' hyz hu hu' h0

/-- The storage of `x` is given back. -/
theorem remove (h : VecRefines t w ls) (hv : w.obj x = some v)
    (hsame : ∀ p, p ≠ 0 → p ≠ v.data → m.block p = w.mem.block p) :
    VecRefines t (w.setObj m x none) (Function.update ls x none) := by
  refine ⟨fun y hy => ?_, fun y ys hy => ?_, fun y z u u' hyz hu hu' h0 => ?_⟩
  · by_cases hyx : y = x
    · simp [Vectors.setObj, hyx]
    · rw [Function.update_of_ne hyx] at hy
      simp only [Vectors.setObj, Function.update_of_ne hyx]
      exact h.live y hy
  · by_cases hyx : y = x
    · rw [hyx, Function.update_self] at hy
      cases hy
    · rw [Function.update_of_ne hyx] at hy
      obtain ⟨u, hu, hou⟩ := h.owns y ys hy
      refine ⟨u, by simpa [Vectors.setObj, Function.update_of_ne hyx] using hu, ?_⟩
      exact hou.frame fun b h0 hb => (hsame _ h0 (h.apart y x u v hyx hu hv h0)).trans hb
  · simp only [Vectors.setObj] at hu hu'
    have hy : y ≠ x := by
      rintro rfl
      simp at hu
    have hz : z ≠ x := by
      rintro rfl
      simp at hu'
    rw [Function.update_of_ne hy] at hu
    rw [Function.update_of_ne hz] at hu'
    exact h.apart y z u u' hyz hu hu' h0

/-- Vectors exchange their storage. -/
theorem perm (h : VecRefines t w ls) (σ : Equiv.Perm Nat) :
    VecRefines t ⟨w.mem, w.obj ∘ σ⟩ (ls ∘ σ) := by
  refine ⟨fun y hy => h.live _ hy, fun y ys hy => h.owns _ ys hy, fun y z u u' hyz hu hu' h0 => ?_⟩
  exact h.apart _ _ u u' (fun heq => hyz (σ.injective heq)) hu hu' h0

/-- Two places exchange what they have, once `c` has been put in the one. -/
theorem update_swap {β : Type} (f : Nat → β) (x y : Nat) (c : β) :
    Function.update (Function.update f x (f y)) y c = Function.update f x c ∘ Equiv.swap x y := by
  funext z
  by_cases hzy : z = y
  · simp [hzy]
  · by_cases hzx : z = x
    · subst hzx
      simp [hzy, Function.update_of_ne (Ne.symm hzy)]
    · simp [hzy, hzx, Equiv.swap_apply_of_ne_of_ne hzx hzy]

/-! ## The shapes of the calls -/

/-- What a call leaves and returns, where it is to leave `ls'`. -/
def After (t : ElemType α) (ls' : Lists α) (pos : Option (Nat × Nat))
    (r : Vectors α × Option Nat) : Prop :=
  VecRefines t r.1 ls' ∧ r.2 = pos.bind (r.1.address t)

theorem vec_eq (hv : w.obj x = some v) : w.vec x = .ok v := by
  simp [Vectors.vec, hv]

theorem others (h : VecRefines t w ls) (hv : w.obj x = some v) :
    ∀ y u, y ≠ x → w.obj y = some u → u.data ≠ 0 → u.data ≠ v.data :=
  fun y u hy hu h0 => h.apart y x u v hy hu hv h0

theorem new (h : VecRefines t w ls) {f : BlockHeap α → Vec → Except HeapFault (BlockHeap α × Vec)}
    (hf : Runs (Done t w.mem .empty xs') (f w.mem .empty)) :
    Runs (After t (ls.set x xs') none) (w.new x f) :=
  Runs.bind hf fun _ hr => ⟨h.set (fun _ _ _ _ h0 => h0) hr, rfl⟩

theorem on (h : VecRefines t w ls) {f : BlockHeap α → Vec → Except HeapFault (BlockHeap α × Vec)}
    (hx : ls x = some xs) (hf : ∀ v, Owns t w.mem v xs → Runs (Done t w.mem v xs') (f w.mem v)) :
    Runs (After t (ls.set x xs') none) (w.on x f) := by
  obtain ⟨v, hv, ho⟩ := h.owns x xs hx
  refine Runs.bind_ok (vec_eq hv) (Runs.bind (hf v ho) fun r hr => ?_)
  exact ⟨h.set (h.others hv) hr, rfl⟩

theorem onIter (h : VecRefines t w ls) {i : Nat}
    {f : BlockHeap α → Vec → Except HeapFault (BlockHeap α × Vec × Nat)} (hx : ls x = some xs)
    (hf : ∀ v, Owns t w.mem v xs → Runs (DoneAt t w.mem v xs' i) (f w.mem v)) :
    Runs (After t (ls.set x xs') (some (x, i))) (w.onIter x f) := by
  obtain ⟨v, hv, ho⟩ := h.owns x xs hx
  refine Runs.bind_ok (vec_eq hv) (Runs.bind (hf v ho) fun r hr => ?_)
  refine ⟨h.set (h.others hv) hr.1, ?_⟩
  rw [hr.2]
  simp [Vectors.address, Vectors.setObj]

theorem set_self (ls : Lists α) (hx : ls x = some xs) : ls.set x xs = ls := by
  funext y
  by_cases hy : y = x
  · rw [hy, Lists.set, Function.update_self, hx]
  · exact Function.update_of_ne hy _ _

theorem on_eq_set (ls : Lists α) (hx : ls x = some xs) (f : List α → List α) :
    ls.on x f = ls.set x (f xs) := by
  rw [Lists.on, hx]
  rfl

/-- A call that changes the list of `x` by `g`. -/
theorem onList (h : VecRefines t w ls) {g : List α → List α}
    {f : BlockHeap α → Vec → Except HeapFault (BlockHeap α × Vec)} (hx : ls x ≠ none)
    (hf : ∀ xs v, Owns t w.mem v xs → Runs (Done t w.mem v (g xs)) (f w.mem v)) :
    Runs (After t (ls.on x g) none) (w.on x f) := by
  obtain ⟨xs, hxs⟩ := Option.ne_none_iff_exists'.mp hx
  rw [on_eq_set ls hxs]
  exact h.on hxs fun v ho => hf xs v ho

/-- `x` takes over the storage of `y`, which is left empty. -/
theorem take (h : VecRefines t w ls) {u : Vec} (hu : w.obj y = some u) :
    VecRefines t ((w.setObj w.mem x (some u)).setObj w.mem y (some .empty))
      (Function.update (Function.update ls x (ls y)) y (some [])) := by
  have hempty := h.set (v := .empty) (x := x) (fun _ _ _ _ h0 => h0) (owns_empty t w.mem).done_refl
  have hperm := hempty.perm (Equiv.swap x y)
  rw [Lists.set, ← update_swap] at hperm
  simp only [Vectors.setObj] at hperm ⊢
  rw [← update_swap, hu] at hperm
  exact hperm

theorem swap (h : VecRefines t w ls) {u : Vec} (hv : w.obj x = some v) (hu : w.obj y = some u) :
    VecRefines t ((w.setObj w.mem x (some u)).setObj w.mem y (some v))
      (Function.update (Function.update ls x (ls y)) y (ls x)) := by
  have hperm := h.perm (Equiv.swap x y)
  have hls := update_swap ls x y (ls x)
  have hobj := update_swap w.obj x y (w.obj x)
  rw [Function.update_eq_self] at hls hobj
  rw [hls]
  rw [hu, hv] at hobj
  simp only [Vectors.setObj, hobj]
  exact hperm

/-! ## Calls on two vectors -/

theorem live_of (h : VecRefines t w ls) (hx : ls x ≠ none) :
    ∃ v xs, w.obj x = some v ∧ ls x = some xs ∧ Owns t w.mem v xs := by
  obtain ⟨xs, hxs⟩ := Option.ne_none_iff_exists'.mp hx
  obtain ⟨v, hv, ho⟩ := h.owns x xs hxs
  exact ⟨v, xs, hv, hxs, ho⟩

theorem step_copy (h : VecRefines t w ls) (hy : ls y ≠ none) :
    Runs (After t ((VectorCall.copy x y).apply t ls) none) ((VectorCall.copy x y).run t w) := by
  obtain ⟨u, ys, hu, hys, ho⟩ := h.live_of hy
  rw [VectorCall.apply, hys]
  refine Runs.bind_ok (vec_eq hu) (h.new ?_)
  exact (owns_empty t w.mem).copyFrom ho fun h0 => h0

theorem step_move (h : VecRefines t w ls) (hy : ls y ≠ none) :
    Runs (After t ((VectorCall.move x y).apply t ls) none) ((VectorCall.move x y).run t w) := by
  obtain ⟨u, ys, hu, -, -⟩ := h.live_of hy
  exact Runs.bind_ok (vec_eq hu) ⟨h.take hu, rfl⟩

theorem step_assignCopy (h : VecRefines t w ls) (hx : ls x ≠ none) (hy : ls y ≠ none) :
    Runs (After t ((VectorCall.assignCopy x y).apply t ls) none)
      ((VectorCall.assignCopy x y).run t w) := by
  obtain ⟨v, xs, hv, -, hov⟩ := h.live_of hx
  obtain ⟨u, ys, hu, hys, hou⟩ := h.live_of hy
  rw [VectorCall.apply, hys]
  refine Runs.bind_ok (vec_eq hu) (Runs.bind_ok (vec_eq hv) ?_)
  have hcopy : Runs (Done t w.mem v ys)
      (if x ≠ y then v.assignCopy t w.mem u else .ok (w.mem, v)) := by
    by_cases hxy : x = y
    · subst hxy
      rw [hv] at hu
      cases hu
      rw [if_neg (by simp)]
      exact hou.done_refl
    · rw [if_pos hxy]
      exact hov.assignCopy hou fun h0 => h.apart y x u v (Ne.symm hxy) hu hv h0
  exact Runs.bind hcopy fun r hr => ⟨h.set (h.others hv) hr, rfl⟩

theorem step_assignMove (h : VecRefines t w ls) (hx : ls x ≠ none) (hy : ls y ≠ none) :
    Runs (After t ((VectorCall.assignMove x y).apply t ls) none)
      ((VectorCall.assignMove x y).run t w) := by
  obtain ⟨v, xs, hv, -, hov⟩ := h.live_of hx
  obtain ⟨u, ys, hu, -, -⟩ := h.live_of hy
  refine Runs.bind_ok (vec_eq hv) (Runs.bind_ok (vec_eq hu) ?_)
  by_cases hxy : x = y
  · simp only [VectorCall.apply, hxy, ne_eq, not_true_eq_false, if_false]
    exact ⟨h, rfl⟩
  · have hyx : y ≠ x := Ne.symm hxy
    obtain ⟨m', hrun, hsame⟩ := hov.release
    have htake := (h.remove hv hsame).take (x := x) (y := y) (u := u)
      (by simpa [Vectors.setObj, Function.update_of_ne hyx] using hu)
    simp only [VectorCall.apply, ne_eq, hxy, not_false_eq_true, if_true]
    refine Runs.bind_ok hrun ⟨?_, rfl⟩
    simpa [Vectors.setObj, Function.update_of_ne hyx] using htake

theorem step_swap (h : VecRefines t w ls) (hx : ls x ≠ none) (hy : ls y ≠ none) :
    Runs (After t ((VectorCall.swap x y).apply t ls) none) ((VectorCall.swap x y).run t w) := by
  obtain ⟨v, xs, hv, -, -⟩ := h.live_of hx
  obtain ⟨u, ys, hu, -, -⟩ := h.live_of hy
  exact Runs.bind_ok (vec_eq hv) (Runs.bind_ok (vec_eq hu) ⟨h.swap hv hu, rfl⟩)

/-! ## Insertion -/

/-- The three `insert`s are the one of a range. -/
theorem step_inserted (h : VecRefines t w ls) {i : Nat} {as : List α} (hx : ls x = some xs)
    (hi : i ≤ xs.length) (hfit : t.size * (inserted xs i as).length < 2 ^ 64)
    {f : BlockHeap α → Vec → Except HeapFault (BlockHeap α × Vec × Nat)}
    (hf : ∀ v, f w.mem v = v.insertRange t w.mem (v.iter t i) as) :
    Runs (After t (ls.on x fun xs => inserted xs i as) (some (x, i))) (w.onIter x f) := by
  rw [length_inserted hi] at hfit
  rw [on_eq_set ls hx]
  refine h.onIter hx fun v ho => ?_
  rw [hf]
  exact ho.insertRange hi as hfit

end VecRefines

open VecRefines

section

variable {t : ElemType α} {w : Vectors α} {ls : Lists α}

/-- **One call** does on the vectors what it means for the lists. -/
theorem VecRefines.step (h : VecRefines t w ls) {c : VectorCall α} (hc : c.Valid t ls) :
    Runs (After t (c.apply t ls) (c.position ls)) (c.run t w) := by
  obtain ⟨hready, hfits⟩ := hc
  have some_of : ∀ {x}, ls x ≠ none → ∃ xs, ls x = some xs := Option.ne_none_iff_exists'.mp
  -- the sizes that the lists leave fit
  have hfit : ∀ {x xs}, c.apply t ls = ls.set x xs → t.size * xs.length < 2 ^ 64 := by
    intro x xs heq
    exact hfits x xs (by rw [heq]; exact Function.update_self ..)
  cases c with
  | default x =>
    simp only [VectorCall.run, VectorCall.apply, VectorCall.position]
    refine h.new ?_
    exact (owns_empty t w.mem).done_refl
  | sized x count =>
    have hr := (owns_empty t w.mem).resize count t.default
    simp only [List.take_nil, List.nil_append, List.length_nil, Nat.sub_zero] at hr
    simp only [VectorCall.run, VectorCall.apply, VectorCall.position]
    refine h.new ?_
    exact hr
  | filled x count a =>
    have hr := (owns_empty t w.mem).resize count a
    simp only [List.take_nil, List.nil_append, List.length_nil, Nat.sub_zero] at hr
    simp only [VectorCall.run, VectorCall.apply, VectorCall.position]
    refine h.new ?_
    exact hr
  | copy x y => exact h.step_copy hready.2
  | move x y => exact h.step_move hready.2
  | ofList x as =>
    simp only [VectorCall.run, VectorCall.apply, VectorCall.position]
    refine h.new ?_
    exact Owns.ofList t w.mem as (hfit rfl)
  | ofRange x as =>
    have hp := (owns_empty t w.mem).pushBackAll as (by simpa using hfit rfl)
    rw [List.nil_append] at hp
    simp only [VectorCall.run, VectorCall.apply, VectorCall.position]
    refine h.new ?_
    exact hp
  | destroy x =>
    obtain ⟨xs, hx⟩ := some_of hready
    obtain ⟨v, hv, ho⟩ := h.owns x xs hx
    obtain ⟨m', hrun, hsame⟩ := ho.release
    exact Runs.bind_ok (vec_eq hv) (Runs.bind_ok hrun ⟨h.remove hv hsame, rfl⟩)
  | assignCopy x y => exact h.step_assignCopy hready.1 hready.2
  | assignMove x y => exact h.step_assignMove hready.1 hready.2
  | assignCount x count a =>
    obtain ⟨xs, hx⟩ := some_of hready
    simp only [VectorCall.run, VectorCall.apply, VectorCall.position]
    refine h.on hx fun v ho => ?_
    exact ho.assignCount count a
  | assignRange x as =>
    obtain ⟨xs, hx⟩ := some_of hready
    simp only [VectorCall.run, VectorCall.apply, VectorCall.position]
    refine h.on hx fun v ho => ?_
    exact ho.assignRange as (hfit rfl)
  | reserve x n =>
    obtain ⟨xs, hx⟩ := some_of hready
    simp only [VectorCall.run, VectorCall.apply, VectorCall.position]
    rw [← set_self ls hx]
    refine h.on hx fun v ho => ?_
    exact (ho.reserve n).mono fun r hr => hr.1
  | shrinkToFit x =>
    obtain ⟨xs, hx⟩ := some_of hready
    simp only [VectorCall.run, VectorCall.apply, VectorCall.position]
    rw [← set_self ls hx]
    refine h.on hx fun v ho => ?_
    exact ho.shrinkToFit
  | clear x =>
    obtain ⟨xs, hx⟩ := some_of hready
    simp only [VectorCall.run, VectorCall.apply, VectorCall.position]
    refine h.on hx fun v ho => ?_
    exact ho.clear
  | insert x i a =>
    obtain ⟨xs, hx, hi⟩ := hready
    have hlen := hfit (on_eq_set ls hx fun xs => inserted xs i [a])
    rw [VectorCall.run, VectorCall.position, VectorCall.apply]
    refine h.step_inserted hx hi hlen fun v => ?_
    exact Owns.insert_eq t w.mem v _ a
  | insertCount x i count a =>
    obtain ⟨xs, hx, hi⟩ := hready
    have hlen := hfit (on_eq_set ls hx fun xs => inserted xs i (List.replicate count a))
    rw [VectorCall.run, VectorCall.position, VectorCall.apply]
    refine h.step_inserted hx hi hlen fun v => ?_
    exact Owns.insertCount_eq t w.mem v _ count a
  | insertRange x i as =>
    obtain ⟨xs, hx, hi⟩ := hready
    have hlen := hfit (on_eq_set ls hx fun xs => inserted xs i as)
    rw [VectorCall.run, VectorCall.position, VectorCall.apply]
    refine h.step_inserted hx hi hlen fun v => ?_
    rfl
  | emplaceBack x a =>
    obtain ⟨xs, hx⟩ := some_of hready
    have happ := on_eq_set ls hx fun xs => xs ++ [a]
    have hlen := hfit happ
    rw [List.length_append] at hlen
    rw [VectorCall.run, VectorCall.apply, happ, VectorCall.position, hx]
    refine h.onIter hx fun v ho => ?_
    exact ho.emplaceBack hlen a
  | erase x i =>
    obtain ⟨xs, hx, hi⟩ := hready
    rw [VectorCall.run, VectorCall.position, VectorCall.apply, on_eq_set ls hx,
      List.eraseIdx_eq_take_drop_succ]
    refine h.onIter hx fun v ho => ?_
    rw [ho.erase_eq hi]
    exact ho.eraseRange (by omega) hi
  | eraseRange x i j =>
    obtain ⟨xs, hx, hij, hj⟩ := hready
    rw [VectorCall.run, VectorCall.position, VectorCall.apply, on_eq_set ls hx]
    refine h.onIter hx fun v ho => ?_
    exact ho.eraseRange hij hj
  | pushBack x a =>
    obtain ⟨xs, hx⟩ := some_of hready
    have happ := on_eq_set ls hx fun xs => xs ++ [a]
    have hlen := hfit happ
    rw [List.length_append] at hlen
    simp only [VectorCall.run, VectorCall.apply, VectorCall.position] at happ ⊢
    rw [happ]
    refine h.on hx fun v ho => ?_
    exact ho.pushBack hlen a
  | popBack x =>
    simp only [VectorCall.run, VectorCall.apply, VectorCall.position]
    refine h.onList hready fun xs v ho => ?_
    exact ho.popBack
  | resize x count =>
    simp only [VectorCall.run, VectorCall.apply, VectorCall.position]
    refine h.onList hready fun xs v ho => ?_
    exact ho.resize count t.default
  | resizeValue x count a =>
    simp only [VectorCall.run, VectorCall.apply, VectorCall.position]
    refine h.onList hready fun xs v ho => ?_
    exact ho.resize count a
  | swap x y => exact h.step_swap hready.1 hready.2

end

/-! ## Runs -/

/-- Runs of calls, from no vectors at all. -/
inductive VecReach (t : ElemType α) : Vectors α → Lists α → Prop
  | start (m : BlockHeap α) : VecReach t ⟨m, fun _ => none⟩ fun _ => none
  | call {w w' : Vectors α} {ls : Lists α} {r : Option Nat} (c : VectorCall α)
      (h : VecReach t w ls) (hc : c.Valid t ls) (hrun : c.run t w = .ok (w', r)) :
      VecReach t w' (c.apply t ls)

theorem VecReach.refines {t : ElemType α} {w : Vectors α} {ls : Lists α} (hr : VecReach t w ls) :
    VecRefines t w ls := by
  induction hr with
  | start m => exact ⟨fun _ _ => rfl, by simp, by simp⟩
  | call c h hc hrun ih => exact ((ih.step hc).of_ok hrun).1

/-- **The vector refines a list**: after any run the vectors hold the lists the calls mean;
the next call goes through, short of memory, leaves what it means and returns the address of
the position it means. -/
theorem vector_refines {t : ElemType α} {w : Vectors α} {ls : Lists α} (hr : VecReach t w ls) :
    VecRefines t w ls ∧ ∀ c : VectorCall α, c.Valid t ls →
      Runs (fun r => VecRefines t r.1 (c.apply t ls) ∧ r.2 = (c.position ls).bind (r.1.address t))
        (c.run t w) := by
  exact ⟨hr.refines, fun c hc => hr.refines.step hc⟩

/-- Eight-byte words. -/
def wordType : ElemType Nat := ⟨8, 0, by decide⟩

/-- A single list of a few elements fits. -/
theorem fits_set {xs : List Nat} (hxs : 8 * xs.length < 2 ^ 64) (x : Nat) (ys : List Nat)
    (h : Lists.set (fun _ => none) 0 xs x = some ys) : wordType.size * ys.length < 2 ^ 64 := by
  by_cases hx : x = 0
  · rw [hx, Lists.set, Function.update_self] at h
    cases h
    exact hxs
  · rw [Lists.set, Function.update_of_ne hx] at h
    cases h

theorem apply_insert_first : VectorCall.apply wordType (Lists.set (fun _ => none) 0 [5]) (.insert 0 0 7) =
    Lists.set (fun _ => none) 0 [7, 5] := by
  simp [VectorCall.apply, Lists.on, Lists.set, inserted]

theorem valid_insert_first :
    (VectorCall.insert 0 0 7).Valid wordType (Lists.set (fun _ => none) 0 [5]) := by
  refine ⟨⟨[5], rfl, by decide⟩, fun x xs hx => ?_⟩
  rw [apply_insert_first] at hx
  exact fits_set (by decide) x xs hx

/-- A vector gets its block at `0x1000`, and an element before its first one. -/
theorem vector_refines_insert : ∃ w w', VecReach wordType w (Lists.set (fun _ => none) 0 [5]) ∧
    VectorCall.run wordType w (.insert 0 0 7) = .ok (w', some 0x1000) ∧
    VecRefines wordType w' (Lists.set (fun _ => none) 0 [7, 5]) := by
  obtain ⟨w, h, w', hrun⟩ : ∃ w, VecReach wordType w (Lists.set (fun _ => none) 0 [5]) ∧
      ∃ w', VectorCall.run wordType w (.insert 0 0 7) = .ok (w', some 0x1000) :=
    ⟨_, .call (.ofList 0 [5]) (.start ⟨.empty, [0x1000]⟩) ⟨rfl, fits_set (by decide)⟩ rfl, _, rfl⟩
  have hstep := (((vector_refines h).2 _ valid_insert_first).of_ok hrun).1
  rw [apply_insert_first] at hstep
  exact ⟨w, w', h, hrun, hstep⟩

end HelixKernel
