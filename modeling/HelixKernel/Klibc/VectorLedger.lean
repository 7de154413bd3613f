import HelixKernel.Klibc.VectorElements

/-!
# The vector's accounts balance

`ObjRefines w ls`: the live vectors hold the lists, each in a buffer of its own, and there are
no other buffers.

    vector_lifetimes    in every run each object that was constructed is in one cell or has
                        been destroyed once, and each buffer is there or has been freed once;
                        no call faults, and after the last vector nothing is left -/

namespace HelixKernel

variable {α : Type} {t : ElemType α}

structure ObjRefines (w : ObjVectors t) (ls : Lists α) : Prop where
  live : ∀ x, ls x = none → w.obj x = none
  holds : ∀ x xs, ls x = some xs → ∃ v, w.obj x = some v ∧ Holds w.mem v xs
  apart : ∀ x y v u, x ≠ y → w.obj x = some v → w.obj y = some u → v.data ≠ 0 → v.data ≠ u.data
  owned : ∀ p b, w.mem.block p = some b → ∃ x v, w.obj x = some v ∧ v.data = p

namespace ObjRefines

variable {w : ObjVectors t} {ls : Lists α} {m : ObjHeap t} {v : Vec} {x y : Nat} {xs xs' : List α}

theorem holds_obj (h : ObjRefines w ls) (hv : w.obj x = some v) :
    ∃ xs, ls x = some xs ∧ Holds w.mem v xs := by
  cases hx : ls x with
  | none =>
    rw [h.live x hx] at hv
    cases hv
  | some xs =>
    obtain ⟨u, hu, ho⟩ := h.holds x xs hx
    rw [hv] at hu
    cases hu
    exact ⟨xs, rfl, ho⟩

theorem block_ne (h : ObjRefines w ls) (hv : w.obj x = some v) (h0 : v.data ≠ 0) :
    ∃ b, w.mem.block v.data = some b := by
  obtain ⟨xs, -, ho⟩ := h.holds_obj hv
  obtain ⟨id, hb⟩ := ho.block h0
  exact ⟨_, hb⟩

/-- Where only the storage of `x` changes, the buffers that stay are those of other vectors. -/
theorem owned_other (h : ObjRefines w ls) {p p' : Nat} {b : Buffer}
    (hold : ∀ u, w.obj x = some u → u = v) (ho : Only w.mem v.data m p')
    (hb : m.block p = some b) (hp : p ≠ p') : ∃ y u, y ≠ x ∧ w.obj y = some u ∧ u.data = p := by
  obtain ⟨hpv, hb'⟩ := ho.kept hb hp
  obtain ⟨y, u, hu, hup⟩ := h.owned p b hb'
  refine ⟨y, u, ?_, hu, hup⟩
  rintro rfl
  rw [hold u hu] at hup
  exact hpv hup.symm

/-- The storage of `x` goes from that of `v` to that of `v'`, and all the other vectors keep
theirs. -/
theorem set (h : ObjRefines w ls) {v' : Vec}
    (hv : ∀ y u, y ≠ x → w.obj y = some u → u.data ≠ 0 → u.data ≠ v.data)
    (hold : ∀ u, w.obj x = some u → u = v) (hd : DoneObj w.mem v xs' (m, v')) :
    ObjRefines (w.setObj m x (some v')) (ls.set x xs') := by
  obtain ⟨hh, ho⟩ := hd
  have hnew : ∀ y u, y ≠ x → w.obj y = some u → u.data ≠ 0 → u.data ≠ v'.data := by
    intro y u hy hu h0 heq
    obtain ⟨b, hb⟩ := h.block_ne hu h0
    rcases ho.fresh with hp | hp | hp
    · exact hv y u hy hu h0 (heq.trans hp)
    · exact h0 (heq.trans hp)
    · rw [heq] at hb
      exact absurd (hb.symm.trans hp) (by simp)
  refine ⟨fun y hy => ?_, fun y ys hy => ?_, fun y z u u' hyz hu hu' h0 => ?_, fun p b hb => ?_⟩
  · by_cases hyx : y = x
    · simp [Lists.set, hyx] at hy
    · simp only [Lists.set, Function.update_of_ne hyx] at hy
      simp only [ObjVectors.setObj, Function.update_of_ne hyx]
      exact h.live y hy
  · by_cases hyx : y = x
    · subst hyx
      simp only [Lists.set, Function.update_self, Option.some.injEq] at hy
      subst hy
      exact ⟨v', by simp [ObjVectors.setObj], hh⟩
    · simp only [Lists.set, Function.update_of_ne hyx] at hy
      obtain ⟨u, hu, hou⟩ := h.holds y ys hy
      refine ⟨u, by simpa [ObjVectors.setObj, Function.update_of_ne hyx] using hu, ?_⟩
      exact hou.frame (fun h0 => ho.block _ (hv y u hyx hu h0) (hnew y u hyx hu h0))
        fun h0 i => ho.cell _ i (hv y u hyx hu h0) (hnew y u hyx hu h0)
  · simp only [ObjVectors.setObj] at hu hu'
    by_cases hy : y = x
    · have hz : z ≠ x := fun hz => hyz (hy.trans hz.symm)
      rw [hy, Function.update_self] at hu
      rw [Function.update_of_ne hz] at hu'
      cases hu
      intro heq
      exact hnew z u' hz hu' (heq ▸ h0) heq.symm
    · rw [Function.update_of_ne hy] at hu
      by_cases hz : z = x
      · rw [hz, Function.update_self] at hu'
        cases hu'
        exact hnew y u hy hu h0
      · rw [Function.update_of_ne hz] at hu'
        exact h.apart y z u u' hyz hu hu' h0
  · by_cases hp : p = v'.data
    · exact ⟨x, v', by simp [ObjVectors.setObj], hp.symm⟩
    · obtain ⟨y, u, hyx, hu, hup⟩ := h.owned_other hold ho hb hp
      exact ⟨y, u, by simpa [ObjVectors.setObj, Function.update_of_ne hyx] using hu, hup⟩

/-- The storage of `x` is given back. -/
theorem remove (h : ObjRefines w ls) (hv : w.obj x = some v) (ho : Only w.mem v.data m 0) :
    ObjRefines (w.setObj m x none) (Function.update ls x none) := by
  refine ⟨fun y hy => ?_, fun y ys hy => ?_, fun y z u u' hyz hu hu' h0 => ?_, fun p b hb => ?_⟩
  · by_cases hyx : y = x
    · simp [ObjVectors.setObj, hyx]
    · rw [Function.update_of_ne hyx] at hy
      simp only [ObjVectors.setObj, Function.update_of_ne hyx]
      exact h.live y hy
  · by_cases hyx : y = x
    · rw [hyx, Function.update_self] at hy
      cases hy
    · rw [Function.update_of_ne hyx] at hy
      obtain ⟨u, hu, hou⟩ := h.holds y ys hy
      refine ⟨u, by simpa [ObjVectors.setObj, Function.update_of_ne hyx] using hu, ?_⟩
      exact hou.frame (fun h0 => ho.block _ (h.apart y x u v hyx hu hv h0) h0)
        fun h0 i => ho.cell _ i (h.apart y x u v hyx hu hv h0) h0
  · simp only [ObjVectors.setObj] at hu hu'
    have hy : y ≠ x := by
      rintro rfl
      simp at hu
    have hz : z ≠ x := by
      rintro rfl
      simp at hu'
    rw [Function.update_of_ne hy] at hu
    rw [Function.update_of_ne hz] at hu'
    exact h.apart y z u u' hyz hu hu' h0
  · have hp0 : p ≠ 0 := by
      rintro rfl
      exact absurd (hb.symm.trans m.null) (by simp)
    have hold : ∀ u, w.obj x = some u → u = v := by
      intro u hu
      exact Option.some.inj (hu.symm.trans hv)
    obtain ⟨y, u, hyx, hu, hup⟩ := h.owned_other hold ho hb hp0
    exact ⟨y, u, by simpa [ObjVectors.setObj, Function.update_of_ne hyx] using hu, hup⟩

/-- Vectors exchange their storage. -/
theorem perm (h : ObjRefines w ls) (σ : Equiv.Perm Nat) :
    ObjRefines ⟨w.mem, w.obj ∘ σ⟩ (ls ∘ σ) := by
  refine ⟨fun y hy => h.live _ hy, fun y ys hy => h.holds _ ys hy, fun y z u u' hyz hu hu' h0 => ?_,
    fun p b hb => ?_⟩
  · exact h.apart _ _ u u' (fun heq => hyz (σ.injective heq)) hu hu' h0
  · obtain ⟨y, u, hu, hup⟩ := h.owned p b hb
    exact ⟨σ.symm y, u, by simpa using hu, hup⟩

/-- `x` takes over the storage of `y`, which is left with none. -/
theorem take (h : ObjRefines w ls) {u : Vec} (hu : w.obj y = some u) (hx : w.obj x = none) :
    ObjRefines ((w.setObj w.mem x (some u)).setObj w.mem y (some .empty))
      (Function.update (Function.update ls x (ls y)) y (some [])) := by
  have hempty := h.set (v := .empty) (x := x) (fun _ _ _ _ h0 => h0)
    (fun u hu => by rw [hx] at hu; cases hu) (Holds.empty w.mem).done_refl
  have hperm := hempty.perm (Equiv.swap x y)
  rw [Lists.set, ← VecRefines.update_swap] at hperm
  simp only [ObjVectors.setObj] at hperm ⊢
  rw [← VecRefines.update_swap, hu] at hperm
  exact hperm

theorem swap (h : ObjRefines w ls) {u : Vec} (hv : w.obj x = some v) (hu : w.obj y = some u) :
    ObjRefines ((w.setObj w.mem x (some u)).setObj w.mem y (some v))
      (Function.update (Function.update ls x (ls y)) y (ls x)) := by
  have hperm := h.perm (Equiv.swap x y)
  have hls := VecRefines.update_swap ls x y (ls x)
  have hobj := VecRefines.update_swap w.obj x y (w.obj x)
  rw [Function.update_eq_self] at hls hobj
  rw [hls]
  rw [hu, hv] at hobj
  simp only [ObjVectors.setObj, hobj]
  exact hperm

/-! ## The shapes of the calls -/

theorem vec_eq (hv : w.obj x = some v) : w.vec x = .ok v := by
  simp [ObjVectors.vec, hv]

theorem live_of (h : ObjRefines w ls) (hx : ls x ≠ none) :
    ∃ v xs, w.obj x = some v ∧ ls x = some xs ∧ Holds w.mem v xs := by
  obtain ⟨xs, hxs⟩ := Option.ne_none_iff_exists'.mp hx
  obtain ⟨v, hv, ho⟩ := h.holds x xs hxs
  exact ⟨v, xs, hv, hxs, ho⟩

theorem new (h : ObjRefines w ls) (hx : ls x = none)
    {f : ObjHeap t → Vec → Except HeapFault (ObjHeap t × Vec)}
    (hf : Runs (DoneObj w.mem .empty xs') (f w.mem .empty)) :
    Runs (fun w' => ObjRefines w' (ls.set x xs')) (w.new x f) := by
  refine Runs.bind hf fun r hr => h.set (fun _ _ _ _ h0 => h0) (fun u hu => ?_) hr
  rw [h.live x hx] at hu
  cases hu

/-- A member function that leaves `xs'`. -/
theorem on (h : ObjRefines w ls) (hx : ls x = some xs)
    {f : ObjHeap t → Vec → Except HeapFault (ObjHeap t × Vec)}
    (hf : ∀ v, w.obj x = some v → Holds w.mem v xs → Runs (DoneObj w.mem v xs') (f w.mem v)) :
    Runs (fun w' => ObjRefines w' (ls.set x xs')) (w.on x f) := by
  obtain ⟨v, hv, ho⟩ := h.holds x xs hx
  refine Runs.bind_ok (vec_eq hv) (Runs.bind (hf v hv ho) fun r hr => ?_)
  refine h.set (fun y u hy hu h0 => h.apart y x u v hy hu hv h0) (fun u hu => ?_) hr
  rw [hv] at hu
  cases hu
  rfl

/-- A member function that changes the list by `g`. -/
theorem onList (h : ObjRefines w ls) (hx : ls x = some xs) (g : List α → List α)
    {f : ObjHeap t → Vec → Except HeapFault (ObjHeap t × Vec)}
    (hf : ∀ v, Holds w.mem v xs → Runs (DoneObj w.mem v (g xs)) (f w.mem v)) :
    Runs (fun w' => ObjRefines w' (ls.on x g)) (w.on x f) := by
  rw [VecRefines.on_eq_set ls hx]
  exact h.on hx fun v _ hv => hf v hv

/-- One that leaves the list as it is. -/
theorem onSame (h : ObjRefines w ls) (hx : ls x = some xs)
    {f : ObjHeap t → Vec → Except HeapFault (ObjHeap t × Vec)}
    (hf : ∀ v, Holds w.mem v xs → Runs (DoneObj w.mem v xs) (f w.mem v)) :
    Runs (fun w' => ObjRefines w' ls) (w.on x f) := by
  have hon := h.on hx fun v _ hv => hf v hv
  rw [VecRefines.set_self ls hx] at hon
  exact hon

/-! ## Calls that share their code -/

/-- The two constructors with a count. -/
theorem new_filled (h : ObjRefines w ls) (hx : ls x = none) {count : Nat} {a : α}
    (hlen : (List.replicate count a).length < 2 ^ 64) :
    Runs (fun w' => ObjRefines w' (ls.set x (List.replicate count a)))
      (w.new x fun m v => VecObj.resize m v count (.value a)) := by
  rw [List.length_replicate] at hlen
  have hres := (Holds.empty w.mem).resize hlen a
  rw [resized, List.take_nil, List.nil_append, List.length_nil, Nat.sub_zero] at hres
  refine h.new hx ?_
  exact hres

/-- The three `insert`s are the one of a range. -/
theorem on_inserted (h : ObjRefines w ls) (hx : ls x = some xs) {i : Nat} {as : List α}
    (hi : i ≤ xs.length) (hlen : (inserted xs i as).length < 2 ^ 64)
    {f : ObjHeap t → Vec → Except HeapFault (ObjHeap t × Vec)}
    (hf : ∀ v, f w.mem v = VecObj.insertRange w.mem v i as) :
    Runs (fun w' => ObjRefines w' (ls.on x fun xs => inserted xs i as)) (w.on x f) := by
  rw [length_inserted hi] at hlen
  refine h.onList hx _ fun v ho => ?_
  rw [hf]
  exact ho.insertRange hi as hlen

/-- `push_back` and `emplace_back` -/
theorem on_pushed (h : ObjRefines w ls) (hx : ls x = some xs) {a : α}
    (hlen : (xs ++ [a]).length < 2 ^ 64) :
    Runs (fun w' => ObjRefines w' (ls.on x fun xs => xs ++ [a]))
      (w.on x fun m v => VecObj.emplaceBack m v (.value a)) := by
  rw [List.length_append] at hlen
  refine h.onList hx _ fun v ho => ?_
  exact ho.emplaceBack hlen a

/-- The two `resize`s. -/
theorem on_resized (h : ObjRefines w ls) (hx : ls x = some xs) {count : Nat} {a : α}
    (hlen : (resized xs count a).length < 2 ^ 64) :
    Runs (fun w' => ObjRefines w' (ls.on x fun xs => resized xs count a))
      (w.on x fun m v => VecObj.resize m v count (.value a)) := by
  simp only [resized, List.length_append, List.length_take, List.length_replicate] at hlen
  refine h.onList hx _ fun v ho => ?_
  refine ho.resize ?_ a
  have := ho.size
  have := ho.le
  have := ho.lt
  omega

/-! ## Calls on two vectors -/

theorem step_copy (h : ObjRefines w ls) (hx : ls x = none) (hy : ls y ≠ none) :
    Runs (fun w' => ObjRefines w' ((VectorCall.copy x y).apply t ls))
      ((VectorCall.copy x y).runObj w) := by
  obtain ⟨u, ys, hu, hys, ho⟩ := h.live_of hy
  rw [VectorCall.apply, hys]
  refine Runs.bind_ok (vec_eq hu) (h.new hx ?_)
  exact (Holds.empty w.mem).copyFrom ho fun h0 => h0

theorem step_move (h : ObjRefines w ls) (hx : ls x = none) (hy : ls y ≠ none) :
    Runs (fun w' => ObjRefines w' ((VectorCall.move x y).apply t ls))
      ((VectorCall.move x y).runObj w) := by
  obtain ⟨u, ys, hu, -, -⟩ := h.live_of hy
  exact Runs.bind_ok (vec_eq hu) (h.take hu (h.live x hx))

theorem step_assignCopy (h : ObjRefines w ls) (hx : ls x ≠ none) (hy : ls y ≠ none) :
    Runs (fun w' => ObjRefines w' ((VectorCall.assignCopy x y).apply t ls))
      ((VectorCall.assignCopy x y).runObj w) := by
  obtain ⟨v, xs, hv, hxs, -⟩ := h.live_of hx
  obtain ⟨u, ys, hu, hys, hou⟩ := h.live_of hy
  rw [VectorCall.apply, hys]
  refine Runs.bind_ok (vec_eq hu) (h.on hxs fun v' hv' hov => ?_)
  by_cases hxy : x = y
  · subst hxy
    rw [hv'] at hu
    cases hu
    rw [if_neg (by simp)]
    exact hou.done_refl
  · rw [if_pos hxy]
    exact hov.assignCopy hou fun h0 => h.apart y x u v' (Ne.symm hxy) hu hv' h0

theorem step_assignMove (h : ObjRefines w ls) (hx : ls x ≠ none) (hy : ls y ≠ none) :
    Runs (fun w' => ObjRefines w' ((VectorCall.assignMove x y).apply t ls))
      ((VectorCall.assignMove x y).runObj w) := by
  obtain ⟨v, xs, hv, -, hov⟩ := h.live_of hx
  obtain ⟨u, ys, hu, -, -⟩ := h.live_of hy
  refine Runs.bind_ok (vec_eq hv) (Runs.bind_ok (vec_eq hu) ?_)
  by_cases hxy : x = y
  · simp only [VectorCall.apply, hxy, ne_eq, not_true_eq_false, if_false]
    exact h
  · have hyx : y ≠ x := Ne.symm hxy
    obtain ⟨m', hrun, honly⟩ := hov.release
    have htake := (h.remove hv honly).take (x := x) (y := y) (u := u)
      (by simpa [ObjVectors.setObj, Function.update_of_ne hyx] using hu)
      (by simp [ObjVectors.setObj])
    simp only [VectorCall.apply, ne_eq, hxy, not_false_eq_true, if_true]
    refine Runs.bind_ok hrun ?_
    show ObjRefines _ _
    simpa [ObjVectors.setObj, Function.update_of_ne hyx] using htake

theorem step_swap (h : ObjRefines w ls) (hx : ls x ≠ none) (hy : ls y ≠ none) :
    Runs (fun w' => ObjRefines w' ((VectorCall.swap x y).apply t ls))
      ((VectorCall.swap x y).runObj w) := by
  obtain ⟨v, xs, hv, -, -⟩ := h.live_of hx
  obtain ⟨u, ys, hu, -, -⟩ := h.live_of hy
  exact Runs.bind_ok (vec_eq hv) (Runs.bind_ok (vec_eq hu) (h.swap hv hu))

end ObjRefines

/-- A capacity asked for is a `size_t`; of the other counts `Valid` says it. -/
def VectorCall.Counted : VectorCall α → Prop
  | .reserve _ n => n < 2 ^ 64
  | _ => True

open ObjRefines VecRefines in
/-- **One call** does to the objects what it means for the lists. -/
theorem ObjRefines.step {w : ObjVectors t} {ls : Lists α} (h : ObjRefines w ls) {c : VectorCall α}
    (hc : c.Valid t ls) (hn : c.Counted) :
    Runs (fun w' => ObjRefines w' (c.apply t ls)) (c.runObj w) := by
  obtain ⟨hready, hfits⟩ := hc
  have some_of : ∀ {x}, ls x ≠ none → ∃ xs, ls x = some xs := Option.ne_none_iff_exists'.mp
  -- the lengths of the lists that it leaves
  have hset : ∀ {x xs}, c.apply t ls = ls.set x xs → xs.length < 2 ^ 64 := by
    intro x xs heq
    exact lt_of_fits t (hfits x xs (by rw [heq]; exact Function.update_self ..))
  cases c with
  | default x =>
    rw [VectorCall.runObj, VectorCall.apply]
    refine h.new hready ?_
    exact (Holds.empty w.mem).done_refl
  | sized x count => exact h.new_filled hready (hset rfl)
  | filled x count a => exact h.new_filled hready (hset rfl)
  | copy x y => exact h.step_copy hready.1 hready.2
  | move x y => exact h.step_move hready.1 hready.2
  | ofList x as =>
    rw [VectorCall.runObj, VectorCall.apply]
    refine h.new hready ?_
    exact Holds.ofList w.mem as (hset rfl)
  | ofRange x as =>
    have hpush := (Holds.empty w.mem).pushBackAll as (by simpa using hset rfl)
    rw [List.nil_append] at hpush
    rw [VectorCall.runObj, VectorCall.apply]
    refine h.new hready ?_
    exact hpush
  | destroy x =>
    obtain ⟨v, xs, hv, -, ho⟩ := h.live_of hready
    obtain ⟨m', hrun, honly⟩ := ho.release
    exact Runs.bind_ok (vec_eq hv) (Runs.bind_ok hrun (h.remove hv honly))
  | assignCopy x y => exact h.step_assignCopy hready.1 hready.2
  | assignMove x y => exact h.step_assignMove hready.1 hready.2
  | assignCount x count a =>
    obtain ⟨xs, hx⟩ := some_of hready
    have hlen := hset rfl
    rw [List.length_replicate] at hlen
    rw [VectorCall.runObj, VectorCall.apply]
    refine h.on hx fun v _ ho => ?_
    exact ho.assignCount hlen a
  | assignRange x as =>
    obtain ⟨xs, hx⟩ := some_of hready
    rw [VectorCall.runObj, VectorCall.apply]
    refine h.on hx fun v _ ho => ?_
    exact ho.assignRange as (hset rfl)
  | reserve x n =>
    obtain ⟨xs, hx⟩ := some_of hready
    rw [VectorCall.runObj, VectorCall.apply]
    refine h.onSame hx fun v ho => ?_
    exact (ho.reserve hn).runs.mono fun r hr => hr.done
  | shrinkToFit x =>
    obtain ⟨xs, hx⟩ := some_of hready
    rw [VectorCall.runObj, VectorCall.apply]
    refine h.onSame hx fun v ho => ?_
    exact ho.shrinkToFit
  | clear x =>
    obtain ⟨xs, hx⟩ := some_of hready
    rw [VectorCall.runObj, VectorCall.apply]
    refine h.on hx fun v _ ho => ?_
    obtain ⟨m', hrun, hdone, -⟩ := ho.clear
    rw [hrun]
    exact hdone
  | insert x i a =>
    obtain ⟨xs, hx, hi⟩ := hready
    have hlen := hset (on_eq_set ls hx fun xs => inserted xs i [a])
    rw [VectorCall.runObj, VectorCall.apply]
    exact h.on_inserted hx hi hlen fun v => Holds.insert_eq w.mem v i a
  | insertCount x i count a =>
    obtain ⟨xs, hx, hi⟩ := hready
    have hlen := hset (on_eq_set ls hx fun xs => inserted xs i (List.replicate count a))
    rw [VectorCall.runObj, VectorCall.apply]
    exact h.on_inserted hx hi hlen fun v => Holds.insertCount_eq w.mem v i count a
  | insertRange x i as =>
    obtain ⟨xs, hx, hi⟩ := hready
    have hlen := hset (on_eq_set ls hx fun xs => inserted xs i as)
    rw [VectorCall.runObj, VectorCall.apply]
    exact h.on_inserted hx hi hlen fun _ => rfl
  | emplaceBack x a =>
    obtain ⟨xs, hx⟩ := some_of hready
    have hlen := hset (on_eq_set ls hx fun xs => xs ++ [a])
    exact h.on_pushed hx hlen
  | erase x i =>
    obtain ⟨xs, hx, hi⟩ := hready
    rw [VectorCall.runObj, VectorCall.apply]
    refine h.onList hx _ fun v ho => ?_
    rw [List.eraseIdx_eq_take_drop_succ, Holds.erase_eq]
    exact ho.eraseRange hi
  | eraseRange x i j =>
    obtain ⟨xs, hx, hij, hj⟩ := hready
    have hsum : i + (j - i) = j := by omega
    rw [VectorCall.runObj, VectorCall.apply]
    refine h.onList hx _ fun v ho => ?_
    have herase := ho.eraseRange (i := i) (n := j - i) (by omega)
    rw [hsum] at herase
    exact herase
  | pushBack x a =>
    obtain ⟨xs, hx⟩ := some_of hready
    have hlen := hset (on_eq_set ls hx fun xs => xs ++ [a])
    exact h.on_pushed hx hlen
  | popBack x =>
    obtain ⟨xs, hx⟩ := some_of hready
    rw [VectorCall.runObj, VectorCall.apply]
    refine h.onList hx _ fun v ho => ?_
    exact ho.popBack
  | resize x count =>
    obtain ⟨xs, hx⟩ := some_of hready
    have hlen := hset (on_eq_set ls hx fun xs => resized xs count t.default)
    exact h.on_resized hx hlen
  | resizeValue x count a =>
    obtain ⟨xs, hx⟩ := some_of hready
    have hlen := hset (on_eq_set ls hx fun xs => resized xs count a)
    exact h.on_resized hx hlen
  | swap x y => exact h.step_swap hready.1 hready.2

/-! ## The accounts of the vectors -/

/-- The object that is element `i` of vector `x`. -/
def ObjVectors.elem (w : ObjVectors t) (x i : Nat) : Option Nat :=
  (w.obj x).bind fun v => if i < v.size then (w.mem.cell (v.data, i)).map Obj.id else none

/-- The buffer of vector `x`. -/
def ObjVectors.buffer (w : ObjVectors t) (x : Nat) : Option Nat :=
  (w.obj x).bind fun v => (w.mem.block v.data).map Buffer.id

namespace ObjRefines

variable {w : ObjVectors t} {ls : Lists α}

theorem elem_eq {x i n : Nat} (h : w.elem x i = some n) :
    ∃ v, w.obj x = some v ∧ i < v.size ∧ (w.mem.cell (v.data, i)).map Obj.id = some n := by
  obtain ⟨v, hv, h⟩ := Option.bind_eq_some_iff.mp h
  by_cases hi : i < v.size
  · rw [if_pos hi] at h
    exact ⟨v, hv, hi, h⟩
  · rw [if_neg hi] at h
    cases h

/-- No two vectors have one buffer. -/
theorem obj_unique (h : ObjRefines w ls) {x y : Nat} {v u : Vec} (hv : w.obj x = some v)
    (hu : w.obj y = some u) (hb : w.mem.block v.data ≠ none) (heq : v.data = u.data) : x = y := by
  by_cases hxy : x = y
  · exact hxy
  · have h0 : v.data ≠ 0 := by
      intro h0
      rw [h0] at hb
      exact hb w.mem.null
    exact absurd heq (h.apart x y v u hxy hv hu h0)

/-- Every object that lives is an element of one vector. -/
theorem objects (h : ObjRefines w ls) :
    Ledger w.mem.constructed w.mem.destroyed fun xi : Nat × Nat => w.elem xi.1 xi.2 := by
  refine w.mem.objects.move (fun xi => ((w.obj xi.1).elim 0 Vec.data, xi.2)) (fun xi n hxi => ?_)
    (fun xi yj n hxi hyj heq => ?_) (fun k n hk => ?_)
  · obtain ⟨v, hv, -, hc⟩ := elem_eq hxi
    simp only [hv, Option.elim]
    exact hc
  · obtain ⟨x, i⟩ := xi
    obtain ⟨y, j⟩ := yj
    obtain ⟨v, hv, -, hc⟩ := elem_eq hxi
    obtain ⟨u, hu, -, -⟩ := elem_eq hyj
    simp only at hv hu hc
    simp only [hv, hu, Option.elim, Prod.mk.injEq] at heq
    obtain ⟨o, ho, -⟩ := Option.map_eq_some_iff.mp hc
    obtain ⟨b, hb, -⟩ := w.mem.inside _ _ o ho
    have hxy := h.obj_unique hv hu (by rw [hb]; simp) heq.1
    rw [hxy, heq.2]
  · obtain ⟨p, i⟩ := k
    obtain ⟨o, ho, rfl⟩ := Option.map_eq_some_iff.mp hk
    obtain ⟨b, hb, -⟩ := w.mem.inside p i o ho
    obtain ⟨x, v, hv, rfl⟩ := h.owned p b hb
    obtain ⟨xs, -, hh⟩ := h.holds_obj hv
    have hi : i < v.size := by
      by_cases hi : i < v.size
      · exact hi
      · rw [hh.cell_none (by rw [← hh.size]; omega)] at ho
        cases ho
    refine ⟨(x, i), ?_⟩
    simp [ObjVectors.elem, hv, hi, ho]

/-- Every buffer is that of one vector. -/
theorem buffers (h : ObjRefines w ls) : Ledger w.mem.allocated w.mem.freed w.buffer := by
  refine w.mem.buffers.move (fun x => (w.obj x).elim 0 Vec.data) (fun x n hx => ?_)
    (fun x y n hx hy heq => ?_) (fun p n hp => ?_)
  · obtain ⟨v, hv, hb⟩ := Option.bind_eq_some_iff.mp hx
    simp only [hv, Option.elim]
    exact hb
  · obtain ⟨v, hv, hb⟩ := Option.bind_eq_some_iff.mp hx
    obtain ⟨u, hu, -⟩ := Option.bind_eq_some_iff.mp hy
    simp only [hv, hu, Option.elim] at heq
    refine h.obj_unique hv hu (fun hnone => ?_) heq
    rw [hnone] at hb
    cases hb
  · obtain ⟨b, hb, rfl⟩ := Option.map_eq_some_iff.mp hp
    obtain ⟨x, v, hv, rfl⟩ := h.owned p b hb
    refine ⟨x, ?_⟩
    simp [ObjVectors.buffer, hv, hb]

end ObjRefines

/-! ## Runs -/

/-- Runs of calls, from no vectors and an empty heap. -/
inductive ObjReach : ObjVectors t → Lists α → Prop
  | start (supply : List Nat) : ObjReach ⟨.start t supply, fun _ => none⟩ fun _ => none
  | call {w w' : ObjVectors t} {ls : Lists α} (c : VectorCall α) (h : ObjReach w ls)
      (hc : c.Valid t ls) (hn : c.Counted) (hrun : c.runObj w = .ok w') : ObjReach w' (c.apply t ls)

theorem ObjReach.refines {w : ObjVectors t} {ls : Lists α} (hr : ObjReach w ls) :
    ObjRefines w ls := by
  induction hr with
  | start supply => exact ⟨fun _ _ => rfl, by simp, by simp, fun p b hb => nomatch hb⟩
  | call c h hc hn hrun ih => exact (ih.step hc hn).of_ok hrun

/-- After the same calls the values of the objects are the elements of the vectors of
`VecReach`. -/
theorem ObjReach.agrees {w : Vectors α} {w' : ObjVectors t} {ls : Lists α} {x : Nat} {v v' : Vec}
    (hr : VecReach t w ls) (ho : ObjReach w' ls) (hv : w.obj x = some v) (hv' : w'.obj x = some v') :
    ∃ xs, Owns t w.mem v xs ∧ Holds w'.mem v' xs := by
  obtain ⟨xs, hx, howns⟩ := hr.refines.owns_obj hv
  obtain ⟨ys, hy, hholds⟩ := ho.refines.holds_obj hv'
  rw [hx] at hy
  cases hy
  exact ⟨xs, howns, hholds⟩

/-- **The vector's lifetimes are balanced**: after any run each object that was constructed has
been destroyed once, or is one element of one vector; each buffer has been freed once, or is
that of one vector; after the last vector all have been destroyed and freed.  The next call
constructs in no cell that holds an element, reads and destroys no dead one and frees no buffer
in which one lives: it goes through, short of memory. -/
theorem vector_lifetimes {w : ObjVectors t} {ls : Lists α} (hr : ObjReach w ls) :
    (∀ n < w.mem.constructed, (w.mem.destroyed.count n = 1 ∧ ∀ x i, w.elem x i ≠ some n) ∨
      (w.mem.destroyed.count n = 0 ∧ ∃ x i, w.elem x i = some n ∧
        ∀ y j, w.elem y j = some n → y = x ∧ j = i)) ∧
    (∀ n < w.mem.allocated, (w.mem.freed.count n = 1 ∧ ∀ x, w.buffer x ≠ some n) ∨
      (w.mem.freed.count n = 0 ∧ ∃ x, w.buffer x = some n ∧ ∀ y, w.buffer y = some n → y = x)) ∧
    ((∀ x, w.obj x = none) → (∀ n < w.mem.constructed, w.mem.destroyed.count n = 1) ∧
      ∀ n < w.mem.allocated, w.mem.freed.count n = 1) ∧
    ∀ c : VectorCall α, c.Valid t ls → c.Counted →
      Runs (fun w' => ObjRefines w' (c.apply t ls)) (c.runObj w) := by
  have h := hr.refines
  refine ⟨fun n hn => ?_, fun n hn => h.buffers.balance hn, fun hnone => ⟨fun n hn => ?_, fun n hn => ?_⟩,
    fun c hc hn => h.step hc hn⟩
  · rcases h.objects.balance hn with ⟨hcount, hgone⟩ | ⟨hcount, ⟨x, i⟩, hxi, hone⟩
    · exact .inl ⟨hcount, fun x i => hgone (x, i)⟩
    · exact .inr ⟨hcount, x, i, hxi, fun y j hyj => Prod.mk.inj (hone (y, j) hyj)⟩
  · exact h.objects.settled (fun xi => by simp [ObjVectors.elem, hnone]) hn
  · exact h.buffers.settled (fun x => by simp [ObjVectors.buffer, hnone]) hn

/-- An element before the first one, and the end: two objects and one buffer have come and
gone. -/
theorem vector_lifetimes_insert : ∃ w : ObjVectors wordType, ∃ ls, ObjReach w ls ∧
    w.mem.constructed = 2 ∧ w.mem.allocated = 1 ∧ (∀ n < 2, w.mem.destroyed.count n = 1) ∧
    ∀ n < 1, w.mem.freed.count n = 1 := by
  obtain ⟨w, hr, w', hrun, hc, ha, hnone⟩ : ∃ w : ObjVectors wordType,
      ObjReach w (Lists.set (fun _ => none) 0 [7, 5]) ∧ ∃ w', (VectorCall.destroy 0).runObj w = .ok w' ∧
        w'.mem.constructed = 2 ∧ w'.mem.allocated = 1 ∧ ∀ x, w'.obj x = none := by
    rw [← apply_insert_first]
    refine ⟨_, .call (.insert 0 0 7) (.call (.ofList 0 [5]) (.start [0x1000])
      ⟨rfl, fits_set (by decide)⟩ trivial rfl) valid_insert_first trivial rfl, _, rfl, rfl, rfl, fun x => ?_⟩
    show Function.update (Function.update (Function.update (fun _ : Nat => (none : Option Vec)) 0 _)
      0 _) 0 none x = none
    by_cases hx : x = 0
    · rw [hx, Function.update_self]
    · rw [Function.update_of_ne hx, Function.update_of_ne hx, Function.update_of_ne hx]
  have hvalid : (VectorCall.destroy 0).Valid wordType (Lists.set (fun _ => none) 0 [7, 5]) := by
    refine ⟨(fun h => nomatch h), fun x xs hx => ?_⟩
    by_cases h0 : x = 0
    · rw [h0, VectorCall.apply, Function.update_self] at hx
      cases hx
    · rw [VectorCall.apply, Function.update_of_ne h0] at hx
      exact fits_set (by decide) x xs hx
  have hr' := ObjReach.call (.destroy 0) hr hvalid trivial hrun
  have hall := (vector_lifetimes hr').2.2.1 hnone
  rw [hc, ha] at hall
  exact ⟨w', _, hr', hc, ha, hall.1, hall.2⟩

end HelixKernel
