import HelixKernel.Klibc.VectorLifetimes

/-!
# What each operation of the vector leaves

Each operation keeps `Holds` and changes the list as its name says: the insertions are
`insertArgs`, `truncate` destroys the elements from an index on, and the assignments are `clear`
followed by an insertion.  None of them touches another buffer (`DoneObj`). -/

namespace HelixKernel

namespace Holds

variable {α : Type} {t : ElemType α} {m : ObjHeap t} {v : Vec} {xs : List α} {p i n : Nat}

/-- `insert` of a count and of a range, which do nothing where there is nothing to insert. -/
theorem insertRange (h : Holds m v xs) (hi : i ≤ xs.length) (as : List α)
    (hfit : xs.length + as.length < 2 ^ 64) :
    Runs (DoneObj m v (inserted xs i as)) (VecObj.insertRange m v i as) := by
  unfold VecObj.insertRange
  split
  · rename_i h0
    obtain rfl := List.eq_nil_of_length_eq_zero h0
    rw [inserted, List.append_nil, List.take_append_drop]
    exact h.done_refl
  · exact (h.insertValues hi as (by omega) hfit).runs.mono fun r hr => hr.1

theorem insertCount_eq (m : ObjHeap t) (v : Vec) (i n : Nat) (a : α) :
    VecObj.insertCount m v i n (.value a) = VecObj.insertRange m v i (List.replicate n a) := by
  simp [VecObj.insertCount, VecObj.insertRange]

theorem insert_eq (m : ObjHeap t) (v : Vec) (i : Nat) (a : α) :
    VecObj.insert m v i (.value a) = VecObj.insertRange m v i [a] := rfl

theorem inserted_end (xs as : List α) : inserted xs xs.length as = xs ++ as := by
  rw [inserted, List.take_length, List.drop_length, List.append_nil]

theorem emplaceBack (h : Holds m v xs) (hfit : xs.length + 1 < 2 ^ 64) (a : α) :
    Runs (DoneObj m v (xs ++ [a])) (VecObj.emplaceBack m v (.value a)) := by
  have hsize := h.size
  rw [emplaceBack_eq (by omega), hsize, ← inserted_end]
  have hins := h.insertValues (Nat.le_refl xs.length) [a] (by simp) hfit
  exact hins.runs.mono fun r hr => hr.1

theorem pushBackAll (h : Holds m v xs) (as : List α) (hfit : xs.length + as.length < 2 ^ 64) :
    Runs (DoneObj m v (xs ++ as)) (VecObj.pushBackAll m v as) := by
  induction as generalizing m v xs with
  | nil =>
    rw [List.append_nil]
    exact h.done_refl
  | cons a as ih =>
    rw [List.length_cons] at hfit
    refine Runs.bind (h.emplaceBack (by omega) a) fun r hr => ?_
    have hrest := ih hr.1 (by simp; omega)
    rw [List.append_assoc] at hrest
    exact hrest.mono fun r' hr' => DoneObj.trans hr.2 hr'

/-! ## Destroying -/

/-- Destroying the elements from `n` on. -/
theorem truncate (h : Holds m v xs) (hn : n ≤ xs.length) :
    ∃ m', VecObj.destroyRange m v.data n (v.size - n) = .ok m' ∧
      DoneObj m v (xs.take n) (m', { v with size := n }) ∧ m'.reads = m.reads := by
  have hsize := h.size
  have hle := h.le
  obtain ⟨m', hrun, hb, hc, hr⟩ := ObjHeap.destroyRange_spec (m := m) (p := v.data) (i := n)
    (n := v.size - n) fun j _ hj => h.cell_some (by omega)
  refine ⟨m', hrun, ⟨⟨?_, h.null, ?_, h.lt, fun h0 => ?_, fun i => ?_⟩, .of_same hb fun x i hx => ?_⟩, hr⟩
  · rw [List.length_take]
    simp only
    omega
  · simp only
    omega
  · rw [hb]
    exact h.block h0
  · simp only [hc, ObjHeap.lifted, ObjHeap.InRange, true_and]
    by_cases hi : i < n
    · rw [if_neg (by omega), h.cells, List.getElem?_take_of_lt hi]
    · rw [List.getElem?_eq_none (by rw [List.length_take]; omega)]
      by_cases hin : n ≤ i ∧ i < n + (v.size - n)
      · rw [if_pos hin]
        rfl
      · rw [if_neg hin, h.cell_none (by omega)]
        rfl
  · rw [hc, ObjHeap.lifted_other m hx]

theorem clear (h : Holds m v xs) :
    ∃ m', VecObj.clear m v = .ok (m', { v with size := 0 }) ∧
      DoneObj m v [] (m', { v with size := 0 }) ∧ m'.reads = m.reads := by
  obtain ⟨m', hrun, hdone⟩ := h.truncate (Nat.zero_le _)
  rw [Nat.sub_zero] at hrun
  refine ⟨m', ?_, hdone⟩
  unfold VecObj.clear
  rw [hrun]
  rfl

theorem destroyRange_one (m : ObjHeap t) (p i : Nat) :
    VecObj.destroyRange m p i 1 = m.destroy p i := by
  show (m.destroy p i >>= fun m => Except.ok m) = m.destroy p i
  cases m.destroy p i <;> rfl

theorem popBack (h : Holds m v xs) : Runs (DoneObj m v xs.dropLast) (VecObj.popBack m v) := by
  have hsize := h.size
  unfold VecObj.popBack
  split
  · obtain ⟨m', hrun, hdone, -⟩ := h.truncate (n := v.size - 1) (by omega)
    rw [show v.size - (v.size - 1) = 1 by omega, destroyRange_one] at hrun
    refine Runs.bind_ok hrun ?_
    rw [List.dropLast_eq_take, ← hsize]
    exact hdone
  · obtain rfl : xs = [] := List.eq_nil_of_length_eq_zero (by omega)
    exact h.done_refl

/-- The elements once `n` of them have been destroyed and the rest has moved down. -/
theorem erased_of_moved {m1 m2 : ObjHeap t} (h : Holds m v xs) (hi : i + n ≤ xs.length)
    (hc1 : m1.cell = m.lifted v.data i n)
    (hc2 : m2.cell = m1.moved v.data i v.data (i + n) (v.size - i - n)) (j : Nat) :
    (m2.cell (v.data, j)).map Obj.value = (xs.take i ++ xs.drop (i + n))[j]? := by
  have hsize := h.size
  rw [getElem?_erase xs hi]
  simp only [hc2, hc1, ObjHeap.moved, ObjHeap.lifted, ObjHeap.InRange, true_and]
  by_cases hji : j < i
  · rw [if_neg (by omega), if_neg (by omega), if_neg (by omega), if_pos hji, h.cells]
  · rw [if_neg hji]
    by_cases hin : i ≤ j ∧ j < i + (v.size - i - n)
    · rw [if_pos hin, if_neg (by omega), show i + n + (j - i) = j + n by omega, h.cells]
    · rw [if_neg hin, List.getElem?_eq_none (by omega)]
      split
      · rfl
      · split
        · rfl
        · rw [h.cell_none (by omega)]
          rfl

/-- **Erasing** `n` elements from the `i`th on. -/
theorem eraseRange (h : Holds m v xs) (hi : i + n ≤ xs.length) :
    Runs (DoneObj m v (xs.take i ++ xs.drop (i + n))) (VecObj.eraseRange m v i n) := by
  have hsize := h.size
  have hle := h.le
  have hlt := h.lt
  unfold VecObj.eraseRange
  split
  · rename_i h0
    subst h0
    rw [Nat.add_zero, List.take_append_drop]
    exact h.done_refl
  rename_i h0
  obtain ⟨m1, hrun, hb1, hc1, -⟩ := ObjHeap.destroyRange_spec (m := m) (p := v.data) (i := i)
    (n := n) fun j _ hj => h.cell_some (by omega)
  refine Runs.bind_ok hrun ?_
  obtain ⟨id, hb⟩ := h.block (h.data_ne (by omega))
  have hbm : m1.block v.data = some ⟨id, v.capacity⟩ := by
    rw [hb1]
    exact hb
  have hsub : sub64 (sub64 v.size i) n = v.size - i - n := by
    have hfirst : sub64 v.size i = v.size - i := sub64_of_le (by omega) (by omega)
    rw [hfirst, sub64_of_le (by omega) (by omega)]
  -- the cells that the rest moves to have been destroyed, or are moved from
  have hfree : ∀ j < v.size - i - n,
      m1.lifted v.data (i + n) (v.size - i - n) (v.data, i + j) = none := by
    intro j hj
    simp only [ObjHeap.lifted, ObjHeap.InRange, hc1, true_and]
    by_cases hin : i + n ≤ i + j ∧ i + j < i + n + (v.size - i - n)
    · rw [if_pos hin]
    · rw [if_neg hin, if_pos (by omega)]
  have hmove := ObjHeap.memmove_runs i (i + n) (v.size - i - n) hbm
    (by simp only; omega) hbm (by simp only; omega) hfree
  unfold VecObj.shiftLeft
  rw [hsub]
  refine Runs.bind hmove.runs ?_
  rintro m2 ⟨hb2, hc2, -⟩
  have hdiff : sub64 v.size n = v.size - n := sub64_of_le (by omega) (by omega)
  rw [hdiff]
  refine ⟨⟨?_, h.null, ?_, hlt, fun hd => ?_, fun j => ?_⟩, .of_same (hb2.trans hb1) fun x j hx => ?_⟩
  · simp
    omega
  · simp only
    omega
  · rw [hb2]
    exact ⟨id, hbm⟩
  · exact h.erased_of_moved hi hc1 hc2 j
  · rw [hc2, ObjHeap.moved_other m1 hx hx, hc1, ObjHeap.lifted_other m hx]

theorem erase_eq (m : ObjHeap t) (v : Vec) (i : Nat) :
    VecObj.erase m v i = VecObj.eraseRange m v i 1 := by
  unfold VecObj.erase VecObj.eraseRange
  rw [if_neg (by omega), destroyRange_one]

/-- `resize` to no more elements does not look at its argument. -/
theorem resize_shrink (h : Holds m v xs) (hn : n ≤ v.size) :
    ∃ r, (∀ arg, VecObj.resize m v n arg = .ok r) ∧ DoneObj m v (xs.take n) r ∧
      r.2.capacity = v.capacity ∧ r.1.reads = m.reads := by
  have hsize := h.size
  by_cases hcut : n < v.size
  · obtain ⟨m', hrun, hdone, hreads⟩ := h.truncate (n := n) (by omega)
    refine ⟨_, fun arg => ?_, hdone, rfl, hreads⟩
    unfold VecObj.resize
    rw [if_pos hcut, hrun]
    rfl
  · refine ⟨(m, v), fun arg => ?_, ?_, rfl, rfl⟩
    · unfold VecObj.resize
      rw [if_neg hcut, if_neg (by omega)]
    · rw [List.take_of_length_le (by omega)]
      exact h.done_refl

theorem resize (h : Holds m v xs) (hlt : n < 2 ^ 64) (a : α) :
    Runs (DoneObj m v (resized xs n a)) (VecObj.resize m v n (.value a)) := by
  have hsize := h.size
  by_cases hgrow : v.size < n
  · have hins := h.insertValues (Nat.le_refl xs.length) (List.replicate (n - v.size) a)
      (by simp; omega) (by simp; omega)
    rw [resize_eq hlt hgrow, hsize, ← hsize]
    rw [List.map_replicate, inserted_end, ← hsize] at hins
    refine hins.runs.mono fun r hr => ?_
    rw [resized, List.take_of_length_le (by omega), ← hsize]
    exact hr.1
  · have hnone : n - xs.length = 0 := by omega
    obtain ⟨r, hrun, hdone, -⟩ := h.resize_shrink (n := n) (by omega)
    rw [resized, hnone, List.replicate_zero, List.append_nil, hrun]
    exact hdone

theorem shrinkToFit (h : Holds m v xs) : Runs (DoneObj m v xs) (VecObj.shrinkToFit m v) := by
  have hsize := h.size
  have hlt := h.lt
  unfold VecObj.shrinkToFit
  split
  · exact h.done_refl
  rename_i hcap
  have h0 := h.data_ne (by omega)
  split
  · -- no elements: the buffer goes
    rename_i hz
    obtain ⟨id, hb⟩ := h.block h0
    obtain ⟨m', hrun, hb', hc', -⟩ :=
      ObjHeap.free_of_block hb fun i => h.cell_none (by omega)
    obtain rfl : xs = [] := List.eq_nil_of_length_eq_zero (by omega)
    refine Runs.bind_ok hrun ⟨?_, fun x hx _ => ?_, fun x i _ _ => ?_, .inr (.inl rfl), fun _ => ?_⟩
    · simp only [hz]
      exact .empty m'
    · rw [hb', Function.update_of_ne hx]
    · rw [hc']
    · rw [hb', Function.update_self]
  · refine Runs.bind (ObjHeap.malloc_runs m v.size).runs ?_
    rintro ⟨m1, p⟩ ⟨hp, hfresh, ⟨new, hb⟩, hc, -⟩
    simp only at hp hfresh hb hc ⊢
    have hmove := h.relocate h0 hp hfresh (Nat.le_refl _) (by omega) (by omega) hb hc
    exact Runs.bind hmove.runs fun m2 hm2 => hm2.1

/-! ## Copies and the destructor -/

/-- The values of the elements from `k` on are what references to them give. -/
theorem refers_elems (as : List α) {k : Nat}
    (hcells : ∀ j < as.length, (m.cell (p, k + j)).map Obj.value = as[j]?) :
    ∃ ls, List.Forall₂ (fun arg r => m.refers arg = some r)
      ((List.range' k as.length).map (.elem p)) ls ∧ ls.map Prod.snd = as := by
  induction as generalizing k with
  | nil => exact ⟨[], .nil, rfl⟩
  | cons a as ih =>
    obtain ⟨ls, hread, hvals⟩ := ih (k := k + 1) fun j hj => by
      have hnext := hcells (j + 1) (by simpa using hj)
      rw [Nat.add_right_comm, Nat.add_assoc]
      exact hnext
    obtain ⟨o, ho, hval⟩ := Option.map_eq_some_iff.mp (hcells 0 (by simp))
    refine ⟨([o.id], o.value) :: ls, ?_, ?_⟩
    · refine .cons ?_ hread
      simp only [Nat.add_zero] at ho
      simp [ObjHeap.refers, ho]
    · rw [List.map_cons, hvals, hval]

/-- Copying from another vector, into one without elements. -/
theorem copyFrom {u : Vec} {ys : List α} (h : Holds m v []) (hu : Holds m u ys)
    (hne : u.data ≠ 0 → u.data ≠ v.data) : Runs (DoneObj m v ys) (VecObj.copyFrom m v u) := by
  have hsize : v.size = 0 := h.size
  have husize := hu.size
  have hule := hu.le
  have hult := hu.lt
  by_cases h0 : u.size = 0
  · obtain rfl : ys = [] := List.eq_nil_of_length_eq_zero (by omega)
    unfold VecObj.copyFrom
    have hkeep : VecObj.reserve m v u.size = .ok (m, v) := if_neg (by omega)
    rw [hkeep, h0]
    show DoneObj m v [] (m, { v with size := 0 })
    rw [← hsize]
    exact h.done_refl
  · have hu0 := hu.data_ne (by omega)
    rw [copyFrom_eq hsize (by omega), hsize]
    have hargs : (List.range u.size).map (Arg.elem (α := α) u.data) =
        (List.range' 0 ys.length).map (.elem u.data) := by
      rw [List.range_eq_range', husize]
    obtain ⟨ls, hread, hvals⟩ := refers_elems (m := m) (p := u.data) (k := 0) ys fun j _ => by
      rw [Nat.zero_add]
      exact hu.cells j
    rw [hargs]
    have hins := h.insertArgs (i := 0) ((List.range' 0 ys.length).map (.elem u.data)) ls
      (Nat.le_refl _) (by simp; omega) (by simp; omega) ?_
    · refine hins.runs.mono fun r hr => ?_
      have hdone := hr.done
      rw [hvals, inserted, List.take_nil, List.drop_nil, List.nil_append, List.append_nil] at hdone
      exact hdone
    · -- the other buffer is left alone
      intro m0 m1 v0 hr hs
      obtain ⟨id, hub⟩ := hu.block hu0
      have hv0 : u.data ≠ v0.data := by
        rcases hr.done.2.fresh with heq | heq | hnone
        · exact fun hc => hne hu0 (hc.trans heq)
        · exact fun hc => hu0 (hc.trans heq)
        · intro hc
          simp only at hnone
          rw [← hc, hub] at hnone
          cases hnone
      have hsame : ∀ j, m1.cell (u.data, j) = m.cell (u.data, j) := by
        intro j
        rw [hs.there _ _ hv0]
        exact hr.done.2.cell _ _ (hne hu0) hv0
      rw [List.forall₂_map_left_iff] at hread ⊢
      refine hread.imp fun j r hj => ?_
      simp only [ObjHeap.refers, hsame] at hj ⊢
      exact hj

theorem ofList (m : ObjHeap t) (ys : List α) (hlt : ys.length < 2 ^ 64) :
    Runs (DoneObj m .empty ys) (VecObj.ofList m ys) := by
  refine Runs.bind ((empty m).reserve hlt).runs fun r hr => ?_
  have hpush := hr.done.1.pushBackAll ys (by simpa using hlt)
  rw [List.nil_append] at hpush
  exact hpush.mono fun r' hr' => DoneObj.trans hr.done.2 hr'

theorem assignCopy {u : Vec} {ys : List α} (h : Holds m v xs) (hu : Holds m u ys)
    (hne : u.data ≠ 0 → u.data ≠ v.data) : Runs (DoneObj m v ys) (VecObj.assignCopy m v u) := by
  obtain ⟨m1, hrun, hdone, -⟩ := h.clear
  have hu1 : Holds m1 u ys := hu.frame (fun h0 => hdone.2.block _ (hne h0) (hne h0))
    fun h0 i => hdone.2.cell _ i (hne h0) (hne h0)
  refine Runs.bind_ok hrun ?_
  exact (hdone.1.copyFrom hu1 hne).mono fun r hr => DoneObj.trans hdone.2 hr

theorem assignCount (h : Holds m v xs) (hlt : n < 2 ^ 64) (a : α) :
    Runs (DoneObj m v (List.replicate n a)) (VecObj.assignCount m v n (.value a)) := by
  obtain ⟨m1, hrun, hdone, -⟩ := h.clear
  have hres := hdone.1.resize hlt a
  rw [resized, List.take_nil, List.nil_append, List.length_nil, Nat.sub_zero] at hres
  exact Runs.bind_ok hrun (hres.mono fun r hr => DoneObj.trans hdone.2 hr)

theorem assignRange (h : Holds m v xs) (ys : List α) (hlt : ys.length < 2 ^ 64) :
    Runs (DoneObj m v ys) (VecObj.assignRange m v ys) := by
  obtain ⟨m1, hrun, hdone, -⟩ := h.clear
  have hpush := hdone.1.pushBackAll ys (by simpa using hlt)
  rw [List.nil_append] at hpush
  exact Runs.bind_ok hrun (hpush.mono fun r hr => DoneObj.trans hdone.2 hr)

/-- The elements are destroyed and the buffer is freed. -/
theorem release (h : Holds m v xs) :
    ∃ m', VecObj.release m v = .ok m' ∧ Only m v.data m' 0 := by
  obtain ⟨m1, hrun, hdone, -⟩ := h.truncate (Nat.zero_le _)
  rw [Nat.sub_zero] at hrun
  unfold VecObj.release
  rw [hrun]
  by_cases h0 : v.data = 0
  · refine ⟨m1, by simp [h0], ?_⟩
    have honly := hdone.2
    rw [h0] at honly ⊢
    exact honly
  · obtain ⟨id, hb⟩ := hdone.1.block h0
    obtain ⟨m2, hfree, hb2, hc2, -⟩ := ObjHeap.free_of_block hb fun i =>
      hdone.1.cell_none (Nat.zero_le i)
    refine ⟨m2, ?_, ?_⟩
    · rw [ok_bind, if_pos h0]
      exact hfree
    · refine hdone.2.trans ⟨fun x hx _ => ?_, fun x i _ _ => by rw [hc2], .inr (.inl rfl), fun _ => ?_⟩
      · rw [hb2, Function.update_of_ne hx]
      · show m2.block v.data = none
        rw [hb2, Function.update_self]

end Holds

end HelixKernel
