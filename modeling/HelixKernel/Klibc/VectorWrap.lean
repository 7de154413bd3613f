import HelixKernel.Klibc.VectorLedger

/-!
# The sizes of a vector, and when they wrap

`Sound`: `size_` is at most `capacity_`, and the buffer at `data_` has the bytes of `capacity_`
elements.

    sizes_iff        with a `malloc` that returns, `reserve`, `resize`, `insert` of a count and
                     the constructor with a count leave a sound vector exactly when the bytes
                     of the new capacity (`Fits`) and, for `insert`, the sum of the sizes can
                     be counted in a `size_t`
    reserve_wraps    a capacity of 2^61 words, in a buffer of no bytes -/

namespace HelixKernel

variable {α : Type} {t : ElemType α}

/-- `size_ <= capacity_`, in a buffer of at least `sizeof(T) * capacity_` bytes. -/
def Sound (r : ObjHeap t × Vec) : Prop :=
  r.2.size ≤ r.2.capacity ∧
    (r.2.capacity = 0 ∨ ∃ b, r.1.block r.2.data = some b ∧ t.size * r.2.capacity ≤ b.bytes t)

/-- The operation returns, so that it has not written past the buffer, and leaves this. -/
def LeavesSound (x : Except HeapFault (ObjHeap t × Vec)) : Prop := ∃ r, x = .ok r ∧ Sound r

/-- The bytes of `capacity_` if it suffices for `n`, and else of `n` and of twice `capacity_`
(of 4, if there is none) can be counted. -/
def Fits (t : ElemType α) (capacity n : Nat) : Prop :=
  if n ≤ capacity then t.size * capacity < 2 ^ 64
  else t.size * n < 2 ^ 64 ∧ t.size * VecObj.twice capacity < 2 ^ 64

theorem le_wrap64_iff (x : Nat) : x ≤ wrap64 x ↔ x < 2 ^ 64 := by
  have := wrap64_lt x
  constructor
  · intro h
    omega
  · intro h
    exact Nat.le_of_eq (wrap64_of_lt h).symm

theorem fits_iff (t : ElemType α) (capacity n : Nat) :
    Fits t capacity n ↔ t.size * reserved capacity n < 2 ^ 64 := by
  unfold Fits reserved VecObj.newCap
  by_cases hn : n ≤ capacity
  · rw [if_pos hn, if_neg (by omega)]
  · rw [if_neg hn, if_pos (by omega)]
    split
    · rename_i hlt
      have := Nat.mul_le_mul_left t.size (Nat.le_of_lt hlt)
      omega
    · rename_i hlt
      have := Nat.mul_le_mul_left t.size (Nat.le_of_not_lt hlt)
      omega

theorem Fits.roomy {capacity n : Nat} (h : Fits t capacity n) : Roomy t (reserved capacity n) n := by
  unfold Roomy
  rw [wrap64_of_lt ((fits_iff t capacity n).mp h)]
  exact Nat.mul_le_mul_left t.size (Holds.le_reserved capacity n)

namespace Holds

variable {m : ObjHeap t} {v : Vec} {xs : List α} {i n : Nat} {a : α}

theorem sound_iff (h : Holds m v xs) : Sound (m, v) ↔ t.size * v.capacity < 2 ^ 64 := by
  have hle := h.le
  by_cases h0 : v.capacity = 0
  · have hz : t.size * v.capacity < 2 ^ 64 := by
      rw [h0, Nat.mul_zero]
      omega
    exact ⟨fun _ => hz, fun _ => ⟨hle, .inl h0⟩⟩
  · obtain ⟨id, hb⟩ := h.block (h.data_ne (by omega))
    rw [← le_wrap64_iff]
    constructor
    · rintro ⟨-, hzero | ⟨b, hb', hbytes⟩⟩
      · exact absurd hzero h0
      · simp only at hb' hbytes
        rw [hb] at hb'
        cases hb'
        exact hbytes
    · exact fun hbytes => ⟨hle, .inr ⟨_, hb, hbytes⟩⟩

/-- An operation that leaves the capacity of `reserve(n)`, and runs short only of what `malloc`
does not have or of bytes that have wrapped. -/
theorem leavesSound_iff {A B : Prop} {x : Except HeapFault (ObjHeap t × Vec)}
    (hx : RunsUnless A B (fun r => (∃ ys, Holds r.1 r.2 ys) ∧
      r.2.capacity = reserved v.capacity n) x)
    (hA : ¬ A) (hB : B → ¬ Roomy t (reserved v.capacity n) n) :
    LeavesSound x ↔ Fits t v.capacity n := by
  constructor
  · rintro ⟨r, hr, hsound⟩
    obtain ⟨⟨ys, hh⟩, hcap⟩ := hx.of_ok hr
    rw [fits_iff, ← hcap]
    exact hh.sound_iff.mp hsound
  · intro hfit
    obtain ⟨r, hr, ⟨ys, hh⟩, hcap⟩ := hx.ok hA fun hshort => hB hshort hfit.roomy
    refine ⟨r, hr, hh.sound_iff.mpr ?_⟩
    rw [hcap]
    exact (fits_iff t v.capacity n).mp hfit

theorem reserve_leavesSound (h : Holds m v xs) (hm : m.Supplies) (hn : n < 2 ^ 64) :
    LeavesSound (VecObj.reserve m v n) ↔ Fits t v.capacity n := by
  have hres := (h.reserve hn).imp fun r hr => And.intro (Exists.intro xs hr.done.1) hr.capacity
  exact leavesSound_iff hres (fun hA => hA.2 hm) fun hB => hB.2

/-- Without growth the capacity is that of before. -/
theorem leavesSound_of_le {x : Except HeapFault (ObjHeap t × Vec)} {r : ObjHeap t × Vec}
    {ys : List α} (hx : x = .ok r) (hr : Holds r.1 r.2 ys) (hcap : r.2.capacity = v.capacity)
    (hn : n ≤ v.capacity) : LeavesSound x ↔ Fits t v.capacity n := by
  subst hx
  have hpost : RunsUnless False False (fun r => (∃ ys, Holds r.1 r.2 ys) ∧
      r.2.capacity = reserved v.capacity n) (.ok r) := by
    refine ⟨⟨ys, hr⟩, ?_⟩
    rw [reserved, if_neg (by omega), hcap]
  exact leavesSound_iff hpost id False.elim

theorem insertValues_leavesSound (h : Holds m v xs) (hm : m.Supplies) (hi : i ≤ xs.length) (as : List α)
    (hn : 0 < as.length) (hfit : v.size + as.length < 2 ^ 64) :
    LeavesSound (VecObj.insertArgs m v i (as.map .value)) ↔ Fits t v.capacity (v.size + as.length) := by
  have hsize := h.size
  have hins := h.insertValues hi as hn (by omega)
  rw [← hsize] at hins
  exact leavesSound_iff (hins.imp fun r hr => ⟨⟨_, hr.1.1⟩, hr.2⟩) (fun hA => hA.2 hm) id

theorem resize_leavesSound (h : Holds m v xs) (hm : m.Supplies) (hn : n < 2 ^ 64) :
    LeavesSound (VecObj.resize m v n (.value a)) ↔ Fits t v.capacity n := by
  have hsize := h.size
  have hle := h.le
  by_cases hgrow : v.size < n
  · have hins := h.insertValues_leavesSound hm (Nat.le_of_eq hsize) (List.replicate (n - v.size) a)
      (by simp; omega) (by simp; omega)
    rw [resize_eq hn hgrow]
    rw [List.map_replicate, List.length_replicate, Nat.add_sub_cancel' (by omega)] at hins
    exact hins
  · obtain ⟨r, hrun, hdone, hcap, -⟩ := h.resize_shrink (n := n) (by omega)
    exact leavesSound_of_le (hrun _) hdone.1 hcap (by omega)

theorem insertCount_leavesSound (h : Holds m v xs) (hm : m.Supplies) (hi : i ≤ v.size) (hn : n < 2 ^ 64) :
    LeavesSound (VecObj.insertCount m v i n (.value a)) ↔
      v.size + n < 2 ^ 64 ∧ Fits t v.capacity (v.size + n) := by
  have hsize := h.size
  have hle := h.le
  have hlt := h.lt
  unfold VecObj.insertCount
  by_cases h0 : n = 0
  · subst h0
    have hsame := leavesSound_of_le (x := .ok (m, v)) (n := v.size + 0) rfl h rfl (by omega)
    rw [if_pos rfl, hsame]
    exact ⟨fun h => ⟨by omega, h⟩, fun h => h.2⟩
  · rw [if_neg h0]
    by_cases hfit : v.size + n < 2 ^ 64
    · have hins := h.insertValues_leavesSound hm (i := i) (by omega) (List.replicate n a) (by simp; omega)
        (by simpa using hfit)
      rw [List.map_replicate, List.length_replicate] at hins
      rw [hins]
      exact ⟨fun h => ⟨hfit, h⟩, fun h => h.2⟩
    · -- the sum has wrapped: nothing grows, and the buffer would have to be as long as the sum
      refine ⟨fun hno => ?_, fun h => absurd h.1 hfit⟩
      obtain ⟨r, hr, -⟩ := hno
      have hsum : wrap64 (v.size + n) ≤ v.capacity := by
        unfold wrap64
        omega
      have hw := h.insertArgs_within hi (by simp; omega) (by simpa using hsum) hr
      rw [List.length_replicate, h.within_iff (by omega)] at hw
      omega

end Holds

/-- **When sizes wrap.**  For any element size, any vector that a run can leave and any count: the
operation returns, has not written past the buffer and leaves `size_ <= capacity_` and a buffer
of `sizeof(T) * capacity_` bytes, exactly when these can be counted. -/
theorem sizes_iff {w : ObjVectors t} {ls : Lists α} {x : Nat} {v : Vec} (hr : ObjReach w ls)
    (hv : w.obj x = some v) (hm : w.mem.Supplies) {n : Nat} (hn : n < 2 ^ 64) (a : α) :
    (LeavesSound (VecObj.reserve w.mem v n) ↔ Fits t v.capacity n) ∧
    (LeavesSound (VecObj.resize w.mem v n (.value a)) ↔ Fits t v.capacity n) ∧
    (∀ pos ≤ v.size, LeavesSound (VecObj.insertCount w.mem v pos n (.value a)) ↔
      v.size + n < 2 ^ 64 ∧ Fits t v.capacity (v.size + n)) ∧
    (LeavesSound (VecObj.resize w.mem .empty n (.value a)) ↔ Fits t 0 n) := by
  obtain ⟨xs, -, h⟩ := hr.refines.holds_obj hv
  exact ⟨h.reserve_leavesSound hm hn, h.resize_leavesSound hm hn,
    fun pos hpos => h.insertCount_leavesSound hm hpos hn,
    (Holds.empty w.mem).resize_leavesSound hm hn⟩

/-- An empty vector gets a buffer for ten words. -/
theorem sizes_iff_ten : ∃ w : ObjVectors wordType, ObjReach w (Lists.set (fun _ => none) 0 []) ∧
    w.obj 0 = some .empty ∧ LeavesSound (VecObj.reserve w.mem .empty 10) := by
  obtain ⟨w, hr, hv, hm⟩ : ∃ w : ObjVectors wordType, ObjReach w (Lists.set (fun _ => none) 0 []) ∧
      w.obj 0 = some .empty ∧ w.mem.Supplies :=
    ⟨_, .call (.default 0) (.start [0x1000]) ⟨rfl, fits_set (by decide)⟩ trivial rfl, rfl,
      0x1000, [], rfl, by decide, rfl⟩
  refine ⟨w, hr, hv, (sizes_iff hr hv hm (n := 10) (by decide) 0).1.mpr ?_⟩
  exact ⟨by decide, by decide⟩

/-- `reserve(2^61)` for eight-byte elements asks `malloc` for no bytes; `insert` of 2^64 - 1
elements behind the only one asks for no capacity at all, and then writes past the buffer. -/
theorem reserve_wraps :
    (∃ w : ObjVectors wordType, ObjReach w (Lists.set (fun _ => none) 0 []) ∧
      w.obj 0 = some .empty ∧ w.mem.Supplies ∧
      (∃ r, VecObj.reserve w.mem .empty (2 ^ 61) = .ok r ∧ r.2.capacity = 2 ^ 61 ∧
        (r.1.block r.2.data).map (Buffer.bytes wordType) = some 0) ∧
      ¬ LeavesSound (VecObj.reserve w.mem .empty (2 ^ 61))) ∧
    ∃ w : ObjVectors wordType, ∃ v, ObjReach w (Lists.set (fun _ => none) 0 [5]) ∧
      w.obj 0 = some v ∧ v.size = 1 ∧ w.mem.Supplies ∧
      ¬ LeavesSound (VecObj.insertCount w.mem v 1 (2 ^ 64 - 1) (.value 7)) := by
  refine ⟨⟨_, .call (.default 0) (.start [0x1000]) ⟨rfl, fits_set (by decide)⟩ trivial rfl, rfl,
    ⟨0x1000, [], rfl, by decide, rfl⟩, ⟨_, rfl, rfl, rfl⟩, ?_⟩, ?_⟩
  · rintro ⟨r, hr, -, hzero | ⟨b, hb, hbytes⟩⟩
    · cases hr
      cases hzero
    · cases hr
      cases hb
      exact absurd hbytes (by decide)
  · obtain ⟨w, v, hr, hv, hsize, hm⟩ : ∃ w : ObjVectors wordType, ∃ v,
        ObjReach w (Lists.set (fun _ => none) 0 [5]) ∧ w.obj 0 = some v ∧ v.size = 1 ∧ w.mem.Supplies :=
      ⟨_, _, .call (.ofList 0 [5]) (.start [0x1000, 0x2000]) ⟨rfl, fits_set (by decide)⟩ trivial rfl,
        rfl, rfl, 0x2000, [], rfl, by decide, rfl⟩
    obtain ⟨xs, -, h⟩ := hr.refines.holds_obj hv
    refine ⟨w, v, hr, hv, hsize, hm, fun hno => ?_⟩
    have hsum := ((h.insertCount_leavesSound hm (Nat.le_of_eq hsize.symm) (by decide)).mp hno).1
    rw [hsize] at hsum
    exact absurd hsum (by decide)

end HelixKernel
