import HelixKernel.Klibc.VectorLedger

/-!
# Arguments that are elements of the vector

`AliasSafe m v i op`: given a reference to `v[i]`, `op` leaves what it leaves for a copy, and
reads no object but `v[i]`, where it was when the call began.

    alias_iff           the operations for which this holds: those that need no reallocation
                        and do not move or destroy `v[i]` before they read it
    push_back_dangles   a full vector gives its first element to `push_back`, which reads it
                        from the buffer that it has freed -/

namespace HelixKernel

variable {α : Type} {t : ElemType α}

/-- The values of the elements. -/
def contents (r : ObjHeap t × Vec) : List (Option α) :=
  (List.range r.2.size).map fun i => (r.1.cell (r.2.data, i)).map Obj.value

def AliasSafe (m : ObjHeap t) (v : Vec) (i : Nat)
    (op : Arg α → Except HeapFault (ObjHeap t × Vec)) : Prop :=
  ∃ o, m.cell (v.data, i) = some o ∧ ∃ r r', op (.elem v.data i) = .ok r ∧
    op (.value o.value) = .ok r' ∧ contents r = contents r' ∧
    ∃ k, r.1.reads = List.replicate k o.id ++ m.reads

/-- There is room for `n` elements: the second condition says that the bytes of the buffer have
not wrapped below theirs. -/
def Vec.Room (t : ElemType α) (v : Vec) (n : Nat) : Prop := n ≤ v.capacity ∧ Roomy t v.capacity n

theorem mem_of_suffix {n k id : Nat} {l : List Nat} (h : (n :: l) <:+ List.replicate k id ++ l) :
    n = id := by
  obtain ⟨l', hl⟩ := h
  have happ : l' ++ [n] ++ l = List.replicate k id ++ l := by
    rw [List.append_assoc]
    exact hl
  have heq : l' ++ [n] = List.replicate k id := List.append_cancel_right happ
  have hmem : n ∈ List.replicate k id := by
    rw [← heq]
    simp
  exact (List.mem_replicate.mp hmem).2

theorem refers_elem {m : ObjHeap t} {p i : Nat} {ids : List Nat} {a : α}
    (h : m.refers (.elem p i) = some (ids, a)) : ∃ o, m.cell (p, i) = some o ∧ ids = [o.id] := by
  obtain ⟨o, ho, heq⟩ := Option.map_eq_some_iff.mp h
  cases heq
  exact ⟨o, ho, rfl⟩

theorem refers_replicate {m : ObjHeap t} {arg : Arg α} {r : List Nat × α} (h : m.refers arg = some r)
    (n : Nat) :
    List.Forall₂ (fun arg r => m.refers arg = some r) (List.replicate n arg) (List.replicate n r) := by
  induction n with
  | zero => exact .nil
  | succ n ih => exact .cons h ih

namespace Holds

variable {m : ObjHeap t} {v : Vec} {xs : List α} {i pos n : Nat}

theorem contents_eq {r : ObjHeap t × Vec} (h : Holds r.1 r.2 xs) : contents r = xs.map some := by
  refine List.ext_getElem? fun j => ?_
  rw [contents, List.getElem?_map, List.getElem?_map, h.size]
  by_cases hj : j < xs.length
  · rw [List.getElem?_range hj, Option.map_some, h.cells, List.getElem?_eq_getElem hj]
    rfl
  · rw [List.getElem?_eq_none (by simpa using hj), List.getElem?_eq_none (by omega)]
    rfl

/-- An operation that does not look at its argument. -/
theorem aliasSafe_of_const (h : Holds m v xs) (hi : i < v.size)
    {op : Arg α → Except HeapFault (ObjHeap t × Vec)} {r : ObjHeap t × Vec}
    (hop : ∀ arg, op arg = .ok r) (hr : r.1.reads = m.reads) : AliasSafe m v i op := by
  have hsize := h.size
  obtain ⟨o, ho⟩ := h.cell_some (i := i) (by omega)
  exact ⟨o, ho, r, r, hop _, hop _, rfl, 0, hr⟩

/-! ## Insertion -/

/-- With room, and the element before the gap, every constructor finds it. -/
theorem insert_aliasSafe (h : Holds m v xs) (hpos : pos ≤ v.size) (hi : i < pos) (hn : 0 < n)
    (hroom : v.Room t (v.size + n)) :
    AliasSafe m v i fun arg => VecObj.insertArgs m v pos (List.replicate n arg) := by
  have hsize := h.size
  have hlt := h.lt
  obtain ⟨hfit, hroomy⟩ := hroom
  obtain ⟨o, ho⟩ := h.cell_some (i := i) (by omega)
  have hstay : reserved v.capacity (v.size + n) = v.capacity := if_neg (by omega)
  have hread : ∀ m0 m1 v0,
      Reserved m v xs (xs.length + (List.replicate n (Arg.elem (α := α) v.data i)).length) (m0, v0) →
      Shifted m0 v0.data pos (List.replicate n (Arg.elem (α := α) v.data i)).length m1 →
      List.Forall₂ (fun arg r => m1.refers arg = some r)
        (List.replicate n (.elem v.data i)) (List.replicate n ([o.id], o.value)) := by
    intro m0 m1 v0 hr hs
    rw [List.length_replicate] at hr hs
    cases hr.stays (by omega)
    refine refers_replicate ?_ n
    simp only [ObjHeap.refers, hs.here, if_pos hi, ho, Option.map_some]
  have halias := h.insertArgs (i := pos) _ _ (by omega) (by simpa using hn) (by simp; omega) hread
  have hcopy := h.insertValues (i := pos) (by omega) (List.replicate n o.value) (by simpa using hn)
    (by simp; omega)
  rw [List.length_replicate, ← hsize, hstay] at halias hcopy
  obtain ⟨r, hr, hins⟩ := halias.ok (fun hA => by omega) fun hB => hB hroomy
  obtain ⟨r', hr', hdone, -⟩ := hcopy.ok (fun hA => by omega) fun hB => hB hroomy
  rw [List.map_replicate] at hr'
  refine ⟨o, ho, r, r', hr, hr', ?_, n, ?_⟩
  · have hins' := hins.done.1
    rw [List.map_replicate] at hins'
    rw [contents_eq hins', contents_eq hdone.1]
  · rw [hins.reads, List.map_replicate, List.reverse_replicate, List.flatten_replicate_singleton]

/-- An insertion that returns has read its argument once the gap was open. -/
theorem insertArgs_first {arg : Arg α} {r : ObjHeap t × Vec} (h : Holds m v xs) (hpos : pos ≤ v.size)
    (hn : 0 < n) (hfit : v.size + n < 2 ^ 64)
    (hrun : VecObj.insertArgs m v pos (List.replicate n arg) = .ok r) :
    ∃ m0 m1 v0, Reserved m v xs (v.size + n) (m0, v0) ∧ Shifted m0 v0.data pos n m1 ∧
      ∃ ids a, m1.refers arg = some (ids, a) ∧ (ids ++ m.reads) <:+ r.1.reads := by
  unfold VecObj.insertArgs at hrun
  rw [List.length_replicate] at hrun
  obtain ⟨⟨m1, v0⟩, hshift, hrun⟩ := bind_eq_ok.mp hrun
  obtain ⟨m2, hfill, hrun⟩ := bind_eq_ok.mp hrun
  cases hrun
  obtain ⟨m0, hr, hs⟩ := (h.shiftRight hpos hn hfit).of_ok hshift
  obtain ⟨k, rfl⟩ : ∃ k, n = k + 1 := ⟨n - 1, by omega⟩
  rw [List.replicate_succ] at hfill
  obtain ⟨ids, a, hread, hreads⟩ := ObjHeap.constructRange_first hfill
  have hsame : m1.reads = m.reads := hs.reads.trans hr.reads
  rw [hsame] at hreads
  exact ⟨m0, m1, v0, hr, hs, ids, a, hread, hreads⟩

/-- Growing frees the buffer that the argument is in. -/
theorem not_reads_freed {m0 m1 : ObjHeap t} {v0 : Vec} (h : Holds m v xs) (h0 : v.data ≠ 0)
    (hgrow : v.capacity < n) (hr : Reserved m v xs n (m0, v0)) (hb : m1.block = m0.block) (i : Nat) :
    m1.cell (v.data, i) = none := by
  obtain ⟨id, hold⟩ := h.block h0
  have hne : v0.data ≠ v.data := by
    intro heq
    have hnone := hr.moves hgrow
    rw [heq, hold] at hnone
    cases hnone
  refine ObjHeap.cell_of_block ?_ i
  rw [hb]
  exact hr.done.2.gone hne

theorem room_of_aliasSafe (h : Holds m v xs) (hi : i < v.size) (hpos : pos ≤ v.size) (hn : 0 < n)
    (hlt : n < 2 ^ 64)
    (hsafe : AliasSafe m v i fun arg => VecObj.insertArgs m v pos (List.replicate n arg)) :
    v.Room t (v.size + n) := by
  have hle := h.le
  have hcap := h.lt
  obtain ⟨o, ho, r, -, hr, -⟩ := hsafe
  by_cases hgrow : v.size + n < 2 ^ 64 ∧ v.capacity < v.size + n
  · obtain ⟨m0, m1, v0, hres, hs, ids, a, hread, -⟩ := h.insertArgs_first hpos hn hgrow.1 hr
    obtain ⟨o', ho', -⟩ := refers_elem hread
    rw [h.not_reads_freed (h.data_ne (by omega)) hgrow.2 hres hs.block] at ho'
    cases ho'
  · have hsum : wrap64 (v.size + n) ≤ v.capacity := by
      unfold wrap64
      omega
    have hw := h.insertArgs_within hpos (by simpa using hn) (by simpa using hsum) hr
    rw [List.length_replicate, h.within_iff (by omega)] at hw
    exact hw

theorem before_of_aliasSafe (h : Holds m v xs) (hi : i < v.size) (hpos : pos ≤ v.size) (hn : 0 < n)
    (hfit : v.size + n ≤ v.capacity)
    (hsafe : AliasSafe m v i fun arg => VecObj.insertArgs m v pos (List.replicate n arg)) : i < pos := by
  have hlt := h.lt
  obtain ⟨o, ho, r, -, hr, -, -, k, hreads⟩ := hsafe
  obtain ⟨m0, m1, v0, hres, hs, ids, a, hread, hsuffix⟩ := h.insertArgs_first hpos hn (by omega) hr
  cases hres.stays (by omega)
  obtain ⟨o', ho', rfl⟩ := refers_elem hread
  rw [hreads] at hsuffix
  have hid := mem_of_suffix hsuffix
  by_cases hip : i < pos
  · exact hip
  · -- the element has moved: its cell is empty, or holds one that was before it
    rw [hs.here, if_neg hip] at ho'
    by_cases hgap : i < pos + n
    · rw [if_pos hgap] at ho'
      cases ho'
    · rw [if_neg hgap] at ho'
      have hsame := (m.alive ho).2 _ o' ho' hid
      simp only [Prod.mk.injEq, true_and] at hsame
      omega

theorem insert_alias_iff (h : Holds m v xs) (hi : i < v.size) (hpos : pos ≤ v.size) (hn : 0 < n)
    (hlt : n < 2 ^ 64) :
    AliasSafe m v i (fun arg => VecObj.insertArgs m v pos (List.replicate n arg)) ↔
      v.Room t (v.size + n) ∧ i < pos := by
  constructor
  · intro hsafe
    have hroom := h.room_of_aliasSafe hi hpos hn hlt hsafe
    exact ⟨hroom, h.before_of_aliasSafe hi hpos hn hroom.1 hsafe⟩
  · rintro ⟨hroom, hip⟩
    exact h.insert_aliasSafe hpos hip hn hroom

/-! ## The operations -/

theorem insertOne_alias_iff (h : Holds m v xs) (hi : i < v.size) (hpos : pos ≤ v.size) :
    AliasSafe m v i (fun arg => VecObj.insertArgs m v pos [arg]) ↔
      v.Room t (v.size + 1) ∧ i < pos :=
  h.insert_alias_iff (n := 1) hi hpos (by omega) (by omega)

/-- Elements that are moved to a buffer by `grow` are in its cells. -/
theorem grow_ok {r : ObjHeap t × Vec} (h : Holds m v xs) (hpos : 0 < v.size)
    (hrun : VecObj.grow m v n = .ok r) : v.size ≤ VecObj.newCap v.capacity n := by
  have hle := h.le
  unfold VecObj.grow at hrun
  obtain ⟨⟨m1, p⟩, hmalloc, hrun⟩ := bind_eq_ok.mp hrun
  obtain ⟨-, -, ⟨new, hb⟩, -, -⟩ := (ObjHeap.malloc_runs m _).of_ok hmalloc
  obtain ⟨m2, hmove, -⟩ := bind_eq_ok.mp hrun
  rw [VecObj.relocateIf, if_pos (h.data_ne (by omega)), VecObj.relocate] at hmove
  obtain ⟨m3, hmove, -⟩ := bind_eq_ok.mp hmove
  have hw := (ObjHeap.memmove_ok hmove).1 hpos
  simp only at hb hw
  rw [ObjHeap.within_of_block (by rw [hb, Function.update_self]), Nat.zero_add] at hw
  exact hw.1

theorem emplaceBack_alias_iff (h : Holds m v xs) (hi : i < v.size) :
    AliasSafe m v i (VecObj.emplaceBack m v) ↔ v.Room t (v.size + 1) := by
  have hle := h.le
  have hcap := h.lt
  by_cases hlt : v.size + 1 < 2 ^ 64
  · have heq : VecObj.emplaceBack m v = fun arg => VecObj.insertArgs m v v.size [arg] :=
      funext fun arg => emplaceBack_eq hlt arg
    rw [heq, h.insertOne_alias_iff hi (Nat.le_refl _)]
    exact ⟨fun h => h.1, fun h => ⟨h, hi⟩⟩
  · -- `size_ + 1` wraps: the new buffer is shorter than the old one
    refine ⟨fun hsafe => ?_, fun hroom => absurd hroom.1 (by omega)⟩
    obtain ⟨o, ho, r, -, hr, -⟩ := hsafe
    have hwrap : wrap64 (v.size + 1) = 0 := by
      unfold wrap64
      omega
    unfold VecObj.emplaceBack VecObj.growFull at hr
    rw [if_pos (by omega), hwrap] at hr
    obtain ⟨r1, hgrow, -⟩ := bind_eq_ok.mp hr
    have hmoved := h.grow_ok (by omega) hgrow
    rw [VecObj.newCap, if_neg (by omega), VecObj.twice, if_pos (by omega)] at hmoved
    unfold wrap64 at hmoved
    omega

theorem insertCount_alias_iff (h : Holds m v xs) (hi : i < v.size) (hpos : pos ≤ v.size)
    (hlt : n < 2 ^ 64) :
    AliasSafe m v i (VecObj.insertCount m v pos n) ↔ n = 0 ∨ v.Room t (v.size + n) ∧ i < pos := by
  by_cases h0 : n = 0
  · refine ⟨fun _ => .inl h0, fun _ => h.aliasSafe_of_const (r := (m, v)) hi (fun arg => ?_) rfl⟩
    unfold VecObj.insertCount
    rw [if_pos h0]
  · have heq : VecObj.insertCount m v pos n =
        fun arg => VecObj.insertArgs m v pos (List.replicate n arg) := by
      funext arg
      unfold VecObj.insertCount
      rw [if_neg h0]
    rw [heq, h.insert_alias_iff hi hpos (by omega) hlt]
    exact ⟨.inr, fun h => h.resolve_left h0⟩

theorem resize_alias_iff (h : Holds m v xs) (hi : i < v.size) (hlt : n < 2 ^ 64) :
    AliasSafe m v i (VecObj.resize m v n) ↔ v.Room t n := by
  have hsize := h.size
  have hle := h.le
  by_cases hgrow : v.size < n
  · have heq : VecObj.resize m v n =
        fun arg => VecObj.insertArgs m v v.size (List.replicate (n - v.size) arg) :=
      funext fun arg => resize_eq hlt hgrow arg
    rw [heq, h.insert_alias_iff hi (Nat.le_refl _) (by omega) (by omega),
      Nat.add_sub_cancel' (by omega)]
    exact ⟨fun h => h.1, fun h => ⟨h, hi⟩⟩
  · -- nothing is constructed, and the elements that stay are in the buffer
    have hroom : v.Room t n :=
      (h.within_iff (by omega)).mp ((h.within_size (by omega)).mono (by omega))
    refine ⟨fun _ => hroom, fun _ => ?_⟩
    obtain ⟨r, hrun, -, -, hreads⟩ := h.resize_shrink (n := n) (by omega)
    exact h.aliasSafe_of_const hi hrun hreads

/-- `assign` destroys the element before it constructs from it. -/
theorem assignCount_alias_iff (h : Holds m v xs) (hi : i < v.size) (hlt : n < 2 ^ 64) :
    AliasSafe m v i (VecObj.assignCount m v n) ↔ n = 0 := by
  have hle := h.le
  obtain ⟨m1, hclear, ⟨h1, -⟩, hreads⟩ := h.clear
  have hrest : ∀ arg, VecObj.assignCount m v n arg = VecObj.resize m1 { v with size := 0 } n arg := by
    intro arg
    unfold VecObj.assignCount
    rw [hclear]
    rfl
  constructor
  · rintro ⟨o, ho, r, -, hr, -⟩
    by_cases h0 : n = 0
    · exact h0
    · rw [hrest, resize_eq hlt (show 0 < n by omega)] at hr
      obtain ⟨m0, m2, v0, hres, hs, ids, a, hread, -⟩ :=
        h1.insertArgs_first (Nat.le_refl 0) (by omega : 0 < n - 0) (show 0 + (n - 0) < 2 ^ 64 by omega) hr
      obtain ⟨o', ho', -⟩ := refers_elem hread
      have hdead : m2.cell (v.data, i) = none := by
        by_cases hgrow : v.capacity < 0 + (n - 0)
        · exact h1.not_reads_freed (h.data_ne (by omega)) hgrow hres hs.block i
        · cases hres.stays (show 0 + (n - 0) ≤ v.capacity by omega)
          have hnone : ∀ j, m1.cell (v.data, j) = none := fun j => h1.cell_none (Nat.zero_le j)
          have hhere := hs.here i
          simp only [hnone] at hhere
          rw [hhere]
          split
          · rfl
          · split <;> rfl
      rw [hdead] at ho'
      cases ho'
  · intro h0
    refine h.aliasSafe_of_const (r := (m1, { v with size := 0 })) hi (fun arg => ?_) hreads
    rw [hrest, h0]
    rfl

end Holds

/-- **When arguments may be elements of the vector**, for any vector that a run can leave, any
element `v[i]`, any position and any count. -/
theorem alias_iff {w : ObjVectors t} {ls : Lists α} {x i : Nat} {v : Vec} (hr : ObjReach w ls)
    (hv : w.obj x = some v) (hi : i < v.size) :
    (AliasSafe w.mem v i (VecObj.pushBack w.mem v) ↔ v.Room t (v.size + 1)) ∧
    (AliasSafe w.mem v i (VecObj.emplaceBack w.mem v) ↔ v.Room t (v.size + 1)) ∧
    (∀ pos ≤ v.size, AliasSafe w.mem v i (VecObj.insert w.mem v pos) ↔
      v.Room t (v.size + 1) ∧ i < pos) ∧
    (∀ pos ≤ v.size, ∀ count < 2 ^ 64, AliasSafe w.mem v i (VecObj.insertCount w.mem v pos count) ↔
      count = 0 ∨ v.Room t (v.size + count) ∧ i < pos) ∧
    (∀ pos ≤ v.size, AliasSafe w.mem v i (VecObj.emplace w.mem v pos) ↔
      v.Room t (v.size + 1) ∧ i < pos) ∧
    (∀ count < 2 ^ 64, AliasSafe w.mem v i (VecObj.resize w.mem v count) ↔ v.Room t count) ∧
    ∀ count < 2 ^ 64, AliasSafe w.mem v i (VecObj.assignCount w.mem v count) ↔ count = 0 := by
  obtain ⟨xs, -, h⟩ := hr.refines.holds_obj hv
  exact ⟨h.emplaceBack_alias_iff hi, h.emplaceBack_alias_iff hi,
    fun pos hpos => h.insertOne_alias_iff hi hpos,
    fun pos hpos count hcount => h.insertCount_alias_iff hi hpos hcount,
    fun pos hpos => h.insertOne_alias_iff hi hpos, fun count hcount => h.resize_alias_iff hi hcount,
    fun count hcount => h.assignCount_alias_iff hi hcount⟩

/-- In a buffer with a free cell the only element may be pushed again. -/
theorem alias_iff_push : ∃ w : ObjVectors wordType, ObjReach w (Lists.set (fun _ => none) 0 [5]) ∧
    w.obj 0 = some ⟨0x1000, 1, 4⟩ ∧
    AliasSafe w.mem ⟨0x1000, 1, 4⟩ 0 (VecObj.pushBack w.mem ⟨0x1000, 1, 4⟩) := by
  obtain ⟨w, hr, hv⟩ : ∃ w : ObjVectors wordType, ObjReach w (Lists.set (fun _ => none) 0 [5]) ∧
      w.obj 0 = some ⟨0x1000, 1, 4⟩ :=
    ⟨_, .call (.ofList 0 [5]) (.start [0x1000]) ⟨rfl, fits_set (by decide)⟩ trivial rfl, rfl⟩
  exact ⟨w, hr, hv, (alias_iff hr hv (i := 0) (by decide)).1.mpr
    ⟨by decide, show 8 * 2 ≤ wrap64 (8 * 4) by decide⟩⟩

/-- The first of four elements, pushed onto the full buffer of four, is read from the buffer
that `grow` has freed; the second of two, inserted before the first, is read after it has
moved: the first is inserted instead. -/
theorem push_back_dangles :
    (∃ w : ObjVectors wordType, ObjReach w (Lists.set (fun _ => none) 0 [1, 1, 1, 1]) ∧
      w.obj 0 = some ⟨0x1000, 4, 4⟩ ∧ w.mem.Supplies ∧
      VecObj.pushBack w.mem ⟨0x1000, 4, 4⟩ (.elem 0x1000 0) = .error (.access 0x2000) ∧
      ¬ AliasSafe w.mem ⟨0x1000, 4, 4⟩ 0 (VecObj.pushBack w.mem ⟨0x1000, 4, 4⟩)) ∧
    ∃ w : ObjVectors wordType, ObjReach w (Lists.set (fun _ => none) 0 [1, 2]) ∧
      w.obj 0 = some ⟨0x1000, 2, 4⟩ ∧
      (∃ r, VecObj.insert w.mem ⟨0x1000, 2, 4⟩ 0 (.elem 0x1000 1) = .ok r ∧
        (r.1.cell (r.2.data, 0)).map Obj.value = some 1) ∧
      ∃ r, VecObj.insert w.mem ⟨0x1000, 2, 4⟩ 0 (.value 2) = .ok r ∧
        (r.1.cell (r.2.data, 0)).map Obj.value = some 2 := by
  obtain ⟨w, hr, hv, hm, hrun⟩ : ∃ w : ObjVectors wordType,
      ObjReach w (Lists.set (fun _ => none) 0 [1, 1, 1, 1]) ∧ w.obj 0 = some ⟨0x1000, 4, 4⟩ ∧
      w.mem.Supplies ∧ VecObj.pushBack w.mem ⟨0x1000, 4, 4⟩ (.elem 0x1000 0) = .error (.access 0x2000) :=
    ⟨_, .call (.filled 0 4 1) (.start [0x1000, 0x2000]) ⟨rfl, fits_set (by decide)⟩ trivial rfl, rfl,
      ⟨0x2000, [], rfl, by decide, rfl⟩, rfl⟩
  refine ⟨⟨w, hr, hv, hm, hrun, fun hsafe => ?_⟩, _, .call (.ofList 0 [1, 2]) (.start [0x1000])
    ⟨rfl, fits_set (by decide)⟩ trivial rfl, rfl, ⟨_, rfl, rfl⟩, _, rfl, rfl⟩
  obtain ⟨o, -, r, -, hr', -⟩ := hsafe
  rw [hrun] at hr'
  cases hr'

end HelixKernel
