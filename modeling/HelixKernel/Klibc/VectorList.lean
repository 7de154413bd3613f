import HelixKernel.Klibc.VectorStorage

/-!
# Each operation of the vector on the list of its elements

`Done t m v xs r`: the operation, begun on the vector `v`, has left the elements `xs`, and
every block but that of `v` as it was. -/

namespace HelixKernel

variable {α : Type}

def Done (t : ElemType α) (m : BlockHeap α) (v : Vec) (xs : List α) (r : BlockHeap α × Vec) : Prop :=
  Owns t r.1 r.2 xs ∧ Keeps m v.data r.1 r.2.data

/-- Moreover the address returned is that of position `i`. -/
def DoneAt (t : ElemType α) (m : BlockHeap α) (v : Vec) (xs : List α) (i : Nat)
    (r : BlockHeap α × Vec × Nat) : Prop :=
  Done t m v xs (r.1, r.2.1) ∧ r.2.2 = r.2.1.iter t i

theorem Done.trans {t : ElemType α} {m m' : BlockHeap α} {v v' : Vec} {xs : List α}
    {r : BlockHeap α × Vec} (hk : Keeps m v.data m' v'.data) (h : Done t m' v' xs r) :
    Done t m v xs r :=
  ⟨h.1, hk.trans h.2⟩

theorem owns_empty (t : ElemType α) (m : BlockHeap α) : Owns t m .empty [] := by
  refine ⟨rfl, ⟨0, fun _ => none⟩, ⟨by simp [Vec.empty], by simp [Vec.empty], ?_, rfl, ?_⟩, ?_⟩
  · show 0 + t.size * 0 < 2 ^ 64
    simp
  · intro h
    exact absurd rfl h
  · intro i hi
    simp at hi

theorem getElem?_insert {xs ys : List α} {i : Nat} (hi : i ≤ xs.length) (j : Nat) :
    (xs.take i ++ ys ++ xs.drop i)[j]? =
      if j < i then xs[j]? else if j < i + ys.length then ys[j - i]? else xs[j - ys.length]? := by
  grind

theorem getElem?_erase (xs : List α) {i k : Nat} (hi : i + k ≤ xs.length) (j : Nat) :
    (xs.take i ++ xs.drop (i + k))[j]? = if j < i then xs[j]? else xs[j + k]? := by
  grind

theorem lt_of_fits (t : ElemType α) {n : Nat} (h : t.size * n < 2 ^ 64) : n < 2 ^ 64 := by
  have : n ≤ t.size * n := Nat.le_mul_of_pos_left _ t.size_pos
  omega

namespace Owns

variable {t : ElemType α} {m m' : BlockHeap α} {v : Vec} {xs ys : List α} {i j n : Nat} {a : α}

theorem length_le (h : Owns t m v xs) : xs.length ≤ v.capacity := by
  obtain ⟨b, hb, -⟩ := h.storage
  rw [← h.size]
  exact hb.le

theorem index_iter (h : Owns t m v xs) (hi : i ≤ xs.length) : v.index t (v.iter t i) = i := by
  obtain ⟨b, hb, -⟩ := h.storage
  have := h.length_le
  exact hb.index_iter (by omega)

theorem done_refl (h : Owns t m v xs) : Done t m v xs (m, v) := ⟨h, .refl m v.data⟩

/-- The block of another vector has the same contents afterwards. -/
theorem frame (h : Owns t m v xs) (hsame : ∀ b, v.data ≠ 0 → m.block v.data = some b →
    m'.block v.data = some b) : Owns t m' v xs := by
  obtain ⟨b, hb, hcells⟩ := h.storage
  exact ⟨h.size, b, hb.replace rfl fun h0 => hsame b h0 (hb.block h0), hcells⟩

/-! ## Inserting -/

theorem insertRange (h : Owns t m v xs) (hi : i ≤ xs.length) (ys : List α)
    (hfit : t.size * (xs.length + ys.length) < 2 ^ 64) :
    Runs (DoneAt t m v (xs.take i ++ ys ++ xs.drop i) i) (v.insertRange t m (v.iter t i) ys) := by
  have hsize := h.size
  have hlt := lt_of_fits t hfit
  unfold Vec.insertRange
  simp only [h.index_iter hi]
  by_cases hys : ys.length = 0
  · rw [if_pos hys]
    obtain rfl := List.eq_nil_of_length_eq_zero hys
    exact ⟨by simpa using h.done_refl, rfl⟩
  · rw [if_neg hys]
    obtain ⟨b, hb, hcells⟩ := h.storage
    refine Runs.bind (hb.shiftRight (by omega : i ≤ v.size) (by omega) (by omega)) ?_
    rintro ⟨m1, v1⟩ ⟨hs1, hcap, hkeeps, b1, hb1, hlow, hhigh⟩
    simp only at hs1 hcap hkeeps hb1 ⊢
    obtain ⟨m2, hrun, hb2, hsame⟩ := hb1.constructRange (i := i) ys (by omega)
    refine Runs.bind_ok hrun ?_
    have hlen : (xs.take i ++ ys ++ xs.drop i).length = xs.length + ys.length := by
      simp
      omega
    have hsum : wrap64 (v1.size + ys.length) = xs.length + ys.length := by
      rw [hs1, hsize]
      exact wrap64_of_lt hlt
    rw [hsum]
    refine ⟨⟨⟨hlen.symm, _, hb2.setSize (by omega), fun j hj => ?_⟩, ?_⟩, rfl⟩
    · rw [hlen] at hj
      rw [getElem?_insert hi, CellBlock.paste_cell]
      by_cases hji : j < i
      · rw [if_neg (by omega), if_pos hji, hlow j hji, hcells j (by omega)]
      · by_cases hjn : j < i + ys.length
        · rw [if_pos (by omega), if_neg hji, if_pos hjn]
        · have hback : j - ys.length + ys.length = j := by omega
          have hmoved := hhigh (j - ys.length) (by omega) (by omega)
          rw [hback] at hmoved
          rw [if_neg (by omega), if_neg hji, if_neg hjn, hmoved, hcells _ (by omega)]
    · exact hkeeps.trans (.of_same hsame)

theorem insertCount_eq (t : ElemType α) (m : BlockHeap α) (v : Vec) (pos n : Nat) (a : α) :
    v.insertCount t m pos n a = v.insertRange t m pos (List.replicate n a) := by
  simp [Vec.insertCount, Vec.insertRange]

theorem insert_eq (t : ElemType α) (m : BlockHeap α) (v : Vec) (pos : Nat) (a : α) :
    v.insert t m pos a = v.insertRange t m pos [a] := by
  simp [Vec.insert, Vec.insertRange, Vec.constructRange]

/-! ## Erasing -/

theorem destroyRange (h : Owns t m v xs) (hi : i + n ≤ xs.length) :
    ∃ m' b', Vec.destroyRange m v.data i n = .ok m' ∧ Storage t m' v b' ∧
      (∀ j < xs.length, j < i ∨ i + n ≤ j → b'.cell j = xs[j]?) ∧
      ∀ x, x ≠ v.data → m'.block x = m.block x := by
  have hle := h.length_le
  obtain ⟨b, hb, hcells⟩ := h.storage
  obtain ⟨m', hrun, hb', hsame⟩ := hb.destroyRange (i := i) (n := n) (by omega) fun j _ hj => by
    rw [hcells j (by omega), List.getElem?_eq_getElem (by omega)]
    rfl
  refine ⟨m', _, hrun, hb', fun j hj hout => ?_, hsame⟩
  rw [CellBlock.paste_cell, if_neg (by omega), hcells j hj]

theorem count_eq (h : Owns t m v xs) (hij : i ≤ j) (hj : j ≤ xs.length) :
    sub64 (v.iter t j) (v.iter t i) / t.size = j - i := by
  have hle := h.length_le
  obtain ⟨b, hb, -⟩ := h.storage
  have hmul := Nat.mul_le_mul_left t.size hij
  rw [hb.iter_eq (by omega), hb.iter_eq (by omega), sub64_of_le (by omega) (hb.mul_le (by omega)),
    Nat.add_sub_add_left, ← Nat.mul_sub, Nat.mul_div_cancel_left _ t.size_pos]

theorem eraseRange (h : Owns t m v xs) (hij : i ≤ j) (hj : j ≤ xs.length) :
    Runs (DoneAt t m v (xs.take i ++ xs.drop j) i)
      (v.eraseRange t m (v.iter t i) (v.iter t j)) := by
  have hsize := h.size
  have hle := h.length_le
  have hcount := h.count_eq hij hj
  unfold Vec.eraseRange
  simp only [h.index_iter (show i ≤ xs.length by omega), hcount]
  by_cases h0 : j - i = 0
  · obtain rfl : i = j := by omega
    rw [if_pos h0]
    exact ⟨by simpa using h.done_refl, rfl⟩
  · rw [if_neg h0]
    have hlt : v.size < 2 ^ 64 := h.storage.elim fun b hb => hb.1.size_lt
    obtain ⟨m1, b1, hrun, hb1, hcells1, hsame1⟩ := h.destroyRange (i := i) (n := j - i) (by omega)
    obtain ⟨m2, hrun2, hsame2, b2, hb2, hlow, hhigh⟩ :=
      hb1.shiftLeft (i := i) (n := j - i) (by omega) (by omega)
    refine Runs.bind_ok hrun (Runs.bind_ok hrun2 ?_)
    have hlen : (xs.take i ++ xs.drop j).length = xs.length - (j - i) := by
      simp
      omega
    have hdiff : sub64 v.size (j - i) = xs.length - (j - i) := by
      rw [sub64_of_le (by omega) hlt, hsize]
    rw [hdiff]
    refine ⟨⟨⟨hlen.symm, b2, hb2.setSize (by omega), fun k hk => ?_⟩, ?_⟩, rfl⟩
    · rw [hlen] at hk
      have herase := getElem?_erase xs (i := i) (k := j - i) (by omega) k
      rw [Nat.add_sub_cancel' hij] at herase
      rw [herase]
      by_cases hki : k < i
      · rw [if_pos hki, hlow k hki, hcells1 k (by omega) (.inl hki)]
      · rw [if_neg hki, hhigh k (by omega) (by omega), hcells1 _ (by omega) (.inr (by omega))]
    · exact .of_same fun x hx => by rw [hsame2 x hx, hsame1 x hx]

theorem destroyRange_one (m : BlockHeap α) (p i : Nat) :
    Vec.destroyRange m p i 1 = m.destroy p i := by
  show (m.destroy p i >>= fun m => Except.ok m) = m.destroy p i
  cases m.destroy p i <;> rfl

theorem erase_eq (h : Owns t m v xs) (hi : i < xs.length) :
    v.erase t m (v.iter t i) = v.eraseRange t m (v.iter t i) (v.iter t (i + 1)) := by
  have hcount := h.count_eq (show i ≤ i + 1 by omega) hi
  rw [Nat.add_sub_cancel_left] at hcount
  unfold Vec.erase Vec.eraseRange
  rw [hcount, if_neg (by omega), destroyRange_one]

/-! ## At the end -/

/-- A reallocation keeps the elements. -/
theorem of_grown {b : CellBlock α} {r : BlockHeap α × Vec} (h : v.size = xs.length)
    (hcells : ∀ i < xs.length, b.cell i = xs[i]?) (hg : Storage.Grown t m v b n r) :
    Done t m v xs r := by
  obtain ⟨hs, -, hk, b', hb', hc⟩ := hg
  refine ⟨⟨hs.trans h, b', hb', fun i hi => ?_⟩, hk⟩
  rw [hc i (by omega), hcells i hi]

theorem reserve (h : Owns t m v xs) (n : Nat) :
    Runs (fun r => Done t m v xs r ∧ n ≤ r.2.capacity) (v.reserve t m n) := by
  obtain ⟨b, hb, hcells⟩ := h.storage
  exact (hb.reserve n).mono fun r hr => ⟨of_grown h.size hcells hr, hr.2.1⟩

theorem growFull (h : Owns t m v xs) (hfit : t.size * (xs.length + 1) < 2 ^ 64) :
    Runs (fun r => Done t m v xs r ∧ xs.length < r.2.capacity) (v.growFull t m) := by
  have hsize := h.size
  have hlt := lt_of_fits t hfit
  obtain ⟨b, hb, hcells⟩ := h.storage
  unfold Vec.growFull
  split
  · rw [wrap64_of_lt (by omega)]
    refine (hb.grow (by omega) (by omega)).mono fun r hr => ⟨of_grown hsize hcells hr, ?_⟩
    have := hr.2.1
    omega
  · exact ⟨h.done_refl, by simp only; omega⟩

theorem emplaceBack (h : Owns t m v xs) (hfit : t.size * (xs.length + 1) < 2 ^ 64) (a : α) :
    Runs (DoneAt t m v (xs ++ [a]) xs.length) (v.emplaceBack t m a) := by
  have hlt := lt_of_fits t hfit
  unfold Vec.emplaceBack
  refine Runs.bind (h.growFull hfit) ?_
  rintro ⟨m1, v1⟩ ⟨⟨h1, hk⟩, hcap⟩
  simp only at h1 hk hcap ⊢
  have hs1 := h1.size
  obtain ⟨b, hb, hcells⟩ := h1.storage
  have hblock := hb.block (hb.data_ne (i := xs.length) hcap)
  have hcon := BlockHeap.construct_of_block (i := v1.size) a hblock
    (by rw [hb.length, hs1]; exact hcap)
  have hsum : wrap64 (v1.size + 1) = xs.length + 1 := by
    rw [hs1]
    exact wrap64_of_lt hlt
  refine Runs.bind_ok hcon ?_
  rw [hsum, hs1]
  refine ⟨⟨⟨by simp, b.set xs.length (some a), ?_, fun i hi => ?_⟩, ?_⟩, rfl⟩
  · exact (hb.put (c := b.set xs.length (some a)) rfl).setSize (by omega)
  · rw [CellBlock.set_eq_paste, CellBlock.paste_cell]
    by_cases hix : i = xs.length
    · subst hix
      rw [if_pos (by omega)]
      simp
    · have hilt : i < xs.length := by
        rw [List.length_append, List.length_singleton] at hi
        omega
      rw [if_neg (by omega), hcells i hilt, List.getElem?_append_left hilt]
  · exact hk.trans (.of_same fun x hx => BlockHeap.put_block_ne _ _ hx)

theorem pushBack (h : Owns t m v xs) (hfit : t.size * (xs.length + 1) < 2 ^ 64) (a : α) :
    Runs (Done t m v (xs ++ [a])) (v.pushBack t m a) :=
  Runs.bind (h.emplaceBack hfit a) fun _ hr => hr.1

theorem pushBackAll (h : Owns t m v xs) (ys : List α)
    (hfit : t.size * (xs.length + ys.length) < 2 ^ 64) :
    Runs (Done t m v (xs ++ ys)) (v.pushBackAll t m ys) := by
  induction ys generalizing m v xs with
  | nil =>
    rw [List.append_nil]
    exact h.done_refl
  | cons a ys ih =>
    rw [List.length_cons] at hfit
    have hone : t.size * (xs.length + 1) < 2 ^ 64 := by
      have := Nat.mul_le_mul_left t.size (show xs.length + 1 ≤ xs.length + (ys.length + 1) by omega)
      omega
    refine Runs.bind (h.pushBack hone a) fun r hr => ?_
    have hrest := ih hr.1 (by simpa [Nat.add_assoc, Nat.add_comm 1] using hfit)
    rw [List.append_assoc] at hrest
    exact hrest.mono fun r' hr' => hr'.trans hr.2

/-! ### Where the storage is -/

theorem growFull_of_room (m : BlockHeap α) (hroom : v.size < v.capacity) :
    v.growFull t m = .ok (m, v) :=
  if_neg (by omega)

theorem grow_ok {r : BlockHeap α × Vec} (h : v.grow t m n = .ok r) :
    (∃ rest, m.supply = r.2.data :: rest) ∧
      ∃ twice, twice = (if v.capacity ≠ 0 then wrap64 (v.capacity * 2) else 4) ∧
        r.2.capacity = if twice < n then n else twice := by
  simp only [Vec.grow] at h
  obtain ⟨⟨m1, p⟩, hmalloc, h⟩ := bind_eq_ok.mp h
  obtain ⟨m2, -, h⟩ := bind_eq_ok.mp h
  cases h
  exact ⟨BlockHeap.malloc_ok hmalloc, _, rfl, rfl⟩

theorem emplaceBack_ok {r : BlockHeap α × Vec × Nat} (h : v.emplaceBack t m a = .ok r) :
    ∃ m1 v1, v.growFull t m = .ok (m1, v1) ∧ r.2.1.data = v1.data ∧
      r.2.1.capacity = v1.capacity := by
  unfold Vec.emplaceBack at h
  obtain ⟨⟨m1, v1⟩, hgrow, h⟩ := bind_eq_ok.mp h
  obtain ⟨m2, -, h⟩ := bind_eq_ok.mp h
  obtain ⟨m', ⟨data, size, capacity⟩, p⟩ := r
  simp only [Except.ok.injEq, Prod.mk.injEq, Vec.mk.injEq] at h
  exact ⟨m1, v1, hgrow, h.2.1.1.symm, h.2.1.2.2.symm⟩

theorem pushBack_ok {r : BlockHeap α × Vec} (h : v.pushBack t m a = .ok r) :
    ∃ m1 v1, v.growFull t m = .ok (m1, v1) ∧ r.2.data = v1.data ∧ r.2.capacity = v1.capacity := by
  unfold Vec.pushBack at h
  obtain ⟨⟨m2, v2, p⟩, hrun, hr⟩ := bind_eq_ok.mp h
  obtain ⟨m', ⟨data, size, capacity⟩⟩ := r
  simp only [Except.ok.injEq, Prod.mk.injEq] at hr
  rw [hr.2] at hrun
  exact emplaceBack_ok hrun

theorem pushBack_of_room {r : BlockHeap α × Vec} (h : v.pushBack t m a = .ok r)
    (hroom : v.size < v.capacity) : r.2.data = v.data ∧ r.2.capacity = v.capacity := by
  obtain ⟨m1, v1, hgrow, hdata, hcap⟩ := pushBack_ok h
  rw [growFull_of_room m hroom, Except.ok.injEq, Prod.mk.injEq] at hgrow
  rw [hdata, hcap, ← hgrow.2]
  exact ⟨rfl, rfl⟩

theorem pushBack_of_full {r : BlockHeap α × Vec} (h : v.pushBack t m a = .ok r)
    (hfull : v.capacity ≤ v.size) : (∃ rest, m.supply = r.2.data :: rest) ∧
      ∃ twice, twice = (if v.capacity ≠ 0 then wrap64 (v.capacity * 2) else 4) ∧
        r.2.capacity = if twice < wrap64 (v.size + 1) then wrap64 (v.size + 1) else twice := by
  obtain ⟨m1, v1, hgrow, hdata, hcap⟩ := pushBack_ok h
  rw [Vec.growFull, if_pos hfull] at hgrow
  rw [hdata, hcap]
  exact grow_ok hgrow

theorem erase_ok {r : BlockHeap α × Vec × Nat} {pos : Nat} (h : v.erase t m pos = .ok r) :
    r.2.1.data = v.data ∧ r.2.1.capacity = v.capacity := by
  unfold Vec.erase at h
  obtain ⟨m1, -, h⟩ := bind_eq_ok.mp h
  obtain ⟨m2, -, h⟩ := bind_eq_ok.mp h
  -- field by field: the vectors as a whole would be compared, `sub64` included
  obtain ⟨m', ⟨data, size, capacity⟩, p⟩ := r
  simp only [Except.ok.injEq, Prod.mk.injEq, Vec.mk.injEq] at h
  exact ⟨h.2.1.1.symm, h.2.1.2.2.symm⟩

/-- Destroying the elements from `n` on. -/
theorem truncate (h : Owns t m v xs) (hn : n ≤ xs.length) :
    ∃ m', Vec.destroyRange m v.data n (xs.length - n) = .ok m' ∧
      Owns t m' { v with size := n } (xs.take n) ∧ ∀ x, x ≠ v.data → m'.block x = m.block x := by
  have hle := h.length_le
  obtain ⟨m', b', hrun, hb', hcells, hsame⟩ :=
    h.destroyRange (i := n) (n := xs.length - n) (by omega)
  have hlen : (xs.take n).length = n := by
    rw [List.length_take]
    omega
  refine ⟨m', hrun, ⟨hlen.symm, b', hb'.setSize (by omega), fun i hi => ?_⟩, hsame⟩
  rw [hlen] at hi
  rw [hcells i (by omega) (.inl hi), List.getElem?_take_of_lt hi]

theorem destroyAll (h : Owns t m v xs) :
    ∃ m', Vec.destroyRange m v.data 0 v.size = .ok m' ∧ Owns t m' { v with size := 0 } [] ∧
      ∀ x, x ≠ v.data → m'.block x = m.block x := by
  have hall := h.truncate (Nat.zero_le xs.length)
  rw [Nat.sub_zero, ← h.size, List.take_zero] at hall
  exact hall

theorem clear (h : Owns t m v xs) : Runs (Done t m v []) (v.clear m) := by
  obtain ⟨m', hrun, hm', hsame⟩ := h.destroyAll
  exact Runs.bind_ok hrun ⟨hm', .of_same hsame⟩

theorem popBack (h : Owns t m v xs) : Runs (Done t m v xs.dropLast) (v.popBack m) := by
  have hsize := h.size
  unfold Vec.popBack
  split
  · have htr := h.truncate (n := xs.length - 1) (by omega)
    rw [show xs.length - (xs.length - 1) = 1 by omega, destroyRange_one, ← hsize] at htr
    obtain ⟨m', hrun, hm', hsame⟩ := htr
    refine Runs.bind_ok hrun ⟨?_, .of_same hsame⟩
    rw [List.dropLast_eq_take, ← hsize]
    exact hm'
  · have hnil : xs = [] := List.eq_nil_of_length_eq_zero (by omega)
    subst hnil
    exact h.done_refl

theorem resize (h : Owns t m v xs) (n : Nat) (a : α) :
    Runs (Done t m v (xs.take n ++ List.replicate (n - xs.length) a)) (v.resize t m n a) := by
  have hsize := h.size
  unfold Vec.resize
  split
  · obtain ⟨m', hrun, hm', hsame⟩ := h.truncate (n := n) (by omega)
    rw [hsize, Nat.sub_eq_zero_of_le (by omega : n ≤ xs.length), List.replicate_zero,
      List.append_nil]
    exact Runs.bind_ok hrun ⟨hm', .of_same hsame⟩
  · rw [List.take_of_length_le (by omega)]
    split
    · refine Runs.bind (h.reserve n) ?_
      rintro ⟨m1, v1⟩ ⟨⟨h1, hk⟩, hcap⟩
      simp only at h1 hk hcap ⊢
      have hs1 := h1.size
      obtain ⟨b, hb, hcells⟩ := h1.storage
      obtain ⟨m2, hrun, hb2, hsame⟩ := hb.constructRange (i := v1.size)
        (List.replicate (n - v1.size) a) (by rw [List.length_replicate]; omega)
      refine Runs.bind_ok hrun ?_
      rw [hs1] at hb2
      have hlen : (xs ++ List.replicate (n - xs.length) a).length = n := by
        simp
        omega
      refine ⟨⟨hlen.symm, _, hb2.setSize hcap, fun i hi => ?_⟩, hk.trans (.of_same hsame)⟩
      rw [hlen] at hi
      rw [CellBlock.paste_cell, List.length_replicate]
      by_cases hix : i < xs.length
      · rw [if_neg (by omega), hcells i hix, List.getElem?_append_left hix]
      · rw [if_pos (by omega), List.getElem?_append_right (by omega)]
    · rw [show n - xs.length = 0 by omega, List.replicate_zero, List.append_nil]
      exact h.done_refl

theorem shrinkToFit (h : Owns t m v xs) : Runs (Done t m v xs) (v.shrinkToFit t m) := by
  have hsize := h.size
  obtain ⟨b, hb, hcells⟩ := h.storage
  unfold Vec.shrinkToFit
  split
  · exact h.done_refl
  · rename_i hcap
    have h0 := hb.data_ne (i := v.size) (by omega)
    split
    · -- no elements: the block goes
      rename_i hz
      obtain ⟨m', hfree, -, hsame⟩ := BlockHeap.free_of_block h0 (hb.block h0)
      have hnil : xs = [] := List.eq_nil_of_length_eq_zero (by omega)
      subst hnil
      refine Runs.bind_ok hfree ⟨?_, fun x bx _ hx hbx => by rw [hsame x hx]; exact hbx,
        .inr (.inl rfl)⟩
      show Owns t m' ⟨0, v.size, 0⟩ []
      rw [hz]
      exact owns_empty t m'
    · refine Runs.bind (BlockHeap.malloc_runs t m v.size) ?_
      rintro ⟨m1, p⟩ ⟨hp, hroom, hfresh, hb1, hsame⟩
      obtain ⟨m2, hrun, hg⟩ := hb.relocate h0 hp (Nat.le_refl _) (by omega) hroom hfresh hb1 hsame
      exact Runs.bind_ok hrun (of_grown hsize hcells hg)

/-! ## Copies and the destructor -/

/-- Copying from another vector, into one whose elements are gone. -/
theorem copyFrom {u : Vec} (h : Owns t m v []) (hu : Owns t m u ys)
    (hne : u.data ≠ 0 → u.data ≠ v.data) : Runs (Done t m v ys) (v.copyFrom t m u) := by
  obtain ⟨bu, hbu, hucells⟩ := hu.storage
  have hule := hu.length_le
  have husize := hu.size
  refine Runs.bind (h.reserve u.size) ?_
  rintro ⟨m1, v1⟩ ⟨⟨h1, hk⟩, hcap⟩
  simp only at h1 hk hcap ⊢
  obtain ⟨b, hb, -⟩ := h1.storage
  obtain ⟨m2, hrun, hb2, hsame⟩ := hb.copyElems (p := u.data) (c := bu) (i := 0) (n := u.size)
    (by omega) (fun hpos => by
      have hu0 := hbu.data_ne (i := 0) (by omega)
      have hublock := hbu.block hu0
      refine ⟨?_, hk.keep _ _ hu0 (hne hu0) hublock⟩
      -- the storage of `v` is where it was, or new
      rcases hk.fresh with heq | heq | hnone
      · rw [heq]
        exact hne hu0
      · rw [heq]
        exact hu0
      · intro heq
        rw [← heq, hublock] at hnone
        cases hnone)
    (by rw [hbu.length]; omega) (fun j _ hj => by
      rw [hucells j (by omega), List.getElem?_eq_getElem (by omega)]
      rfl)
  refine Runs.bind_ok hrun ⟨⟨husize, _, hb2.setSize hcap, fun i hi => ?_⟩, hk.trans (.of_same hsame)⟩
  rw [CellBlock.paste_cell, if_pos (by omega), Nat.sub_zero, Nat.zero_add]
  exact hucells i hi

theorem ofList (t : ElemType α) (m : BlockHeap α) (ys : List α)
    (hfit : t.size * ys.length < 2 ^ 64) : Runs (Done t m .empty ys) (Vec.ofList t m ys) := by
  refine Runs.bind ((owns_empty t m).reserve ys.length) fun r hr => ?_
  have hpush := hr.1.1.pushBackAll ys (by simpa using hfit)
  rw [List.nil_append] at hpush
  exact hpush.mono fun r' hr' => hr'.trans hr.1.2

theorem assignCopy {u : Vec} (h : Owns t m v xs) (hu : Owns t m u ys)
    (hne : u.data ≠ 0 → u.data ≠ v.data) : Runs (Done t m v ys) (v.assignCopy t m u) := by
  obtain ⟨m1, hrun, h1, hsame⟩ := h.destroyAll
  have hu1 : Owns t m1 u ys := hu.frame fun b h0 hb => by
    rw [hsame _ (hne h0)]
    exact hb
  exact Runs.bind_ok hrun ((h1.copyFrom hu1 hne).mono fun r hr => hr.trans (.of_same hsame))

theorem assignCount (h : Owns t m v xs) (n : Nat) (a : α) :
    Runs (Done t m v (List.replicate n a)) (v.assignCount t m n a) := by
  obtain ⟨m1, hrun, h1, hsame⟩ := h.destroyAll
  have hres := h1.resize n a
  rw [List.take_nil, List.nil_append, List.length_nil, Nat.sub_zero] at hres
  exact Runs.bind_ok hrun (hres.mono fun r hr => hr.trans (.of_same hsame))

theorem assignRange (h : Owns t m v xs) (ys : List α) (hfit : t.size * ys.length < 2 ^ 64) :
    Runs (Done t m v ys) (v.assignRange t m ys) := by
  obtain ⟨m1, hrun, h1, hsame⟩ := h.destroyAll
  have hpush := h1.pushBackAll ys (by simpa using hfit)
  rw [List.nil_append] at hpush
  exact Runs.bind_ok hrun (hpush.mono fun r hr => hr.trans (.of_same hsame))

/-- The elements are destroyed and the block is freed. -/
theorem release (h : Owns t m v xs) :
    ∃ m', v.release m = .ok m' ∧ ∀ x, x ≠ 0 → x ≠ v.data → m'.block x = m.block x := by
  obtain ⟨m1, hrun, h1, hsame⟩ := h.destroyAll
  unfold Vec.release
  rw [hrun]
  by_cases h0 : v.data = 0
  · exact ⟨m1, by simp [h0], fun x _ hx => hsame x hx⟩
  · obtain ⟨b, hb, -⟩ := h1.storage
    obtain ⟨m2, hfree, -, hsame2⟩ := BlockHeap.free_of_block h0 (hb.block h0)
    refine ⟨m2, ?_, fun x _ hx => by rw [hsame2 x hx, hsame x hx]⟩
    simp only [ok_bind, if_pos (show v.data ≠ 0 from h0)]
    exact hfree

end Owns

end HelixKernel
