import HelixKernel.Klibc.Vector

/-!
# What the vector's operations do to its storage

`Storage t m v b`: the block of the vector `v` is `b`.  `Owns t m v xs`: moreover its
elements are those of `xs`.  `Keeps m p m' p'`: the storage has gone from `p` to `p'`, and
every block but the one at `p` is as it was. -/

namespace HelixKernel

variable {α : Type}

structure Storage (t : ElemType α) (m : BlockHeap α) (v : Vec) (b : CellBlock α) : Prop where
  null : v.data = 0 ↔ v.capacity = 0
  le : v.size ≤ v.capacity
  room : v.data + t.size * v.capacity < 2 ^ 64
  length : b.length = v.capacity
  block : v.data ≠ 0 → m.block v.data = some b

structure Owns (t : ElemType α) (m : BlockHeap α) (v : Vec) (xs : List α) : Prop where
  size : v.size = xs.length
  storage : ∃ b, Storage t m v b ∧ ∀ i < xs.length, b.cell i = xs[i]?

structure Keeps (m : BlockHeap α) (p : Nat) (m' : BlockHeap α) (p' : Nat) : Prop where
  keep : ∀ x b, x ≠ 0 → x ≠ p → m.block x = some b → m'.block x = some b
  fresh : p' = p ∨ p' = 0 ∨ m.block p' = none

theorem Keeps.refl (m : BlockHeap α) (p : Nat) : Keeps m p m p :=
  ⟨fun _ _ _ _ h => h, .inl rfl⟩

theorem Keeps.of_same {m m' : BlockHeap α} {p : Nat} (h : ∀ x, x ≠ p → m'.block x = m.block x) :
    Keeps m p m' p :=
  ⟨fun x _ _ hx hb => by rw [h x hx]; exact hb, .inl rfl⟩

theorem Keeps.trans {m m' m'' : BlockHeap α} {p p' p'' : Nat} (h : Keeps m p m' p')
    (h' : Keeps m' p' m'' p'') : Keeps m p m'' p'' := by
  have hkeep : ∀ x b, x ≠ 0 → x ≠ p → m.block x = some b → x ≠ p' := by
    rintro x b h0 hp hb rfl
    rcases h.fresh with rfl | rfl | hn
    · exact hp rfl
    · exact h0 rfl
    · rw [hn] at hb
      cases hb
  refine ⟨fun x b h0 hp hb => h'.keep x b h0 (hkeep x b h0 hp hb) (h.keep x b h0 hp hb), ?_⟩
  rcases h'.fresh with rfl | h0 | hn
  · exact h.fresh
  · exact .inr (.inl h0)
  · by_cases h0 : p'' = 0
    · exact .inr (.inl h0)
    · by_cases hp : p'' = p
      · exact .inl hp
      · cases hb : m.block p'' with
        | none => exact .inr (.inr rfl)
        | some b =>
          rw [h.keep _ b h0 hp hb] at hn
          cases hn

namespace Storage

variable {t : ElemType α} {m m' : BlockHeap α} {v : Vec} {b : CellBlock α} {i n : Nat}

theorem size_lt (h : Storage t m v b) : v.size < 2 ^ 64 := by
  have hcap : v.capacity ≤ t.size * v.capacity := Nat.le_mul_of_pos_left _ t.size_pos
  have := h.room
  have := h.le
  omega

theorem data_ne (h : Storage t m v b) (hi : i < v.capacity) : v.data ≠ 0 := by
  intro h0
  have := h.null.mp h0
  omega

theorem setSize (h : Storage t m v b) (hn : n ≤ v.capacity) :
    Storage t m { v with size := n } b :=
  ⟨h.null, hn, h.room, h.length, h.block⟩

/-- Its block is replaced. -/
theorem replace (h : Storage t m v b) {b' : CellBlock α} (hl : b'.length = b.length)
    (hb : v.data ≠ 0 → m'.block v.data = some b') : Storage t m' v b' :=
  ⟨h.null, h.le, h.room, by rw [hl, h.length], hb⟩

theorem mul_le (h : Storage t m v b) (hi : i ≤ v.capacity) :
    v.data + t.size * i < 2 ^ 64 := by
  have := Nat.mul_le_mul_left t.size hi
  have := h.room
  omega

theorem iter_eq (h : Storage t m v b) (hi : i ≤ v.capacity) :
    v.iter t i = v.data + t.size * i :=
  wrap64_of_lt (h.mul_le hi)

/-- The index of the `i`th position is `i`. -/
theorem index_iter (h : Storage t m v b) (hi : i ≤ v.capacity) : v.index t (v.iter t i) = i := by
  unfold Vec.index
  rw [h.iter_eq hi, sub64_of_le (by omega) (h.mul_le hi), Nat.add_sub_cancel_left,
    Nat.mul_div_cancel_left _ t.size_pos]

theorem put (h : Storage t m v b) {c : CellBlock α} (hl : c.length = b.length) :
    Storage t (m.put v.data c) v c :=
  h.replace hl fun _ => BlockHeap.put_block_self ..

/-- Destroying a range of elements. -/
theorem destroyRange (h : Storage t m v b) (hi : i + n ≤ v.capacity)
    (hs : ∀ j, i ≤ j → j < i + n → (b.cell j).isSome = true) :
    ∃ m', Vec.destroyRange m v.data i n = .ok m' ∧ Storage t m' v (b.paste i n fun _ => none) ∧
      ∀ x, x ≠ v.data → m'.block x = m.block x := by
  induction n generalizing m b i with
  | zero => exact ⟨m, rfl, by simpa using h, fun _ _ => rfl⟩
  | succ n ih =>
    have hlt : i < b.length := by
      rw [h.length]
      omega
    have hb := h.block (h.data_ne (i := i) (by omega))
    obtain ⟨a, ha⟩ := Option.isSome_iff_exists.mp (hs i (by omega) (by omega))
    obtain ⟨m', hrun, hm', hsame⟩ := ih (h.put (c := b.set i none) rfl) (i := i + 1) (by omega)
      fun j hj hj' => by
        rw [CellBlock.set_eq_paste, CellBlock.paste_cell, if_neg (by omega)]
        exact hs j (by omega) (by omega)
    refine ⟨m', ?_, ?_, fun x hx => ?_⟩
    · simp only [Vec.destroyRange]
      rw [BlockHeap.destroy_of_block hb hlt ha]
      exact hrun
    · rwa [CellBlock.set_paste_begin b i n fun _ => none] at hm'
    · rw [hsame x hx, BlockHeap.put_block_ne _ _ hx]

/-- Constructing a range of elements. -/
theorem constructRange (h : Storage t m v b) (as : List α) (hi : i + as.length ≤ v.capacity) :
    ∃ m', Vec.constructRange m v.data i as = .ok m' ∧
      Storage t m' v (b.paste i as.length fun j => as[j]?) ∧
      ∀ x, x ≠ v.data → m'.block x = m.block x := by
  induction as generalizing m b i with
  | nil => exact ⟨m, rfl, by simpa using h, fun _ _ => rfl⟩
  | cons a as ih =>
    rw [List.length_cons] at hi
    have hlt : i < b.length := by
      rw [h.length]
      omega
    have hb := h.block (h.data_ne (i := i) (by omega))
    obtain ⟨m', hrun, hm', hsame⟩ := ih (h.put (c := b.set i (some a)) rfl) (i := i + 1) (by omega)
    refine ⟨m', ?_, ?_, fun x hx => ?_⟩
    · simp only [Vec.constructRange]
      rw [BlockHeap.construct_of_block a hb hlt]
      exact hrun
    · have hset := CellBlock.set_paste_begin b i as.length fun j => (a :: as)[j]?
      simp only [List.getElem?_cons_zero, List.getElem?_cons_succ] at hset
      rwa [hset] at hm'
    · rw [hsame x hx, BlockHeap.put_block_ne _ _ hx]

/-- Copying elements out of another block. -/
theorem copyElems (h : Storage t m v b) {p : Nat} {c : CellBlock α}
    (hi : i + n ≤ v.capacity) (hsrc : 0 < n → p ≠ v.data ∧ m.block p = some c)
    (hl : i + n ≤ c.length) (hs : ∀ j, i ≤ j → j < i + n → (c.cell j).isSome = true) :
    ∃ m', Vec.copyElems m v.data p i n = .ok m' ∧
      Storage t m' v (b.paste i n fun j => c.cell (i + j)) ∧
      ∀ x, x ≠ v.data → m'.block x = m.block x := by
  induction n generalizing m b i with
  | zero => exact ⟨m, rfl, by simpa using h, fun _ _ => rfl⟩
  | succ n ih =>
    have hlt : i < b.length := by
      rw [h.length]
      omega
    obtain ⟨hne, hbs⟩ := hsrc (by omega)
    have hb := h.block (h.data_ne (i := i) (by omega))
    obtain ⟨a, ha⟩ := Option.isSome_iff_exists.mp (hs i (by omega) (by omega))
    obtain ⟨m', hrun, hm', hsame⟩ := ih (h.put (c := b.set i (some a)) rfl) (i := i + 1) (by omega)
      (fun _ => ⟨hne, by rw [BlockHeap.put_block_ne _ _ hne]; exact hbs⟩) (by omega)
      fun j hj hj' => hs j (by omega) (by omega)
    refine ⟨m', ?_, ?_, fun x hx => ?_⟩
    · simp only [Vec.copyElems]
      rw [BlockHeap.readElem_of_block hbs (by omega) ha]
      simp only [ok_bind]
      rw [BlockHeap.construct_of_block a hb hlt]
      exact hrun
    · have hset := CellBlock.set_paste_begin b i n fun j => c.cell (i + j)
      simp only [Nat.add_zero, ha] at hset
      rw [← hset]
      simpa [Nat.add_assoc, Nat.add_comm 1] using hm'
    · rw [hsame x hx, BlockHeap.put_block_ne _ _ hx]

/-- What a reallocation leaves: the elements in a block of at least `n` cells. -/
def Grown (t : ElemType α) (m : BlockHeap α) (v : Vec) (b : CellBlock α) (n : Nat)
    (r : BlockHeap α × Vec) : Prop :=
  r.2.size = v.size ∧ n ≤ r.2.capacity ∧ Keeps m v.data r.1 r.2.data ∧
    ∃ b', Storage t r.1 r.2 b' ∧ ∀ j < v.size, b'.cell j = b.cell j

theorem grown_refl (h : Storage t m v b) (hn : n ≤ v.capacity) : Grown t m v b n (m, v) :=
  ⟨rfl, hn, .refl m v.data, b, h, fun _ _ => rfl⟩

/-- Moving the elements to a new block and freeing the old one. -/
theorem relocate (h : Storage t m v b) (h0 : v.data ≠ 0) {p : Nat} (hp : p ≠ 0)
    (hn : v.size ≤ n) (hn0 : n ≠ 0) (hroom : p + t.size * n < 2 ^ 64) (hfresh : m.block p = none)
    (hb : m'.block p = some ⟨n, fun _ => none⟩)
    (hsame : ∀ x, x ≠ p → m'.block x = m.block x) :
    ∃ m'', v.relocate t m' p = .ok m'' ∧
      Grown t m v b n (m'', { v with data := p, capacity := n }) := by
  have hne : p ≠ v.data := by
    rintro rfl
    rw [h.block h0] at hfresh
    cases hfresh
  have hold : m'.block v.data = some b := by
    rw [hsame _ hne.symm]
    exact h.block h0
  have hmove := BlockHeap.memmove_across (n := v.size) t hne hb hold hn (by rw [h.length]; exact h.le)
  let b' := CellBlock.paste ⟨n, fun _ => none⟩ 0 v.size b.cell
  obtain ⟨m'', hfree, hgone, hother⟩ := BlockHeap.free_of_block (m := m'.put p b') h0
    (by rw [BlockHeap.put_block_ne _ _ hne.symm]; exact hold)
  have hkeep : ∀ x, x ≠ p → x ≠ v.data → m''.block x = m.block x := by
    intro x hx hx'
    rw [hother x hx', BlockHeap.put_block_ne _ _ hx, hsame x hx]
  refine ⟨m'', ?_, rfl, Nat.le_refl n, ⟨fun x bx _ hx hbx => ?_, .inr (.inr hfresh)⟩, b', ?_, ?_⟩
  · unfold Vec.relocate
    rw [hmove]
    exact hfree
  · have hxp : x ≠ p := by
      rintro rfl
      rw [hfresh] at hbx
      cases hbx
    rw [hkeep x hxp hx]
    exact hbx
  · refine ⟨⟨fun h' => absurd h' hp, fun h' => absurd h' hn0⟩, hn, hroom, rfl, fun _ => ?_⟩
    rw [hother _ hne, BlockHeap.put_block_self]
  · intro j hj
    rw [CellBlock.paste_cell, if_pos (by omega), Nat.sub_zero]

/-- **`grow`** -/
theorem grow (h : Storage t m v b) (hn : v.size ≤ n) (hn0 : 0 < n) :
    Runs (Grown t m v b n) (v.grow t m n) := by
  unfold Vec.grow
  simp only
  generalize (if v.capacity ≠ 0 then wrap64 (v.capacity * 2) else 4) = twice
  generalize hcap : (if twice < n then n else twice) = newCap
  have hle : n ≤ newCap := by
    rw [← hcap]
    split <;> omega
  refine Runs.bind (BlockHeap.malloc_runs t m newCap) ?_
  rintro ⟨m1, p⟩ ⟨hp, hroom, hfresh, hb, hsame⟩
  by_cases h0 : v.data = 0
  · -- nothing to move: there are no elements
    have hz := h.null.mp h0
    have hs := h.le
    refine Runs.bind_ok (a := m1) (if_neg (by simpa using h0)) ?_
    refine ⟨rfl, hle, ⟨fun x bx _ hx hbx => ?_, .inr (.inr hfresh)⟩, ⟨newCap, fun _ => none⟩, ?_, ?_⟩
    · rw [hsame]
      · exact hbx
      · rintro rfl
        rw [hfresh] at hbx
        cases hbx
    · refine ⟨⟨fun h' => absurd h' hp, fun h' => ?_⟩, ?_, hroom, rfl, fun _ => hb⟩
      · simp only at h'
        omega
      · show v.size ≤ newCap
        omega
    · intro j hj
      omega
  · obtain ⟨m2, hrun, hgrown⟩ := h.relocate h0 hp (by omega : v.size ≤ newCap) (by omega) hroom
      hfresh hb hsame
    refine Runs.bind_ok ((if_pos h0).trans hrun) ?_
    exact ⟨hgrown.1, Nat.le_trans hle hgrown.2.1, hgrown.2.2⟩

/-- **`reserve`** -/
theorem reserve (h : Storage t m v b) (n : Nat) : Runs (Grown t m v b n) (v.reserve t m n) := by
  have hle := h.le
  unfold Vec.reserve
  split
  · exact h.grow (by omega) (by omega)
  · exact h.grown_refl (by omega)

/-- **`shift_right`** opens a gap of `n` cells at `i`. -/
theorem shiftRight (h : Storage t m v b) (hi : i ≤ v.size) (hn : 0 < n)
    (hfit : v.size + n < 2 ^ 64) :
    Runs (fun r => r.2.size = v.size ∧ v.size + n ≤ r.2.capacity ∧ Keeps m v.data r.1 r.2.data ∧
      ∃ b', Storage t r.1 r.2 b' ∧ (∀ j < i, b'.cell j = b.cell j) ∧
        ∀ j, i ≤ j → j < v.size → b'.cell (j + n) = b.cell j) (v.shiftRight t m i n) := by
  have hgrown := h.reserve (v.size + n)
  unfold Vec.shiftRight
  rw [wrap64_of_lt hfit]
  refine Runs.bind hgrown ?_
  rintro ⟨m1, v1⟩ ⟨hsize, hcap, hkeeps, b1, h1, hcells⟩
  simp only at hsize hcap hkeeps h1
  have hb1 := h1.block (h1.data_ne (i := i) (by omega))
  have hlen := h1.length
  have hsub : sub64 v1.size i = v.size - i := by
    rw [hsize]
    exact sub64_of_le hi h.size_lt
  have hmove := BlockHeap.memmove_within t (i + n) i (v.size - i) hb1 (by omega) (by omega)
  simp only
  rw [hsub]
  refine Runs.bind_ok hmove ⟨hsize, hcap, ?_, _, h1.put rfl, ?_, ?_⟩
  · exact hkeeps.trans (.of_same fun x hx => BlockHeap.put_block_ne _ _ hx)
  · intro j hj
    rw [CellBlock.paste_cell, if_neg (by omega)]
    exact hcells j (by omega)
  · intro j hj hj'
    rw [CellBlock.paste_cell, if_pos (by omega), ← hcells j hj']
    congr 1
    omega

/-- **`shift_left`** closes a gap of `n` cells at `i`. -/
theorem shiftLeft (h : Storage t m v b) (hi : i + n ≤ v.size) (h0 : 0 < v.size) :
    ∃ m', v.shiftLeft t m i n = .ok m' ∧ (∀ x, x ≠ v.data → m'.block x = m.block x) ∧
      ∃ b', Storage t m' v b' ∧ (∀ j < i, b'.cell j = b.cell j) ∧
        ∀ j, i ≤ j → j + n < v.size → b'.cell j = b.cell (j + n) := by
  have hle := h.le
  have hlen := h.length
  have hlt := h.size_lt
  have hb := h.block (h.data_ne (i := 0) (by omega))
  have hsub : sub64 (sub64 v.size i) n = v.size - i - n := by
    rw [sub64_of_le (by omega) hlt, sub64_of_le (by omega) (by omega)]
  have hmove := BlockHeap.memmove_within t i (i + n) (v.size - i - n) hb (by omega) (by omega)
  let b' := b.paste i (v.size - i - n) fun j => b.cell (i + n + j)
  refine ⟨m.put v.data b', ?_, fun x hx => BlockHeap.put_block_ne _ _ hx, b', h.put rfl, ?_, ?_⟩
  · unfold Vec.shiftLeft
    rw [hsub]
    exact hmove
  · intro j hj
    rw [CellBlock.paste_cell, if_neg (by omega)]
  · intro j hj hj'
    rw [CellBlock.paste_cell, if_pos (by omega)]
    congr 1
    omega

end Storage

end HelixKernel
