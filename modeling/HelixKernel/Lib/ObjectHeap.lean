import HelixKernel.Lib.BlockHeap
import HelixKernel.Lib.Ledger

/-!
Buffers whose cells hold objects with lifetimes.

`construct` gives the object it makes a name of its own and needs a cell without an object;
`destroy` and every read need a live object; `memmove` takes objects out of their cells and
puts them down in others, none of which may hold one; `free` needs a buffer of `malloc` in
which no object lives.  A buffer is as long as `malloc` was asked for in bytes, which is less
than its cells where `sizeof(T) * n` has wrapped.

The heap carries its own accounts: every object ever constructed is in one cell or has been
destroyed, once, and every buffer is there or has been freed, once. -/

namespace HelixKernel

structure Obj (α : Type) where
  id : Nat
  value : α

/-- A buffer of `malloc(sizeof(T) * length)`. -/
structure Buffer where
  id : Nat
  length : Nat

/-- The bytes that `malloc` was asked for. -/
def Buffer.bytes {α : Type} (t : ElemType α) (b : Buffer) : Nat := wrap64 (t.size * b.length)

/-- What a constructor gets: a value, or a reference to the element in cell `i` of the buffer
at `p`, which is read when the constructor runs. -/
inductive Arg (α : Type) where
  | value (a : α)
  | elem (p i : Nat)

/-- The heap, what `malloc` will return, and the accounts; `reads` are the objects read through
references, the latest first. -/
structure ObjHeap {α : Type} (t : ElemType α) where
  block : Nat → Option Buffer
  cell : Nat × Nat → Option (Obj α)
  supply : List Nat
  constructed : Nat
  destroyed : List Nat
  allocated : Nat
  freed : List Nat
  reads : List Nat
  null : block 0 = none
  inside : ∀ p i o, cell (p, i) = some o →
    ∃ b, block p = some b ∧ i < b.length ∧ t.size * (i + 1) ≤ b.bytes t
  objects : Ledger constructed destroyed fun k => (cell k).map Obj.id
  buffers : Ledger allocated freed fun p => (block p).map Buffer.id

namespace ObjHeap

variable {α : Type} {t : ElemType α}

/-- Nothing has been allocated yet. -/
def start (t : ElemType α) (supply : List Nat) : ObjHeap t where
  block := fun _ => none
  cell := fun _ => none
  supply := supply
  constructed := 0
  destroyed := []
  allocated := 0
  freed := []
  reads := []
  null := rfl
  inside := fun _ _ _ h => nomatch h
  objects := .empty
  buffers := .empty

/-- The buffer at `p` has its first `n` cells. -/
def Within (m : ObjHeap t) (p n : Nat) : Prop :=
  match m.block p with
  | some b => n ≤ b.length ∧ t.size * n ≤ b.bytes t
  | none => False

/-- It has been allocated for them, but with too few bytes. -/
def Short (m : ObjHeap t) (p n : Nat) : Prop :=
  match m.block p with
  | some b => n ≤ b.length ∧ b.bytes t < t.size * n
  | none => False

theorem within_of_block {m : ObjHeap t} {p n : Nat} {b : Buffer} (hb : m.block p = some b) :
    m.Within p n ↔ n ≤ b.length ∧ t.size * n ≤ b.bytes t := by
  simp only [Within, hb]

theorem short_of_block {m : ObjHeap t} {p n : Nat} {b : Buffer} (hb : m.block p = some b) :
    m.Short p n ↔ n ≤ b.length ∧ b.bytes t < t.size * n := by
  simp only [Short, hb]

instance (m : ObjHeap t) (p n : Nat) : Decidable (m.Within p n) :=
  match hb : m.block p with
  | some _ => decidable_of_iff _ (within_of_block hb).symm
  | none => .isFalse fun h => by simp only [Within, hb] at h

instance (m : ObjHeap t) (p n : Nat) : Decidable (m.Short p n) :=
  match hb : m.block p with
  | some _ => decidable_of_iff _ (short_of_block hb).symm
  | none => .isFalse fun h => by simp only [Short, hb] at h

theorem Within.block {m : ObjHeap t} {p n : Nat} (h : m.Within p n) :
    ∃ b, m.block p = some b ∧ n ≤ b.length ∧ t.size * n ≤ b.bytes t := by
  cases hb : m.block p with
  | none =>
    simp only [Within, hb] at h
  | some b => exact ⟨b, rfl, (within_of_block hb).mp h⟩

theorem Within.mono {m : ObjHeap t} {p n k : Nat} (h : m.Within p n) (hk : k ≤ n) :
    m.Within p k := by
  obtain ⟨b, hb, hl, hbytes⟩ := h.block
  have := Nat.mul_le_mul_left t.size hk
  exact (within_of_block hb).mpr ⟨by omega, by omega⟩

theorem within_congr {m m' : ObjHeap t} {p n : Nat} (hb : m'.block = m.block) :
    m'.Within p n ↔ m.Within p n := by
  simp only [Within, hb]

theorem within_of_cell {m : ObjHeap t} {p i : Nat} {o : Obj α} (h : m.cell (p, i) = some o) :
    m.Within p (i + 1) := by
  obtain ⟨b, hb, hl, hbytes⟩ := m.inside p i o h
  exact (within_of_block hb).mpr ⟨hl, hbytes⟩

/-- Where there is no buffer there is no object. -/
theorem cell_of_block {m : ObjHeap t} {p : Nat} (hb : m.block p = none) (i : Nat) :
    m.cell (p, i) = none := by
  cases hc : m.cell (p, i) with
  | none => rfl
  | some o =>
    obtain ⟨b, hb', -⟩ := m.inside p i o hc
    rw [hb] at hb'
    cases hb'

/-! ## Buffers -/

theorem map_update {κ β γ : Type} [DecidableEq κ] (f : κ → Option β) (k : κ) (c : Option β)
    (g : β → γ) : (fun l => (Function.update f k c l).map g) =
      Function.update (fun l => (f l).map g) k (c.map g) :=
  Function.comp_update (Option.map g) f k c

/-- `malloc(sizeof(T) * n)` -/
def malloc (m : ObjHeap t) (n : Nat) : Except HeapFault (ObjHeap t × Nat) :=
  match m.supply with
  | [] => .error .noMemory
  | p :: supply =>
    if h : p ≠ 0 ∧ (m.block p).isNone = true then
      .ok ({ m with
        block := Function.update m.block p (some ⟨m.allocated, n⟩)
        supply := supply
        allocated := m.allocated + 1
        null := by
          rw [Function.update_of_ne h.1.symm]
          exact m.null
        inside := fun q i o hc => by
          obtain ⟨b, hb, hin⟩ := m.inside q i o hc
          refine ⟨b, ?_, hin⟩
          have hq : q ≠ p := by
            rintro rfl
            simp [hb] at h
          rw [Function.update_of_ne hq]
          exact hb
        buffers := by
          rw [map_update]
          exact m.buffers.issue (by simpa using h.2) }, p)
    else .error .noMemory

/-- `free(p)`; no object may live in the buffer. -/
def free (m : ObjHeap t) (p : Nat) : Except HeapFault (ObjHeap t) :=
  if p = 0 then .ok m
  else
    match hb : m.block p with
    | none => .error (.free p)
    | some b =>
      if h : ∀ i < b.length, (m.cell (p, i)).isNone = true then
        .ok { m with
          block := Function.update m.block p none
          freed := b.id :: m.freed
          null := by
            by_cases h0 : 0 = p
            · rw [h0, Function.update_self]
            · rw [Function.update_of_ne h0]
              exact m.null
          inside := fun q i o hc => by
            obtain ⟨c, hq, hin⟩ := m.inside q i o hc
            refine ⟨c, ?_, hin⟩
            have hne : q ≠ p := by
              rintro rfl
              rw [hb] at hq
              cases hq
              have := h i hin.1
              simp [hc] at this
            rw [Function.update_of_ne hne]
            exact hq
          buffers := by
            rw [map_update]
            exact m.buffers.retire (by simp [hb]) }
      else .error (.free p)

/-! ## Objects -/

/-- What the constructor sees: the value, and the object it is read from. -/
def refers (m : ObjHeap t) : Arg α → Option (List Nat × α)
  | .value a => some ([], a)
  | .elem p i => (m.cell (p, i)).map fun o => ([o.id], o.value)

/-- `new (p + i) T(arg)` -/
def construct (m : ObjHeap t) (p i : Nat) (arg : Arg α) : Except HeapFault (ObjHeap t) :=
  match m.refers arg with
  | none => .error (.access p)
  | some (ids, a) =>
    if h : m.Within p (i + 1) ∧ (m.cell (p, i)).isNone = true then
      .ok { m with
        cell := Function.update m.cell (p, i) (some ⟨m.constructed, a⟩)
        constructed := m.constructed + 1
        reads := ids ++ m.reads
        inside := fun q j o hc => by
          by_cases hq : (q, j) = (p, i)
          · cases hq
            exact h.1.block
          · rw [Function.update_of_ne hq] at hc
            exact m.inside q j o hc
        objects := by
          rw [map_update]
          exact m.objects.issue (by simpa using h.2) }
    else if m.Short p (i + 1) then .error .overflow
    else .error (.access p)

/-- `p[i].~T()` -/
def destroy (m : ObjHeap t) (p i : Nat) : Except HeapFault (ObjHeap t) :=
  match hc : m.cell (p, i) with
  | none => .error (.access p)
  | some o =>
    .ok { m with
      cell := Function.update m.cell (p, i) none
      destroyed := o.id :: m.destroyed
      inside := fun q j o' hc' => by
        by_cases hq : (q, j) = (p, i)
        · rw [hq, Function.update_self] at hc'
          cases hc'
        · rw [Function.update_of_ne hq] at hc'
          exact m.inside q j o' hc'
      objects := by
        rw [map_update]
        exact m.objects.retire (by simp [hc]) }

/-- Cell `k` is one of the `n` from `i` on of the buffer at `p`. -/
def InRange (p i n : Nat) (k : Nat × Nat) : Prop := k.1 = p ∧ i ≤ k.2 ∧ k.2 < i + n

instance (p i n : Nat) (k : Nat × Nat) : Decidable (InRange p i n k) :=
  inferInstanceAs (Decidable (_ ∧ _ ∧ _))

/-- The cells once the objects of a range are taken out, -/
def lifted (m : ObjHeap t) (src si n : Nat) (k : Nat × Nat) : Option (Obj α) :=
  if InRange src si n k then none else m.cell k

/-- and once they are put down again. -/
def moved (m : ObjHeap t) (dst di src si n : Nat) (k : Nat × Nat) : Option (Obj α) :=
  if InRange dst di n k then m.cell (src, si + (k.2 - di)) else m.lifted src si n k

/-- No other buffer takes part. -/
theorem lifted_other (m : ObjHeap t) {src x : Nat} (hx : x ≠ src) (si n i : Nat) :
    m.lifted src si n (x, i) = m.cell (x, i) :=
  if_neg fun h => hx h.1

theorem moved_other (m : ObjHeap t) {dst src x : Nat} (hd : x ≠ dst) (hs : x ≠ src)
    (di si n i : Nat) : m.moved dst di src si n (x, i) = m.cell (x, i) := by
  rw [moved, if_neg fun h => hd h.1, lifted_other m hs]

theorem moved_of_not {m : ObjHeap t} {dst di src si n : Nat} {k : Nat × Nat} {o : Obj α}
    (hk : ¬ InRange dst di n k) (h : m.moved dst di src si n k = some o) :
    ¬ InRange src si n k ∧ m.cell k = some o := by
  rw [moved, if_neg hk, lifted] at h
  by_cases hs : InRange src si n k
  · rw [if_pos hs] at h
    cases h
  · rw [if_neg hs] at h
    exact ⟨hs, h⟩

/-- Nothing is lost where the cells moved to are empty, and nothing is in two cells. -/
theorem moved_ledger (m : ObjHeap t) {dst di src si n : Nat}
    (hfree : ∀ j < n, (m.lifted src si n (dst, di + j)).isNone = true) :
    Ledger m.constructed m.destroyed fun k => (m.moved dst di src si n k).map Obj.id := by
  let from' : Nat × Nat → Nat × Nat := fun k =>
    if InRange dst di n k then (src, si + (k.2 - di)) else k
  refine m.objects.move from' (fun k id hk => ?_) (fun k l id hk hl heq => ?_) (fun k id hk => ?_)
  · obtain ⟨o, ho, rfl⟩ := Option.map_eq_some_iff.mp hk
    by_cases hd : InRange dst di n k
    · rw [moved, if_pos hd] at ho
      simp [from', hd, ho]
    · simp [from', hd, (moved_of_not hd ho).2]
  · obtain ⟨o, ho, -⟩ := Option.map_eq_some_iff.mp hk
    obtain ⟨o', ho', -⟩ := Option.map_eq_some_iff.mp hl
    by_cases hkd : InRange dst di n k
    · by_cases hld : InRange dst di n l
      · obtain ⟨k1, k2⟩ := k
        obtain ⟨l1, l2⟩ := l
        simp only [from', hkd, hld, if_true, Prod.mk.injEq, true_and] at heq
        simp only [InRange] at hkd hld
        rw [Prod.mk.injEq]
        omega
      · -- the source of `k` is in the range that is lifted, `l` is not
        refine absurd ?_ (moved_of_not hld ho').1
        simp only [from', hkd, hld, if_true, if_false] at heq
        simp only [InRange] at hkd
        rw [← heq]
        exact ⟨rfl, by omega, by omega⟩
    · by_cases hld : InRange dst di n l
      · refine absurd ?_ (moved_of_not hkd ho).1
        simp only [from', hkd, hld, if_true, if_false] at heq
        simp only [InRange] at hld
        rw [heq]
        exact ⟨rfl, by omega, by omega⟩
      · simpa only [from', hkd, hld, if_false] using heq
  · obtain ⟨o, ho, rfl⟩ := Option.map_eq_some_iff.mp hk
    obtain ⟨k1, k2⟩ := k
    by_cases hs : InRange src si n (k1, k2)
    · simp only [InRange] at hs
      refine ⟨(dst, di + (k2 - si)), ?_⟩
      have hin : InRange dst di n (dst, di + (k2 - si)) := ⟨rfl, by omega, by omega⟩
      have hback : si + (di + (k2 - si) - di) = k2 := by omega
      rw [moved, if_pos hin, hback, ← hs.1, ho]
      rfl
    · have hlift : m.lifted src si n (k1, k2) = some o := by
        rw [lifted, if_neg hs, ho]
      have hd : ¬ InRange dst di n (k1, k2) := by
        intro hd
        simp only [InRange] at hd
        have := hfree (k2 - di) (by omega)
        rw [Nat.add_sub_cancel' hd.2.1, ← hd.1, hlift] at this
        cases this
      exact ⟨(k1, k2), by rw [moved, if_neg hd, hlift]; rfl⟩

/-- `memmove(dst + di, src + si, sizeof(T) * n)` -/
def memmove (m : ObjHeap t) (dst di src si n : Nat) : Except HeapFault (ObjHeap t) :=
  if n = 0 then .ok m
  else if h : m.Within src (si + n) ∧ m.Within dst (di + n) ∧
      ∀ j < n, (m.lifted src si n (dst, di + j)).isNone = true then
    .ok { m with
      cell := m.moved dst di src si n
      inside := fun q i o hc => by
        by_cases hd : InRange dst di n (q, i)
        · obtain ⟨rfl, hlo, hhi⟩ := hd
          exact (h.2.1.mono (show i + 1 ≤ di + n from hhi)).block
        · exact m.inside q i o (moved_of_not hd hc).2
      objects := m.moved_ledger h.2.2 }
  else if m.Short src (si + n) ∨ m.Short dst (di + n) then .error .overflow
  else .error (.access dst)

/-! ## What they do -/

/-- `malloc` has a pointer to return. -/
def Supplies (m : ObjHeap t) : Prop :=
  ∃ p supply, m.supply = p :: supply ∧ p ≠ 0 ∧ m.block p = none

section

variable {m m' : ObjHeap t} {p i n : Nat} {b : Buffer}

theorem malloc_runs (m : ObjHeap t) (n : Nat) :
    RunsUnless (¬ m.Supplies) False (fun r => r.2 ≠ 0 ∧ m.block r.2 = none ∧
      (∃ id, r.1.block = Function.update m.block r.2 (some ⟨id, n⟩)) ∧ r.1.cell = m.cell ∧
      r.1.reads = m.reads) (m.malloc n) := by
  unfold malloc
  split
  · rename_i hs
    rintro ⟨p, supply, hp, -⟩
    rw [hs] at hp
    cases hp
  · rename_i p supply hs
    split
    · rename_i h
      exact ⟨h.1, by simpa using h.2, ⟨_, rfl⟩, rfl, rfl⟩
    · rename_i h
      rintro ⟨q, supply', hq, h0, hb⟩
      rw [hs] at hq
      cases hq
      exact h ⟨h0, by simp [hb]⟩

theorem free_of_block (hb : m.block p = some b) (hdead : ∀ i, m.cell (p, i) = none) :
    ∃ m', m.free p = .ok m' ∧ m'.block = Function.update m.block p none ∧ m'.cell = m.cell ∧
      m'.reads = m.reads := by
  have h0 : p ≠ 0 := by
    rintro rfl
    rw [m.null] at hb
    cases hb
  unfold free
  rw [if_neg h0]
  split
  · rename_i hn
    rw [hn] at hb
    cases hb
  · rename_i c hc
    rw [dif_pos fun i _ => by simp [hdead i]]
    exact ⟨_, rfl, rfl, rfl, rfl⟩

theorem short_of_not_within (hb : m.block p = some b) (hn : n ≤ b.length) (h : ¬ m.Within p n) :
    m.Short p n := by
  rw [within_of_block hb] at h
  rw [short_of_block hb]
  omega

theorem construct_runs {arg : Arg α} {ids : List Nat} {a : α} (hr : m.refers arg = some (ids, a))
    (hb : m.block p = some b) (hi : i < b.length) (hc : m.cell (p, i) = none) :
    RunsUnless False (¬ m.Within p (i + 1)) (fun m' => m'.block = m.block ∧
      m'.cell = Function.update m.cell (p, i) (some ⟨m.constructed, a⟩) ∧
      m'.reads = ids ++ m.reads) (m.construct p i arg) := by
  unfold construct
  rw [hr]
  split
  · rename_i heq
    cases heq
  · rename_i ids' a' heq
    cases heq
    split
    · exact ⟨rfl, rfl, rfl⟩
    · rename_i h
      have hw : ¬ m.Within p (i + 1) := fun hw => h ⟨hw, by simp [hc]⟩
      rw [if_pos (short_of_not_within hb hi hw)]
      exact hw

/-- A constructor that returns has read its argument and has written into the buffer. -/
theorem construct_ok {arg : Arg α} (h : m.construct p i arg = .ok m') :
    ∃ ids a, m.refers arg = some (ids, a) ∧ m.Within p (i + 1) ∧ m'.block = m.block ∧
      m'.cell = Function.update m.cell (p, i) (some ⟨m.constructed, a⟩) ∧
      m'.reads = ids ++ m.reads := by
  unfold construct at h
  split at h
  · cases h
  · rename_i ids a hr
    split at h
    · rename_i hw
      cases h
      exact ⟨ids, a, hr, hw.1, rfl, rfl, rfl⟩
    · split at h
      · cases h
      · cases h

theorem destroy_of_cell {o : Obj α} (hc : m.cell (p, i) = some o) :
    ∃ m', m.destroy p i = .ok m' ∧ m'.block = m.block ∧
      m'.cell = Function.update m.cell (p, i) none ∧ m'.reads = m.reads := by
  unfold destroy
  split
  · rename_i hn
    rw [hn] at hc
    cases hc
  · exact ⟨_, rfl, rfl, rfl, rfl⟩

theorem refers_of_cell (hc : ∀ k o, m.cell k = some o → m'.cell k = some o) {arg : Arg α}
    {r : List Nat × α} (h : m.refers arg = some r) : m'.refers arg = some r := by
  cases arg with
  | value a => exact h
  | elem p i =>
    obtain ⟨o, ho, rfl⟩ := Option.map_eq_some_iff.mp h
    simp only [refers, hc _ o ho, Option.map_some]

theorem moved_zero (m : ObjHeap t) (dst di src si : Nat) : m.moved dst di src si 0 = m.cell := by
  funext k
  rw [moved, if_neg (by simp only [InRange]; omega), lifted, if_neg (by simp only [InRange]; omega)]

theorem memmove_runs (di si n : Nat) {dst src : Nat} {c : Buffer} (hs : m.block src = some c)
    (hsl : si + n ≤ c.length) (hd : m.block dst = some b) (hdl : di + n ≤ b.length)
    (hfree : ∀ j < n, m.lifted src si n (dst, di + j) = none) :
    RunsUnless False (0 < n ∧ ¬ (m.Within src (si + n) ∧ m.Within dst (di + n)))
      (fun m' => m'.block = m.block ∧ m'.cell = m.moved dst di src si n ∧ m'.reads = m.reads)
      (m.memmove dst di src si n) := by
  unfold memmove
  split
  · rename_i h0
    subst h0
    exact ⟨rfl, (moved_zero m dst di src si).symm, rfl⟩
  · split
    · exact ⟨rfl, rfl, rfl⟩
    · rename_i h0 h
      have hw : ¬ (m.Within src (si + n) ∧ m.Within dst (di + n)) := by
        rintro ⟨hws, hwd⟩
        exact h ⟨hws, hwd, fun j hj => by simp [hfree j hj]⟩
      have hshort : m.Short src (si + n) ∨ m.Short dst (di + n) := by
        by_cases hws : m.Within src (si + n)
        · exact .inr (short_of_not_within hd hdl fun hwd => hw ⟨hws, hwd⟩)
        · exact .inl (short_of_not_within hs hsl hws)
      rw [if_pos hshort]
      exact ⟨by omega, hw⟩

theorem memmove_ok {dst di src si : Nat} (h : m.memmove dst di src si n = .ok m') :
    (0 < n → m.Within dst (di + n)) ∧ m'.block = m.block ∧ m'.cell = m.moved dst di src si n ∧
      m'.reads = m.reads := by
  unfold memmove at h
  split at h
  · rename_i h0
    subst h0
    cases h
    exact ⟨fun h => absurd h (by omega), rfl, (moved_zero m dst di src si).symm, rfl⟩
  · split at h
    · rename_i hw
      cases h
      exact ⟨fun _ => hw.2.1, rfl, rfl, rfl⟩
    · split at h
      · cases h
      · cases h

end

/-! ## Accounts -/

/-- An object in a cell has not been destroyed and is in no other cell. -/
theorem alive (m : ObjHeap t) {k : Nat × Nat} {o : Obj α} (h : m.cell k = some o) :
    o.id ∉ m.destroyed ∧ ∀ l o', m.cell l = some o' → o'.id = o.id → l = k := by
  have hk : (m.cell k).map Obj.id = some o.id := by
    rw [h]
    rfl
  refine ⟨(m.objects.held k o.id hk).2, fun l o' hl hid => ?_⟩
  have hl' : (m.cell l).map Obj.id = some o.id := by
    rw [hl, ← hid]
    rfl
  exact m.objects.one l k o.id hl' hk

end ObjHeap

end HelixKernel
