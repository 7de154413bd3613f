import HelixKernel.Extra.LiballocOps
import Mathlib.Algebra.BigOperators.Group.Finset.Basic
import Mathlib.Algebra.Order.BigOperators.Group.Finset
import Mathlib.Order.Interval.Finset.Nat

/-!
# Runs of the heap

`MallocReach s out`: the state `s` comes from the start by `malloc` and `free`, each with its own
honest page provider, while everyone else writes where they please: into the blocks `out`, and
outside of the pages that the heap holds.  With its tag a block has to stay below 4 GiB: sizes and
the addresses of tags are cut to 32 bits.

    blocks_apart      blocks are in memory, no byte is in two of them, and a new one is none of them
    malloc_returns    `malloc` and `free` return, and no other block's bytes change
    regions_ok        every page held is in one tag, no two free tags are neighbours, and the free
                      ones of a size are those on its list
    nothing_out       with no block left, at most 85 regions are held, five for each list from the
                      fifteenth on, each of them one free tag -/

namespace HelixKernel

inductive MallocReach : Liballoc → Finset (Nat × Nat) → Prop
  | start {s : Liballoc} (hi : s.initialized = false) (hc : s.calls = []) : MallocReach s ∅
  | malloc {s s' : Liballoc} {out : Finset (Nat × Nat)} {P : PageProvider} {n p : Nat}
      (hs : MallocReach s out) (hP : P.Honest) (hn : n + tagSize < 2 ^ 32)
      (h : s.malloc P n = .ok (s', p)) : MallocReach s' (if p = 0 then out else insert (p, n) out)
  | free {s s' : Liballoc} {out : Finset (Nat × Nat)} {P : PageProvider} {p n : Nat}
      (hs : MallocReach s out) (hP : P.Honest) (hp : (p, n) ∈ out) (h : s.free P p = .ok s') :
      MallocReach s' (out.erase (p, n))
  | elsewhere {s : Liballoc} {out : Finset (Nat × Nat)} {held : List (Nat × Nat)} {m : ByteMem}
      (hs : MallocReach s out) (hheld : HeldPages s.calls held)
      (h : ∀ q k, (q, k) ∈ held → ∀ x, q ≤ x → x < q + k * lPageSize →
        (m.byte x).isSome = (s.mem.byte x).isSome ∧
        ((∀ p n, (p, n) ∈ out → x < p ∨ p + n ≤ x) → m.byte x = s.mem.byte x)) :
      MallocReach { s with mem := m } out

/-- The page provider's calls say what is held. -/
theorem HeldPages.unique {calls : List PageCall} {held held' : List (Nat × Nat)} (h : HeldPages calls held)
    (h' : HeldPages calls held') : held = held' := by
  induction h generalizing held' with
  | nil =>
    cases h'
    rfl
  | alloc _ p n ih =>
    cases h' with
    | alloc h' => rw [ih h']
  | free _ _ ih =>
    cases h' with
    | free h' _ => rw [ih h']

/-! ## The invariant -/

theorem heapState_setUp {s : Liballoc} (hi : s.initialized = false) (hc : s.calls = []) :
    HeapState s.setUp ∅ := by
  have hset : s.setUp = { s with
      freePages := fun _ => 0, completePages := fun _ => 0, initialized := true } := by
    rw [Liballoc.setUp, hi]
    rfl
  rw [hset]
  refine ⟨⟨fun _ _ => 0, fun _ => 0, fun _ => 0, []⟩, [], fun _ => [],
    ⟨by simp [allTags], by simp [allTags], by simp [allTags], fun _ _ => rfl, fun _ => rfl, rfl, rfl, hc,
      rfl⟩, ?_, by simp⟩
  have hno : ∀ t, ¬ Live [] t := by simp [Live]
  refine ⟨by simp, by simp, by simp, .nil, by simp, fun t ht => absurd ht (hno t), ?_,
    fun t ht => absurd ht (hno t), by simp, by simp [maxComplete], ⟨[], .nil, by simp⟩, ?_⟩
  · exact ⟨fun _ _ => .nil _ _ _, fun _ _ => rfl, fun i _ t => by simp [hno t],
      fun t ht => absurd ht (hno t), fun t ht => absurd ht (hno t)⟩
  · exact ⟨fun p n => by simp [hno], fun t ht => absurd ht (hno t)⟩

/-- Every byte that the others leave alone is that of a tag, or of a free block. -/
theorem HeapState.elsewhere {s : Liballoc} {out : Finset (Nat × Nat)} {held : List (Nat × Nat)}
    {m : ByteMem} (hs : HeapState s out) (hheld : HeldPages s.calls held)
    (h : ∀ q k, (q, k) ∈ held → ∀ x, q ≤ x → x < q + k * lPageSize →
      (m.byte x).isSome = (s.mem.byte x).isSome ∧
      ((∀ p n, (p, n) ∈ out → x < p ∨ p + n ≤ x) → m.byte x = s.mem.byte x)) :
    HeapState { s with mem := m } out := by
  obtain ⟨a, As, bins, hholds, hinv, hmap⟩ := hs
  obtain ⟨held', hheld', hperm⟩ := hinv.held
  obtain rfl := hheld.unique (hholds.log ▸ hheld')
  have harena : ∀ A ∈ As, (A.start, A.pages) ∈ held := fun A hA =>
    hperm.mem_iff.mpr (List.mem_map.mpr ⟨A, hA, rfl⟩)
  refine ⟨a, As, bins, ?_, hinv, fun A hA i hi => ?_⟩
  · have hremem := hholds.remem (m := m) (List.Subset.refl _) (fun t ht x hx hx' => ?_) s.calls
    · rwa [hholds.log] at hremem ⊢
    · obtain ⟨A, hA, htA⟩ := mem_allTags.mp ht
      have hbounds := hinv.tag_bounds hA htA
      simp only [Arena.stop] at hbounds
      refine (h _ _ (harena A hA) x (by omega) (by omega)).2 fun p n hp => ?_
      by_contra hin
      have hout := hinv.block_not_in_tag hp (x := x) (by omega) ⟨A, hA, htA⟩
      omega
  · obtain ⟨c, hc⟩ := hmap A hA i hi
    have hsome := (h _ _ (harena A hA) (A.start + i) (by omega) (by omega)).1
    rw [hc] at hsome
    exact Option.isSome_iff_exists.mp hsome

theorem Liballoc.setUp_mem (s : Liballoc) : s.setUp.mem = s.mem := by
  unfold setUp
  split <;> rfl

/-- The first `malloc` sets up the heap. -/
theorem Liballoc.malloc_setUp (s : Liballoc) (P : PageProvider) (n : Nat) :
    s.setUp.malloc P n = s.malloc P n := by
  have hset : s.setUp.setUp = s.setUp := by
    unfold setUp
    by_cases hi : s.initialized = true
    · simp [hi]
    · simp [hi]
  rw [malloc, malloc, hset]

/-- Nothing has been asked for yet, or the heap is in order. -/
def Started (s : Liballoc) (out : Finset (Nat × Nat)) : Prop :=
  s.initialized = false ∧ s.calls = [] ∧ out = ∅ ∨ HeapState s out

namespace Started

variable {s s' : Liballoc} {out : Finset (Nat × Nat)} {P : PageProvider} {p n : Nat}

theorem setUp (h : Started s out) : HeapState s.setUp out := by
  obtain ⟨hi, hc, rfl⟩ | h := h
  · exact heapState_setUp hi hc
  · obtain ⟨a, As, bins, hs, -, -⟩ := id h
    rwa [show s.setUp = s from if_pos hs.ready]

/-- What `malloc` does, from any state of a run. -/
theorem malloc (h : Started s out) (hP : P.Honest) (hn : n + tagSize < 2 ^ 32) :
    Returns (fun r => r = (s.setUp, 0) ∧ (P.alloc s.mem (Liballoc.pagesFor n)).2 = 0 ∨
      r.2 ≠ 0 ∧ (∀ m, (r.2, m) ∉ out) ∧ HeapState r.1 (insert (r.2, n) out) ∧
      SameBlocks out s.mem r.1.mem ∧ (SameMapped s.mem r.1.mem ∨
        SameMapped (P.alloc s.mem (Liballoc.pagesFor n)).1 r.1.mem)) (s.malloc P n) := by
  have hspec := h.setUp.malloc_spec hP hn
  rwa [s.setUp_mem, s.malloc_setUp] at hspec

theorem free (h : Started s out) (hP : P.Honest) (hp : (p, n) ∈ out) :
    Returns (fun s' => HeapState s' (out.erase (p, n)) ∧
      SameBlocks (out.erase (p, n)) s.mem s'.mem) (s.free P p) := by
  obtain ⟨-, -, rfl⟩ | h := h
  · cases hp
  · exact h.free_spec hP hp

end Started

namespace MallocReach

variable {s s' : Liballoc} {out : Finset (Nat × Nat)} {held : List (Nat × Nat)} {P : PageProvider}
  {p q n k : Nat}

theorem started (h : MallocReach s out) : Started s out := by
  induction h with
  | start hi hc => exact .inl ⟨hi, hc, rfl⟩
  | malloc _ hP hn h ih =>
    obtain ⟨r, hr, hspec⟩ := ih.malloc hP hn
    obtain rfl := Except.ok.inj (hr.symm.trans h)
    obtain ⟨hnull, -⟩ | ⟨hp, -, hstate, -, -⟩ := hspec
    · obtain ⟨rfl, rfl⟩ := Prod.mk.inj hnull
      exact .inr ih.setUp
    · dsimp only at hp
      rw [if_neg hp]
      exact .inr hstate
  | free _ hP hp h ih =>
    obtain ⟨s', hs', hstate, -⟩ := ih.free hP hp
    obtain rfl := Except.ok.inj (hs'.symm.trans h)
    exact .inr hstate
  | elsewhere _ hheld h ih =>
    obtain ⟨hi, hc, rfl⟩ | hstate := ih
    · exact .inl ⟨hi, hc, rfl⟩
    · exact .inr (hstate.elsewhere hheld h)

end MallocReach

/-! ## Blocks -/

/-- The `n` bytes at `p` and the `k` bytes at `q` are apart. -/
def SpansApart (p n q k : Nat) : Prop := p + n ≤ q ∨ q + k ≤ p

theorem HeapState.mapped {s : Liballoc} {out : Finset (Nat × Nat)} {p n : Nat} (h : HeapState s out)
    (hp : (p, n) ∈ out) : p ≠ 0 ∧ p + n < 2 ^ 32 ∧ s.mem.Mapped p n := by
  obtain ⟨a, As, bins, hs, hinv, hmap⟩ := h
  obtain ⟨t, ht, hn, -, rfl, rfl⟩ := (hinv.blocks.mem p n).mp hp
  have hfits := hinv.blocks.fits t ht hn List.not_mem_nil
  obtain ⟨A, hA, htA⟩ := ht
  have hbounds := hinv.tag_bounds hA htA
  have hbelow := hinv.below A hA
  have harena := hmap A hA
  simp only [Arena.stop] at hbounds hbelow
  unfold tagSize at *
  exact ⟨by omega, by omega, harena.mono (by omega) (by omega)⟩

theorem HeapState.apart {s : Liballoc} {out : Finset (Nat × Nat)} {p n q k : Nat}
    (h : HeapState s out) (hp : (p, n) ∈ out) (hq : (q, k) ∈ out) :
    (p, n) = (q, k) ∨ p ≠ q ∧ SpansApart p n q k := by
  obtain ⟨a, As, bins, hs, hinv, hmap⟩ := h
  obtain ⟨t, ht, hn, -, rfl, rfl⟩ := (hinv.blocks.mem p n).mp hp
  obtain ⟨u, hu, hnu, -, rfl, rfl⟩ := (hinv.blocks.mem q k).mp hq
  have hfits := hinv.blocks.fits t ht hn List.not_mem_nil
  have hfits' := hinv.blocks.fits u hu hnu List.not_mem_nil
  obtain rfl | hapart := hinv.tags_apart ht hu
  · exact .inl rfl
  · unfold SpansApart
    unfold tagSize at *
    exact .inr ⟨by omega, by omega⟩

namespace MallocReach

variable {s s' : Liballoc} {out : Finset (Nat × Nat)} {P : PageProvider} {p q n k : Nat}

theorem mapped (h : MallocReach s out) (hp : (p, n) ∈ out) :
    p ≠ 0 ∧ p + n < 2 ^ 32 ∧ s.mem.Mapped p n := by
  obtain ⟨-, -, rfl⟩ | hstate := h.started
  · cases hp
  · exact hstate.mapped hp

theorem apart (h : MallocReach s out) (hp : (p, n) ∈ out) (hq : (q, k) ∈ out) :
    (p, n) = (q, k) ∨ p ≠ q ∧ SpansApart p n q k := by
  obtain ⟨-, -, rfl⟩ | hstate := h.started
  · cases hp
  · exact hstate.apart hp hq

/-- `malloc` returns; what it returns is null only if the page provider gives nothing. -/
theorem malloc_ok (h : MallocReach s out) (hP : P.Honest) (hn : n + tagSize < 2 ^ 32) :
    ∃ s' p, s.malloc P n = .ok (s', p) ∧ SameBlocks out s.mem s'.mem ∧
      (p = 0 → (P.alloc s.mem (Liballoc.pagesFor n)).2 = 0) ∧
      (p ≠ 0 → s'.mem.Mapped p n ∧ ∀ q k, (q, k) ∈ out → SpansApart p n q k) := by
  obtain ⟨⟨s', p⟩, hr, ⟨hnull, hnone⟩ | ⟨hp, hnew, hstate, hsame, -⟩⟩ := h.started.malloc hP hn
  · obtain ⟨rfl, rfl⟩ := Prod.mk.inj hnull
    refine ⟨_, 0, hr, fun q k _ x _ _ => ?_, fun _ => hnone, fun h0 => absurd rfl h0⟩
    rw [s.setUp_mem]
  · dsimp only at hp hnew hstate hsame
    have hmem : (p, n) ∈ insert (p, n) out := Finset.mem_insert_self _ _
    refine ⟨s', p, hr, hsame, fun h0 => absurd h0 hp, fun _ => ⟨(hstate.mapped hmem).2.2, fun q k hq => ?_⟩⟩
    refine ((hstate.apart hmem (Finset.mem_insert_of_mem hq)).resolve_left fun he => ?_).2
    exact hnew n (he ▸ hq)

/-- A new block is none of the others, and apart from them. -/
theorem malloc_new (h : MallocReach s out) (hP : P.Honest) (hn : n + tagSize < 2 ^ 32)
    (hr : s.malloc P n = .ok (s', p)) (hp : p ≠ 0) (hq : (q, k) ∈ out) :
    p ≠ q ∧ SpansApart p n q k := by
  obtain ⟨r, hr', ⟨hnull, -⟩ | ⟨-, hnew, hstate, -, -⟩⟩ := h.started.malloc hP hn
  · obtain rfl := Except.ok.inj (hr.symm.trans hr')
    exact absurd (congrArg Prod.snd hnull) hp
  · obtain rfl := Except.ok.inj (hr.symm.trans hr')
    refine (hstate.apart (Finset.mem_insert_self _ _) (Finset.mem_insert_of_mem hq)).resolve_left
      fun he => hnew k ?_
    rwa [(Prod.mk.inj he).1]

theorem free_ok (h : MallocReach s out) (hP : P.Honest) (hp : (p, n) ∈ out) :
    ∃ s', s.free P p = .ok s' ∧ SameBlocks (out.erase (p, n)) s.mem s'.mem := by
  obtain ⟨s', hs', -, hsame⟩ := h.started.free hP hp
  exact ⟨s', hs', hsame⟩

theorem exists_held (h : MallocReach s out) : ∃ held, HeldPages s.calls held := by
  obtain ⟨-, hc, -⟩ | ⟨a, As, bins, hs, hinv, -⟩ := h.started
  · exact ⟨[], hc ▸ .nil⟩
  · obtain ⟨held, hheld, -⟩ := hinv.held
    exact ⟨held, hs.log ▸ hheld⟩

end MallocReach

/-! ## A page provider -/

/-- Sixteen places of 1 MiB, from 1 MiB on. -/
def lowPlace (i : Nat) : Nat := 2 ^ 20 * (i + 1)

/-- Pages at the first place where none are, up to 1 MiB of them. -/
def lowPages : PageProvider where
  alloc m n :=
    if h : n * lPageSize ≤ 2 ^ 20 ∧ ∃ i < 16, ∀ j < n * lPageSize, m.byte (lowPlace i + j) = none then
      (m.alloc (lowPlace (Nat.find h.2)) (n * lPageSize) fun _ => 0, lowPlace (Nat.find h.2))
    else (m, 0)
  free m p n := m.only fun x => ¬ (p ≤ x ∧ x < p + n * lPageSize)

theorem lowPages_alloc {m : ByteMem} {n i : Nat} (hn : n * lPageSize ≤ 2 ^ 20) (hi : i < 16)
    (hfree : ∀ j < n * lPageSize, m.byte (lowPlace i + j) = none) :
    ∃ k ≤ i, (∀ j < n * lPageSize, m.byte (lowPlace k + j) = none) ∧
      lowPages.alloc m n = (m.alloc (lowPlace k) (n * lPageSize) fun _ => 0, lowPlace k) := by
  have hplace : ∃ i < 16, ∀ j < n * lPageSize, m.byte (lowPlace i + j) = none := ⟨i, hi, hfree⟩
  refine ⟨Nat.find hplace, Nat.find_min' hplace ⟨hi, hfree⟩, (Nat.find_spec hplace).2, ?_⟩
  exact dif_pos ⟨hn, hplace⟩

theorem lowPages_honest : lowPages.Honest where
  alloc m n := by
    by_cases h : n * lPageSize ≤ 2 ^ 20 ∧ ∃ i < 16, ∀ j < n * lPageSize, m.byte (lowPlace i + j) = none
    · obtain ⟨hn, i, hi, hfree⟩ := h
      obtain ⟨k, hk, hnone, halloc⟩ := lowPages_alloc hn hi hfree
      have hplace : lowPlace k = 2 ^ 20 * (k + 1) := rfl
      rw [halloc]
      refine .inr ⟨?_, .of_alloc _ ?_ hnone, ?_⟩
      · show lowPlace k ≠ 0
        omega
      · omega
      · show lowPlace k + n * lPageSize < 2 ^ 32
        omega
    · exact .inl (dif_neg h)
  free m p n x := by
    show (if ¬ (p ≤ x ∧ x < p + n * lPageSize) then m.byte x else none) = _
    exact ite_not _ _ _

/-- No byte is there from the place `i` on. -/
def FreeFrom (i : Nat) (m : ByteMem) : Prop := ∀ x, lowPlace i ≤ x → m.byte x = none

theorem SameMapped.freeFrom {m m' : ByteMem} {i : Nat} (h : SameMapped m m') (hm : FreeFrom i m) :
    FreeFrom i m' := by
  intro x hx
  have hnone := h x
  rw [hm x hx] at hnone
  exact Option.isSome_eq_false_iff.mp hnone |> Option.isNone_iff_eq_none.mp

/-- While there is a place left `malloc` finds memory, and uses up one place at most. -/
theorem MallocReach.malloc_low {s : Liballoc} {out : Finset (Nat × Nat)} {i n : Nat}
    (h : MallocReach s out) (hfree : FreeFrom i s.mem) (hi : i < 16)
    (hn : n + tagSize < 2 ^ 32) (hpages : Liballoc.pagesFor n * lPageSize ≤ 2 ^ 20) :
    ∃ s' p, s.malloc lowPages n = .ok (s', p) ∧ p ≠ 0 ∧ FreeFrom (i + 1) s'.mem ∧
      MallocReach s' (insert (p, n) out) := by
  obtain ⟨k, hk, -, halloc⟩ := lowPages_alloc hpages hi fun j _ => hfree _ (Nat.le_add_right _ j)
  have hplace : lowPlace k = 2 ^ 20 * (k + 1) := rfl
  have hplace' : lowPlace (i + 1) = lowPlace i + 2 ^ 20 := Nat.mul_succ _ _
  have hle : lowPlace k ≤ lowPlace i := Nat.mul_le_mul_left _ (Nat.succ_le_succ hk)
  obtain ⟨⟨s', p⟩, hr, ⟨-, hnone⟩ | ⟨hp, -, -, -, hmapped⟩⟩ := h.started.malloc lowPages_honest hn
  · rw [halloc] at hnone
    have hzero : lowPlace k = 0 := hnone
    omega
  · have hreach := h.malloc lowPages_honest hn hr
    rw [if_neg hp] at hreach
    refine ⟨s', p, hr, hp, ?_, hreach⟩
    obtain hmapped | hmapped := hmapped
    · exact hmapped.freeFrom fun x hx => hfree x (by omega)
    · rw [halloc] at hmapped
      refine hmapped.freeFrom fun x hx => (if_neg fun hin => ?_).trans (hfree x (by omega))
      omega

/-- A machine without memory, before the first `malloc`. -/
def bareHeap : Liballoc := ⟨.ofList 0 [] (by decide), fun _ => 0, fun _ => 0, false, []⟩

/-- A hundred bytes from the first pages. -/
theorem first_block : ∃ s p, MallocReach s {(p, 100)} ∧ FreeFrom 1 s.mem := by
  have hstart : MallocReach bareHeap ∅ := .start rfl rfl
  obtain ⟨s, p, -, -, hfree, hreach⟩ := hstart.malloc_low (i := 0) (n := 100)
    (fun x _ => by simp [bareHeap, ByteMem.ofList]) (by decide) (by decide) (by decide)
  exact ⟨s, p, by simpa using hreach, hfree⟩

/-- And a hundred more. -/
theorem second_block : ∃ s p q, p ≠ q ∧ MallocReach s {(q, 100), (p, 100)} ∧ FreeFrom 2 s.mem := by
  obtain ⟨s, p, h, hfree⟩ := first_block
  obtain ⟨s', q, hr, hq, hfree', hreach⟩ := h.malloc_low (n := 100) hfree (by decide) (by decide)
    (by decide)
  have hne := (h.malloc_new lowPages_honest (by decide) hr hq (Finset.mem_singleton_self _)).1
  exact ⟨s', p, q, hne.symm, hreach, hfree'⟩

/-! ## What holds in every run -/

theorem blocks_apart {s : Liballoc} {out : Finset (Nat × Nat)} (h : MallocReach s out) :
    (∀ p n, (p, n) ∈ out → p ≠ 0 ∧ p + n < 2 ^ 32 ∧ s.mem.Mapped p n) ∧
    (∀ p n q k, (p, n) ∈ out → (q, k) ∈ out → (p, n) = (q, k) ∨ p ≠ q ∧ SpansApart p n q k) ∧
    ∀ P n s' p, P.Honest → n + tagSize < 2 ^ 32 → s.malloc P n = .ok (s', p) → p ≠ 0 →
      ∀ q k, (q, k) ∈ out → p ≠ q ∧ SpansApart p n q k :=
  ⟨fun _ _ hp => h.mapped hp, fun _ _ _ _ hp hq => h.apart hp hq,
    fun _ _ _ _ hP hn hr hp _ _ hq => h.malloc_new hP hn hr hp hq⟩

theorem blocks_apart_second : ∃ s p q, MallocReach s {(q, 100), (p, 100)} ∧ s.mem.Mapped p 100 ∧
    s.mem.Mapped q 100 ∧ SpansApart p 100 q 100 ∧
    ∃ s' r, s.malloc lowPages 100 = .ok (s', r) ∧ r ≠ p ∧ SpansApart r 100 p 100 := by
  obtain ⟨s, p, q, hne, h, hfree⟩ := second_block
  obtain ⟨hmapped, hapart, hnew⟩ := blocks_apart h
  have hp : (p, 100) ∈ ({(q, 100), (p, 100)} : Finset (Nat × Nat)) := by simp
  have hq : (q, 100) ∈ ({(q, 100), (p, 100)} : Finset (Nat × Nat)) := by simp
  obtain ⟨s', r, hr, hr0, -, -⟩ := h.malloc_low (n := 100) hfree (by decide) (by decide) (by decide)
  refine ⟨s, p, q, h, (hmapped p 100 hp).2.2, (hmapped q 100 hq).2.2, ?_, s', r, hr,
    hnew lowPages 100 s' r lowPages_honest (by decide) hr hr0 p 100 hp⟩
  exact ((hapart p 100 q 100 hp hq).resolve_left fun he => hne (congrArg Prod.fst he)).2

theorem malloc_returns {s : Liballoc} {out : Finset (Nat × Nat)} {P : PageProvider}
    (h : MallocReach s out) (hP : P.Honest) :
    (∀ n, n + tagSize < 2 ^ 32 → ∃ s' p, s.malloc P n = .ok (s', p) ∧ SameBlocks out s.mem s'.mem ∧
      (p = 0 → (P.alloc s.mem (Liballoc.pagesFor n)).2 = 0) ∧
      (p ≠ 0 → s'.mem.Mapped p n ∧ ∀ q k, (q, k) ∈ out → SpansApart p n q k)) ∧
    ∀ p n, (p, n) ∈ out → ∃ s', s.free P p = .ok s' ∧ SameBlocks (out.erase (p, n)) s.mem s'.mem :=
  ⟨fun _ hn => h.malloc_ok hP hn, fun _ _ hp => h.free_ok hP hp⟩

theorem malloc_returns_first : ∃ s p, MallocReach s {(p, 100)} ∧
    (∃ s' q, s.malloc lowPages 200 = .ok (s', q) ∧ q ≠ 0 ∧ SpansApart q 200 p 100) ∧
    ∃ s', s.free lowPages p = .ok s' := by
  obtain ⟨s, p, h, hplace⟩ := first_block
  obtain ⟨hmalloc, hfree⟩ := malloc_returns h lowPages_honest
  obtain ⟨s₁, q₁, hr₁, hq₁, -, -⟩ := h.malloc_low (n := 200) hplace (by decide) (by decide) (by decide)
  obtain ⟨s', q, hr, -, -, hq⟩ := hmalloc 200 (by decide)
  obtain ⟨s'', hs'', -⟩ := hfree p 100 (Finset.mem_singleton_self _)
  obtain ⟨-, rfl⟩ := Prod.mk.inj (Except.ok.inj (hr₁.symm.trans hr))
  exact ⟨s, p, h, ⟨s', q₁, hr, hq₁, (hq hq₁).2 p 100 (Finset.mem_singleton_self _)⟩, s'', hs''⟩

/-! ## Regions -/

/-- A field of a tag in memory. -/
def Liballoc.tag (s : Liballoc) (t : Nat) (f : TagField) : Nat := s.mem.word (t + f.offset) f.bytes

/-- Behind `l_freePages[i]` are the tags `bs`. -/
structure FreeList (s : Liballoc) (i : Nat) (bs : List Nat) : Prop where
  head : s.freePages i = bs.headD 0
  linked : DLinked 0 (s.tag · .next) (s.tag · .prev) bs

/-- The tags `ts` fill the `k` pages at `q`; the used ones are those of blocks, and the free ones are
on the lists of their sizes. -/
structure RegionOk (s : Liballoc) (out : Finset (Nat × Nat)) (q k : Nat) (ts : List Nat) : Prop where
  linked : Chain 0 (s.tag · .splitRight) q ts
  tiles : Tiles (s.tag · .realSize) q (q + k * lPageSize) ts
  used : ∀ t ∈ ts, s.tag t .index = noIndex ↔ ∃ n, (t + tagSize, n) ∈ out
  fits : ∀ t ∈ ts, ∀ n, (t + tagSize, n) ∈ out → n + tagSize ≤ s.tag t .realSize
  sorted : ∀ t ∈ ts, s.tag t .index ≠ noIndex →
    s.tag t .index = listIndex (s.tag t .realSize - tagSize)
  listed : ∀ t ∈ ts, s.tag t .index ≠ noIndex → ∃ bs, FreeList s (s.tag t .index) bs ∧ t ∈ bs
  melted : ts.IsChain fun t u => s.tag t .index = noIndex ∨ s.tag u .index = noIndex

theorem LiballocInv.freeList {s : Liballoc} {a : TagHeap} {As : List Arena} {bins : Nat → List Nat}
    {out : Finset (Nat × Nat)} {i : Nat} (hs : HoldsTags s.mem (allTags As) a s)
    (h : LiballocInv a As bins [] out) (hi : i < maxExp) : FreeList s i (bins i) := by
  have htag : ∀ t ∈ bins i, ∀ f, s.tag t f = a.field t f := fun t ht f =>
    hs.field t (mem_allTags.mpr ((h.binned.mem i hi t).mp ht).1) f
  have hlinked := h.binned.linked i hi
  refine ⟨?_, hlinked.forth.congr fun t ht => htag t ht _,
    hlinked.back.congr fun t ht => htag t (List.mem_reverse.mp ht) _⟩
  rw [hs.heads]
  exact h.binned.head i hi

theorem LiballocInv.regionOk {s : Liballoc} {a : TagHeap} {As : List Arena} {bins : Nat → List Nat}
    {out : Finset (Nat × Nat)} {A : Arena} (hs : HoldsTags s.mem (allTags As) a s)
    (h : LiballocInv a As bins [] out) (hA : A ∈ As) : RegionOk s out A.start A.pages A.tags := by
  have htag : ∀ t ∈ A.tags, ∀ f, s.tag t f = a.field t f := fun t ht f =>
    hs.field t (mem_allTags.mpr ⟨A, hA, ht⟩) f
  have hused : ∀ t ∈ A.tags, a.field t .index = noIndex ↔ ∃ n, (t + tagSize, n) ∈ out := by
    intro t ht
    constructor
    · exact fun hn => ⟨_, (h.blocks.mem _ _).mpr ⟨t, ⟨A, hA, ht⟩, hn, List.not_mem_nil, rfl, rfl⟩⟩
    · rintro ⟨n, hn⟩
      obtain ⟨u, -, hnu, -, htu, -⟩ := (h.blocks.mem _ n).mp hn
      rwa [Nat.add_right_cancel htu]
  have hok := h.ok A hA
  have hstart : A.tags.headD 0 = A.start := by
    have htiles := hok.tiles
    cases htags : A.tags with
    | nil =>
      have hpages := h.pages A hA
      rw [htags] at htiles
      have hstop : A.start = A.start + A.pages * lPageSize := htiles
      unfold lPageCount at hpages
      unfold lPageSize at hstop
      omega
    | cons t ts =>
      rw [htags] at htiles
      exact htiles.1.symm
  refine ⟨?_, hok.tiles.congr fun t ht => htag t ht _, fun t ht => ?_, fun t ht n hn => ?_,
    fun t ht hn => ?_, fun t ht hn => ?_, (h.melted A hA).imp_of_mem_imp fun t u ht hu htu => ?_⟩
  · rw [← hstart]
    exact hok.linked.forth.congr fun t ht => htag t ht _
  · rw [htag t ht]
    exact hused t ht
  · obtain ⟨u, hu, hnu, -, htu, rfl⟩ := (h.blocks.mem _ n).mp hn
    obtain rfl := Nat.add_right_cancel htu
    rw [htag t ht]
    exact h.blocks.fits t hu hnu List.not_mem_nil
  · rw [htag t ht] at hn ⊢
    rw [htag t ht]
    exact h.sorted t ⟨A, hA, ht⟩ hn
  · rw [htag t ht] at hn ⊢
    have hi := (h.binned.index t ⟨A, hA, ht⟩).resolve_left hn
    exact ⟨_, h.freeList hs hi, (h.binned.mem _ hi t).mpr ⟨⟨A, hA, ht⟩, rfl⟩⟩
  · rwa [htag t ht, htag u hu]

/-- The tags of a region are those that its chain leads to. -/
theorem RegionOk.unique {s : Liballoc} {out : Finset (Nat × Nat)} {q k k' : Nat} {ts ts' : List Nat}
    (h : RegionOk s out q k ts) (h' : RegionOk s out q k' ts') : ts = ts' :=
  h.linked.unique h'.linked

theorem regions_ok {s : Liballoc} {out : Finset (Nat × Nat)} (h : MallocReach s out) :
    ∃ held, HeldPages s.calls held ∧ (∀ q k, (q, k) ∈ held → ∃ ts, RegionOk s out q k ts) ∧
      (∀ p n, (p, n) ∈ out → ∃ q k, (q, k) ∈ held ∧ q ≤ p ∧ p + n ≤ q + k * lPageSize) ∧
      (s.initialized = true → ∀ i < maxExp, ∃ bs, FreeList s i bs ∧
        ∀ t, t ∈ bs ↔ s.tag t .index = i ∧ ∃ q k ts, (q, k) ∈ held ∧ RegionOk s out q k ts ∧ t ∈ ts) := by
  obtain ⟨hi, hc, rfl⟩ | ⟨a, As, bins, hs, hinv, hmap⟩ := h.started
  · refine ⟨[], hc ▸ .nil, by simp, by simp, fun hinit => ?_⟩
    rw [hi] at hinit
    cases hinit
  · obtain ⟨held, hheld, hperm⟩ := hinv.held
    refine ⟨held, hs.log ▸ hheld, fun q k hq => ?_, fun p n hp => ?_, fun _ i hi =>
      ⟨bins i, hinv.freeList hs hi, fun t => ?_⟩⟩
    · obtain ⟨A, hA, he⟩ := List.mem_map.mp (hperm.mem_iff.mp hq)
      obtain ⟨rfl, rfl⟩ := Prod.mk.inj he
      exact ⟨A.tags, hinv.regionOk hs hA⟩
    · obtain ⟨t, ⟨A, hA, htA⟩, hn, -, rfl, rfl⟩ := (hinv.blocks.mem p n).mp hp
      have hfits := hinv.blocks.fits t ⟨A, hA, htA⟩ hn List.not_mem_nil
      have hbounds := hinv.tag_bounds hA htA
      simp only [Arena.stop] at hbounds
      exact ⟨A.start, A.pages, hperm.mem_iff.mpr (List.mem_map.mpr ⟨A, hA, rfl⟩), by omega, by omega⟩
    · rw [hinv.binned.mem i hi t]
      constructor
      · rintro ⟨⟨A, hA, htA⟩, hidx⟩
        refine ⟨(hs.field t (mem_allTags.mpr ⟨A, hA, htA⟩) .index).trans hidx, A.start, A.pages, A.tags,
          hperm.mem_iff.mpr (List.mem_map.mpr ⟨A, hA, rfl⟩), hinv.regionOk hs hA, htA⟩
      · rintro ⟨hidx, q, k, ts, hq, hregion, ht⟩
        obtain ⟨A, hA, he⟩ := List.mem_map.mp (hperm.mem_iff.mp hq)
        obtain ⟨rfl, rfl⟩ := Prod.mk.inj he
        obtain rfl := hregion.unique (hinv.regionOk hs hA)
        exact ⟨⟨A, hA, ht⟩, (hs.field t (mem_allTags.mpr ⟨A, hA, ht⟩) .index).symm.trans hidx⟩

theorem regions_ok_first : ∃ s p held, MallocReach s {(p, 100)} ∧ HeldPages s.calls held ∧
    ∀ q k, (q, k) ∈ held → ∃ ts, RegionOk s {(p, 100)} q k ts := by
  obtain ⟨s, p, h, -⟩ := first_block
  obtain ⟨held, hheld, hregions, -⟩ := regions_ok h
  exact ⟨s, p, held, h, hheld, hregions⟩

/-! ## What is kept -/

theorem getexpLoop_spec (size todo shift : Nat) :
    (∀ j, shift ≤ j → j < getexpLoop size todo shift → 2 ^ j ≤ size) ∧
    (getexpLoop size todo shift < shift + todo → size < 2 ^ getexpLoop size todo shift) := by
  induction todo generalizing shift with
  | zero => exact ⟨fun j hj hj' => absurd hj' (Nat.not_lt.mpr hj), fun h => absurd h (lt_irrefl _)⟩
  | succ todo ih =>
    rw [getexpLoop]
    split
    · rename_i hgt
      exact ⟨fun j hj hj' => absurd hj' (Nat.not_lt.mpr hj), fun _ => hgt⟩
    · rename_i hle
      obtain ⟨hbelow, habove⟩ := ih (shift + 1)
      refine ⟨fun j hj hj' => ?_, fun h => habove (by omega)⟩
      by_cases hjs : j = shift
      · subst hjs
        omega
      · exact hbelow j (by omega) hj'

/-- The list of a large size says how large it is, up to a factor of two. -/
theorem listIndex_spec {size : Nat} (h : 2 ^ minExp ≤ size) (h' : size < 2 ^ maxExp) :
    2 ^ listIndex size ≤ size ∧ size < 2 ^ (listIndex size + 1) := by
  obtain ⟨hbelow, habove⟩ := getexpLoop_spec size (maxExp - minExp) minExp
  have hle := getexpLoop_le size (maxExp - minExp) minExp
  obtain ⟨r, hr⟩ : ∃ r, r = getexpLoop size (maxExp - minExp) minExp := ⟨_, rfl⟩
  rw [← hr] at hbelow habove hle
  have hlt : size < 2 ^ r := by
    by_cases hmax : r < minExp + (maxExp - minExp)
    · exact habove hmax
    · have hr32 : r = maxExp := by
        unfold maxExp minExp at *
        omega
      rwa [hr32]
  have hmin : minExp < r := (Nat.pow_lt_pow_iff_right (by decide)).mp (h.trans_lt hlt)
  have hexp : getexp size = (r : Int) - 1 := by
    rw [getexp, if_neg (Nat.not_lt.mpr h), ← hr]
  have hidx : listIndex size = r - 1 := by
    unfold listIndex
    rw [hexp, if_neg (by omega)]
    omega
  rw [hidx]
  refine ⟨hbelow (r - 1) (by omega) (by omega), ?_⟩
  rwa [show r - 1 + 1 = r by omega]

/-- Sixteen pages or more are on one of the last lists. -/
theorem listIndex_pages {k : Nat} (hk : lPageCount ≤ k) (hk' : k * lPageSize < 2 ^ 32) :
    15 ≤ listIndex (k * lPageSize - tagSize) := by
  unfold lPageCount at hk
  unfold lPageSize tagSize at *
  have hspec := listIndex_spec (show 2 ^ minExp ≤ k * 4096 - 48 by unfold minExp; omega)
    (by unfold maxExp; omega)
  by_contra hlt
  have hpow : 2 ^ (listIndex (k * 4096 - 48) + 1) ≤ 2 ^ 15 :=
    Nat.pow_le_pow_right (by decide) (by omega)
  omega

/-- Things of which each has one colour are as many as those of each colour together. -/
theorem length_le_of_countP {α : Type} (p : Nat → α → Bool) (I : Finset Nat) (b : Nat) (xs : List α)
    (hp : ∀ x ∈ xs, ∃ i ∈ I, p i x = true) (hb : ∀ i ∈ I, xs.countP (p i) ≤ b) :
    xs.length ≤ I.card * b := by
  have hsum : xs.length ≤ ∑ i ∈ I, xs.countP (p i) := by
    clear hb
    induction xs with
    | nil => exact Nat.zero_le _
    | cons x xs ih =>
      obtain ⟨i, hi, hx⟩ := hp x List.mem_cons_self
      have hrest := ih fun y hy => hp y (.tail x hy)
      have hone : 1 ≤ ∑ i ∈ I, if p i x = true then 1 else 0 := by
        refine le_trans (le_of_eq ?_) (Finset.single_le_sum (fun j _ => Nat.zero_le _) hi)
        rw [if_pos hx]
      simp only [List.countP_cons, Finset.sum_add_distrib, List.length_cons]
      omega
  exact hsum.trans (Finset.sum_le_card_nsmul I _ b hb)

/-- The list that `k` pages are on when they are one free tag. -/
def regionClass (k : Nat) : Nat := listIndex (k * lPageSize - tagSize)

/-- With no block left every tag is free, and so each arena is one tag. -/
theorem LiballocInv.whole_of_nothing_out {a : TagHeap} {As : List Arena} {bins : Nat → List Nat} {A : Arena}
    (h : LiballocInv a As bins [] ∅) (hA : A ∈ As) :
    A.tags = [A.start] ∧ a.field A.start .index = regionClass A.pages := by
  have hfree : ∀ t, Live As t → a.field t .index ≠ noIndex := fun t ht hn =>
    absurd ((h.blocks.mem _ _).mpr ⟨t, ht, hn, List.not_mem_nil, rfl, rfl⟩) (Finset.notMem_empty _)
  have hmelted := h.melted A hA
  have htiles := (h.ok A hA).tiles
  have hpages := h.pages A hA
  unfold Arena.Melted at hmelted
  cases htags : A.tags with
  | nil =>
    rw [htags] at htiles
    have hstop : A.start = A.start + A.pages * lPageSize := htiles
    unfold lPageCount at hpages
    unfold lPageSize at hstop
    omega
  | cons t ts =>
    cases ts with
    | nil =>
      rw [htags] at htiles
      obtain ⟨hst, -, hreal⟩ := htiles
      subst hst
      have hreal : A.start + a.field A.start .realSize = A.start + A.pages * lPageSize := hreal
      have hlive : Live As A.start := ⟨A, hA, by simp [htags]⟩
      refine ⟨rfl, ?_⟩
      rw [h.sorted _ hlive (hfree _ hlive), Nat.add_left_cancel hreal]
      rfl
    | cons u ts =>
      rw [htags, List.isChain_cons_cons] at hmelted
      obtain hn | hn := hmelted.1
      · exact absurd hn (hfree t ⟨A, hA, by simp [htags]⟩)
      · exact absurd hn (hfree u ⟨A, hA, by simp [htags]⟩)

/-- Five of a class are kept, and no more. -/
theorem LiballocInv.kept_of_nothing_out {a : TagHeap} {As : List Arena} {bins : Nat → List Nat}
    (h : LiballocInv a As bins [] ∅) (i : Nat) :
    As.countP (fun A => regionClass A.pages == i) ≤ 5 := by
  by_cases hi : i < maxExp
  · have hsame : As.countP (fun A => regionClass A.pages == i) = As.countP (Arena.whole a i) := by
      refine List.countP_congr fun A hA => ?_
      obtain ⟨htags, hidx⟩ := h.whole_of_nothing_out hA
      rw [whole_single htags, hidx]
    have hkept := h.kept i hi
    rw [h.count i hi] at hkept
    unfold maxComplete at hkept
    rw [hsame]
    exact_mod_cast hkept
  · rw [List.countP_eq_zero.mpr fun A _ => ?_]
    · exact Nat.zero_le 5
    · have hlt : regionClass A.pages < maxExp := listIndex_lt _
      have hne : regionClass A.pages ≠ i := by omega
      simpa using hne

theorem nothing_out {s : Liballoc} (h : MallocReach s ∅) :
    ∃ held, HeldPages s.calls held ∧ held.length ≤ 85 ∧ (∀ q k, (q, k) ∈ held → RegionOk s ∅ q k [q]) ∧
      (∀ q k, (q, k) ∈ held → 15 ≤ regionClass k) ∧
      ∀ i, held.countP (fun r => regionClass r.2 == i) ≤ 5 := by
  obtain ⟨-, hc, -⟩ | ⟨a, As, bins, hs, hinv, hmap⟩ := h.started
  · exact ⟨[], hc ▸ .nil, by simp, by simp, by simp, by simp⟩
  obtain ⟨held, hheld, hperm⟩ := hinv.held
  have hclass : ∀ q k, (q, k) ∈ held → 15 ≤ regionClass k ∧ regionClass k < maxExp := by
    intro q k hq
    obtain ⟨A, hA, he⟩ := List.mem_map.mp (hperm.mem_iff.mp hq)
    obtain ⟨rfl, rfl⟩ := Prod.mk.inj he
    have hbelow := hinv.below A hA
    simp only [Arena.stop] at hbelow
    exact ⟨listIndex_pages (hinv.pages A hA) (by omega), listIndex_lt _⟩
  have hfive : ∀ i, held.countP (fun r => regionClass r.2 == i) ≤ 5 := by
    intro i
    rw [hperm.countP_eq, List.countP_map]
    exact hinv.kept_of_nothing_out i
  have hcolour : ∀ r ∈ held, ∃ i ∈ Finset.Ico 15 maxExp, (regionClass r.2 == i) = true := fun r hr =>
    ⟨_, Finset.mem_Ico.mpr (hclass r.1 r.2 hr), beq_self_eq_true _⟩
  refine ⟨held, hs.log ▸ hheld, ?_, fun q k hq => ?_, fun q k hq => (hclass q k hq).1, hfive⟩
  · exact length_le_of_countP (fun i (r : Nat × Nat) => regionClass r.2 == i) (Finset.Ico 15 maxExp) 5
      held hcolour fun i _ => hfive i
  · obtain ⟨A, hA, he⟩ := List.mem_map.mp (hperm.mem_iff.mp hq)
    obtain ⟨rfl, rfl⟩ := Prod.mk.inj he
    have hregion := hinv.regionOk hs hA
    rwa [(hinv.whole_of_nothing_out hA).1] at hregion

theorem nothing_out_after_free : ∃ s p s' held, MallocReach s {(p, 100)} ∧
    s.free lowPages p = .ok s' ∧ HeldPages s'.calls held ∧ held.length ≤ 85 := by
  obtain ⟨s, p, h, -⟩ := first_block
  obtain ⟨s', hs', -⟩ := h.free_ok lowPages_honest (Finset.mem_singleton_self _)
  have hfreed := h.free lowPages_honest (Finset.mem_singleton_self _) hs'
  rw [Finset.erase_singleton] at hfreed
  obtain ⟨held, hheld, hlen, -⟩ := nothing_out hfreed
  exact ⟨s, p, s', held, h, hs', hheld, hlen⟩

end HelixKernel
