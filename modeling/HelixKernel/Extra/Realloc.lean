import HelixKernel.Extra.Liballoc
import HelixKernel.Extra.LiballocRuns

/-!
# `calloc` and `realloc`

Both are `malloc` and a loop over bytes, and neither looks at what `malloc` has returned: with no
memory left they write to address zero, if there is a byte to write at all, and where no byte is
there that is a fault (`realloc_keeps_bytes`, `calloc_zeroes`).  `calloc` multiplies into an
`int`, so a product of 2³² or more gets a block that is too small.

`realloc` to more than nothing takes three steps of a run: `malloc`, writes into the new block,
`free`. -/

namespace HelixKernel

/-- `m'` is `m` with the `n` bytes at `src` also at `dest`. -/
structure WroteCopy (m m' : ByteMem) (dest src n : Nat) : Prop where
  wrote : m.Wrote m' dest n
  same : ∀ i < n, m'.byte (dest + i) = m.byte (src + i)

namespace Liballoc

variable {s : Liballoc} {p dest src n : Nat}

theorem memsetLoop_spec (h : s.mem.Mapped p n) (c : UInt8) :
    Returns (fun s' => ∃ m, s' = { s with mem := m } ∧ s.mem.Wrote m p n ∧
      ∀ i < n, m.byte (p + i) = some c) (s.memsetLoop p c n) := by
  induction n generalizing s p with
  | zero => exact .ok ⟨s.mem, rfl, .refl s.mem p 0, fun i hi => absurd hi (Nat.not_lt_zero i)⟩
  | succ n ih =>
    obtain ⟨b, hb⟩ := h.first
    have hthere : ∀ x, ((s.mem.set p c).byte x).isSome = (s.mem.byte x).isSome := fun x =>
      s.mem.isSome_set p x c
    rw [memsetLoop, ByteMem.store_of_byte hb]
    refine (ih (s := { s with mem := s.mem.set p c }) ((h.mono (Nat.le_succ p) (by omega)).of_there
      hthere)).mono ?_
    rintro s' ⟨m, rfl, hw, hsame⟩
    refine ⟨m, rfl, ⟨fun x hx => ?_, fun x => (hw.there x).trans (hthere x)⟩, fun i hi => ?_⟩
    · rw [hw.frame x (by omega)]
      exact ByteMem.byte_set_ne s.mem (by omega) c
    · cases i with
      | zero =>
        rw [Nat.add_zero, hw.frame p (by omega)]
        exact ByteMem.byte_set_self hb c
      | succ i =>
        rw [show p + (i + 1) = p + 1 + i by omega]
        exact hsame i (by omega)

theorem memcpyBytes_spec (hd : s.mem.Mapped dest n) (hsrc : s.mem.Mapped src n)
    (hapart : SpansApart dest n src n) :
    Returns (fun s' => ∃ m, s' = { s with mem := m } ∧ WroteCopy s.mem m dest src n)
      (s.memcpyBytes dest src n) := by
  unfold SpansApart at hapart
  induction n generalizing s dest src with
  | zero => exact .ok ⟨s.mem, rfl, .refl s.mem dest 0, fun i hi => absurd hi (Nat.not_lt_zero i)⟩
  | succ n ih =>
    obtain ⟨b, hb⟩ := hd.first
    obtain ⟨c, hc⟩ := hsrc.first
    have hthere : ∀ x, ((s.mem.set dest c).byte x).isSome = (s.mem.byte x).isSome := fun x =>
      s.mem.isSome_set dest x c
    rw [memcpyBytes, ByteMem.load_of_byte hc, ok_bind, ByteMem.store_of_byte hb]
    refine (ih (s := { s with mem := s.mem.set dest c })
      ((hd.mono (Nat.le_succ dest) (by omega)).of_there hthere)
      ((hsrc.mono (Nat.le_succ src) (by omega)).of_there hthere) (by omega)).mono ?_
    rintro s' ⟨m, rfl, hw, hsame⟩
    refine ⟨m, rfl, ⟨fun x hx => ?_, fun x => (hw.there x).trans (hthere x)⟩, fun i hi => ?_⟩
    · rw [hw.frame x (by omega)]
      exact ByteMem.byte_set_ne s.mem (by omega) c
    · cases i with
      | zero =>
        rw [Nat.add_zero, Nat.add_zero, hw.frame dest (by omega), hc]
        exact ByteMem.byte_set_self hb c
      | succ i =>
        rw [show dest + (i + 1) = dest + 1 + i by omega, show src + (i + 1) = src + 1 + i by omega,
          hsame i (by omega)]
        exact ByteMem.byte_set_ne s.mem (by omega) c

theorem memcpyWords_spec {words : Nat} (hd : s.mem.Mapped dest n) (hsrc : s.mem.Mapped src n)
    (hapart : SpansApart dest n src n) (hwords : words * 4 ≤ n) :
    Returns (fun s' => ∃ m, s' = { s with mem := m } ∧ WroteCopy s.mem m dest src n)
      (s.memcpyWords dest src n words) := by
  induction words generalizing s dest src n with
  | zero => exact memcpyBytes_spec hd hsrc hapart
  | succ words ih =>
    unfold SpansApart at hapart
    have hsrc4 : s.mem.Mapped src 4 := hsrc.mono (Nat.le_refl src) (by omega)
    rw [memcpyWords, ByteMem.loadWord_eq hsrc4, ok_bind]
    refine (ByteMem.storeWord_bytes (hd.mono (Nat.le_refl dest) (by omega)) _).bind ?_
    rintro m₁ ⟨hw₁, hbytes⟩
    refine (ih (s := { s with mem := m₁ }) (hw₁.mapped (hd.mono (Nat.le_add_right dest 4) (by omega)))
      (hw₁.mapped (hsrc.mono (Nat.le_add_right src 4) (by omega))) (by unfold SpansApart; omega)
      (by omega)).mono ?_
    rintro s' ⟨m, rfl, hw, hsame⟩
    refine ⟨m, rfl, ⟨fun x hx => ?_, fun x => (hw.there x).trans (hw₁.there x)⟩, fun i hi => ?_⟩
    · rw [hw.frame x (by omega)]
      exact hw₁.frame x (by omega)
    · by_cases hi4 : i < 4
      · rw [hw.frame (dest + i) (by omega)]
        exact (hbytes i hi4).trans (ByteMem.word_byte hsrc4 hi4).symm
      · rw [show dest + i = dest + 4 + (i - 4) by omega, hsame (i - 4) (by omega),
          show src + 4 + (i - 4) = src + i by omega]
        exact hw₁.frame (src + i) (by omega)

/-- Nothing is written to address zero if no byte is there. -/
theorem memcpyWords_null {words : Nat} (hsrc : s.mem.Mapped src n) (h0 : s.mem.byte 0 = none)
    (hn : 0 < n) (hwords : words * 4 ≤ n) : s.memcpyWords 0 src n words = .error (.access 0) := by
  have hstore : ∀ c, s.mem.store 0 c = .error (.access 0) := fun c => by
    unfold ByteMem.store
    rw [h0]
  cases words with
  | zero =>
    obtain ⟨k, rfl⟩ : ∃ k, n = k + 1 := ⟨n - 1, by omega⟩
    obtain ⟨c, hc⟩ := hsrc.first
    rw [memcpyWords, memcpyBytes, ByteMem.load_of_byte hc, ok_bind, hstore]
    rfl
  | succ words =>
    rw [memcpyWords, ByteMem.loadWord_eq (hsrc.mono (Nat.le_refl src) (by omega)), ok_bind,
      ByteMem.storeWord, hstore]
    rfl

end Liballoc

/-! ## Steps of a run -/

section Runs

open Liballoc

variable {s s₁ : Liballoc} {out : Finset (Nat × Nat)} {P : PageProvider} {p q n size : Nat}
  {m : ByteMem}

/-- The owner of a block writes into it. -/
theorem MallocReach.write (h : MallocReach s out) (hp : (p, n) ∈ out) {k : Nat} (hk : k ≤ n)
    (hw : s.mem.Wrote m p k) : MallocReach { s with mem := m } out := by
  obtain ⟨held, hheld⟩ := h.exists_held
  refine h.elsewhere hheld fun _ _ _ x _ _ => ⟨hw.there x, fun hout => hw.frame x ?_⟩
  have hx := hout p n hp
  omega

/-- The tag of a block knows its size. -/
theorem HeapState.get_size (h : HeapState s out) (hp : (p, n) ∈ out) :
    s.get (sub64 (wrap32 p) tagSize) .size = .ok n := by
  obtain ⟨a, As, bins, hs, hinv, -⟩ := h
  obtain ⟨t, ht, -, -, rfl, rfl⟩ := (hinv.blocks.mem p n).mp hp
  have hlt := hinv.tag_lt ht
  rw [wrap32, Nat.mod_eq_of_lt (by omega), sub64_of_le (by omega) (by omega), Nat.add_sub_cancel]
  exact hs.get (mem_allTags.mpr ht) .size

/-- `malloc` as a step, when it has found memory. -/
theorem MallocReach.malloc_step (h : MallocReach s out) (hP : P.Honest) (hn : n + tagSize < 2 ^ 32)
    (hr : s.malloc P n = .ok (s₁, q)) (hq : q ≠ 0) :
    MallocReach s₁ (insert (q, n) out) ∧ (∀ k, (q, k) ∉ out) ∧ SameBlocks out s.mem s₁.mem := by
  have hreach := h.malloc hP hn hr
  rw [if_neg hq] at hreach
  obtain ⟨r, hr', ⟨hnull, -⟩ | ⟨-, hnew, -, hsame, -⟩⟩ := h.started.malloc hP hn
  · obtain rfl := Except.ok.inj (hr.symm.trans hr')
    exact absurd (congrArg Prod.snd hnull) hq
  · obtain rfl := Except.ok.inj (hr.symm.trans hr')
    exact ⟨hreach, hnew, hsame⟩

theorem MallocReach.malloc_null (h : MallocReach s out) (hP : P.Honest) (hn : n + tagSize < 2 ^ 32)
    (hr : s.malloc P n = .ok (s₁, 0)) : s₁.mem = s.mem := by
  obtain ⟨r, hr', ⟨hnull, -⟩ | ⟨hp, -⟩⟩ := h.started.malloc hP hn
  · obtain rfl := Except.ok.inj (hr.symm.trans hr')
    rw [(Prod.mk.inj hnull).1, s.setUp_mem]
  · obtain rfl := Except.ok.inj (hr.symm.trans hr')
    exact absurd rfl hp

/-! ## `realloc` -/

theorem Liballoc.extend32_of_lt {x : Nat} (h : x < 2 ^ 31) : extend32 x = x := if_pos h

/-- What `realloc` is, once the sizes are known. -/
theorem realloc_eq (h : MallocReach s out) (hp : (p, n) ∈ out) (hn : n < 2 ^ 31) (h0 : 0 < size)
    (hsize : size < 2 ^ 31) (hr : s.malloc P size = .ok (s₁, q)) :
    s.realloc P p size = (do
      let s ← s₁.memcpyWords q p (min n size) (min n size / 4)
      let s ← s.free P p
      .ok (s, q)) := by
  have hstate : HeapState s out := by
    obtain ⟨-, -, rfl⟩ | hstate := h.started
    · cases hp
    · exact hstate
  have hcount : (if extend32 n > size then extend32 (wrap32 size) else extend32 n) = min n size := by
    have hwrap : wrap32 size = size := Nat.mod_eq_of_lt (by omega)
    rw [hwrap, extend32_of_lt hn, extend32_of_lt hsize]
    split <;> omega
  rw [realloc, if_neg (by omega), if_neg (hstate.mapped hp).1, hstate.get_size hp, ok_bind]
  dsimp only
  rw [hcount, hr, ok_bind]

theorem realloc_keeps_bytes (h : MallocReach s out) (hP : P.Honest) (hp : (p, n) ∈ out) (hn : n < 2 ^ 31)
    (h0 : 0 < size) (hsize : size < 2 ^ 31) :
    ∃ s₁ q, s.malloc P size = .ok (s₁, q) ∧
      (q ≠ 0 → ∃ s', s.realloc P p size = .ok (s', q) ∧
        MallocReach s' ((insert (q, size) out).erase (p, n)) ∧ (q, size) ≠ (p, n) ∧
        (∀ i < min n size, s'.mem.byte (q + i) = s.mem.byte (p + i)) ∧
        SameBlocks (out.erase (p, n)) s.mem s'.mem) ∧
      (q = 0 → 0 < n → s.mem.byte 0 = none → s.realloc P p size = .error (.access 0)) := by
  have hsize' : size + tagSize < 2 ^ 32 := by
    unfold tagSize
    omega
  obtain ⟨s₁, q, hr, -⟩ := h.malloc_ok hP hsize'
  have heq := realloc_eq h hp hn h0 hsize hr
  refine ⟨s₁, q, hr, fun hq => ?_, fun hq hn0 hnull => ?_⟩
  · obtain ⟨hreach, hnew, hsame⟩ := h.malloc_step hP hsize' hr hq
    have hpmem : (p, n) ∈ insert (q, size) out := Finset.mem_insert_of_mem hp
    have hqmem : (q, size) ∈ insert (q, size) out := Finset.mem_insert_self _ _
    have hne : (q, size) ≠ (p, n) := fun he => hnew size (he ▸ hp)
    have hapart := ((hreach.apart hqmem hpmem).resolve_left hne).2
    unfold SpansApart at hapart
    obtain ⟨s₂, hcopy, m, rfl, hcopied⟩ := memcpyWords_spec
      ((hreach.mapped hqmem).2.2.mono (Nat.le_refl q) (by omega))
      ((hreach.mapped hpmem).2.2.mono (Nat.le_refl p) (by omega)) (show SpansApart q (min n size) p
        (min n size) by unfold SpansApart; omega) (show min n size / 4 * 4 ≤ min n size by omega)
    have hwrite := hreach.write hqmem (Nat.min_le_right n size) hcopied.wrote
    obtain ⟨s', hfree, hkept⟩ := hwrite.free_ok hP hpmem
    refine ⟨s', ?_, hwrite.free hP hpmem hfree, hne, fun i hi => ?_, fun r k hrk x hx hx' => ?_⟩
    · rw [heq, hcopy, ok_bind, hfree]
      rfl
    · rw [hkept q size (Finset.mem_erase.mpr ⟨hne, hqmem⟩) (q + i) (by omega) (by omega)]
      exact (hcopied.same i hi).trans (hsame p n hp (p + i) (by omega) (by omega))
    · obtain ⟨hrp, hrout⟩ := Finset.mem_erase.mp hrk
      have hrmem : (r, k) ∈ insert (q, size) out := Finset.mem_insert_of_mem hrout
      have hrq := ((hreach.apart hrmem hqmem).resolve_left fun he => hnew k (by
        rw [← (Prod.mk.inj he).1]
        exact hrout)).2
      unfold SpansApart at hrq
      rw [hkept r k (Finset.mem_erase.mpr ⟨hrp, hrmem⟩) x hx hx']
      exact (hcopied.wrote.frame x (by omega)).trans (hsame r k hrout x hx hx')
  · subst hq
    have hmem := h.malloc_null hP hsize' hr
    have hmapped := (h.mapped hp).2.2
    rw [heq, memcpyWords_null (hmem ▸ hmapped.mono (Nat.le_refl p) (Nat.add_le_add_left (Nat.min_le_left n size) p))
      (hmem ▸ hnull) (by omega) (by omega)]
    rfl

theorem realloc_keeps_bytes_first : ∃ s p s' q, MallocReach s {(p, 100)} ∧
    s.realloc lowPages p 200 = .ok (s', q) ∧ q ≠ 0 ∧ MallocReach s' {(q, 200)} ∧
    ∀ i < 100, s'.mem.byte (q + i) = s.mem.byte (p + i) := by
  obtain ⟨s, p, h, hfree⟩ := first_block
  obtain ⟨s₁, q, hr, hq, -, -⟩ := h.malloc_low (n := 200) hfree (by decide) (by decide) (by decide)
  obtain ⟨s₂, q', hr', hsome, -⟩ := realloc_keeps_bytes h lowPages_honest
    (Finset.mem_singleton_self _) (by decide) (show 0 < 200 by decide) (by decide)
  obtain ⟨-, rfl⟩ := Prod.mk.inj (Except.ok.inj (hr.symm.trans hr'))
  obtain ⟨s', hs', hreach, hne, hbytes, -⟩ := hsome hq
  refine ⟨s, p, s', q, h, hs', hq, ?_, hbytes⟩
  rwa [Finset.erase_insert_of_ne hne, Finset.erase_singleton] at hreach

/-! ## `calloc` -/

theorem calloc_zeroes (h : MallocReach s out) (hP : P.Honest) (nobj : Nat)
    (hn : nobj * size % 2 ^ 32 < 2 ^ 31) :
    ∃ s₁ q, s.malloc P (nobj * size % 2 ^ 32) = .ok (s₁, q) ∧
      (q ≠ 0 → ∃ s', s.calloc P nobj size = .ok (s', q) ∧
        MallocReach s' (insert (q, nobj * size % 2 ^ 32) out) ∧ (∀ k, (q, k) ∉ out) ∧
        (∀ i < nobj * size % 2 ^ 32, s'.mem.byte (q + i) = some 0) ∧ SameBlocks out s.mem s'.mem) ∧
      (q = 0 → 0 < nobj * size % 2 ^ 32 → s.mem.byte 0 = none →
        s.calloc P nobj size = .error (.access 0)) := by
  obtain ⟨k, hk⟩ : ∃ k, k = nobj * size % 2 ^ 32 := ⟨_, rfl⟩
  have hreal : extend32 (wrap32 (wrap64 (nobj * size))) = k := by
    have hwrap : wrap32 (wrap64 (nobj * size)) = k := by
      rw [hk]
      unfold wrap32 wrap64
      omega
    rw [hwrap, extend32_of_lt (hk ▸ hn)]
  rw [← hk] at hn ⊢
  have hk' : k + tagSize < 2 ^ 32 := by
    unfold tagSize
    omega
  obtain ⟨s₁, q, hr, -⟩ := h.malloc_ok hP hk'
  have heq : s.calloc P nobj size = (do
      let s ← s₁.memsetLoop q 0 k
      .ok (s, q)) := by
    rw [calloc]
    dsimp only
    rw [hreal, hr, ok_bind]
    dsimp only
    rw [memset, if_pos hn]
  refine ⟨s₁, q, hr, fun hq => ?_, fun hq hk0 hnull => ?_⟩
  · obtain ⟨hreach, hnew, hsame⟩ := h.malloc_step hP hk' hr hq
    have hqmem : (q, k) ∈ insert (q, k) out := Finset.mem_insert_self _ _
    obtain ⟨s', hset, m, rfl, hw, hzero⟩ := memsetLoop_spec (hreach.mapped hqmem).2.2 0
    refine ⟨_, ?_, hreach.write hqmem (Nat.le_refl k) hw, hnew, hzero, fun r j hrj x hx hx' => ?_⟩
    · rw [heq, hset]
      rfl
    · have hrq := ((hreach.apart (Finset.mem_insert_of_mem hrj) hqmem).resolve_left fun he =>
        hnew j (by
          rw [← (Prod.mk.inj he).1]
          exact hrj)).2
      unfold SpansApart at hrq
      exact (hw.frame x (by omega)).trans (hsame r j hrj x hx hx')
  · subst hq
    have hmem := h.malloc_null hP hk' hr
    have hstore : s₁.mem.store 0 0 = .error (.access 0) := by
      unfold ByteMem.store
      rw [hmem, hnull]
    obtain ⟨j, rfl⟩ : ∃ j, k = j + 1 := ⟨k - 1, by omega⟩
    rw [heq, memsetLoop, hstore]
    rfl

/-- 2³⁰ + 25 objects of four bytes are given a hundred bytes, all of them zero. -/
theorem calloc_zeroes_too_few : ∃ s p s' q, MallocReach s {(p, 100)} ∧
    s.calloc lowPages (2 ^ 30 + 25) 4 = .ok (s', q) ∧ q ≠ 0 ∧ MallocReach s' {(q, 100), (p, 100)} ∧
    ∀ i < 100, s'.mem.byte (q + i) = some 0 := by
  obtain ⟨s, p, h, hfree⟩ := first_block
  obtain ⟨s₁, q, hr, hq, -, -⟩ := h.malloc_low (n := 100) hfree (by decide) (by decide) (by decide)
  obtain ⟨s₂, q', hr', hsome, -⟩ := calloc_zeroes h lowPages_honest (2 ^ 30 + 25)
    (show (2 ^ 30 + 25) * 4 % 2 ^ 32 < 2 ^ 31 by decide)
  obtain ⟨-, rfl⟩ := Prod.mk.inj (Except.ok.inj (hr.symm.trans hr'))
  obtain ⟨s', hs', hreach, -, hzero, -⟩ := hsome hq
  exact ⟨s, p, s', q, h, hs', hq, hreach, hzero⟩

end Runs

/-! ## The kernel's pages -/

/-- A tag's address is cut to 32 bits before the block's address is computed from it. -/
theorem Liballoc.takeTag_lt {s s' : Liballoc} {t n q : Nat} (h : s.takeTag t n = .ok (s', q)) :
    q < 2 ^ 32 + tagSize := by
  unfold takeTag at h
  obtain ⟨s₁, -, h⟩ := bind_eq_ok.mp h
  obtain ⟨real, -, h⟩ := bind_eq_ok.mp h
  obtain ⟨s₂, -, h⟩ := bind_eq_ok.mp h
  obtain ⟨rfl, rfl⟩ := Prod.mk.inj (Except.ok.inj h)
  exact Nat.add_lt_add_right (Nat.mod_lt t (by decide)) tagSize

theorem Liballoc.malloc_lt {s s' : Liballoc} {P : PageProvider} {n q : Nat}
    (h : s.malloc P n = .ok (s', q)) : q < 2 ^ 32 + tagSize := by
  unfold malloc at h
  obtain ⟨first, -, h⟩ := bind_eq_ok.mp h
  obtain ⟨t, -, h⟩ := bind_eq_ok.mp h
  split at h
  · obtain ⟨⟨s₁, t₁⟩, -, h⟩ := bind_eq_ok.mp h
    dsimp only at h
    split at h
    · obtain ⟨-, rfl⟩ := Prod.mk.inj (Except.ok.inj h)
      decide
    · exact takeTag_lt h
  · obtain ⟨s₁, -, h⟩ := bind_eq_ok.mp h
    obtain ⟨left, -, h⟩ := bind_eq_ok.mp h
    obtain ⟨right, -, h⟩ := bind_eq_ok.mp h
    obtain ⟨s₂, -, h⟩ := bind_eq_ok.mp h
    exact takeTag_lt h

/-- Whatever the state of the heap, no block is in pages that `liballoc_alloc` has given: they are
in the direct map. -/
theorem malloc_misses_pages {memmap : List MemmapEntry} {v v' : Vmm} {out : Finset (Nat × Nat)}
    {k t n q : Nat} {s s' : Liballoc} {P : PageProvider} (hmm : WellFormedMap memmap)
    (htop : ∀ r ∈ regions memmap, r.1 + r.2 ≤ 2 ^ 47) (hv : Reach memmap v.pmm out)
    (ht : liballocAlloc v k = .ok (v', t)) (hn : n < 2 ^ 32) (hq : s.malloc P n = .ok (s', q)) :
    q + n ≤ t := by
  obtain ⟨pmm, a, hrun, rfl, rfl⟩ := liballocAlloc_ok.mp ht
  have ha : a < 2 ^ 47 := by
    by_cases ha0 : a = 0
    · rw [ha0]
      decide
    · have hmem : (a, orderFor k) ∈ track out a (orderFor k) := by
        rw [track, if_neg ha0]
        exact Finset.mem_insert_self _ _
      have hreach : Reach memmap _ _ := hv.alloc hrun
      exact (hreach.out_lt hmm htop _ hmem).2
  have hlt := Liballoc.malloc_lt hq
  rw [paToVa_of_lt ha]
  unfold directMap
  unfold tagSize at hlt
  omega

theorem malloc_misses_pages_twoPages : ∃ v v' t s' q, liballocAlloc v 1 = .ok (v', t) ∧
    bareHeap.malloc lowPages 100 = .ok (s', q) ∧ q + 100 ≤ t := by
  obtain ⟨pmm, hv⟩ := twoPages_run (fun _ _ _ => True) fun _ => trivial
  have hv : Reach twoPages pmm _ := hv
  obtain ⟨B, hB⟩ := hv.inv twoPages_wellFormed
  obtain ⟨pmm', a, hrun, -⟩ := alloc_spec hB 1
  have ht : liballocAlloc ⟨pmm, 0, 0⟩ 1 = .ok (⟨pmm', 0, 0⟩, paToVa a) :=
    liballocAlloc_ok.mpr ⟨pmm', a, hrun, rfl, rfl⟩
  have hstart : MallocReach bareHeap ∅ := .start rfl rfl
  obtain ⟨s', q, hq, -⟩ := hstart.malloc_ok lowPages_honest (n := 100) (by decide)
  exact ⟨_, _, _, s', q, ht, hq,
    malloc_misses_pages twoPages_wellFormed (by decide) hv ht (by decide) hq⟩

end HelixKernel
