import HelixKernel.Klibc.Copies

/-!
# Lengths and copies on the heap

`strlen` counts in an `unsigned int`: it is the length of a string below `2 ^ 32`, and a longer
one it reads forever.  `strdup` asks for one byte more than it copies and puts the terminator
there; `strndup` asks for the bytes it copies and nothing else, so its result ends only if a byte
that is not its own happens to be zero. -/

namespace HelixKernel.ByteMem

variable {malloc : ByteMem → Nat → ByteMem × Nat} {m m' : ByteMem} {p s n len fuel : Nat}
  {str : List UInt8}

/-! ## `strlen` -/

theorem strlenLoop_of_cstr (h : CStr m (p + len) str) (hlt : len + str.length < 2 ^ 32)
    (hfuel : str.length < fuel) : m.strlenLoop p fuel len = .ok (len + str.length) := by
  induction str generalizing len fuel with
  | nil =>
    obtain ⟨fuel, rfl⟩ := Nat.exists_eq_add_of_lt hfuel
    unfold strlenLoop
    rw [load_of_byte h]
    rfl
  | cons c str ih =>
    obtain ⟨fuel, rfl⟩ : ∃ k, fuel = k + 1 := ⟨fuel - 1, by omega⟩
    simp only [List.length_cons] at hlt hfuel ⊢
    have hrest : m.strlenLoop p fuel (len + 1) = .ok (len + 1 + str.length) :=
      ih h.2.2 (by omega) (by omega)
    unfold strlenLoop
    rw [load_of_byte h.1]
    show (if c = 0 then _ else m.strlenLoop p fuel (wrap32 (len + 1))) = _
    rw [if_neg h.2.1, show wrap32 (len + 1) = len + 1 from Nat.mod_eq_of_lt (by omega), hrest,
      Nat.add_assoc, Nat.add_comm 1]

/-- **`strlen`** of a string of less than 4 GiB. -/
theorem strlen_of_cstr (h : CStr m p str) (hlt : str.length < 2 ^ 32) :
    m.strlen p = .ok str.length := by
  have hloop : m.strlenLoop p walkFuel 0 = .ok (0 + str.length) :=
    strlenLoop_of_cstr h (by omega) h.length_lt
  rw [Nat.zero_add] at hloop
  exact hloop

/-- The count wraps around before it comes to the terminator of a longer one. -/
theorem strlen_diverges (h : CStr m p str) (hge : 2 ^ 32 ≤ str.length) :
    m.strlen p = .error .diverges := by
  have hloop : ∀ fuel, ∀ len < 2 ^ 32, m.strlenLoop p fuel len = .error .diverges := by
    intro fuel
    induction fuel with
    | zero => exact fun _ _ => rfl
    | succ fuel ih =>
      intro len hlen
      have hi : len < str.length := by omega
      unfold strlenLoop
      rw [load_of_byte (h.char hi)]
      show (if str[len] = 0 then _ else m.strlenLoop p fuel (wrap32 (len + 1))) = _
      rw [if_neg (h.nonzero _ (List.getElem_mem hi))]
      exact ih _ (Nat.mod_lt _ (by decide))
  exact hloop walkFuel 0 (by decide)

/-- It returns where a zero is. -/
theorem strlen_ok (h : m.strlen p = .ok n) : m.byte (p + n) = some 0 := by
  have hloop : ∀ fuel len, m.strlenLoop p fuel len = .ok n → m.byte (p + n) = some 0 := by
    intro fuel
    induction fuel with
    | zero =>
      intro len h
      cases h
    | succ fuel ih =>
      intro len h
      unfold strlenLoop load at h
      cases hb : m.byte (p + len) with
      | none =>
        rw [hb] at h
        cases h
      | some c =>
        rw [hb] at h
        change (if c = 0 then _ else m.strlenLoop p fuel (wrap32 (len + 1))) = _ at h
        by_cases hc : c = 0
        · rw [if_pos hc] at h
          cases h
          rw [hb, hc]
        · rw [if_neg hc] at h
          exact ih _ h
  exact hloop walkFuel 0 h

/-! ## Into a fresh buffer -/

/-- `memcpy` of bytes that were there before the buffer was. -/
theorem Fresh.memcpy_copied {r : ByteMem × Nat} {b : Nat} (h : m.Fresh r b) (hnb : n ≤ b)
    (hs : m.Mapped s n) : ∃ m', r.1.memcpy r.2 s n = .ok m' ∧ Copied r.1 m' r.2 s (· < n) := by
  refine ByteMem.memcpy_copied (fun i hi => h.mapped i (by omega)) ?_ ?_
  · intro i hi
    obtain ⟨c, hc⟩ := hs i hi
    exact ⟨c, h.keeps hc⟩
  · by_contra hdir
    obtain ⟨c, hc⟩ := hs (r.2 - s) (by omega)
    have := h.outside hc
    omega

/-- What was there is as it was, when the copy is in the buffer. -/
theorem Fresh.keeps_copied {r : ByteMem × Nat} {b : Nat} (h : m.Fresh r b) (hnb : n ≤ b)
    (hc : Copied r.1 m' r.2 s (· < n)) {a : Nat} {x : UInt8} (ha : m.byte a = some x) :
    m'.byte a = some x := by
  have := h.outside ha
  exact (hc.outside (by omega)).trans (h.keeps ha)

/-- The first characters of a string, copied, and a zero behind them. -/
theorem cstr_take (hs : CStr m s str) (hn : n ≤ str.length)
    (hc : ∀ i < n, m'.byte (p + i) = m.byte (s + i)) (h0 : m'.byte (p + n) = some 0) :
    CStr m' p (str.take n) := by
  have hlen : (str.take n).length = n := List.length_take_of_le hn
  refine .of_bytes (fun c hc => hs.nonzero c (List.mem_of_mem_take hc)) ?_ (by rwa [hlen])
  intro i hi
  rw [hc i (by omega), hs.char (by omega), List.getElem_take]

/-! ## `strdup` -/

/-- **`strdup`** leaves the string in its buffer, and everything else as it was. -/
theorem strdup_cstr (hs : CStr m s str) (hlt : str.length < 2 ^ 32)
    (hf : m.Fresh (malloc m (str.length + 1)) (str.length + 1)) :
    ∃ m', strdup malloc m s = .ok (m', (malloc m (str.length + 1)).2) ∧
      CStr m' (malloc m (str.length + 1)).2 str ∧
      ∀ a x, m.byte a = some x → m'.byte a = some x := by
  obtain ⟨m₁, hcpy, hcop⟩ := hf.memcpy_copied (Nat.le_succ _) hs.mapped
  obtain ⟨x, hx⟩ := hf.mapped str.length (Nat.lt_succ_self _)
  have hlast := (hcop.outside (.inr (Nat.le_refl _))).trans hx
  refine ⟨m₁.set ((malloc m (str.length + 1)).2 + str.length) 0, ?_, ?_, ?_⟩
  · unfold strdup
    rw [strlen_of_cstr hs hlt]
    show ((malloc m (str.length + 1)).1.memcpy (malloc m (str.length + 1)).2 s str.length >>= _) = _
    rw [hcpy]
    show (m₁.store _ 0 >>= _) = _
    rw [store_of_byte hlast]
    rfl
  · have hstr := cstr_take hs (Nat.le_refl _) (fun i hi => ?_) (byte_set_self hlast 0)
    · rwa [List.take_length] at hstr
    · rw [m₁.byte_set_ne (by omega) 0, hcop.copied i hi, hf.keeps (hs.char hi), hs.char hi]
  · intro a y hy
    have := hf.outside hy
    rw [m₁.byte_set_ne (by omega) 0]
    exact hf.keeps_copied (Nat.le_succ _) hcop hy

/-! ## `strndup` -/

/-- The bytes are copied into a buffer of that many bytes. -/
theorem strndup_copied (hs : CStr m s str) (hlt : str.length < 2 ^ 32)
    (hf : m.Fresh (malloc m (min n str.length)) (min n str.length)) :
    ∃ m', strndup malloc m s n = .ok (m', (malloc m (min n str.length)).2) ∧
      Copied (malloc m (min n str.length)).1 m' (malloc m (min n str.length)).2 s
        (· < min n str.length) := by
  have hmin : (if str.length > n then n else str.length) = min n str.length := by
    split <;> omega
  obtain ⟨m', hcpy, hcop⟩ := hf.memcpy_copied (Nat.le_refl _)
    fun i hi => hs.mapped i (by omega)
  refine ⟨m', ?_, hcop⟩
  unfold strndup
  rw [strlen_of_cstr hs hlt]
  show ((malloc m (if str.length > n then n else str.length)).1.memcpy
    (malloc m (if str.length > n then n else str.length)).2 s
    (if str.length > n then n else str.length) >>= _) = _
  rw [hmin, hcpy]
  rfl

/-- It is the string it should be when the byte behind the buffer, whosever it is, is zero. -/
theorem strndup_cstr_iff (hs : CStr m s str) (hlt : str.length < 2 ^ 32)
    (hf : m.Fresh (malloc m (min n str.length)) (min n str.length))
    (hrun : strndup malloc m s n = .ok (m', p)) :
    CStr m' p (str.take n) ↔ m.byte (p + min n str.length) = some 0 := by
  obtain ⟨m'', hrun', hcop⟩ := strndup_copied hs hlt hf
  obtain ⟨rfl, rfl⟩ : m'' = m' ∧ (malloc m (min n str.length)).2 = p :=
    Prod.mk.inj (Except.ok.inj (hrun'.symm.trans hrun))
  rw [← hf.frame _ (.inr (Nat.le_refl _)), ← hcop.outside (.inr (Nat.le_refl _)),
    List.take_eq_take_min]
  constructor
  · intro h
    have hend := h.terminator
    rwa [List.length_take_of_le (Nat.min_le_right _ _)] at hend
  · refine cstr_take hs (Nat.min_le_right _ _) fun i hi => ?_
    rw [hcop.copied i hi, hf.keeps (hs.char (by omega)), hs.char (by omega)]

/-- What a bounded duplicate of the string `str` at `s` is: what was there is as it was, the
result is the first `n` characters as a string, its length is found in the buffer alone, and with
`n` large enough it is the string `strdup` makes. -/
def DupProper (malloc : ByteMem → Nat → ByteMem × Nat) (m : ByteMem) (s n : Nat)
    (str : List UInt8) : Prop :=
  ∃ m' p, strndup malloc m s n = .ok (m', p) ∧
    (∀ a x, m.byte a = some x → m'.byte a = some x) ∧
    CStr m' p (str.take n) ∧
    m'.Reads (fun a => m.byte a = none) (fun m => m.strlen p) (min n str.length) ∧
    (str.length ≤ n → ∃ m'' q, strdup malloc m s = .ok (m'', q) ∧ CStr m'' q (str.take n))

/-- Its terminator is a byte that was not there before. -/
theorem DupProper.terminator (h : DupProper malloc m s n str) :
    ∃ m' p, strndup malloc m s n = .ok (m', p) ∧ m.byte (p + min n str.length) = none ∧
      m'.byte (p + min n str.length) = some 0 := by
  obtain ⟨m', p, hrun, -, -, hread, -⟩ := h
  have hzero := strlen_ok hread.of_only
  change (if m.byte (p + min n str.length) = none then _ else _) = _ at hzero
  by_cases hin : m.byte (p + min n str.length) = none
  · rw [if_pos hin] at hzero
    exact ⟨m', p, hrun, hin, hzero⟩
  · rw [if_neg hin] at hzero
    cases hzero

/-- **`strndup` never duplicates properly**, whatever the string, the bound and the allocator: the
byte where the terminator belongs is not of the buffer. -/
theorem strndup_not_proper (malloc : ByteMem → Nat → ByteMem × Nat) (m : ByteMem) (s n : Nat)
    (str : List UInt8) (hs : CStr m s str)
    (hf : m.Fresh (malloc m (min n str.length)) (min n str.length)) :
    ¬ DupProper malloc m s n str := by
  intro h
  obtain ⟨m', p, hrun, hnone, hzero⟩ := h.terminator
  by_cases hlt : str.length < 2 ^ 32
  · obtain ⟨m'', hrun', hcop⟩ := strndup_copied hs hlt hf
    obtain ⟨rfl, rfl⟩ : m'' = m' ∧ (malloc m (min n str.length)).2 = p :=
      Prod.mk.inj (Except.ok.inj (hrun'.symm.trans hrun))
    have hrest := (hcop.outside (.inr (Nat.le_refl _))).trans (hf.frame _ (.inr (Nat.le_refl _)))
    rw [hnone, hzero] at hrest
    cases hrest
  · unfold strndup at hrun
    rw [strlen_diverges hs (by omega)] at hrun
    cases hrun

/-- "ab" at 16, a bound that is no bound, and buffers at 64 with no zero in them. -/
theorem strndup_not_proper_ab :
    ¬ DupProper (fun m b => (m.alloc 64 b fun _ => 255, 64)) (ofList 16 [97, 98, 0] (by decide))
      16 7 [97, 98] :=
  strndup_not_proper _ _ _ _ _ (by decide)
    (.of_alloc _ (by decide) (by decide))

/-- The two characters of "ab" go into two bytes, and there is none for the terminator. -/
theorem strndup_unterminated :
    ¬ DupProper (fun m b => (m.alloc 64 b fun _ => 255, 64)) (ofList 16 [97, 98, 0] (by decide))
      16 2 [97, 98] := by
  intro h
  obtain ⟨m', p, hrun, -, hzero⟩ := h.terminator
  have hres : (strndup (fun m b => (m.alloc 64 b fun _ => 255, 64))
      (ofList 16 [97, 98, 0] (by decide)) 16 2).map (fun r => r.1.byte (r.2 + 2)) = .ok none := rfl
  rw [hrun] at hres
  have hnone : m'.byte (p + 2) = none := Except.ok.inj hres
  rw [show min 2 [(97 : UInt8), 98].length = 2 from rfl, hnone] at hzero
  cases hzero

end HelixKernel.ByteMem
