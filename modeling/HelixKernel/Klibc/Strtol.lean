import HelixKernel.Klibc.Cstring

/-!
# `strtol`

The grammar is the one of C: white space, a sign, and a number of the base, where base 0 takes the
number's own prefix for the base and a leading zero is itself a digit of an octal number.  What
`strtol` reads is the longest prefix of the string that is one (`LongestNumber`).

The code takes the prefix off before it looks for digits, and without digits it has read nothing.
So a zero that was taken for a prefix and has no digit behind it is lost, which is one way the code
misses the grammar (`strtol_exact_iff`).  It accumulates in a `long` and does not look at what it
accumulates: from `2 ^ 63` on the accumulation overflows, also for the least `long`, whose
magnitude that is (`strtol_saturates_iff`). -/

namespace HelixKernel

variable {base radix v : Int} {c x : UInt8} {s t u ds rest ws sg : List UInt8}

/-! ## The grammar -/

/-- A digit of the base `radix`. -/
def IsDigit (radix : Int) (c : UInt8) : Prop := ∃ d, digitOf c = some d ∧ d < radix

instance (radix : Int) : DecidablePred (IsDigit radix) := fun c =>
  match h : digitOf c with
  | none => isFalse fun ⟨d, hd, _⟩ => by rw [h] at hd; cases hd
  | some d => decidable_of_iff (d < radix) (by unfold IsDigit; simp [h])

theorem isDigit_of_all (h : ds.all (fun c => decide (IsDigit radix c)) = true) :
    ∀ c ∈ ds, IsDigit radix c := fun c hc => of_decide_eq_true (List.all_eq_true.mp h c hc)

/-- The value of digits behind what has the value `v`. -/
def valueFrom (radix : Int) : Int → List UInt8 → Int
  | v, [] => v
  | v, c :: ds => valueFrom radix (v * radix + (digitOf c).getD 0) ds

/-- The value of digits. -/
def value (radix : Int) (ds : List UInt8) : Int := valueFrom radix 0 ds

/-- The bases there are. -/
def IsBase (base : Int) : Prop := base = 0 ∨ 2 ≤ base ∧ base ≤ 36

/-- The `x` of a hexadecimal prefix. -/
def IsX (c : UInt8) : Prop := c = 120 ∨ c = 88

/-- The numbers of a base, and their values. -/
inductive Number (base : Int) : List UInt8 → Int → Prop
  | plain {ds : List UInt8} (hb : 2 ≤ base) (hne : ds ≠ []) (hds : ∀ c ∈ ds, IsDigit base c) :
      Number base ds (value base ds)
  | hex {x : UInt8} {ds : List UInt8} (hb : base = 0 ∨ base = 16) (hx : IsX x) (hne : ds ≠ [])
      (hds : ∀ c ∈ ds, IsDigit 16 c) : Number base (48 :: x :: ds) (value 16 ds)
  | octal {ds : List UInt8} (hb : base = 0) (hds : ∀ c ∈ ds, IsDigit 8 c) :
      Number base (48 :: ds) (value 8 (48 :: ds))
  | decimal {c : UInt8} {ds : List UInt8} (hb : base = 0) (hc : c ≠ 48)
      (hds : ∀ d ∈ c :: ds, IsDigit 10 d) : Number base (c :: ds) (value 10 (c :: ds))

inductive Sign : List UInt8 → Int → Prop
  | none : Sign [] 1
  | plus : Sign [43] 1
  | minus : Sign [45] (-1)

/-- `t` is white space, an optional sign and a number, which together have the value `v`. -/
def Parses (base : Int) (t : List UInt8) (v : Int) : Prop :=
  ∃ ws sg u g n, t = ws ++ (sg ++ u) ∧ (∀ c ∈ ws, isSpace c) ∧ Sign sg g ∧ Number base u n ∧
    v = g * n

/-- `t` is the longest prefix of `s` of this form, and `v` its value. -/
structure LongestNumber (base : Int) (s t : List UInt8) (v : Int) : Prop where
  isPrefix : t <+: s
  parses : Parses base t v
  longest : ∀ t' v', t' <+: s → Parses base t' v' → t'.length ≤ t.length

/-- A string that is parsed to its end. -/
theorem LongestNumber.whole (h : Parses base s v) : LongestNumber base s s v :=
  ⟨List.prefix_refl s, h, fun _ _ ht _ => ht.length_le⟩

/-! ## How the code reads a string -/

/-- The prefix `z` that the code takes in front of `r`, and the base it then has. -/
inductive CodePrefix (base : Int) : List UInt8 → Int → List UInt8 → Prop
  | hex {x : UInt8} {r : List UInt8} (hb : base = 0 ∨ base = 16) (hx : IsX x) :
      CodePrefix base [48, x] 16 r
  | octal {r : List UInt8} (hb : base = 0) (hr : ∀ c ∈ r.head?, ¬ IsX c) : CodePrefix base [48] 8 r
  | decimal {r : List UInt8} (hb : base = 0) (hr : ∀ c ∈ r.head?, c ≠ 48) : CodePrefix base [] 10 r
  | plain {r : List UInt8} (hb : 2 ≤ base)
      (hr : base = 16 → ∀ x r', r = 48 :: x :: r' → ¬ IsX x) : CodePrefix base [] base r

/-- White space, sign, prefix, digits and what comes then. -/
structure Reading (base : Int) (s ws sg : List UInt8) (g : Int) (z : List UInt8) (radix : Int)
    (ds rest : List UInt8) : Prop where
  split : s = ws ++ (sg ++ (z ++ (ds ++ rest)))
  space : ∀ c ∈ ws, isSpace c
  noSpace : ∀ c ∈ (sg ++ (z ++ (ds ++ rest))).head?, ¬ isSpace c
  sign : Sign sg g
  noSign : sg = [] → ∀ c ∈ (z ++ (ds ++ rest)).head?, c ≠ 43 ∧ c ≠ 45
  pre : CodePrefix base z radix (ds ++ rest)
  digits : ∀ c ∈ ds, IsDigit radix c
  stop : ∀ c ∈ rest.head?, ¬ IsDigit radix c

theorem Sign.eq_or_eq {g : Int} (h : Sign sg g) : g = 1 ∨ g = -1 := by
  cases h with
  | none => exact .inl rfl
  | plus => exact .inl rfl
  | minus => exact .inr rfl

theorem CodePrefix.two_le {z r : List UInt8} (h : CodePrefix base z radix r) : 2 ≤ radix := by
  cases h with
  | hex => decide
  | octal => decide
  | decimal => decide
  | plain hb => exact hb

theorem exists_codePrefix (hb : IsBase base) (w : List UInt8) :
    ∃ z radix r, w = z ++ r ∧ CodePrefix base z radix r := by
  unfold IsBase at hb
  by_cases hhex : (base = 0 ∨ base = 16) ∧ ∃ x r, w = 48 :: x :: r ∧ IsX x
  · obtain ⟨hb, x, r, rfl, hx⟩ := hhex
    exact ⟨[48, x], 16, r, rfl, .hex hb hx⟩
  · by_cases h0 : base = 0
    · by_cases hw : ∃ r, w = 48 :: r
      · obtain ⟨r, rfl⟩ := hw
        refine ⟨[48], 8, r, rfl, .octal h0 fun c hc hx => ?_⟩
        obtain ⟨r', rfl⟩ := List.head?_eq_some_iff.mp hc
        exact hhex ⟨.inl h0, c, r', rfl, hx⟩
      · refine ⟨[], 10, w, rfl, .decimal h0 ?_⟩
        rintro c hc rfl
        obtain ⟨r, rfl⟩ := List.head?_eq_some_iff.mp hc
        exact hw ⟨r, rfl⟩
    · refine ⟨[], base, w, rfl, .plain (by omega) ?_⟩
      rintro h16 x r rfl hx
      exact hhex ⟨.inr h16, x, r, rfl, hx⟩

/-- There is a reading of every string. -/
theorem exists_reading (hb : IsBase base) (s : List UInt8) :
    ∃ ws sg g z radix ds rest, Reading base s ws sg g z radix ds rest := by
  obtain ⟨ws, post, rfl, hws, hpost⟩ := exists_split (fun c => isSpace c = true) s
  obtain ⟨sg, g, w, rfl, hsg, hw⟩ : ∃ sg g w, post = sg ++ w ∧ Sign sg g ∧
      (sg = [] → ∀ c ∈ w.head?, c ≠ 43 ∧ c ≠ 45) := by
    by_cases hsign : ∃ c r, post = c :: r ∧ (c = 43 ∨ c = 45)
    · obtain ⟨c, r, rfl, rfl | rfl⟩ := hsign
      · exact ⟨[43], 1, r, rfl, .plus, fun h => by cases h⟩
      · exact ⟨[45], -1, r, rfl, .minus, fun h => by cases h⟩
    · refine ⟨[], 1, post, rfl, .none, fun _ c hc => ?_⟩
      obtain ⟨r, rfl⟩ := List.head?_eq_some_iff.mp hc
      exact ⟨fun h => hsign ⟨c, r, rfl, .inl h⟩, fun h => hsign ⟨c, r, rfl, .inr h⟩⟩
  obtain ⟨z, radix, r, rfl, hz⟩ := exists_codePrefix hb w
  obtain ⟨ds, rest, rfl, hds, hrest⟩ := exists_split (IsDigit radix) r
  exact ⟨ws, sg, g, z, radix, ds, rest, rfl, hws, hpost, hsg, hw, hz, hds, hrest⟩

/-! ## Values -/

theorem digitOf_nonneg {d : Int} (h : digitOf c = some d) : 0 ≤ d := by
  have hsub : ∀ k : UInt8, k ≤ c → (0 : Int) ≤ c.toNat - k.toNat := fun k hk =>
    Int.sub_nonneg_of_le (Int.ofNat_le.mpr (UInt8.le_iff_toNat_le.mp hk))
  unfold digitOf at h
  split at h
  · next hc =>
    cases h
    exact hsub 48 hc.1
  · split at h
    · next hc =>
      cases h
      exact Int.add_nonneg (hsub 97 hc.1) (by decide)
    · split at h
      · next hc =>
        cases h
        exact Int.add_nonneg (hsub 65 hc.1) (by decide)
      · cases h

/-- The terminator is no digit. -/
theorem not_isDigit_zero : ¬ IsDigit radix 0 := by
  rintro ⟨d, hd, -⟩
  cases hd

/-- A step of the accumulation. -/
theorem valueFrom_cons {d : Int} (h : digitOf c = some d) (ds : List UInt8) :
    valueFrom radix v (c :: ds) = valueFrom radix (v * radix + d) ds := by
  rw [valueFrom, h]
  rfl

/-- No step makes it less. -/
theorem le_valueFrom (hradix : 2 ≤ radix) (hds : ∀ c ∈ ds, IsDigit radix c) (hv : 0 ≤ v) :
    v ≤ valueFrom radix v ds := by
  induction ds generalizing v with
  | nil => exact Int.le_refl v
  | cons c ds ih =>
    obtain ⟨d, hd, -⟩ := hds c List.mem_cons_self
    have hd0 := digitOf_nonneg hd
    rw [valueFrom_cons hd]
    have hstep : v * 1 ≤ v * radix := Int.mul_le_mul_of_nonneg_left (by omega) hv
    have hrest := ih (fun x hx => hds x (.tail c hx)) (by omega : 0 ≤ v * radix + d)
    omega

/-! ## The code -/

namespace ByteMem

variable {m : ByteMem} {p q fuel : Nat} {g : Int} {z r : List UInt8}

theorem skipSpace_stops (h : CStr m q (ws ++ t)) (hws : ∀ c ∈ ws, isSpace c)
    (ht : ∀ c ∈ t.head?, ¬ isSpace c) (hfuel : ws.length < fuel) :
    m.skipSpace fuel q = .ok (q + ws.length) := by
  induction ws generalizing q fuel with
  | nil =>
    obtain ⟨fuel, rfl⟩ : ∃ k, fuel = k + 1 := ⟨fuel - 1, by omega⟩
    obtain ⟨c, hload, hc⟩ := h.load_head (P := fun c => ¬ isSpace c) (by decide) ht
    rw [skipSpace, hload]
    exact if_neg hc
  | cons c ws ih =>
    obtain ⟨fuel, rfl⟩ : ∃ k, fuel = k + 1 := ⟨fuel - 1, by omega⟩
    rw [List.length_cons] at hfuel
    unfold skipSpace
    rw [load_of_byte h.1]
    show (if isSpace c = true then m.skipSpace fuel (q + 1) else _) = _
    rw [if_pos (hws c List.mem_cons_self), ih h.2.2 (fun x hx => hws x (.tail c hx)) (by omega),
      List.length_cons, Nat.add_assoc, Nat.add_comm 1]

theorem strtolSign_run (h : CStr m q (sg ++ t)) (hsg : Sign sg g)
    (ht : sg = [] → ∀ c ∈ t.head?, c ≠ 43 ∧ c ≠ 45) :
    m.strtolSign q = .ok (decide (g = -1), q + sg.length) := by
  unfold strtolSign
  cases hsg with
  | none =>
    obtain ⟨c, hload, hplus, hminus⟩ :=
      h.load_head (P := fun c => c ≠ 43 ∧ c ≠ 45) (by decide) (ht rfl)
    rw [hload]
    show (if c = 45 then _ else if c = 43 then _ else _) = _
    rw [if_neg hminus, if_neg hplus]
    rfl
  | plus =>
    rw [load_of_byte h.1]
    rfl
  | minus =>
    rw [load_of_byte h.1]
    rfl

/-- The byte at a string that does not start with `x` is no `x`. -/
theorem load_not_x (h : CStr m q r) (hr : ∀ c ∈ r.head?, ¬ IsX c) :
    ∃ c, m.load q = .ok c ∧ ¬ (c = 120 ∨ c = 88) :=
  h.load_head (by decide) hr

theorem strtolPrefix_run (h : CStr m q (z ++ r)) (hz : CodePrefix base z radix r) :
    m.strtolPrefix q base = .ok (q + z.length, radix) := by
  unfold strtolPrefix
  cases hz with
  | hex hb hx =>
    rcases hb with rfl | rfl
    · rw [if_pos rfl, load_of_byte h.1]
      show (m.load (q + 1) >>= _) = _
      rw [load_of_byte h.2.2.1]
      exact if_pos hx
    · rw [if_neg (by decide), if_pos rfl, load_of_byte h.1]
      show (m.load (q + 1) >>= _) = _
      rw [load_of_byte h.2.2.1]
      exact if_pos hx
  | octal hb hr =>
    subst hb
    obtain ⟨c, hc, hx⟩ := load_not_x h.2.2 hr
    rw [if_pos rfl, load_of_byte h.1]
    show (m.load (q + 1) >>= _) = _
    rw [hc]
    exact if_neg hx
  | decimal hb hr =>
    subst hb
    obtain ⟨c, hload, hc⟩ := h.load_head (P := (· ≠ 48)) (by decide) hr
    rw [if_pos rfl, hload]
    exact if_neg hc
  | plain hb hr =>
    rw [if_neg (by omega)]
    by_cases h16 : base = 16
    · subst h16
      rw [if_pos rfl]
      cases r with
      | nil =>
        rw [load_of_byte h]
        rfl
      | cons c r =>
        rw [load_of_byte h.1]
        by_cases hc : c = 48
        · subst hc
          obtain ⟨x, hx, hnot⟩ := load_not_x h.2.2 fun x hx => by
            obtain ⟨r', rfl⟩ := List.head?_eq_some_iff.mp hx
            exact hr rfl x r' rfl
          show (m.load (q + 1) >>= _) = _
          rw [hx]
          exact if_neg hnot
        · exact if_neg hc
    · rw [if_neg h16]
      rfl

theorem long_of_lt {x : Int} (h0 : -2 ^ 63 ≤ x) (h : x < 2 ^ 63) : long x = .ok x := if_pos ⟨h0, h⟩

theorem long_overflow {x : Int} (h : 2 ^ 63 ≤ x) : long x = .error .overflow :=
  if_neg fun hx => absurd hx.2 (by omega)

/-- The next accumulation. -/
theorem long_mul_add {β : Type} {d : Int} (hv : 0 ≤ v * radix) (hd : 0 ≤ d)
    (h : v * radix + d < 2 ^ 63) (k : Int → Except ByteFault β) :
    (long (v * radix) >>= fun result => long (result + d) >>= k) = k (v * radix + d) := by
  rw [long_of_lt (by omega) (by omega)]
  show (long (v * radix + d) >>= k) = _
  rw [long_of_lt (by omega) h]
  rfl

/-- It overflows in the product, or in the sum. -/
theorem long_mul_add_overflow {β : Type} {d : Int} (hv : 0 ≤ v * radix)
    (h : 2 ^ 63 ≤ v * radix + d) (k : Int → Except ByteFault β) :
    (long (v * radix) >>= fun result => long (result + d) >>= k) = .error .overflow := by
  by_cases hfit : v * radix < 2 ^ 63
  · rw [long_of_lt (by omega) hfit]
    show (long (v * radix + d) >>= k) = _
    rw [long_overflow h]
    rfl
  · rw [long_overflow (by omega)]
    rfl

theorem strtolLoop_stop (h : m.load q = .ok c) (hc : ¬ IsDigit radix c) :
    m.strtolLoop radix (fuel + 1) q v = .ok (q, v) := by
  rw [strtolLoop, h]
  by_cases h0 : c = 0
  · exact if_pos h0
  · refine (if_neg h0).trans ?_
    cases hd : digitOf c with
    | none => rfl
    | some d => exact if_pos (Int.not_lt.mp fun hlt => hc ⟨d, hd, hlt⟩)

theorem strtolLoop_digit {d : Int} (h : m.load q = .ok c) (h0 : c ≠ 0) (hd : digitOf c = some d)
    (hlt : d < radix) :
    m.strtolLoop radix (fuel + 1) q v =
      long (v * radix) >>= fun result => long (result + d) >>= m.strtolLoop radix fuel (q + 1) := by
  rw [strtolLoop, h]
  refine (if_neg h0).trans ?_
  rw [hd]
  exact if_neg (Int.not_le.mpr hlt)

/-- The digits are accumulated, or overflow. -/
theorem strtolLoop_run (h : CStr m q (ds ++ rest)) (hds : ∀ c ∈ ds, IsDigit radix c)
    (hrest : ∀ c ∈ rest.head?, ¬ IsDigit radix c) (hradix : 2 ≤ radix) (hv0 : 0 ≤ v)
    (hv : v < 2 ^ 63) (hfuel : ds.length < fuel) :
    m.strtolLoop radix fuel q v =
      if valueFrom radix v ds < 2 ^ 63 then .ok (q + ds.length, valueFrom radix v ds)
      else .error .overflow := by
  induction ds generalizing q fuel v with
  | nil =>
    obtain ⟨fuel, rfl⟩ : ∃ k, fuel = k + 1 := ⟨fuel - 1, by omega⟩
    obtain ⟨c, hload, hc⟩ := h.load_head not_isDigit_zero hrest
    rw [show valueFrom radix v [] = v from rfl, if_pos hv]
    exact strtolLoop_stop hload hc
  | cons c ds ih =>
    obtain ⟨fuel, rfl⟩ : ∃ k, fuel = k + 1 := ⟨fuel - 1, by omega⟩
    rw [List.length_cons] at hfuel
    obtain ⟨d, hd, hlt⟩ := hds c List.mem_cons_self
    have hds' : ∀ x ∈ ds, IsDigit radix x := fun x hx => hds x (.tail c hx)
    have hd0 := digitOf_nonneg hd
    have hmul : 0 ≤ v * radix := Int.mul_nonneg hv0 (by omega)
    have hle := le_valueFrom hradix hds' (by omega : 0 ≤ v * radix + d)
    rw [valueFrom_cons hd, strtolLoop_digit (load_of_byte h.1) h.2.1 hd hlt]
    by_cases hfit : v * radix + d < 2 ^ 63
    · rw [long_mul_add hmul hd0 hfit, ih h.2.2 hds' (by omega) hfit (by omega), List.length_cons,
        Nat.add_assoc, Nat.add_comm 1]
    · rw [long_mul_add_overflow hmul (by omega), if_neg (by omega)]

/-- **What `strtol` does with a string that it reads so.** -/
theorem strtol_run (hs : CStr m p s) (h : Reading base s ws sg g z radix ds rest) :
    m.strtol p base =
      if ds = [] then .ok (0, p)
      else if value radix ds < 2 ^ 63 then
        .ok (g * value radix ds, p + ws.length + sg.length + z.length + ds.length)
      else .error .overflow := by
  have hlen := hs.length_lt
  rw [h.split] at hs hlen
  simp only [List.length_append] at hlen
  have hv0 : 0 ≤ value radix ds := le_valueFrom h.pre.two_le h.digits (Int.le_refl 0)
  unfold strtol
  rw [skipSpace_stops hs h.space h.noSpace (by omega)]
  show (m.strtolSign (p + ws.length) >>= _) = _
  rw [strtolSign_run hs.append h.sign h.noSign]
  show (m.strtolPrefix (p + ws.length + sg.length) base >>= _) = _
  rw [strtolPrefix_run hs.append.append h.pre]
  show (m.strtolLoop radix walkFuel (p + ws.length + sg.length + z.length) 0 >>= _) = _
  rw [strtolLoop_run hs.append.append.append h.digits h.stop h.pre.two_le (Int.le_refl 0)
    (by decide) (by omega)]
  change (if value radix ds < 2 ^ 63 then _ else _) >>= _ = _
  by_cases hne : ds = []
  · subst hne
    rw [if_pos (show value radix [] < 2 ^ 63 from (by decide : (0 : Int) < 2 ^ 63)), if_pos rfl]
    exact if_pos rfl
  · have hpos := List.length_pos_iff.mpr hne
    rw [if_neg hne]
    by_cases hfit : value radix ds < 2 ^ 63
    · rw [if_pos hfit, if_pos hfit]
      show (if p + ws.length + sg.length + z.length + ds.length =
          p + ws.length + sg.length + z.length
        then _ else if decide (g = -1) = true then long (-value radix ds) >>= _ else _) = _
      rw [if_neg (by omega)]
      rcases h.sign.eq_or_eq with rfl | rfl
      · rw [Int.one_mul]
        rfl
      · rw [if_pos (by decide), long_of_lt (by omega) (by omega), Int.neg_one_mul]
        rfl
    · rw [if_neg hfit, if_neg hfit]
      rfl

end ByteMem

/-! ## What the grammar has in a string -/

variable {g : Int} {z r : List UInt8}

theorem not_isDigit_of_isX {x : UInt8} (hx : IsX x) (hradix : radix ≤ 16) : ¬ IsDigit radix x := by
  rintro ⟨d, hd, hlt⟩
  have hx' : digitOf x = some 33 := by rcases hx with rfl | rfl <;> rfl
  obtain rfl : 33 = d := Option.some.inj (hx'.symm.trans hd)
  omega

theorem front_head {l : List UInt8} (h : c :: u <+: l) : l.head? = some c := by
  obtain ⟨w, rfl⟩ := h
  rfl

/-- Every number in front of what is behind the sign is digits behind the code's prefix, or the
zero of the prefix. -/
theorem Number.in_front {n : Int} (hn : Number base u n) (hz : CodePrefix base z radix (ds ++ rest))
    (hu : u <+: z ++ (ds ++ rest)) (hrest : ∀ c ∈ rest.head?, ¬ IsDigit radix c) :
    (∃ ds', ds' ≠ [] ∧ ds' <+: ds ∧ u = z ++ ds' ∧ n = value radix ds') ∨
      z ≠ [] ∧ u = [48] ∧ n = 0 := by
  cases hn with
  | plain hb hne hds =>
    cases hz with
    | hex hb' hx =>
      -- its only digit is the zero
      have hu' : u <+: [48] := prefix_of_split hu hds fun c hc => by
        obtain rfl : _ = c := Option.some.inj hc
        exact not_isDigit_of_isX hx (by omega)
      rcases List.prefix_cons_iff.mp hu' with rfl | ⟨u', rfl, hnil⟩
      · exact absurd rfl hne
      · obtain rfl := List.prefix_nil.mp hnil
        exact .inr ⟨by simp, rfl, by simp [value, valueFrom, digitOf]⟩
    | octal hb' => omega
    | decimal hb' => omega
    | plain _ _ => exact .inl ⟨u, hne, prefix_of_split hu hds hrest, rfl, rfl⟩
  | @hex x ds' hb hx hne hds =>
    cases hz with
    | hex hb' hx' =>
      obtain ⟨-, hu⟩ := List.cons_prefix_cons.mp hu
      obtain ⟨rfl, hds'⟩ := List.cons_prefix_cons.mp hu
      exact .inl ⟨ds', hne, prefix_of_split hds' hds hrest, rfl, rfl⟩
    | octal hb' hr =>
      obtain ⟨-, hu⟩ := List.cons_prefix_cons.mp hu
      exact absurd hx (hr x (front_head hu))
    | decimal hb' hr => exact absurd rfl (hr 48 (front_head hu))
    | plain hb' hr =>
      obtain ⟨w, hw⟩ := hu
      exact absurd hx (hr (by omega) x (ds' ++ w) hw.symm)
  | @octal ds' hb hds =>
    cases hz with
    | @hex x _ hb' hx =>
      obtain ⟨-, hu⟩ := List.cons_prefix_cons.mp hu
      cases ds' with
      | nil => exact .inr ⟨by simp, rfl, rfl⟩
      | cons c ds' =>
        obtain ⟨rfl, -⟩ := List.cons_prefix_cons.mp hu
        exact absurd (hds c List.mem_cons_self) (not_isDigit_of_isX hx (by decide))
    | octal hb' hr =>
      obtain ⟨-, hu⟩ := List.cons_prefix_cons.mp hu
      by_cases hne : ds' = []
      · subst hne
        exact .inr ⟨by simp, rfl, rfl⟩
      · exact .inl ⟨ds', hne, prefix_of_split hu hds hrest, rfl, rfl⟩
    | decimal hb' hr => exact absurd rfl (hr 48 (front_head hu))
    | plain hb' => omega
  | @decimal c ds' hb hc hds =>
    cases hz with
    | hex => exact absurd (List.cons_prefix_cons.mp hu).1 hc
    | octal => exact absurd (List.cons_prefix_cons.mp hu).1 hc
    | decimal hb' hr =>
      exact .inl ⟨c :: ds', List.cons_ne_nil c ds', prefix_of_split hu hds hrest, rfl, rfl⟩
    | plain hb' => omega

/-- Digits behind the code's prefix are a number. -/
theorem CodePrefix.number (hz : CodePrefix base z radix (ds ++ rest)) (hne : ds ≠ [])
    (hds : ∀ c ∈ ds, IsDigit radix c) : Number base (z ++ ds) (value radix ds) := by
  cases hz with
  | hex hb hx => exact .hex hb hx hne hds
  | octal hb hr => exact .octal hb hds
  | decimal hb hr =>
    obtain ⟨c, ds, rfl⟩ := List.exists_cons_of_ne_nil hne
    exact .decimal hb (hr c rfl) hds
  | plain hb hr => exact .plain hb hne hds

/-- So is the zero of the prefix. -/
theorem CodePrefix.zero (hz : CodePrefix base z radix r) (hne : z ≠ []) :
    Number base [48] 0 ∧ [48] <+: z := by
  cases hz with
  | hex hb hx =>
    refine ⟨?_, List.prefix_append [48] _⟩
    rcases hb with rfl | rfl
    · exact .octal rfl (by simp)
    · exact .plain (by decide) (by simp) (isDigit_of_all (by decide))
  | octal hb hr => exact ⟨.octal hb (by simp), List.prefix_refl [48]⟩
  | decimal => exact absurd rfl hne
  | plain => exact absurd rfl hne

/-- White space and signs are no digits of any base. -/
theorem digitOf_lead (h : isSpace c = true ∨ c = 43 ∨ c = 45) : digitOf c = none := by
  unfold isSpace at h
  rw [decide_eq_true_iff] at h
  rcases h with (rfl | rfl | rfl | rfl | rfl | rfl) | rfl | rfl <;> rfl

/-- A number starts with a digit. -/
theorem Number.head {n : Int} (hn : Number base u n) :
    ∃ c u', u = c :: u' ∧ ¬ isSpace c = true ∧ c ≠ 43 ∧ c ≠ 45 := by
  have hdigit : ∀ c, IsDigit base c ∨ IsDigit 10 c → ¬ isSpace c = true ∧ c ≠ 43 ∧ c ≠ 45 := by
    intro c hc
    have hsome : digitOf c ≠ none := by
      rcases hc with ⟨d, hd, -⟩ | ⟨d, hd, -⟩ <;> simp [hd]
    exact ⟨fun h => hsome (digitOf_lead (.inl h)), fun h => hsome (digitOf_lead (.inr (.inl h))),
      fun h => hsome (digitOf_lead (.inr (.inr h)))⟩
  cases hn with
  | plain hb hne hds =>
    obtain ⟨c, u', rfl⟩ := List.exists_cons_of_ne_nil hne
    exact ⟨c, u', rfl, hdigit c (.inl (hds c List.mem_cons_self))⟩
  | hex => exact ⟨48, _, rfl, by decide⟩
  | octal => exact ⟨48, _, rfl, by decide⟩
  | @decimal c ds' hb hc hds =>
    exact ⟨c, ds', rfl, hdigit c (.inr (hds c List.mem_cons_self))⟩

namespace Reading

variable {n w : Int} {t' : List UInt8}

/-- A sign and a digit behind it are found by the code. -/
theorem sign_eq (h : Reading base s ws sg g z radix ds rest) {sg' : List UInt8} {g' : Int}
    (hsg' : Sign sg' g') (hplus : c ≠ 43) (hminus : c ≠ 45)
    (hfront : sg' ++ c :: u <+: sg ++ (z ++ (ds ++ rest))) : sg' = sg ∧ g' = g := by
  have hsg := h.sign
  have hno := h.noSign
  cases hsg' with
  | none =>
    cases hsg with
    | none => exact ⟨rfl, rfl⟩
    | plus => exact absurd (List.cons_prefix_cons.mp hfront).1 hplus
    | minus => exact absurd (List.cons_prefix_cons.mp hfront).1 hminus
  | plus =>
    cases hsg with
    | none => exact absurd rfl (hno rfl 43 (front_head hfront)).1
    | plus => exact ⟨rfl, rfl⟩
    | minus => exact absurd (List.cons_prefix_cons.mp hfront).1 (by decide)
  | minus =>
    cases hsg with
    | none => exact absurd rfl (hno rfl 45 (front_head hfront)).2
    | plus => exact absurd (List.cons_prefix_cons.mp hfront).1 (by decide)
    | minus => exact ⟨rfl, rfl⟩

/-- Whatever is parsed in front has the white space and the sign that the code found. -/
theorem parses_split (h : Reading base s ws sg g z radix ds rest) (ht : t <+: s)
    (hp : Parses base t v) :
    ∃ u n, t = ws ++ (sg ++ u) ∧ u <+: z ++ (ds ++ rest) ∧ Number base u n ∧ v = g * n := by
  obtain ⟨ws', sg', u, g', n, rfl, hws', hsg', hn, rfl⟩ := hp
  obtain ⟨c, u', rfl, hspace, hplus, hminus⟩ := hn.head
  rw [h.split] at ht
  have hsign : ∃ x y, sg' ++ c :: u' = x :: y ∧ ¬ isSpace x = true := by
    cases hsg' with
    | none => exact ⟨c, u', rfl, hspace⟩
    | plus => exact ⟨43, _, rfl, by decide⟩
    | minus => exact ⟨45, _, rfl, by decide⟩
  obtain ⟨x, y, hxy, hx⟩ := hsign
  rw [hxy] at ht
  obtain ⟨rfl, hrest⟩ := split_unique ht hws' hx h.space h.noSpace
  rw [← hxy] at hrest
  obtain ⟨rfl, rfl⟩ := h.sign_eq hsg' hplus hminus hrest
  exact ⟨c :: u', n, rfl, (List.prefix_append_right_inj sg').mp hrest, hn, rfl⟩

/-- It is digits behind the code's prefix, or the zero of the prefix. -/
theorem parses (h : Reading base s ws sg g z radix ds rest) (ht : t <+: s)
    (hp : Parses base t v) :
    (∃ ds', ds' ≠ [] ∧ ds' <+: ds ∧ t = ws ++ (sg ++ (z ++ ds')) ∧ v = g * value radix ds') ∨
      z ≠ [] ∧ t = ws ++ (sg ++ [48]) ∧ v = 0 := by
  obtain ⟨u, n, rfl, hu, hn, rfl⟩ := h.parses_split ht hp
  rcases hn.in_front h.pre hu h.stop with ⟨ds', hne, hds', rfl, rfl⟩ | ⟨hz, rfl, rfl⟩
  · exact .inl ⟨ds', hne, hds', rfl, rfl⟩
  · exact .inr ⟨hz, rfl, Int.mul_zero g⟩

/-- Where the code found digits, they are the longest number. -/
theorem longest_digits (h : Reading base s ws sg g z radix ds rest) (hne : ds ≠ []) :
    LongestNumber base s (ws ++ (sg ++ (z ++ ds))) (g * value radix ds) where
  isPrefix := ⟨rest, by rw [h.split]; simp only [List.append_assoc]⟩
  parses := ⟨ws, sg, z ++ ds, g, _, rfl, h.space, h.sign, h.pre.number hne h.digits, rfl⟩
  longest t' v' ht' hp := by
    have hpos := List.length_pos_iff.mpr hne
    rcases h.parses ht' hp with ⟨ds', -, hds', rfl, -⟩ | ⟨hz, rfl, -⟩
    · have := hds'.length_le
      simp only [List.length_append]
      omega
    · have := List.length_pos_iff.mpr hz
      simp only [List.length_append, List.length_singleton]
      omega

/-- Where it found none behind a prefix, the zero of the prefix is. -/
theorem longest_zero (h : Reading base s ws sg g z radix [] rest) (hz : z ≠ []) :
    LongestNumber base s (ws ++ (sg ++ [48])) 0 where
  isPrefix := by
    obtain ⟨w, hw⟩ := (h.pre.zero hz).2
    refine ⟨w ++ rest, ?_⟩
    rw [h.split, ← hw]
    simp only [List.append_assoc, List.nil_append]
  parses := ⟨ws, sg, [48], g, 0, rfl, h.space, h.sign, (h.pre.zero hz).1, (Int.mul_zero g).symm⟩
  longest t' v' ht' hp := by
    rcases h.parses ht' hp with ⟨ds', hne, hds', -⟩ | ⟨-, rfl, -⟩
    · exact absurd (List.prefix_nil.mp hds') hne
    · exact Nat.le_refl _

/-- Where it found neither, nothing is. -/
theorem no_number (h : Reading base s ws sg g [] radix [] rest) (ht : t <+: s) :
    ¬ Parses base t v := by
  intro hp
  rcases h.parses ht hp with ⟨ds', hne, hds', -⟩ | ⟨hz, -⟩
  · exact hne (List.prefix_nil.mp hds')
  · exact hz rfl

/-- With digits it is not the zero of the prefix. -/
theorem zero_ne (hz : z ≠ []) (hne : ds ≠ []) : ws ++ (sg ++ (z ++ ds)) ≠ ws ++ (sg ++ [c]) := by
  simp only [ne_eq, List.append_cancel_left_eq, List.append_eq_singleton_iff]
  rintro (⟨h, -⟩ | ⟨-, h⟩)
  · exact hz h
  · exact hne h

/-- The value of what is parsed is one. -/
theorem value_unique (h : Reading base s ws sg g z radix ds rest) {v' : Int} (ht : t <+: s)
    (hp : Parses base t v) (hp' : Parses base t v') : v = v' := by
  rcases h.parses ht hp with ⟨ds', hne, -, rfl, rfl⟩ | ⟨hz, rfl, rfl⟩
  · rcases h.parses ht hp' with ⟨ds'', -, -, heq, rfl⟩ | ⟨hz, heq, -⟩
    · simp only [List.append_cancel_left_eq] at heq
      rw [heq]
    · exact absurd heq (zero_ne hz hne)
  · rcases h.parses ht hp' with ⟨ds', hne, -, heq, -⟩ | ⟨-, -, rfl⟩
    · exact absurd heq.symm (zero_ne hz hne)
    · rfl

/-- So the longest number is one. -/
theorem longest_unique (h : Reading base s ws sg g z radix ds rest) {v' : Int}
    (hl : LongestNumber base s t v) (hl' : LongestNumber base s t' v') : t = t' ∧ v = v' := by
  have hle := hl.longest t' v' hl'.isPrefix hl'.parses
  have hle' := hl'.longest t v hl.isPrefix hl.parses
  have hpre := List.prefix_of_prefix_length_le hl.isPrefix hl'.isPrefix hle'
  obtain rfl : t = t' := hpre.eq_of_length_le hle
  exact ⟨rfl, h.value_unique hl.isPrefix hl.parses hl'.parses⟩

end Reading

/-! ## Where the code meets the grammar -/

/-- A zero that the base takes for a prefix, and no digit behind it. -/
inductive BarePrefix (base : Int) : List UInt8 → Prop
  | hex {x : UInt8} {r : List UInt8} (hb : base = 0 ∨ base = 16) (hx : IsX x)
      (hr : ∀ c ∈ r.head?, ¬ IsDigit 16 c) : BarePrefix base (48 :: x :: r)
  | octal {r : List UInt8} (hb : base = 0) (hr : ∀ c ∈ r.head?, ¬ IsX c ∧ ¬ IsDigit 8 c) :
      BarePrefix base (48 :: r)

/-- It comes behind the white space and the sign. -/
def BareZero (base : Int) (s : List UInt8) : Prop :=
  ∃ ws sg g w, s = ws ++ (sg ++ w) ∧ (∀ c ∈ ws, isSpace c) ∧ Sign sg g ∧ BarePrefix base w

theorem BarePrefix.codePrefix {w : List UInt8} (h : BarePrefix base w) :
    ∃ z radix rest, w = 48 :: (z ++ rest) ∧ CodePrefix base (48 :: z) radix rest ∧
      ∀ c ∈ rest.head?, ¬ IsDigit radix c := by
  cases h with
  | hex hb hx hr => exact ⟨[_], 16, _, rfl, .hex hb hx, hr⟩
  | octal hb hr => exact ⟨[], 8, _, rfl, .octal hb fun c hc => (hr c hc).1, fun c hc => (hr c hc).2⟩

/-- The code finds a prefix and no digits. -/
theorem bareZero_iff : BareZero base s ↔
    ∃ ws sg g z radix rest, Reading base s ws sg g z radix [] rest ∧ z ≠ [] := by
  constructor
  · rintro ⟨ws, sg, g, w, rfl, hws, hsg, hw⟩
    obtain ⟨z, radix, rest, rfl, hz, hrest⟩ := hw.codePrefix
    refine ⟨ws, sg, g, 48 :: z, radix, rest, ⟨rfl, hws, ?_, hsg, ?_, hz, by simp, hrest⟩, by simp⟩
    · cases hsg with
      | none => rintro c ⟨⟩; decide
      | plus => rintro c ⟨⟩; decide
      | minus => rintro c ⟨⟩; decide
    · rintro - c ⟨⟩
      decide
  · rintro ⟨ws, sg, g, z, radix, rest, h, hne⟩
    refine ⟨ws, sg, g, z ++ rest, h.split, h.space, h.sign, ?_⟩
    have hstop := h.stop
    cases h.pre with
    | hex hb hx => exact .hex hb hx hstop
    | octal hb hr => exact .octal hb fun c hc => ⟨hr c hc, hstop c hc⟩
    | decimal => exact absurd rfl hne
    | plain => exact absurd rfl hne

/-- The number that the grammar finds in `s`, or zero. -/
def Parsed (base : Int) (s : List UInt8) (v : Int) : Prop :=
  (∃ t, LongestNumber base s t v) ∨ (∀ t v, t <+: s → ¬ Parses base t v) ∧ v = 0

/-- The nearest `long`. -/
def clampLong (x : Int) : Int := max (-2 ^ 63) (min x (2 ^ 63 - 1))

theorem clampLong_of_lt {x : Int} (h : -2 ^ 63 ≤ x) (h' : x < 2 ^ 63) : clampLong x = x := by
  unfold clampLong
  omega

theorem exists_parsed (hb : IsBase base) (s : List UInt8) : ∃ v, Parsed base s v := by
  obtain ⟨ws, sg, g, z, radix, ds, rest, h⟩ := exists_reading hb s
  by_cases hds : ds = []
  · subst hds
    by_cases hz : z = []
    · subst hz
      exact ⟨0, .inr ⟨fun t v ht => h.no_number ht, rfl⟩⟩
    · exact ⟨0, .inl ⟨_, h.longest_zero hz⟩⟩
  · exact ⟨_, .inl ⟨_, h.longest_digits hds⟩⟩

/-- What is parsed is the value of the digits that the code found. -/
theorem Reading.parsed (h : Reading base s ws sg g z radix ds rest) (hv : Parsed base s v) :
    v = g * value radix ds := by
  by_cases hds : ds = []
  · subst hds
    rw [show value radix [] = 0 from rfl, Int.mul_zero]
    rcases hv with ⟨t, ht⟩ | ⟨-, hv⟩
    · rcases h.parses ht.isPrefix ht.parses with ⟨ds', hne, hds', -⟩ | ⟨-, -, hv⟩
      · exact absurd (List.prefix_nil.mp hds') hne
      · exact hv
    · exact hv
  · have hlongest := h.longest_digits hds
    rcases hv with ⟨t, ht⟩ | ⟨hnone, -⟩
    · exact (h.longest_unique ht hlongest).2
    · exact absurd hlongest.parses (hnone _ _ hlongest.isPrefix)

/-- It overflows when its magnitude does. -/
theorem Reading.fits_iff (h : Reading base s ws sg g z radix ds rest) :
    value radix ds < 2 ^ 63 ↔ -2 ^ 63 < g * value radix ds ∧ g * value radix ds < 2 ^ 63 := by
  have h0 : 0 ≤ value radix ds := le_valueFrom h.pre.two_le h.digits (Int.le_refl 0)
  rcases h.sign.eq_or_eq with rfl | rfl
  · rw [Int.one_mul]
    omega
  · rw [Int.neg_one_mul]
    omega

namespace ByteMem

variable {m : ByteMem} {p : Nat}

/-- What is asked of `strtol`: the value of the longest number, if a `long` has it, and `end` just
behind; zero and `end` where it was if there is none. -/
def StrtolExact (m : ByteMem) (p : Nat) (s : List UInt8) (base : Int) : Prop :=
  (∀ t v, LongestNumber base s t v → -2 ^ 63 ≤ v → v < 2 ^ 63 →
    m.strtol p base = .ok (v, p + t.length)) ∧
  ((∀ t v, t <+: s → ¬ Parses base t v) → m.strtol p base = .ok (0, p))

/-- **`strtol` meets the grammar when no zero is taken for a prefix without digits, and the number
is not the least `long`.** -/
theorem strtol_exact_iff (m : ByteMem) (p : Nat) (s : List UInt8) (base : Int) (hb : IsBase base)
    (hs : CStr m p s) :
    StrtolExact m p s base ↔ ¬ BareZero base s ∧ ∀ t, ¬ LongestNumber base s t (-2 ^ 63) := by
  constructor
  · intro hexact
    refine ⟨fun hzero => ?_, fun t ht => ?_⟩
    · obtain ⟨ws, sg, g, z, radix, rest, h, hz⟩ := bareZero_iff.mp hzero
      have hend := hexact.1 _ 0 (h.longest_zero hz) (by omega) (by omega)
      rw [strtol_run hs h, if_pos rfl] at hend
      have hlen := congrArg Prod.snd (Except.ok.inj hend)
      simp only [List.length_append, List.length_singleton] at hlen
      omega
    · obtain ⟨ws, sg, g, z, radix, ds, rest, h⟩ := exists_reading hb s
      have hv := h.parsed (.inl ⟨t, ht⟩)
      have hrun := hexact.1 t _ ht (by omega) (by omega)
      have hover : ¬ value radix ds < 2 ^ 63 := fun hlt => by
        have := h.fits_iff.mp hlt
        omega
      have hne : ds ≠ [] := by
        rintro rfl
        exact hover (show (0 : Int) < 2 ^ 63 by decide)
      rw [strtol_run hs h, if_neg hne, if_neg hover] at hrun
      cases hrun
  · rintro ⟨hzero, hmin⟩
    obtain ⟨ws, sg, g, z, radix, ds, rest, h⟩ := exists_reading hb s
    by_cases hne : ds = []
    · subst hne
      have hz : z = [] := by
        by_contra hz
        exact hzero (bareZero_iff.mpr ⟨ws, sg, g, z, radix, rest, h, hz⟩)
      subst hz
      refine ⟨fun t v ht _ _ => absurd ht.parses (h.no_number ht.isPrefix), fun _ => ?_⟩
      rw [strtol_run hs h, if_pos rfl]
    · have hlongest := h.longest_digits hne
      refine ⟨fun t v ht hlo hhi => ?_, fun hnone => ?_⟩
      · obtain ⟨rfl, rfl⟩ := h.longest_unique ht hlongest
        have hmin' : g * value radix ds ≠ -2 ^ 63 := fun he => hmin _ (he ▸ hlongest)
        rw [strtol_run hs h, if_neg hne, if_pos (h.fits_iff.mpr ⟨by omega, hhi⟩)]
        simp only [List.length_append, Nat.add_assoc]
      · exact absurd hlongest.parses (hnone _ _ hlongest.isPrefix)

/-- "-12" in base 10. -/
theorem strtol_exact_iff_negative :
    StrtolExact (ofList 16 [45, 49, 50, 0] (by decide)) 16 [45, 49, 50] 10 ↔
      ¬ BareZero 10 [45, 49, 50] ∧ ∀ t, ¬ LongestNumber 10 [45, 49, 50] t (-2 ^ 63) :=
  strtol_exact_iff _ 16 _ 10 (.inr (by decide)) (by decide)

/-- The number "0" in base 0: `end` stays in front of it. -/
theorem strtol_loses_zero : ¬ StrtolExact (ofList 16 [48, 0] (by decide)) 16 [48] 0 := by
  intro h
  have hnumber : Parses 0 [48] 0 :=
    ⟨[], [], [48], 1, 0, rfl, by simp, .none, .octal rfl (by simp), rfl⟩
  have hend := h.1 [48] 0 (.whole hnumber) (by decide) (by decide)
  have hrun : (ofList 16 [48, 0] (by decide)).strtol 16 0 = .ok (0, 16) := rfl
  rw [hrun] at hend
  exact absurd (congrArg Prod.snd (Except.ok.inj hend)) (by decide)

/-- **`strtol` gives the nearest `long` exactly of the numbers whose magnitude is one.** -/
theorem strtol_saturates_iff (m : ByteMem) (p : Nat) (s : List UInt8) (base v : Int)
    (hb : IsBase base) (hs : CStr m p s) (hv : Parsed base s v) :
    (∃ e, m.strtol p base = .ok (clampLong v, e)) ↔ -2 ^ 63 < v ∧ v < 2 ^ 63 := by
  obtain ⟨ws, sg, g, z, radix, ds, rest, h⟩ := exists_reading hb s
  obtain rfl := h.parsed hv
  rw [strtol_run hs h, ← h.fits_iff]
  by_cases hne : ds = []
  · subst hne
    rw [if_pos rfl, show value radix [] = 0 from rfl, Int.mul_zero]
    exact iff_of_true ⟨p, rfl⟩ (by decide)
  · rw [if_neg hne]
    by_cases hfit : value radix ds < 2 ^ 63
    · obtain ⟨hlo, hhi⟩ := h.fits_iff.mp hfit
      rw [if_pos hfit, clampLong_of_lt (by omega) hhi]
      exact iff_of_true ⟨_, rfl⟩ hfit
    · rw [if_neg hfit]
      refine iff_of_false ?_ hfit
      rintro ⟨e, he⟩
      cases he

/-- "7" in base 10. -/
theorem strtol_saturates_iff_seven :
    (∃ e, (ofList 16 [55, 0] (by decide)).strtol 16 10 = .ok (clampLong 7, e)) ↔
      -2 ^ 63 < (7 : Int) ∧ (7 : Int) < 2 ^ 63 :=
  strtol_saturates_iff _ 16 [55] 10 7 (.inr (by decide)) (by decide) (.inl ⟨[55], .whole
    ⟨[], [], [55], 1, 7, rfl, by simp, .none,
      .plain (by decide) (by simp) (isDigit_of_all (by decide)), rfl⟩⟩)

/-- The least `long`, in base 10, overflows. -/
theorem strtol_overflows_min :
    Parsed 10 [45, 57, 50, 50, 51, 51, 55, 50, 48, 51, 54, 56, 53, 52, 55, 55, 53, 56, 48, 56]
        (-2 ^ 63) ∧
      ¬ ∃ e, (ofList 16 [45, 57, 50, 50, 51, 51, 55, 50, 48, 51, 54, 56, 53, 52, 55, 55, 53, 56, 48,
        56, 0] (by decide)).strtol 16 10 = .ok (clampLong (-2 ^ 63), e) := by
  constructor
  · refine .inl ⟨_, .whole ⟨[], [45], _, -1, 2 ^ 63, rfl, by simp, .minus, ?_, rfl⟩⟩
    exact .plain (by decide) (by simp) (isDigit_of_all (by decide))
  · rintro ⟨e, he⟩
    cases he

end ByteMem

end HelixKernel
