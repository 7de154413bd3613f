import HelixKernel.Klibc.Cstring

/-!
# `strcmp`, `strncmp` and `memcmp`

All three give the sign of the lexicographic order of lists of unsigned bytes: `strcmp` of the two
strings, `strncmp` of their first `n` characters, `memcmp` of two arrays.  The terminator is less
than every character, so `memcmp` of two strings up to the end of the shorter one decides as
`strcmp` does (`firstDiff_terminated`).  The laws of a three-way comparison follow from those of the
order (`Ordered.of_signs`). -/

namespace HelixKernel

variable {v w : Int} {a b : List UInt8} {c d : UInt8}

/-- `v` is negative, zero or positive as `a` is less than, equal to or greater than `b`. -/
structure Signs (v : Int) (a b : List UInt8) : Prop where
  neg : v < 0 ↔ a < b
  zero : v = 0 ↔ a = b
  pos : 0 < v ↔ b < a

namespace Signs

theorem of_lt (hv : v < 0) (h : a < b) : Signs v a b where
  neg := iff_of_true hv h
  zero := iff_of_false (by omega) fun he => List.lt_irrefl b (he ▸ h)
  pos := iff_of_false (by omega) (List.lt_asymm h)

theorem of_gt (hv : 0 < v) (h : b < a) : Signs v a b where
  neg := iff_of_false (by omega) (List.lt_asymm h)
  zero := iff_of_false (by omega) fun he => List.lt_irrefl b (he ▸ h)
  pos := iff_of_true hv h

theorem refl (a : List UInt8) : Signs 0 a a where
  neg := iff_of_false (by omega) (List.lt_irrefl a)
  zero := iff_of_true rfl rfl
  pos := iff_of_false (by omega) (List.lt_irrefl a)

/-- A first byte in common does not matter. -/
theorem cons (h : Signs v a b) (c : UInt8) : Signs v (c :: a) (c :: b) := by
  have hlt : ∀ x y : List UInt8, c :: x < c :: y ↔ x < y := by
    intro x y
    rw [List.cons_lt_cons_iff]
    simp
  exact ⟨h.neg.trans (hlt a b).symm, h.zero.trans (by simp), h.pos.trans (hlt b a).symm⟩

/-- Different first bytes decide by their difference. -/
theorem head (hcd : c ≠ d) (a b : List UInt8) :
    Signs ((c.toNat : Int) - d.toNat) (c :: a) (d :: b) := by
  have hne : c.toNat ≠ d.toNat := fun h => hcd (UInt8.toNat_inj.mp h)
  rcases Nat.lt_or_gt_of_ne hne with h | h
  · exact of_lt (by omega) (List.cons_lt_cons_iff.mpr (.inl (UInt8.lt_iff_toNat_lt.mpr h)))
  · exact of_gt (by omega) (List.cons_lt_cons_iff.mpr (.inl (UInt8.lt_iff_toNat_lt.mpr h)))

/-- The end of the one string decides. -/
theorem nil_cons (hd : d ≠ 0) (b : List UInt8) : Signs (-d.toNat) [] (d :: b) := by
  have : d.toNat ≠ 0 := fun h => hd (UInt8.toNat_inj.mp h)
  exact of_lt (by omega) (List.nil_lt_cons d b)

theorem cons_nil (hc : c ≠ 0) (a : List UInt8) : Signs c.toNat (c :: a) [] := by
  have : c.toNat ≠ 0 := fun h => hc (UInt8.toNat_inj.mp h)
  exact of_gt (by omega) (List.nil_lt_cons c a)

theorem sign (h : Signs v a b) : Signs v.sign a b where
  neg := Int.sign_neg_iff.trans h.neg
  zero := Int.sign_eq_zero_iff_zero.trans h.zero
  pos := Int.sign_pos_iff.trans h.pos

end Signs

/-- The difference of the first two bytes that differ, a terminator counting as zero. -/
def firstDiff : List UInt8 → List UInt8 → Int
  | [], [] => 0
  | [], d :: _ => -d.toNat
  | c :: _, [] => c.toNat
  | c :: a, d :: b => if c = d then firstDiff a b else c.toNat - d.toNat

theorem firstDiff_cons_self (c : UInt8) (a b : List UInt8) :
    firstDiff (c :: a) (c :: b) = firstDiff a b := if_pos rfl

theorem firstDiff_head (hcd : c ≠ d) (a b : List UInt8) :
    firstDiff (c :: a) (d :: b) = c.toNat - d.toNat := if_neg hcd

/-- It has the sign of the order of strings. -/
theorem signs_firstDiff (ha : ∀ c ∈ a, c ≠ 0) (hb : ∀ c ∈ b, c ≠ 0) :
    Signs (firstDiff a b) a b := by
  induction a generalizing b with
  | nil =>
    cases b with
    | nil => exact .refl []
    | cons d b => exact .nil_cons (hb d List.mem_cons_self) b
  | cons c a ih =>
    cases b with
    | nil => exact .cons_nil (ha c List.mem_cons_self) a
    | cons d b =>
      by_cases hcd : c = d
      · subst hcd
        rw [firstDiff_cons_self]
        exact (ih (fun x hx => ha x (.tail c hx)) fun x hx => hb x (.tail c hx)).cons c
      · rw [firstDiff_head hcd]
        exact .head hcd a b

/-- And of arrays of one length. -/
theorem signs_firstDiff_of_length (hab : a.length = b.length) : Signs (firstDiff a b) a b := by
  induction a generalizing b with
  | nil =>
    obtain rfl := List.eq_nil_of_length_eq_zero hab.symm
    exact .refl []
  | cons c a ih =>
    obtain ⟨d, b, rfl⟩ := List.exists_cons_of_length_eq_add_one hab.symm
    by_cases hcd : c = d
    · subst hcd
      rw [firstDiff_cons_self]
      exact (ih (Nat.succ.inj hab)).cons c
    · rw [firstDiff_head hcd]
      exact .head hcd a b

/-- Where the shorter string ends, with its terminator, all is decided. -/
theorem firstDiff_terminated (a b : List UInt8) :
    firstDiff ((a ++ [0]).take (min a.length b.length + 1))
      ((b ++ [0]).take (min a.length b.length + 1)) = firstDiff a b := by
  induction a generalizing b with
  | nil =>
    cases b with
    | nil => rfl
    | cons d b =>
      show (if (0 : UInt8) = d then 0 else (((0 : UInt8).toNat : Int) - d.toNat)) = -d.toNat
      by_cases hd : 0 = d
      · rw [if_pos hd, ← hd]
        rfl
      · rw [if_neg hd]
        exact Int.zero_sub _
  | cons c a ih =>
    cases b with
    | nil =>
      show (if c = 0 then 0 else ((c.toNat : Int) - (0 : UInt8).toNat)) = c.toNat
      by_cases hc : c = 0
      · rw [if_pos hc, hc]
        rfl
      · rw [if_neg hc]
        exact Int.sub_zero _
    | cons d b =>
      simp only [List.length_cons, Nat.add_min_add_right, List.cons_append, List.take_succ_cons,
        firstDiff, ih]

namespace ByteMem

variable {m m' : ByteMem} {p q i n fuel todo : Nat}

/-! ## The loops -/

/-- `strcmp` ends at the first difference, or at the terminators. -/
theorem strcmpLoop_firstDiff (ha : CStr m p a) (hb : CStr m q b) (hfuel : a.length < fuel) :
    ∃ p' q' c d, m.strcmpLoop fuel p q = .ok (p', q') ∧ m.load p' = .ok c ∧ m.load q' = .ok d ∧
      (c.toNat : Int) - d.toNat = firstDiff a b := by
  induction a generalizing p q b fuel with
  | nil =>
    obtain ⟨fuel, rfl⟩ : ∃ k, fuel = k + 1 := ⟨fuel - 1, by omega⟩
    unfold strcmpLoop
    rw [load_of_byte ha]
    cases b with
    | nil => exact ⟨p, q, 0, 0, rfl, load_of_byte ha, load_of_byte hb, rfl⟩
    | cons d b => exact ⟨p, q, 0, d, rfl, load_of_byte ha, load_of_byte hb.1, Int.zero_sub _⟩
  | cons c a ih =>
    obtain ⟨fuel, rfl⟩ : ∃ k, fuel = k + 1 := ⟨fuel - 1, by omega⟩
    rw [List.length_cons] at hfuel
    unfold strcmpLoop
    rw [load_of_byte ha.1]
    show ∃ p' q' x y, (if c = 0 then _ else m.load q >>= _) = _ ∧ _
    rw [if_neg ha.2.1]
    cases b with
    | nil =>
      rw [load_of_byte hb]
      show ∃ p' q' x y, (if c = 0 then _ else _) = _ ∧ _
      rw [if_neg ha.2.1]
      exact ⟨p, q, c, 0, rfl, load_of_byte ha.1, load_of_byte hb, Int.sub_zero _⟩
    | cons d b =>
      rw [load_of_byte hb.1]
      show ∃ p' q' x y, (if c = d then m.strcmpLoop fuel (p + 1) (q + 1) else _) = _ ∧ _
      by_cases hcd : c = d
      · subst hcd
        rw [if_pos rfl, firstDiff_cons_self]
        exact ih ha.2.2 hb.2.2 (by omega)
      · rw [if_neg hcd, firstDiff_head hcd]
        exact ⟨p, q, c, d, rfl, load_of_byte ha.1, load_of_byte hb.1, rfl⟩

theorem strcmp_firstDiff (ha : CStr m p a) (hb : CStr m q b) :
    m.strcmp p q = .ok (firstDiff a b) := by
  obtain ⟨p', q', c, d, hrun, hc, hd, hdiff⟩ := strcmpLoop_firstDiff ha hb ha.length_lt
  unfold strcmp
  rw [hrun]
  show (m.load p' >>= fun c1 => m.load q' >>= _) = _
  rw [hc]
  show (m.load q' >>= _) = _
  rw [hd, ← hdiff]
  rfl

/-- The bytes of a string that are among the first `n`: characters, and the terminator if it is
one of them. -/
def bounded (n : Nat) (s : List UInt8) : List UInt8 := (s ++ [0]).take n

/-- `strncmp` from `i` on ends at the first difference, at the terminators, or with the bytes. -/
theorem strncmpLoop_firstDiff (ha : BytesAt m (p + i) (bounded todo a))
    (hb : BytesAt m (q + i) (bounded todo b)) (ha0 : ∀ c ∈ a, c ≠ 0) :
    ∃ j, m.strncmpLoop p q i todo = .ok j ∧
      (j = i + todo ∧ firstDiff (a.take todo) (b.take todo) = 0 ∨
        j < i + todo ∧ ∃ c d, m.load (p + j) = .ok c ∧ m.load (q + j) = .ok d ∧
          (c.toNat : Int) - d.toNat = firstDiff (a.take todo) (b.take todo)) := by
  induction todo generalizing i a b with
  | zero => exact ⟨i, rfl, .inl ⟨rfl, rfl⟩⟩
  | succ todo ih =>
    unfold strncmpLoop
    cases a with
    | nil =>
      have hc := load_of_byte ha.1
      rw [hc]
      refine ⟨i, rfl, .inr ⟨by omega, ?_⟩⟩
      cases b with
      | nil => exact ⟨0, 0, hc, load_of_byte hb.1, rfl⟩
      | cons d b => exact ⟨0, d, hc, load_of_byte hb.1, Int.zero_sub _⟩
    | cons c a =>
      have hc := load_of_byte ha.1
      have hc0 := ha0 c List.mem_cons_self
      rw [hc]
      show ∃ j, (if c = 0 then _ else m.load (q + i) >>= _) = _ ∧ _
      rw [if_neg hc0]
      cases b with
      | nil =>
        have hd := load_of_byte hb.1
        rw [hd]
        show ∃ j, (if c = 0 then _ else _) = _ ∧ _
        rw [if_neg hc0]
        exact ⟨i, rfl, .inr ⟨by omega, c, 0, hc, hd, Int.sub_zero _⟩⟩
      | cons d b =>
        have hd := load_of_byte hb.1
        rw [hd]
        show ∃ j, (if c = d then m.strncmpLoop p q (i + 1) todo else _) = _ ∧ _
        by_cases hcd : c = d
        · subst hcd
          rw [if_pos rfl, List.take_succ_cons, List.take_succ_cons, firstDiff_cons_self]
          obtain ⟨j, hrun, hj⟩ := ih (i := i + 1) ha.2 hb.2 fun x hx => ha0 x (.tail c hx)
          rw [Nat.add_right_comm, Nat.add_assoc] at hj
          exact ⟨j, hrun, hj⟩
        · rw [if_neg hcd]
          exact ⟨i, rfl, .inr ⟨by omega, c, d, hc, hd, (firstDiff_head hcd _ _).symm⟩⟩

theorem strncmp_firstDiff (ha : BytesAt m p (bounded n a)) (hb : BytesAt m q (bounded n b))
    (ha0 : ∀ c ∈ a, c ≠ 0) : m.strncmp p q n = .ok (firstDiff (a.take n) (b.take n)) := by
  obtain ⟨j, hrun, hj⟩ := strncmpLoop_firstDiff (i := 0) ha hb ha0
  rw [Nat.zero_add] at hj
  unfold strncmp
  rw [hrun]
  show (if j = n then _ else m.load (p + j) >>= _) = _
  rcases hj with ⟨hj, hdiff⟩ | ⟨hj, c, d, hc, hd, hdiff⟩
  · rw [if_pos hj, hdiff]
  · rw [if_neg (by omega), hc]
    show (m.load (q + j) >>= _) = _
    rw [hd, ← hdiff]
    rfl

/-- `memcmp` of two arrays. -/
theorem memcmpLoop_firstDiff (ha : BytesAt m (p + i) a) (hb : BytesAt m (q + i) b)
    (hal : a.length = todo) (hbl : b.length = todo) :
    m.memcmpLoop p q i todo = .ok (firstDiff a b).sign := by
  induction todo generalizing i a b with
  | zero =>
    obtain rfl := List.eq_nil_of_length_eq_zero hal
    obtain rfl := List.eq_nil_of_length_eq_zero hbl
    rfl
  | succ todo ih =>
    obtain ⟨c, a, rfl⟩ := List.exists_cons_of_length_eq_add_one hal
    obtain ⟨d, b, rfl⟩ := List.exists_cons_of_length_eq_add_one hbl
    unfold memcmpLoop
    rw [load_of_byte ha.1]
    show (m.load (q + i) >>= _) = _
    rw [load_of_byte hb.1]
    show (if c ≠ d then .ok (if c < d then -1 else 1) else m.memcmpLoop p q (i + 1) todo) = _
    by_cases hcd : c = d
    · subst hcd
      rw [if_neg (fun h => h rfl), firstDiff_cons_self]
      exact ih (i := i + 1) ha.2 hb.2 (Nat.succ.inj hal) (Nat.succ.inj hbl)
    · have hne : c.toNat ≠ d.toNat := fun h => hcd (UInt8.toNat_inj.mp h)
      rw [if_pos hcd, firstDiff_head hcd]
      by_cases hlt : c < d
      · have := UInt8.lt_iff_toNat_lt.mp hlt
        rw [if_pos hlt, Int.sign_eq_neg_one_of_neg (by omega)]
      · have := mt UInt8.lt_iff_toNat_lt.mpr hlt
        rw [if_neg hlt, Int.sign_eq_one_of_pos (by omega)]

theorem memcmp_firstDiff (ha : BytesAt m p a) (hb : BytesAt m q b) (hal : a.length = n)
    (hbl : b.length = n) : m.memcmp p q n = .ok (firstDiff a b).sign :=
  memcmpLoop_firstDiff (i := 0) ha hb hal hbl

/-! ## What is read -/

theorem bounded_congr (ha : CStr m p a)
    (hm : ∀ x, InStr p a.length x → x < p + n → m'.byte x = m.byte x) :
    BytesAt m' p (bounded n a) := by
  refine (ha.bytesAt.take n).congr fun x hx hx' => ?_
  simp only [List.length_take, List.length_append, List.length_singleton] at hx'
  exact hm x ⟨hx, by omega⟩ (by omega)

theorem strncmp_reads (ha : CStr m p a) (hb : CStr m q b) (n : Nat) :
    m.Reads (fun x => InStr p a.length x ∧ x < p + n ∨ InStr q b.length x ∧ x < q + n)
      (fun m => m.strncmp p q n) (firstDiff (a.take n) (b.take n)) := fun _ hm =>
  strncmp_firstDiff (bounded_congr ha fun x hx hx' => hm x (.inl ⟨hx, hx'⟩))
    (bounded_congr hb fun x hx hx' => hm x (.inr ⟨hx, hx'⟩)) ha.nonzero

theorem signs_take (ha : CStr m p a) (hb : CStr m q b) (n : Nat) :
    Signs (firstDiff (a.take n) (b.take n)) (a.take n) (b.take n) :=
  signs_firstDiff (fun c hc => ha.nonzero c (List.mem_of_mem_take hc))
    fun c hc => hb.nonzero c (List.mem_of_mem_take hc)

/-- Two strings as arrays, up to the terminator of the shorter one. -/
theorem memcmp_reads (ha : CStr m p a) (hb : CStr m q b) :
    m.Reads (fun x => InStr p (min a.length b.length) x ∨ InStr q (min a.length b.length) x)
      (fun m => m.memcmp p q (min a.length b.length + 1)) (firstDiff a b).sign := by
  intro m' hm
  rw [← firstDiff_terminated a b]
  refine memcmp_firstDiff (bounded_congr ha fun x hx hx' => hm x (.inl ⟨hx.1, by omega⟩))
    (bounded_congr hb fun x hx hx' => hm x (.inr ⟨hx.1, by omega⟩)) ?_ ?_
  · simp only [List.length_take, List.length_append, List.length_singleton]
    omega
  · simp only [List.length_take, List.length_append, List.length_singleton]
    omega

end ByteMem

/-! ## The laws -/

theorem lt_or_eq_or_gt (a b : List UInt8) : a < b ∨ a = b ∨ b < a := by
  by_cases h : a < b
  · exact .inl h
  · rcases List.le_iff_lt_or_eq.mp (List.not_lt.mp h) with h | h
    · exact .inr (.inr h)
    · exact .inr (.inl h.symm)

/-- The laws of a three-way comparison `f` of pointers, where `At p a` says that `a` is at `p`. -/
structure Ordered (f : Nat → Nat → Except ByteFault Int) (At : Nat → List UInt8 → Prop) : Prop where
  antisymm : ∀ p q a b, At p a → At q b →
    ∃ v w, f p q = .ok v ∧ f q p = .ok w ∧ w.sign = -v.sign
  trans : ∀ p q r a b c, At p a → At q b → At r c →
    ∃ u v w, f p q = .ok u ∧ f q r = .ok v ∧ f p r = .ok w ∧ (u ≤ 0 → v ≤ 0 → w ≤ 0)
  zero : ∀ p q a b, At p a → At q b → ∃ v, f p q = .ok v ∧ (v = 0 ↔ a = b)

theorem Signs.swap (h : Signs v a b) (h' : Signs w b a) : w.sign = -v.sign := by
  rcases lt_or_eq_or_gt a b with hlt | heq | hgt
  · rw [Int.sign_eq_neg_one_of_neg (h.neg.mpr hlt), Int.sign_eq_one_of_pos (h'.pos.mpr hlt)]
    rfl
  · rw [h.zero.mpr heq, h'.zero.mpr heq.symm]
    rfl
  · rw [Int.sign_eq_one_of_pos (h.pos.mpr hgt), Int.sign_eq_neg_one_of_neg (h'.neg.mpr hgt)]

/-- Not positive, as the order is not the other way round. -/
theorem Signs.le_iff (h : Signs v a b) : v ≤ 0 ↔ a ≤ b := by
  rw [← Int.not_lt, h.pos, List.not_lt]

/-- What has the sign of the order has its laws. -/
theorem Ordered.of_signs {f : Nat → Nat → Except ByteFault Int} {At : Nat → List UInt8 → Prop}
    (h : ∀ p q a b, At p a → At q b → ∃ v, f p q = .ok v ∧ Signs v a b) : Ordered f At where
  antisymm p q a b ha hb := by
    obtain ⟨v, hv, hsign⟩ := h p q a b ha hb
    obtain ⟨w, hw, hsign'⟩ := h q p b a hb ha
    exact ⟨v, w, hv, hw, hsign.swap hsign'⟩
  trans p q r a b c ha hb hc := by
    obtain ⟨u, hu, hab⟩ := h p q a b ha hb
    obtain ⟨v, hv, hbc⟩ := h q r b c hb hc
    obtain ⟨w, hw, hac⟩ := h p r a c ha hc
    refine ⟨u, v, w, hu, hv, hw, fun hu0 hv0 => ?_⟩
    exact hac.le_iff.mpr (List.le_trans (hab.le_iff.mp hu0) (hbc.le_iff.mp hv0))
  zero p q a b ha hb := by
    obtain ⟨v, hv, hsign⟩ := h p q a b ha hb
    exact ⟨v, hv, hsign.zero⟩

namespace ByteMem

/-- **The comparisons agree with the lexicographic order on unsigned bytes**, read no byte behind a
terminator or the `n`-th, and are antisymmetric, transitive and zero exactly on equals. -/
theorem comparisons_lexicographic (m : ByteMem) (n : Nat) :
    (∀ p q a b, CStr m p a → CStr m q b →
      (∃ v, m.Reads (fun x => InStr p a.length x ∨ InStr q b.length x)
          (fun m => m.strcmp p q) v ∧ Signs v a b) ∧
      (∃ v, m.Reads (fun x => InStr p a.length x ∧ x < p + n ∨ InStr q b.length x ∧ x < q + n)
          (fun m => m.strncmp p q n) v ∧ Signs v (a.take n) (b.take n)) ∧
      ∃ v, m.Reads (fun x => InStr p (min a.length b.length) x ∨ InStr q (min a.length b.length) x)
          (fun m => m.memcmp p q (min a.length b.length + 1)) v ∧ Signs v a b) ∧
    Ordered m.strcmp (CStr m) ∧
    Ordered (fun p q => m.strncmp p q n) (fun p t => ∃ s, CStr m p s ∧ t = s.take n) ∧
    Ordered (fun p q => m.memcmp p q n) (fun p t => t.length = n ∧ BytesAt m p t) := by
  refine ⟨fun p q a b ha hb => ⟨?_, ?_, ?_⟩, .of_signs ?_, .of_signs ?_, .of_signs ?_⟩
  · refine ⟨firstDiff a b, ?_, signs_firstDiff ha.nonzero hb.nonzero⟩
    exact .of_strs ha hb fun m' ha' hb' => strcmp_firstDiff ha' hb'
  · exact ⟨_, strncmp_reads ha hb n, signs_take ha hb n⟩
  · exact ⟨_, memcmp_reads ha hb, (signs_firstDiff ha.nonzero hb.nonzero).sign⟩
  · intro p q a b ha hb
    exact ⟨_, strcmp_firstDiff ha hb, signs_firstDiff ha.nonzero hb.nonzero⟩
  · rintro p q - - ⟨a, ha, rfl⟩ ⟨b, hb, rfl⟩
    exact ⟨_, (strncmp_reads ha hb n).ok, signs_take ha hb n⟩
  · rintro p q a b ⟨hal, ha⟩ ⟨hbl, hb⟩
    exact ⟨_, memcmp_firstDiff ha hb hal hbl,
      (signs_firstDiff_of_length (hal.trans hbl.symm)).sign⟩

/-- Of 0x7f and 0x80 the first is less, as bytes. -/
theorem comparisons_lexicographic_unsigned :
    ∃ v, (ofList 16 [0x7f, 0, 0x80, 0] (by decide)).Reads
      (fun x => InStr 16 1 x ∨ InStr 18 1 x) (fun m => m.strcmp 16 18) v ∧ Signs v [0x7f] [0x80] :=
  ((comparisons_lexicographic (ofList 16 [0x7f, 0, 0x80, 0] (by decide)) 1).1 16 18 [0x7f] [0x80]
    (by decide) (by decide)).1

end ByteMem

end HelixKernel
