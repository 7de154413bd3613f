import HelixKernel.Klibc.Cstring
import Mathlib.Data.List.NodupEquivFin

/-!
# `strchr`, `strrchr` and `strstr`

What is found is an address for the least or the greatest index with a property, or null when
there is none.  `strstr` finds the leftmost occurrence and reads the two strings only
(`strstr_leftmost`).  The loops of `strchr` and `strrchr` end at the terminator before they
compare it, so they search the string and its terminator exactly when the character is not zero
(`strchr_strrchr_extreme`). -/

namespace HelixKernel

variable {p q k : Nat} {P Q : Nat → Prop} {r r' : Option Nat}

/-- The address, from `p` on, at the index with `P` that comes first by `before`; null when no
index has `P`. -/
def ExtremeAt (before : Nat → Nat → Prop) (p : Nat) (P : Nat → Prop) : Option Nat → Prop
  | some q => ∃ i, q = p + i ∧ P i ∧ ∀ j, before j i → ¬ P j
  | none => ∀ i, ¬ P i

/-- The address at the least index. -/
abbrev LeastAt : Nat → (Nat → Prop) → Option Nat → Prop := ExtremeAt fun j i => j < i

/-- The address at the greatest index. -/
abbrev GreatestAt : Nat → (Nat → Prop) → Option Nat → Prop := ExtremeAt fun j i => i < j

namespace ExtremeAt

variable {before : Nat → Nat → Prop}

theorem unique (htri : ∀ i j, before i j ∨ i = j ∨ before j i) (h : ExtremeAt before p P r)
    (h' : ExtremeAt before p P r') : r = r' := by
  cases r with
  | none =>
    cases r' with
    | none => rfl
    | some q' =>
      obtain ⟨i, -, hi, -⟩ := h'
      exact absurd hi (h i)
  | some q =>
    obtain ⟨i, rfl, hi, hext⟩ := h
    cases r' with
    | none => exact absurd hi (h' i)
    | some q' =>
      obtain ⟨j, rfl, hj, hext'⟩ := h'
      rcases htri i j with hij | rfl | hji
      · exact absurd hi (hext' i hij)
      · rfl
      · exact absurd hj (hext j hji)

theorem of_iff (h : ExtremeAt before p P r) (hPQ : ∀ i, P i ↔ Q i) : ExtremeAt before p Q r := by
  obtain rfl : P = Q := funext fun i => propext (hPQ i)
  exact h

end ExtremeAt

namespace LeastAt

theorem unique (h : LeastAt p P r) (h' : LeastAt p P r') : r = r' :=
  ExtremeAt.unique (fun i j => by omega) h h'

theorem here (h : P 0) : LeastAt p P (some p) :=
  ⟨0, rfl, h, fun _ hj => absurd hj (Nat.not_lt_zero _)⟩

theorem later (h : ¬ P 0) (hr : LeastAt (p + 1) (fun i => P (i + 1)) r) : LeastAt p P r := by
  cases r with
  | none =>
    intro i
    cases i with
    | zero => exact h
    | succ i => exact hr i
  | some q =>
    obtain ⟨i, rfl, hi, hlt⟩ := hr
    refine ⟨i + 1, by omega, hi, fun j hj => ?_⟩
    cases j with
    | zero => exact h
    | succ j => exact hlt j (by omega)

end LeastAt

namespace GreatestAt

/-- The last one is found further on, or else here. -/
theorem or_here [Decidable (P 0)] (hr : GreatestAt (p + 1) (fun i => P (i + 1)) r) :
    GreatestAt p P (r.or (if P 0 then some p else none)) := by
  cases r with
  | some q =>
    obtain ⟨i, rfl, hi, hgt⟩ := hr
    refine ⟨i + 1, by omega, hi, fun j hj => ?_⟩
    obtain ⟨j, rfl⟩ : ∃ k, j = k + 1 := ⟨j - 1, by omega⟩
    exact hgt j (by omega)
  | none =>
    by_cases h0 : P 0
    · rw [if_pos h0]
      refine ⟨0, rfl, h0, fun j hj => ?_⟩
      obtain ⟨j, rfl⟩ : ∃ k, j = k + 1 := ⟨j - 1, by omega⟩
      exact hr j
    · rw [if_neg h0]
      intro i
      cases i with
      | zero => exact h0
      | succ i => exact hr i

theorem unique (h : GreatestAt p P r) (h' : GreatestAt p P r') : r = r' :=
  ExtremeAt.unique (fun i j => by omega) h h'

end GreatestAt

/-- The two are one when there is one index, or none. -/
theorem LeastAt.eq_greatest_iff (h : LeastAt p P r) (h' : GreatestAt p P r') :
    r = r' ↔ ∀ i j, P i → P j → i = j := by
  cases r with
  | none =>
    cases r' with
    | none => exact ⟨fun _ i _ hi _ => absurd hi (h i), fun _ => rfl⟩
    | some q' =>
      obtain ⟨i, -, hi, -⟩ := h'
      exact absurd hi (h i)
  | some q =>
    obtain ⟨i, rfl, hi, hlt⟩ := h
    cases r' with
    | none => exact absurd hi (h' i)
    | some q' =>
      obtain ⟨j, rfl, hj, hgt⟩ := h'
      constructor
      · intro he a b ha hb
        obtain rfl : i = j := by have := Option.some.inj he; omega
        have hia : ¬ a < i := fun hlt' => hlt a hlt' ha
        have hib : ¬ b < i := fun hlt' => hlt b hlt' hb
        have hai : ¬ i < a := fun hgt' => hgt a hgt' ha
        have hbi : ¬ i < b := fun hgt' => hgt b hgt' hb
        omega
      · intro h
        rw [h i j hi hj]

/-! ## Characters -/

namespace ByteMem

variable {m : ByteMem} {c : UInt8} {s t : List UInt8} {h n fuel : Nat}

theorem strchrLoop_least (hs : CStr m p s) (hfuel : s.length < fuel) :
    ∃ r, m.strchrLoop c fuel p = .ok r ∧ LeastAt p (fun i => s[i]? = some c) r := by
  induction s generalizing p fuel with
  | nil =>
    obtain ⟨fuel, rfl⟩ : ∃ k, fuel = k + 1 := ⟨fuel - 1, by omega⟩
    refine ⟨none, ?_, fun i => by simp⟩
    unfold strchrLoop
    rw [load_of_byte hs]
    rfl
  | cons d s ih =>
    obtain ⟨fuel, rfl⟩ : ∃ k, fuel = k + 1 := ⟨fuel - 1, by omega⟩
    rw [List.length_cons] at hfuel
    obtain ⟨r, hrun, hr⟩ := ih hs.2.2 (by omega : s.length < fuel)
    unfold strchrLoop
    rw [load_of_byte hs.1]
    show ∃ r, (if d = 0 then _ else if d = c then _ else m.strchrLoop c fuel (p + 1)) = _ ∧ _
    rw [if_neg hs.2.1]
    by_cases hdc : d = c
    · rw [if_pos hdc]
      exact ⟨some p, rfl, .here (congrArg some hdc)⟩
    · rw [if_neg hdc]
      exact ⟨r, hrun, hr.later fun h0 => hdc (Option.some.inj h0)⟩

theorem strrchrLoop_greatest (hs : CStr m p s) (hfuel : s.length < fuel) (last : Option Nat) :
    ∃ r, m.strrchrLoop c fuel p last = .ok (r.or last) ∧
      GreatestAt p (fun i => s[i]? = some c) r := by
  induction s generalizing p fuel last with
  | nil =>
    obtain ⟨fuel, rfl⟩ : ∃ k, fuel = k + 1 := ⟨fuel - 1, by omega⟩
    refine ⟨none, ?_, fun i => by simp⟩
    unfold strrchrLoop
    rw [load_of_byte hs]
    rfl
  | cons d s ih =>
    obtain ⟨fuel, rfl⟩ : ∃ k, fuel = k + 1 := ⟨fuel - 1, by omega⟩
    rw [List.length_cons] at hfuel
    obtain ⟨r, hrun, hr⟩ := ih hs.2.2 (by omega : s.length < fuel) (if d = c then some p else last)
    have h0 : (d :: s)[0]? = some c ↔ d = c := by simp
    refine ⟨r.or (if (d :: s)[0]? = some c then some p else none), ?_, hr.or_here⟩
    unfold strrchrLoop
    rw [load_of_byte hs.1]
    show (if d = 0 then _ else m.strrchrLoop c fuel (p + 1) (if d = c then some p else last)) = _
    rw [if_neg hs.2.1, hrun, Option.or_assoc]
    by_cases hdc : d = c
    · rw [if_pos hdc, if_pos (h0.mpr hdc)]
      rfl
    · rw [if_neg hdc, if_neg (mt h0.mp hdc)]
      rfl

/-- What `strchr` finds is among the characters of the string. -/
theorem strchr_least (hs : CStr m p s) (c : Int) :
    ∃ r, m.Reads (InStr p s.length) (fun m => m.strchr p c) r ∧
      LeastAt p (fun i => s[i]? = some (toChar c)) r :=
  Reads.of_str_unique (fun _ _ => LeastAt.unique) hs fun _ hs' => strchrLoop_least hs' hs'.length_lt

theorem strrchr_greatest (hs : CStr m p s) (c : Int) :
    ∃ r, m.Reads (InStr p s.length) (fun m => m.strrchr p c) r ∧
      GreatestAt p (fun i => s[i]? = some (toChar c)) r := by
  refine Reads.of_str_unique (fun _ _ => GreatestAt.unique) hs fun m' hs' => ?_
  obtain ⟨r, hrun, hr⟩ := strrchrLoop_greatest (c := toChar c) hs' hs'.length_lt none
  rw [Option.or_none] at hrun
  exact ⟨r, hrun, hr⟩

/-- The characters of the string `s` and its terminator. -/
def charAt (s : List UInt8) (c : UInt8) (i : Nat) : Prop := (s ++ [0])[i]? = some c

/-- What is asked of the two for the string `s` at `p`: they find the least and the greatest index
over the string and its terminator, and the same one when the character is there once or not. -/
def ChrExtreme (m : ByteMem) (p : Nat) (s : List UInt8) (c : Int) : Prop :=
  ∃ r r', m.strchr p c = .ok r ∧ m.strrchr p c = .ok r' ∧
    LeastAt p (charAt s (toChar c)) r ∧ GreatestAt p (charAt s (toChar c)) r' ∧
    (r = r' ↔ (s ++ [0]).count (toChar c) ≤ 1)

theorem charAt_iff {c : UInt8} (hc : c ≠ 0) (i : Nat) : charAt s c i ↔ s[i]? = some c := by
  unfold charAt
  by_cases hi : i < s.length
  · rw [List.getElem?_append_left hi]
  · rw [List.getElem?_append_right (by omega), List.getElem?_eq_none (by omega : s.length ≤ i)]
    cases hk : i - s.length with
    | zero => simp [hc.symm]
    | succ k => simp

/-- A character that occurs at most once has at most one index. -/
theorem count_le_one_iff {c : UInt8} {l : List UInt8} :
    l.count c ≤ 1 ↔ ∀ i j : Nat, l[i]? = some c → l[j]? = some c → i = j := by
  rw [← not_iff_not, Nat.not_le, ← Nat.succ_le_iff, ← List.duplicate_iff_two_le_count,
    List.duplicate_iff_exists_distinct_get]
  constructor
  · rintro ⟨i, j, hij, hi, hj⟩ h
    have heq := h i j (by rw [hi]; simp) (by rw [hj]; simp)
    exact absurd hij (by rw [Fin.lt_def]; omega)
  · intro h
    push Not at h
    obtain ⟨i, j, hi, hj, hne⟩ := h
    obtain ⟨hil, hi⟩ := List.getElem?_eq_some_iff.mp hi
    obtain ⟨hjl, hj⟩ := List.getElem?_eq_some_iff.mp hj
    rcases Nat.lt_or_gt_of_ne hne with hlt | hlt
    · exact ⟨⟨i, hil⟩, ⟨j, hjl⟩, hlt, hi.symm, hj.symm⟩
    · exact ⟨⟨j, hjl⟩, ⟨i, hil⟩, hlt, hj.symm, hi.symm⟩

/-- **They find the extreme occurrences exactly of the characters other than zero.** -/
theorem strchr_strrchr_extreme (m : ByteMem) (p : Nat) (s : List UInt8) (c : Int)
    (hs : CStr m p s) : ChrExtreme m p s c ↔ toChar c ≠ 0 := by
  obtain ⟨r, hrun, hr⟩ := strchr_least hs c
  obtain ⟨r', hrun', hr'⟩ := strrchr_greatest hs c
  constructor
  · rintro ⟨q, q', hq, -, hleast, -⟩ h0
    obtain rfl : r = q := Except.ok.inj (hrun.ok.symm.trans hq)
    rw [h0] at hr hleast
    -- the terminator has the character, and what was found is no terminator
    have hend : charAt s 0 s.length := by simp [charAt]
    cases r with
    | none => exact hleast s.length hend
    | some a =>
      obtain ⟨i, -, hi, -⟩ := hr
      exact hs.nonzero 0 (List.mem_of_getElem? hi) rfl
  · intro hc
    have hleast := hr.of_iff fun i => (charAt_iff hc i).symm
    have hgreatest := hr'.of_iff fun i => (charAt_iff hc i).symm
    refine ⟨r, r', hrun.ok, hrun'.ok, hleast, hgreatest, ?_⟩
    exact (LeastAt.eq_greatest_iff hleast hgreatest).trans count_le_one_iff.symm

/-- In "banana" the last "a" is not the first one, the "b" is. -/
theorem strchr_strrchr_extreme_banana :
    ChrExtreme (ofList 16 [98, 97, 110, 97, 110, 97, 0] (by decide)) 16 [98, 97, 110, 97, 110, 97]
      97 ↔ toChar 97 ≠ 0 :=
  strchr_strrchr_extreme _ 16 _ 97 (by decide)

/-- The terminator of "b" is looked for in vain. -/
theorem strchr_misses_terminator :
    ¬ ChrExtreme (ofList 16 [98, 0] (by decide)) 16 [98] 0 := by
  rintro ⟨r, -, hrun, -, hleast, -⟩
  obtain rfl : none = r := Except.ok.inj hrun
  exact hleast 1 rfl

/-! ## Substrings -/

/-- `needle` is in `hay`, with `i` characters before it. -/
def OccursAt (needle hay : List UInt8) (i : Nat) : Prop :=
  ∃ before after, hay = before ++ needle ++ after ∧ before.length = i

theorem occursAt_zero : OccursAt t s 0 ↔ t <+: s := by
  constructor
  · rintro ⟨before, after, rfl, hlen⟩
    rw [List.eq_nil_of_length_eq_zero hlen]
    exact List.prefix_append t after
  · rintro ⟨after, rfl⟩
    exact ⟨[], after, rfl, rfl⟩

theorem occursAt_succ {c : UInt8} {i : Nat} : OccursAt t (c :: s) (i + 1) ↔ OccursAt t s i := by
  constructor
  · rintro ⟨before, after, heq, hlen⟩
    cases before with
    | nil => cases hlen
    | cons d before => exact ⟨before, after, (List.cons.inj heq).2, Nat.succ.inj hlen⟩
  · rintro ⟨before, after, rfl, rfl⟩
    exact ⟨c :: before, after, rfl, rfl⟩

/-- Only the empty string is in the empty one. -/
theorem not_occursAt_nil (ht : t ≠ []) (i : Nat) : ¬ OccursAt t [] i := by
  rintro ⟨before, after, heq, -⟩
  exact ht (List.append_eq_nil_iff.mp (List.append_eq_nil_iff.mp heq.symm).1).2

/-- The match ends at the end of the needle when the needle is a prefix. -/
theorem strstrMatch_prefix (hs : CStr m h s) (ht : CStr m n t) (hfuel : s.length < fuel) :
    ∃ k c, m.strstrMatch fuel h n = .ok k ∧ m.load k = .ok c ∧ (c = 0 ↔ t <+: s) := by
  induction s generalizing h n t fuel with
  | nil =>
    obtain ⟨fuel, rfl⟩ : ∃ k, fuel = k + 1 := ⟨fuel - 1, by omega⟩
    unfold strstrMatch
    rw [load_of_byte hs]
    cases t with
    | nil => exact ⟨n, 0, rfl, load_of_byte ht, by simp⟩
    | cons d t => exact ⟨n, d, rfl, load_of_byte ht.1, by simp [ht.2.1]⟩
  | cons b s ih =>
    obtain ⟨fuel, rfl⟩ : ∃ k, fuel = k + 1 := ⟨fuel - 1, by omega⟩
    rw [List.length_cons] at hfuel
    unfold strstrMatch
    rw [load_of_byte hs.1]
    show ∃ k c, (if b = 0 then _ else m.load n >>= _) = _ ∧ _
    rw [if_neg hs.2.1]
    cases t with
    | nil =>
      rw [load_of_byte ht]
      exact ⟨n, 0, rfl, load_of_byte ht, by simp⟩
    | cons d t =>
      rw [load_of_byte ht.1]
      show ∃ k c, (if d ≠ 0 ∧ b = d then m.strstrMatch fuel (h + 1) (n + 1) else _) = _ ∧ _
      by_cases hbd : b = d
      · rw [if_pos ⟨ht.2.1, hbd⟩]
        obtain ⟨k, c, hrun, hload, hc⟩ := ih hs.2.2 ht.2.2 (by omega : s.length < fuel)
        exact ⟨k, c, hrun, hload, by rw [hc, List.cons_prefix_cons, and_iff_right hbd.symm]⟩
      · rw [if_neg fun hb => hbd hb.2]
        refine ⟨n, d, rfl, load_of_byte ht.1, iff_of_false ht.2.1 fun hp => ?_⟩
        exact hbd (List.cons_prefix_cons.mp hp).1.symm

/-- The outer loop, for a needle that is not empty. -/
theorem strstrLoop_least (hs : CStr m h s) (ht : CStr m n t) (hne : t ≠ [])
    (hfuel : s.length < fuel) :
    ∃ r, m.strstrLoop n fuel h = .ok r ∧ LeastAt h (OccursAt t s) r := by
  induction s generalizing h fuel with
  | nil =>
    obtain ⟨fuel, rfl⟩ : ∃ k, fuel = k + 1 := ⟨fuel - 1, by omega⟩
    refine ⟨none, ?_, not_occursAt_nil hne⟩
    unfold strstrLoop
    rw [load_of_byte hs]
    rfl
  | cons b s ih =>
    obtain ⟨fuel, rfl⟩ : ∃ k, fuel = k + 1 := ⟨fuel - 1, by omega⟩
    rw [List.length_cons] at hfuel
    obtain ⟨k, c, hmatch, hload, hc⟩ := strstrMatch_prefix hs ht hs.length_lt
    obtain ⟨r, hrun, hr⟩ := ih hs.2.2 (by omega : s.length < fuel)
    unfold strstrLoop
    rw [load_of_byte hs.1]
    show ∃ r, (if b = 0 then _ else m.strstrMatch walkFuel h n >>= _) = _ ∧ _
    rw [if_neg hs.2.1, hmatch]
    show ∃ r, (m.load k >>= _) = _ ∧ _
    rw [hload]
    show ∃ r, (if c = 0 then .ok (some h) else m.strstrLoop n fuel (h + 1)) = _ ∧ _
    by_cases hpre : t <+: b :: s
    · rw [if_pos (hc.mpr hpre)]
      exact ⟨some h, rfl, .here (occursAt_zero.mpr hpre)⟩
    · rw [if_neg (mt hc.mp hpre)]
      exact ⟨r, hrun, .later (mt occursAt_zero.mp hpre) (hr.of_iff fun i => occursAt_succ.symm)⟩

/-- **`strstr` finds the leftmost occurrence, or null when there is none**, and reads the two
strings and nothing else. -/
theorem strstr_leftmost (m : ByteMem) (h n : Nat) (s t : List UInt8) (hs : CStr m h s)
    (ht : CStr m n t) :
    ∃ r, m.Reads (fun a => InStr h s.length a ∨ InStr n t.length a) (fun m => m.strstr h n) r ∧
      LeastAt h (OccursAt t s) r := by
  refine Reads.of_strs_unique (fun _ _ => LeastAt.unique) hs ht fun m' hs' ht' => ?_
  unfold strstr
  cases t with
  | nil =>
    rw [load_of_byte ht']
    exact ⟨some h, rfl, .here (occursAt_zero.mpr List.nil_prefix)⟩
  | cons d t =>
    rw [load_of_byte ht'.1]
    show ∃ r, (if d = 0 then _ else m'.strstrLoop n walkFuel h) = _ ∧ _
    rw [if_neg ht'.2.1]
    exact strstrLoop_least hs' ht' (List.cons_ne_nil d t) hs'.length_lt

/-- "ana" in "banana", which overlaps itself there. -/
theorem strstr_leftmost_banana :
    ∃ r, (ofList 16 [98, 97, 110, 97, 110, 97, 0, 97, 110, 97, 0] (by decide)).Reads
        (fun a => InStr 16 6 a ∨ InStr 23 3 a) (fun m => m.strstr 16 23) r ∧
      LeastAt 16 (OccursAt [97, 110, 97] [98, 97, 110, 97, 110, 97]) r :=
  strstr_leftmost _ 16 23 [98, 97, 110, 97, 110, 97] [97, 110, 97] (by decide) (by decide)

end ByteMem

end HelixKernel
