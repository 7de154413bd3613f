import HelixKernel.Machine.Memory
import Mathlib.Data.List.TakeWhile

/-!
Memory as bytes, some of which are there.

A load or a store of a byte that is not there is a fault.  So a routine that returns from
every memory with certain bytes in it has touched no others; `Reads` says this of one
result.  `CStr m p s`: at `p` there is the string `s` with its terminator. -/

namespace HelixKernel

inductive ByteFault where
  /-- a load or a store of a byte that is not there -/
  | access (a : Nat)
  /-- a store outside an array -/
  | index (j : Nat)
  /-- a signed operation whose result does not fit -/
  | overflow
  /-- a loop that never ends -/
  | diverges
deriving DecidableEq, Repr

@[ext]
structure ByteMem where
  byte : Nat → Option UInt8
  lt : ∀ a b, byte a = some b → a < 2 ^ 64

namespace ByteMem

variable {m m' : ByteMem} {a p q n : Nat} {b c : UInt8}

def load (m : ByteMem) (a : Nat) : Except ByteFault UInt8 :=
  match m.byte a with
  | some b => .ok b
  | none => .error (.access a)

/-- The byte at `a`, if it is there, is `b` from now on. -/
def set (m : ByteMem) (a : Nat) (b : UInt8) : ByteMem where
  byte x := if x = a then (m.byte a).map fun _ => b else m.byte x
  lt x c h := by
    by_cases hx : x = a
    · rw [if_pos hx, Option.map_eq_some_iff] at h
      obtain ⟨c', hc, -⟩ := h
      rw [hx]
      exact m.lt a c' hc
    · rw [if_neg hx] at h
      exact m.lt x c h

def store (m : ByteMem) (a : Nat) (b : UInt8) : Except ByteFault ByteMem :=
  match m.byte a with
  | some _ => .ok (m.set a b)
  | none => .error (.access a)

theorem load_of_byte (h : m.byte a = some b) : m.load a = .ok b := by
  unfold load
  rw [h]

theorem store_of_byte (h : m.byte a = some c) (b : UInt8) : m.store a b = .ok (m.set a b) := by
  unfold store
  rw [h]

theorem byte_set_self (h : m.byte a = some c) (b : UInt8) : (m.set a b).byte a = some b := by
  show (if a = a then _ else _) = _
  rw [if_pos rfl, h]
  rfl

theorem byte_set_ne (m : ByteMem) {x : Nat} (h : x ≠ a) (b : UInt8) :
    (m.set a b).byte x = m.byte x :=
  if_neg h

/-- The `n` bytes from `p` on are there. -/
def Mapped (m : ByteMem) (p n : Nat) : Prop := ∀ i < n, ∃ b, m.byte (p + i) = some b

/-- A memory with all of its bytes. -/
def full (f : Nat → UInt8) : ByteMem where
  byte a := if a < 2 ^ 64 then some (f a) else none
  lt a b h := by
    by_cases ha : a < 2 ^ 64
    · exact ha
    · rw [if_neg ha] at h
      cases h

/-- All of whose ranges are there that do not wrap around. -/
theorem mapped_full (f : Nat → UInt8) (h : p + n ≤ 2 ^ 64) : (full f).Mapped p n :=
  fun i hi => ⟨f (p + i), if_pos (by omega)⟩

/-- The bytes at `p` are these, and there are no others. -/
def ofList (p : Nat) (bs : List UInt8) (h : p + bs.length ≤ 2 ^ 64) : ByteMem where
  byte a := if p ≤ a then bs[a - p]? else none
  lt a b hb := by
    by_cases ha : p ≤ a
    · rw [if_pos ha] at hb
      obtain ⟨hi, -⟩ := List.getElem?_eq_some_iff.mp hb
      omega
    · rw [if_neg ha] at hb
      cases hb

/-- The bytes of `A` only. -/
def only (m : ByteMem) (A : Nat → Prop) [DecidablePred A] : ByteMem where
  byte a := if A a then m.byte a else none
  lt a b h := by
    by_cases ha : A a
    · rw [if_pos ha] at h
      exact m.lt a b h
    · rw [if_neg ha] at h
      cases h

/-! ## Fresh bytes -/

/-- `b` bytes more, at `p`. -/
def alloc (m : ByteMem) (p b : Nat) (stale : Nat → UInt8) : ByteMem where
  byte a := if p ≤ a ∧ a < p + b ∧ a < 2 ^ 64 then some (stale a) else m.byte a
  lt a c h := by
    by_cases ha : p ≤ a ∧ a < p + b ∧ a < 2 ^ 64
    · exact ha.2.2
    · rw [if_neg ha] at h
      exact m.lt a c h

/-- An allocator asked for `b` bytes gave `r.2`, where there were none, and now are `b` of them
with anything in them. -/
structure Fresh (m : ByteMem) (r : ByteMem × Nat) (b : Nat) : Prop where
  absent : ∀ i < b, m.byte (r.2 + i) = none
  mapped : r.1.Mapped r.2 b
  frame : ∀ a, (a < r.2 ∨ r.2 + b ≤ a) → r.1.byte a = m.byte a

namespace Fresh

variable {r : ByteMem × Nat}

/-- What was there lies outside. -/
theorem outside (h : m.Fresh r n) {x : UInt8} (ha : m.byte a = some x) :
    a < r.2 ∨ r.2 + n ≤ a := by
  by_contra hin
  have hnone := h.absent (a - r.2) (by omega)
  rw [show r.2 + (a - r.2) = a by omega, ha] at hnone
  cases hnone

theorem keeps (h : m.Fresh r n) {x : UInt8} (ha : m.byte a = some x) : r.1.byte a = some x :=
  (h.frame a (h.outside ha)).trans ha

theorem of_alloc (stale : Nat → UInt8) (hp : p + n ≤ 2 ^ 64)
    (habsent : ∀ i < n, m.byte (p + i) = none) : m.Fresh (m.alloc p n stale, p) n where
  absent := habsent
  mapped i hi := ⟨stale (p + i), if_pos ⟨by omega, by omega, by omega⟩⟩
  frame a ha := if_neg (by omega)

end Fresh

/-! ## What a routine reads -/

/-- The routine returns `r`, whatever bytes there are, or are not, outside `A`. -/
def Reads {β : Type} (m : ByteMem) (A : Nat → Prop) (f : ByteMem → Except ByteFault β) (r : β) :
    Prop :=
  ∀ m' : ByteMem, (∀ a, A a → m'.byte a = m.byte a) → f m' = .ok r

theorem Reads.of_only {β : Type} {A : Nat → Prop} [DecidablePred A]
    {f : ByteMem → Except ByteFault β} {r : β} (h : m.Reads A f r) : f (m.only A) = .ok r :=
  h (m.only A) fun _ ha => if_pos ha

theorem Reads.ok {β : Type} {A : Nat → Prop} {f : ByteMem → Except ByteFault β} {r : β}
    (h : m.Reads A f r) : f m = .ok r :=
  h m fun _ _ => rfl

end ByteMem

/-! ## Strings -/

/-- A list is cut in two where a property first fails. -/
theorem exists_split {α : Type} (P : α → Prop) [DecidablePred P] (u : List α) :
    ∃ pre post, u = pre ++ post ∧ (∀ c ∈ pre, P c) ∧ ∀ c ∈ post.head?, ¬ P c := by
  refine ⟨u.takeWhile P, u.dropWhile P, List.takeWhile_append_dropWhile.symm, ?_, ?_⟩
  · intro c hc
    have htake : decide (P c) = true := List.mem_takeWhile_imp (p := fun c => decide (P c)) hc
    exact of_decide_eq_true htake
  · intro c hc
    have hnot := List.head?_dropWhile_not (fun c => decide (P c)) u
    rw [show (u.dropWhile fun c => decide (P c)).head? = some c from hc] at hnot
    exact of_decide_eq_false hnot

/-- A prefix with the property ends before the rest, which starts without it. -/
theorem prefix_of_split {α : Type} {P : α → Prop} {u pre post : List α} (h : u <+: pre ++ post)
    (hu : ∀ c ∈ u, P c) (hpost : ∀ c ∈ post.head?, ¬ P c) : u <+: pre := by
  induction pre generalizing u with
  | nil =>
    cases u with
    | nil => exact List.nil_prefix
    | cons c u =>
      obtain ⟨v, hv⟩ := h
      refine absurd (hu c List.mem_cons_self) (hpost c ?_)
      rw [← List.nil_append post, ← hv]
      rfl
  | cons d pre ih =>
    cases u with
    | nil => exact List.nil_prefix
    | cons c u =>
      obtain ⟨rfl, hrest⟩ := List.cons_prefix_cons.mp h
      exact List.cons_prefix_cons.mpr ⟨rfl, ih hrest fun x hx => hu x (.tail c hx)⟩

/-- Two lists cut where a property first fails, one a prefix of the other, are cut at one place. -/
theorem split_unique {α : Type} {P : α → Prop} {c : α} {u v pre post : List α}
    (h : u ++ c :: v <+: pre ++ post) (hu : ∀ x ∈ u, P x) (hc : ¬ P c) (hpre : ∀ x ∈ pre, P x)
    (hpost : ∀ x ∈ post.head?, ¬ P x) : u = pre ∧ c :: v <+: post := by
  induction pre generalizing u with
  | nil =>
    have hnil : u <+: [] := prefix_of_split ((List.prefix_append u (c :: v)).trans h) hu hpost
    obtain rfl := List.prefix_nil.mp hnil
    exact ⟨rfl, h⟩
  | cons d pre ih =>
    cases u with
    | nil => exact absurd (hpre d List.mem_cons_self) ((List.cons_prefix_cons.mp h).1 ▸ hc)
    | cons x u =>
      obtain ⟨rfl, hrest⟩ := List.cons_prefix_cons.mp h
      obtain ⟨rfl, hv⟩ := ih hrest (fun y hy => hu y (.tail x hy)) fun y hy => hpre y (.tail x hy)
      exact ⟨rfl, hv⟩

/-- At `p` there are the characters `s`, none of them zero, and then a zero. -/
def CStr (m : ByteMem) : Nat → List UInt8 → Prop
  | p, [] => m.byte p = some 0
  | p, c :: s => m.byte p = some c ∧ c ≠ 0 ∧ CStr m (p + 1) s

instance CStr.instDecidable (m : ByteMem) : ∀ p s, Decidable (CStr m p s)
  | p, [] => inferInstanceAs (Decidable (m.byte p = some 0))
  | p, c :: s =>
    have := instDecidable m (p + 1) s
    inferInstanceAs (Decidable (m.byte p = some c ∧ c ≠ 0 ∧ CStr m (p + 1) s))

/-- The bytes at `p` are these. -/
def BytesAt (m : ByteMem) : Nat → List UInt8 → Prop
  | _, [] => True
  | p, b :: bs => m.byte p = some b ∧ BytesAt m (p + 1) bs

/-- The bytes of a string of length `n`, and its terminator. -/
def InStr (p n a : Nat) : Prop := p ≤ a ∧ a ≤ p + n

namespace BytesAt

variable {m m' : ByteMem} {p n : Nat} {bs : List UInt8}

theorem take (h : BytesAt m p bs) (n : Nat) : BytesAt m p (bs.take n) := by
  induction bs generalizing p n with
  | nil => simpa using h
  | cons b bs ih =>
    cases n with
    | zero => trivial
    | succ n => exact ⟨h.1, ih h.2 n⟩

theorem congr (h : BytesAt m p bs) (hm : ∀ a, p ≤ a → a < p + bs.length → m'.byte a = m.byte a) :
    BytesAt m' p bs := by
  induction bs generalizing p with
  | nil => trivial
  | cons b bs ih =>
    rw [List.length_cons] at hm
    refine ⟨(hm p (Nat.le_refl p) (by omega)).trans h.1, ih h.2 fun a ha ha' => ?_⟩
    exact hm a (by omega) (by omega)

end BytesAt

namespace CStr

variable {m m' : ByteMem} {p i : Nat} {s t : List UInt8} {c : UInt8}

theorem nonzero (h : CStr m p s) : ∀ c ∈ s, c ≠ 0 := by
  induction s generalizing p with
  | nil => simp
  | cons c s ih =>
    intro d hd
    rcases List.mem_cons.mp hd with rfl | hd
    · exact h.2.1
    · exact ih h.2.2 d hd

theorem append (h : CStr m p (s ++ t)) : CStr m (p + s.length) t := by
  induction s generalizing p with
  | nil => exact h
  | cons c s ih =>
    have hrest := ih h.2.2
    rw [Nat.add_right_comm, Nat.add_assoc] at hrest
    exact hrest

theorem drop (h : CStr m p s) (hi : i ≤ s.length) : CStr m (p + i) (s.drop i) := by
  rw [← List.take_append_drop i s] at h
  have hrest := h.append
  rw [List.length_take_of_le hi] at hrest
  exact hrest

theorem char (h : CStr m p s) (hi : i < s.length) : m.byte (p + i) = some s[i] := by
  have hrest := h.drop (Nat.le_of_lt hi)
  rw [List.drop_eq_getElem_cons hi] at hrest
  exact hrest.1

theorem terminator (h : CStr m p s) : m.byte (p + s.length) = some 0 := by
  have hrest := h.drop (Nat.le_refl _)
  rw [List.drop_length] at hrest
  exact hrest

/-- A string from its bytes. -/
theorem of_bytes (hs : ∀ c ∈ s, c ≠ 0) (hc : ∀ i (h : i < s.length), m.byte (p + i) = some s[i])
    (h0 : m.byte (p + s.length) = some 0) : CStr m p s := by
  induction s generalizing p with
  | nil => exact h0
  | cons c s ih =>
    refine ⟨hc 0 (by simp), hs c List.mem_cons_self, ih (fun d hd => hs d (.tail c hd)) ?_ ?_⟩
    · intro i hi
      have hnext := hc (i + 1) (by simpa using hi)
      rw [Nat.add_right_comm, Nat.add_assoc]
      exact hnext
    · rw [Nat.add_right_comm, Nat.add_assoc]
      exact h0

/-- It lies below the top of the address space. -/
theorem lt (h : CStr m p s) : p + s.length < 2 ^ 64 := m.lt _ 0 h.terminator

theorem length_lt (h : CStr m p s) : s.length < walkFuel := by
  have := h.lt
  unfold walkFuel
  omega

/-- Only its own bytes matter. -/
theorem congr (h : CStr m p s) (hm : ∀ a, InStr p s.length a → m'.byte a = m.byte a) :
    CStr m' p s := by
  refine of_bytes h.nonzero (fun i hi => ?_) ?_
  · rw [hm _ ⟨by omega, by omega⟩]
    exact h.char hi
  · rw [hm _ ⟨by omega, by omega⟩]
    exact h.terminator

/-- The characters and the terminator. -/
theorem bytesAt (h : CStr m p s) : BytesAt m p (s ++ [0]) := by
  induction s generalizing p with
  | nil => exact ⟨h, trivial⟩
  | cons c s ih => exact ⟨h.1, ih h.2.2⟩

theorem mapped (h : CStr m p s) : m.Mapped p s.length := fun _ hi => ⟨_, h.char hi⟩

/-- What holds of the first character if there is one, and of zero, holds of the byte at `p`. -/
theorem load_head {P : UInt8 → Prop} (h : CStr m p s) (hzero : P 0) (hs : ∀ c ∈ s.head?, P c) :
    ∃ c, m.load p = .ok c ∧ P c := by
  cases s with
  | nil => exact ⟨0, ByteMem.load_of_byte h, hzero⟩
  | cons c s => exact ⟨c, ByteMem.load_of_byte h.1, hs c rfl⟩

end CStr

namespace ByteMem

variable {m : ByteMem} {p q : Nat} {s t : List UInt8} {β : Type} {r : β}

/-- What holds from the string alone is read in it. -/
theorem Reads.of_str {f : ByteMem → Except ByteFault β} (hs : CStr m p s)
    (h : ∀ m', CStr m' p s → f m' = .ok r) : m.Reads (InStr p s.length) f r :=
  fun m' hm => h m' (hs.congr hm)

theorem Reads.of_strs {f : ByteMem → Except ByteFault β} (hs : CStr m p s) (ht : CStr m q t)
    (h : ∀ m', CStr m' p s → CStr m' q t → f m' = .ok r) :
    m.Reads (fun a => InStr p s.length a ∨ InStr q t.length a) f r :=
  fun m' hm => h m' (hs.congr fun a ha => hm a (.inl ha)) (ht.congr fun a ha => hm a (.inr ha))

/-- The same where the string determines the result by a property of it. -/
theorem Reads.of_str_unique {f : ByteMem → Except ByteFault β} {Good : β → Prop}
    (hunique : ∀ r r', Good r → Good r' → r = r') (hs : CStr m p s)
    (h : ∀ m', CStr m' p s → ∃ r, f m' = .ok r ∧ Good r) :
    ∃ r, m.Reads (InStr p s.length) f r ∧ Good r := by
  obtain ⟨r, -, hr⟩ := h m hs
  refine ⟨r, .of_str hs fun m' hs' => ?_, hr⟩
  obtain ⟨r', hf, hr'⟩ := h m' hs'
  rw [hf, hunique r' r hr' hr]

theorem Reads.of_strs_unique {f : ByteMem → Except ByteFault β} {Good : β → Prop}
    (hunique : ∀ r r', Good r → Good r' → r = r') (hs : CStr m p s) (ht : CStr m q t)
    (h : ∀ m', CStr m' p s → CStr m' q t → ∃ r, f m' = .ok r ∧ Good r) :
    ∃ r, m.Reads (fun a => InStr p s.length a ∨ InStr q t.length a) f r ∧ Good r := by
  obtain ⟨r, -, hr⟩ := h m hs ht
  refine ⟨r, .of_strs hs ht fun m' hs' ht' => ?_, hr⟩
  obtain ⟨r', hf, hr'⟩ := h m' hs' ht'
  rw [hf, hunique r' r hr' hr]

end ByteMem

end HelixKernel
