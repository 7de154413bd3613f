import HelixKernel.Klibc.Search

/-!
# `strtok` and `strtok_r`

Between two calls the saved pointer is null, or it is at a string: what is left of the one to be
cut up.  A call takes the first maximal run of other characters than the delimiters off it, puts a
zero for the delimiter behind it and saves what comes then.  `Tokens` is a sequence of calls said
in these terms, and the calls of the code are one (`strtok_tokens`).

The delimiters are the string at `delim` at the time of the call, whatever there is of it in the
string to be cut up. -/

namespace HelixKernel

/-! ## One call, on lists -/

/-- `tok` is the first maximal run in `u` of characters that are not among the delimiters `d`. -/
structure IsNext (d u skip tok rest : List UInt8) : Prop where
  split : u = skip ++ (tok ++ rest)
  skipped : ∀ c ∈ skip, c ∈ d
  nonempty : tok ≠ []
  token : ∀ c ∈ tok, c ∉ d
  maximal : ∀ c ∈ rest.head?, c ∈ d

/-- There is one, but for a list of delimiters. -/
theorem exists_next (d u : List UInt8) :
    (∀ c ∈ u, c ∈ d) ∨ ∃ skip tok rest, IsNext d u skip tok rest := by
  obtain ⟨skip, post, rfl, hskip, hpost⟩ := exists_split (· ∈ d) u
  obtain ⟨tok, rest, rfl, htok, hrest⟩ := exists_split (· ∉ d) post
  cases tok with
  | nil =>
    cases rest with
    | nil => exact .inl (by simpa using hskip)
    | cons c rest => exact absurd (hpost c rfl) (hrest c rfl)
  | cons c tok =>
    exact .inr ⟨skip, c :: tok, rest, rfl, hskip, List.cons_ne_nil c tok, htok,
      fun x hx => not_not.mp (hrest x hx)⟩

/-- The memory and what is left of the string, once it is cut off at `e` in front of `rest`. -/
def cut (m : ByteMem) (e : Nat) : List UInt8 → ByteMem × Option (Nat × List UInt8)
  | [] => (m, none)
  | _ :: rest => (m.set e 0, some (e + 1, rest))

/-- A call: its delimiters, the pointer it returned and the memory it left. -/
structure TokCall where
  delims : List UInt8
  result : Option Nat
  memory : ByteMem

/-- Calls that return, one by one, the tokens of what is left, and then null forever. -/
inductive Tokens : ByteMem → Option (Nat × List UInt8) → List TokCall → Prop
  | done {m : ByteMem} {left : Option (Nat × List UInt8)} : Tokens m left []
  | none {m : ByteMem} {d : List UInt8} {cs : List TokCall} (h : Tokens m none cs) :
      Tokens m none (⟨d, none, m⟩ :: cs)
  | last {m : ByteMem} {q : Nat} {d u : List UInt8} {cs : List TokCall} (hall : ∀ c ∈ u, c ∈ d)
      (h : Tokens m none cs) : Tokens m (some (q, u)) (⟨d, none, m⟩ :: cs)
  | token {m : ByteMem} {q e : Nat} {d u skip tok rest : List UInt8} {cs : List TokCall}
      (hnext : IsNext d u skip tok rest) (he : e = q + skip.length + tok.length)
      (htok : CStr (cut m e rest).1 (q + skip.length) tok)
      (h : Tokens (cut m e rest).1 (cut m e rest).2 cs) :
      Tokens m (some (q, u)) (⟨d, some (q + skip.length), (cut m e rest).1⟩ :: cs)

namespace ByteMem

variable {m m' : ByteMem} {p q e delim fuel : Nat} {str saved saved' r : Option Nat}
  {d s u skip tok rest : List UInt8}

/-! ## One call, in memory -/

theorem toChar_ofChar (b : UInt8) : toChar (ofChar b) = b := by
  have hb := b.toNat_lt
  have hmod : b.toInt8.toInt % 2 ^ 8 = b.toNat := by
    show b.toBitVec.toInt % 2 ^ 8 = b.toBitVec.toNat
    rw [BitVec.toInt_eq_toNat_cond]
    split <;> omega
  show UInt8.ofNat (b.toInt8.toInt % 2 ^ 8).toNat = b
  rw [hmod, Int.toNat_natCast, UInt8.ofNat_toNat]

/-- `strchr` of a character of the string tells whether it is a delimiter. -/
theorem strchr_isSome (hd : CStr m delim d) (c : UInt8) :
    ∃ r, m.strchr delim (ofChar c) = .ok r ∧ (r.isSome ↔ c ∈ d) := by
  obtain ⟨r, hrun, hr⟩ := strchr_least hd (ofChar c)
  rw [toChar_ofChar] at hr
  refine ⟨r, hrun.ok, ?_⟩
  cases r with
  | none =>
    refine iff_of_false (by simp) fun hc => ?_
    obtain ⟨i, hi⟩ := List.mem_iff_getElem?.mp hc
    exact hr i hi
  | some a =>
    obtain ⟨i, -, hi, -⟩ := hr
    exact iff_of_true rfl (List.mem_of_getElem? hi)

/-- Both loops look for one character after the other among the delimiters. -/
theorem skipChars_char {c : UInt8} (hd : CStr m delim d) (h : m.load q = .ok c) (hc : c ≠ 0)
    (found : Bool) :
    m.skipChars delim found (fuel + 1) q =
      if c ∈ d ↔ found then m.skipChars delim found fuel (q + 1) else .ok q := by
  obtain ⟨r, hrun, hr⟩ := strchr_isSome hd c
  rw [skipChars, h]
  refine (if_neg hc).trans ?_
  rw [hrun]
  have hiff : (c ∈ d ↔ found) ↔ r.isSome = found :=
    (iff_congr hr.symm Iff.rfl).trans Bool.eq_iff_iff.symm
  show (if r.isSome = found then m.skipChars delim found fuel (q + 1) else .ok q) = _
  simp only [hiff]

/-- They stop at the first one that is a delimiter or not. -/
theorem skipChars_stops (found : Bool) {pre post : List UInt8} (hu : CStr m q (pre ++ post))
    (hd : CStr m delim d) (hpre : ∀ c ∈ pre, c ∈ d ↔ found)
    (hpost : ∀ c ∈ post.head?, ¬ (c ∈ d ↔ found)) (hfuel : pre.length < fuel) :
    m.skipChars delim found fuel q = .ok (q + pre.length) := by
  induction pre generalizing q fuel with
  | nil =>
    obtain ⟨fuel, rfl⟩ : ∃ k, fuel = k + 1 := ⟨fuel - 1, by omega⟩
    cases post with
    | nil =>
      rw [skipChars, load_of_byte hu]
      rfl
    | cons c post =>
      rw [skipChars_char hd (load_of_byte hu.1) hu.2.1, if_neg (hpost c rfl)]
      rfl
  | cons c pre ih =>
    obtain ⟨fuel, rfl⟩ : ∃ k, fuel = k + 1 := ⟨fuel - 1, by omega⟩
    rw [List.length_cons] at hfuel
    rw [skipChars_char hd (load_of_byte hu.1) hu.2.1, if_pos (hpre c List.mem_cons_self),
      ih hu.2.2 (fun x hx => hpre x (.tail c hx)) (by omega), List.length_cons, Nat.add_assoc,
      Nat.add_comm 1]

/-- The token in front of the cut. -/
theorem cut_token (h : CStr m q (tok ++ rest)) : CStr (cut m (q + tok.length) rest).1 q tok := by
  cases rest with
  | nil => rwa [List.append_nil] at h
  | cons c rest =>
    have hc : m.byte (q + tok.length) = some c := h.append.1
    refine .of_bytes (fun x hx => h.nonzero x (List.mem_append_left _ hx)) ?_ (byte_set_self hc 0)
    intro i hi
    show (m.set _ 0).byte _ = _
    have hi' : i < (tok ++ c :: rest).length := by simp; omega
    rw [m.byte_set_ne (by omega) 0, h.char hi', List.getElem_append_left hi]

/-- What is left behind it. -/
theorem cut_left (h : CStr m e rest) {left : Nat × List UInt8} (hl : (cut m e rest).2 = some left) :
    CStr (cut m e rest).1 left.1 left.2 := by
  cases rest with
  | nil => cases hl
  | cons c rest =>
    obtain rfl : (e + 1, rest) = left := Option.some.inj hl
    refine h.2.2.congr fun a ha => m.byte_set_ne ?_ 0
    have := ha.1
    omega

/-- The string that is given comes before the one that is saved. -/
theorem strtokR_at (hq : (if str ≠ none then str else saved) = some q) :
    m.strtokR str delim saved = m.strtokR (some q) delim none := by
  unfold strtokR
  rw [hq]
  rfl

/-- A call where only delimiters are left. -/
theorem strtokR_all (hq : (if str ≠ none then str else saved) = some q) (hu : CStr m q u)
    (hd : CStr m delim d) (hall : ∀ c ∈ u, c ∈ d) :
    m.strtokR str delim saved = .ok (m, none, none) := by
  have hskip : m.skipChars delim true walkFuel q = .ok (q + u.length) :=
    skipChars_stops true (by rwa [List.append_nil]) hd (fun c hc => iff_of_true (hall c hc) rfl)
      (by simp) hu.length_lt
  rw [strtokR_at hq]
  unfold strtokR
  show (m.skipChars delim true walkFuel q >>= _) = _
  rw [hskip]
  show (m.load (q + u.length) >>= _) = _
  rw [load_of_byte hu.terminator]
  rfl

/-- **A call takes the next token**, and cuts it off. -/
theorem strtokR_token (hq : (if str ≠ none then str else saved) = some q) (hu : CStr m q u)
    (hd : CStr m delim d) (hnext : IsNext d u skip tok rest) :
    m.strtokR str delim saved = .ok ((cut m (q + skip.length + tok.length) rest).1,
      (cut m (q + skip.length + tok.length) rest).2.map (·.1), some (q + skip.length)) := by
  have hlen := hu.length_lt
  rw [hnext.split] at hu hlen
  simp only [List.length_append] at hlen
  have htok := hu.append
  have hrest := htok.append
  obtain ⟨c, tok', rfl⟩ := List.exists_cons_of_ne_nil hnext.nonempty
  have hc : c ∉ d := hnext.token c List.mem_cons_self
  have hskip : m.skipChars delim true walkFuel q = .ok (q + skip.length) := by
    refine skipChars_stops true hu hd (fun x hx => iff_of_true (hnext.skipped x hx) rfl) ?_
      (by omega)
    rintro x ⟨⟩ hx
    exact hc (hx.mpr rfl)
  have hstop : m.skipChars delim false walkFuel (q + skip.length) =
      .ok (q + skip.length + (c :: tok').length) := by
    refine skipChars_stops false htok hd
      (fun x hx => iff_of_false (hnext.token x hx) (by decide)) ?_ (by omega)
    exact fun x hx hxd => absurd (hxd.mp (hnext.maximal x hx)) (by decide)
  rw [strtokR_at hq]
  unfold strtokR
  show (m.skipChars delim true walkFuel q >>= _) = _
  rw [hskip]
  show (m.load (q + skip.length) >>= _) = _
  rw [load_of_byte htok.1]
  show (if c = 0 then _ else m.skipChars delim false walkFuel (q + skip.length) >>= _) = _
  rw [if_neg htok.2.1, hstop]
  show (m.load (q + skip.length + (c :: tok').length) >>= _) = _
  cases rest with
  | nil =>
    rw [load_of_byte hrest]
    rfl
  | cons x rest =>
    rw [load_of_byte hrest.1]
    show (if x = 0 then _ else m.store (q + skip.length + (c :: tok').length) 0 >>= _) = _
    rw [if_neg hrest.2.1, store_of_byte hrest.1]
    rfl

/-- With nothing left, a call returns null. -/
theorem strtokR_null (hq : (if str ≠ none then str else saved) = none) :
    m.strtokR str delim saved = .ok (m, none, none) := by
  unfold strtokR
  rw [hq]

theorem strtok_eq_strtokR (m : ByteMem) (str : Option Nat) (delim : Nat) (saved : Option Nat) :
    m.strtok str delim saved = m.strtokR str delim saved := by
  unfold strtok strtokR
  simp only [ne_eq, ite_not]
  cases str with
  | none => rfl
  | some s => rfl

/-! ## Sequences of calls -/

/-- `f` called again and again, with a string at `delim` each time, `str` the first time and null
from then on. -/
inductive TokCalls (f : ByteMem → Option Nat → Nat → Option Nat →
    Except ByteFault (ByteMem × Option Nat × Option Nat)) :
    ByteMem → Option Nat → Option Nat → List TokCall → ByteMem → Option Nat → Option Nat → Prop
  | done {m : ByteMem} {str saved : Option Nat} : TokCalls f m str saved [] m str saved
  | call {m m' m'' : ByteMem} {str saved saved' r str'' saved'' : Option Nat} {delim : Nat}
      {d : List UInt8} {cs : List TokCall} (hd : CStr m delim d)
      (h : f m str delim saved = .ok (m', saved', r))
      (hcs : TokCalls f m' none saved' cs m'' str'' saved'') :
      TokCalls f m str saved (⟨d, r, m'⟩ :: cs) m'' str'' saved''

/-- What is left, in `[p, e]`, from the pointer that the next call starts with. -/
def Left (m : ByteMem) (p e : Nat) (str saved : Option Nat) : Option (Nat × List UInt8) → Prop
  | none => (if str ≠ none then str else saved) = none
  | some (q, u) =>
    (if str ≠ none then str else saved) = some q ∧ CStr m q u ∧ p ≤ q ∧ q + u.length = e

/-- A call takes from what is left as `Tokens` says, and leaves what it says. -/
theorem Left.call {left : Option (Nat × List UInt8)} (h : Left m p e str saved left)
    (hd : CStr m delim d) (hrun : m.strtokR str delim saved = .ok (m', saved', r)) :
    ∃ left', Left m' p e none saved' left' ∧
      ∀ cs, Tokens m' left' cs → Tokens m left (⟨d, r, m'⟩ :: cs) := by
  cases left with
  | none =>
    rw [strtokR_null h] at hrun
    cases hrun
    exact ⟨none, rfl, fun cs hcs => .none hcs⟩
  | some left =>
    obtain ⟨hq, hu, hp, he⟩ := h
    rcases exists_next d left.2 with hall | ⟨skip, tok, rest, hnext⟩
    · rw [strtokR_all hq hu hd hall] at hrun
      cases hrun
      exact ⟨none, rfl, fun cs hcs => .last hall hcs⟩
    · rw [strtokR_token hq hu hd hnext] at hrun
      cases hrun
      have hstr := hu
      rw [hnext.split] at hstr
      refine ⟨(cut m (left.1 + skip.length + tok.length) rest).2, ?_, fun cs hcs =>
        .token hnext rfl (cut_token hstr.append) hcs⟩
      have hlen := congrArg List.length hnext.split
      cases rest with
      | nil => rfl
      | cons c rest =>
        simp only [List.length_append, List.length_cons] at hlen
        refine ⟨rfl, cut_left hstr.append.append rfl, ?_, ?_⟩
        · show p ≤ left.1 + skip.length + tok.length + 1
          omega
        · show left.1 + skip.length + tok.length + 1 + rest.length = e
          omega

/-- It reads what is left and the delimiters. -/
theorem Left.reads {left : Option (Nat × List UInt8)} (h : Left m p e str saved left)
    (hd : CStr m delim d) :
    ∃ out, m.Reads (fun a => p ≤ a ∧ a ≤ e ∨ InStr delim d.length a)
      (fun m => (m.strtokR str delim saved).map (·.2)) out := by
  cases left with
  | none =>
    refine ⟨(none, none), fun m' _ => ?_⟩
    show (m'.strtokR str delim saved).map _ = _
    rw [strtokR_null h]
    rfl
  | some left =>
    obtain ⟨hq, hu, hp, he⟩ := h
    have hu' : ∀ m' : ByteMem, (∀ a, p ≤ a ∧ a ≤ e ∨ InStr delim d.length a →
        m'.byte a = m.byte a) → CStr m' left.1 left.2 ∧ CStr m' delim d := by
      refine fun m' hm => ⟨hu.congr fun a ha => hm a (.inl ?_), hd.congr fun a ha => hm a (.inr ha)⟩
      obtain ⟨hlo, hhi⟩ := ha
      omega
    rcases exists_next d left.2 with hall | ⟨skip, tok, rest, hnext⟩
    · refine ⟨(none, none), fun m' hm => ?_⟩
      show (m'.strtokR str delim saved).map _ = _
      rw [strtokR_all hq (hu' m' hm).1 (hu' m' hm).2 hall]
      rfl
    · cases rest with
      | nil =>
        refine ⟨(none, some (left.1 + skip.length)), fun m' hm => ?_⟩
        show (m'.strtokR str delim saved).map _ = _
        rw [strtokR_token hq (hu' m' hm).1 (hu' m' hm).2 hnext]
        rfl
      | cons c rest =>
        refine ⟨(some (left.1 + skip.length + tok.length + 1), some (left.1 + skip.length)),
          fun m' hm => ?_⟩
        show (m'.strtokR str delim saved).map _ = _
        rw [strtokR_token hq (hu' m' hm).1 (hu' m' hm).2 hnext]
        rfl

/-- All calls do. -/
theorem TokCalls.tokens {left : Option (Nat × List UInt8)} {m'' : ByteMem}
    {str'' saved'' : Option Nat} {cs : List TokCall}
    (hcs : TokCalls strtokR m str saved cs m'' str'' saved'') (h : Left m p e str saved left) :
    Tokens m left cs ∧ ∃ left', Left m'' p e str'' saved'' left' := by
  induction hcs generalizing left with
  | done => exact ⟨.done, left, h⟩
  | call hd hrun _ ih =>
    obtain ⟨left', hleft', htokens⟩ := h.call hd hrun
    obtain ⟨hcs, hlast⟩ := ih hleft'
    exact ⟨htokens _ hcs, hlast⟩

/-- With a string given, what was saved before does not matter, and `strtok` does the same. -/
theorem TokCalls.strtok {m'' : ByteMem} {str'' saved'' : Option Nat} {cs : List TokCall}
    (hcs : TokCalls strtokR m (some p) saved cs m'' str'' saved'') (next : Option Nat) :
    ∃ next', TokCalls ByteMem.strtok m (some p) next cs m'' str'' next' := by
  have hsame : ByteMem.strtok = strtokR := by
    funext m str delim saved
    exact strtok_eq_strtokR m str delim saved
  rw [hsame]
  cases hcs with
  | done => exact ⟨next, .done⟩
  | call hd hrun hrest =>
    refine ⟨saved'', .call hd ?_ hrest⟩
    rw [strtokR_at rfl] at hrun ⊢
    exact hrun

/-- **The calls return the maximal runs of other characters than delimiters**, in whatever number
and with whatever delimiters they come; each reads the string and its delimiters and nothing else,
and returns; and those of `strtok` are the same. -/
theorem strtok_tokens (m : ByteMem) (p : Nat) (s : List UInt8) (saved : Option Nat)
    (cs : List TokCall) (m' : ByteMem) (str' saved' : Option Nat) (hs : CStr m p s)
    (hcs : TokCalls strtokR m (some p) saved cs m' str' saved') :
    Tokens m (some (p, s)) cs ∧
    (∀ delim d, CStr m' delim d →
      ∃ out, m'.Reads (fun a => InStr p s.length a ∨ InStr delim d.length a)
        (fun m => (m.strtokR str' delim saved').map (·.2)) out) ∧
    ∀ next, ∃ next', TokCalls strtok m (some p) next cs m' str' next' := by
  have hfirst : Left m p (p + s.length) (some p) saved (some (p, s)) :=
    ⟨rfl, hs, Nat.le_refl p, rfl⟩
  obtain ⟨htokens, left, hleft⟩ := hcs.tokens hfirst
  exact ⟨htokens, fun delim d hd => hleft.reads hd, hcs.strtok⟩

/-- Two tokens of "a b" at 16, cut at the delimiters " " at 20, and then null. -/
theorem strtok_tokens_ab :
    let m := ofList 16 [97, 32, 98, 0, 32, 0] (by decide)
    Tokens m (some (16, [97, 32, 98])) [⟨[32], some 16, m.set 17 0⟩, ⟨[32], some 18, m.set 17 0⟩,
      ⟨[32], none, m.set 17 0⟩] := by
  intro m
  have hd : CStr m 20 [32] := by decide
  have hd' : CStr (m.set 17 0) 20 [32] := by decide
  have hcs : TokCalls strtokR m (some 16) none [⟨[32], some 16, m.set 17 0⟩,
      ⟨[32], some 18, m.set 17 0⟩, ⟨[32], none, m.set 17 0⟩] (m.set 17 0) none none :=
    .call hd rfl (.call hd' rfl (.call hd' rfl .done))
  exact (strtok_tokens m 16 [97, 32, 98] none _ _ _ _ (by decide) hcs).1

end ByteMem

end HelixKernel
