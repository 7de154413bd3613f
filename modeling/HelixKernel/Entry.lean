import HelixKernel.Lib.ByteMem
import Mathlib.Data.List.Forall2

/-!
# The command line

`kernel_entry` makes the arguments of `main` out of the command line in place: a first pass puts a
zero for every space and counts, and a second one finds the zeros.  So the arguments are what is
between the spaces (`kernelEntry_args`). -/

namespace HelixKernel

/-- An `int` that is counted up to `x`. -/
def int (x : Nat) : Except ByteFault Nat := if x < 2 ^ 31 then .ok x else .error .overflow

/-- `arg_ptrs[j] = q` -/
def storeArg (argPtrs : List (Option Nat)) (j q : Nat) : Except ByteFault (List (Option Nat)) :=
  if j < argPtrs.length then .ok (argPtrs.set j (some q)) else .error (.index j)

namespace ByteMem

/-- `while (cmdline[cmdline_len] != '\0') cmdline_len++;` -/
def cmdlineLen (m : ByteMem) (cmdline : Nat) : Nat → Nat → Except ByteFault Nat
  | 0, _ => .error .diverges
  | fuel + 1, len => do
    let c ← m.load (cmdline + len)
    if c ≠ 0 then cmdlineLen m cmdline fuel (len + 1) else .ok len

/-- The spaces from `i` on, with `todo` bytes to go: zeros for them, and `argc`. -/
def splitSpaces (m : ByteMem) (cmdline : Nat) : Nat → Nat → Nat → Except ByteFault (ByteMem × Nat)
  | _, 0, argc => .ok (m, argc)
  | i, todo + 1, argc => do
    let c ← m.load (cmdline + i)
    if c = 32 then do
      let m ← m.store (cmdline + i) 0
      let argc ← int (argc + 1)
      splitSpaces m cmdline (i + 1) todo argc
    else splitSpaces m cmdline (i + 1) todo argc

/-- The zeros from `i` on, with `todo` bytes to go: an argument starts behind each. -/
def findArgs (m : ByteMem) (cmdline : Nat) : Nat → Nat → Nat → List (Option Nat) →
    Except ByteFault (List (Option Nat))
  | _, 0, _, argPtrs => .ok argPtrs
  | i, todo + 1, j, argPtrs => do
    let c ← m.load (cmdline + i)
    if c = 0 then do
      let argPtrs ← storeArg argPtrs j (cmdline + i + 1)
      let j ← int (j + 1)
      findArgs m cmdline (i + 1) todo j argPtrs
    else findArgs m cmdline (i + 1) todo j argPtrs

/-- `kernel_entry`, up to its call of `main`: the memory, `argc` and `arg_ptrs` then, whose
elements are not there before they are stored.  Without a response or a command line it stops. -/
def kernelEntry (m : ByteMem) (response : Option (Option Nat)) :
    Except ByteFault (Option (ByteMem × Nat × List (Option Nat))) :=
  match response with
  | none => .ok none
  | some none => .ok none
  | some (some cmdline) => do
    let len ← cmdlineLen m cmdline walkFuel 0
    let (m, argc) ← splitSpaces m cmdline 0 len 1
    let argPtrs := List.replicate argc none
    let argPtrs ← storeArg argPtrs 0 cmdline
    let j ← int (0 + 1)
    let argPtrs ← findArgs m cmdline 0 len j argPtrs
    .ok (some (m, argc, argPtrs))

variable {m m' : ByteMem} {p i todo fuel argc : Nat} {c : UInt8} {s : List UInt8}

/-! ## The passes -/

theorem cmdlineLen_run (h : CStr m (p + i) s) (hfuel : s.length < fuel) :
    m.cmdlineLen p fuel i = .ok (i + s.length) := by
  induction s generalizing i fuel with
  | nil =>
    obtain ⟨fuel, rfl⟩ : ∃ k, fuel = k + 1 := ⟨fuel - 1, by omega⟩
    unfold cmdlineLen
    rw [load_of_byte h]
    rfl
  | cons c s ih =>
    obtain ⟨fuel, rfl⟩ : ∃ k, fuel = k + 1 := ⟨fuel - 1, by omega⟩
    rw [List.length_cons] at hfuel
    unfold cmdlineLen
    rw [load_of_byte h.1]
    show (if c ≠ 0 then m.cmdlineLen p fuel (i + 1) else _) = _
    rw [if_pos h.2.1, ih h.2.2 (by omega), List.length_cons, Nat.add_assoc, Nat.add_comm 1]

/-- What is left of the characters: zeros for the spaces. -/
def cutSpaces (s : List UInt8) : List UInt8 := s.map fun c => if c = 32 then 0 else c

theorem int_of_lt {x : Nat} (h : x < 2 ^ 31) : int x = .ok x := if_pos h

theorem splitSpaces_space (h : m.byte (p + i) = some 32) (hargc : argc + 1 < 2 ^ 31) :
    m.splitSpaces p i (todo + 1) argc =
      (m.set (p + i) 0).splitSpaces p (i + 1) todo (argc + 1) := by
  rw [splitSpaces, load_of_byte h]
  show (m.store (p + i) 0 >>= fun m => int (argc + 1) >>= fun argc =>
    m.splitSpaces p (i + 1) todo argc) = _
  rw [store_of_byte h]
  show (int (argc + 1) >>= fun argc => (m.set (p + i) 0).splitSpaces p (i + 1) todo argc) = _
  rw [int_of_lt hargc]
  rfl

theorem splitSpaces_other (h : m.byte (p + i) = some c) (hc : c ≠ 32) :
    m.splitSpaces p i (todo + 1) argc = m.splitSpaces p (i + 1) todo argc := by
  rw [splitSpaces, load_of_byte h]
  exact if_neg hc

/-- The first pass leaves zeros for the spaces, and has counted them. -/
theorem splitSpaces_run (h : CStr m (p + i) s) (hargc : argc + s.count 32 < 2 ^ 31) :
    ∃ m', m.splitSpaces p i s.length argc = .ok (m', argc + s.count 32) ∧
      BytesAt m' (p + i) (cutSpaces s ++ [0]) ∧
      ∀ a, (a < p + i ∨ p + i + s.length ≤ a) → m'.byte a = m.byte a := by
  induction s generalizing m i argc with
  | nil => exact ⟨m, rfl, ⟨h, trivial⟩, fun _ _ => rfl⟩
  | cons c s ih =>
    rw [List.length_cons]
    by_cases hc : c = 32
    · subst hc
      rw [List.count_cons_self] at hargc ⊢
      have hrest : CStr (m.set (p + i) 0) (p + i + 1) s :=
        h.2.2.congr fun a ha => m.byte_set_ne (by have := ha.1; omega) 0
      obtain ⟨m', hrun, hbytes, hframe⟩ := ih (i := i + 1) hrest (by omega : argc + 1 + _ < _)
      refine ⟨m', ?_, ⟨?_, hbytes⟩, fun a ha => ?_⟩
      · rw [splitSpaces_space h.1 (by omega), hrun, Nat.add_assoc, Nat.add_comm 1]
      · exact (hframe (p + i) (.inl (by omega))).trans (byte_set_self h.1 0)
      · rw [hframe a (by omega), m.byte_set_ne (by omega) 0]
    · rw [List.count_cons_of_ne hc] at hargc ⊢
      obtain ⟨m', hrun, hbytes, hframe⟩ := ih (i := i + 1) h.2.2 hargc
      refine ⟨m', ?_, ⟨?_, hbytes⟩, fun a ha => hframe a (by omega)⟩
      · rw [splitSpaces_other h.1 hc, hrun]
      · show m'.byte (p + i) = some (if c = 32 then 0 else c)
        rw [hframe (p + i) (.inl (by omega)), if_neg hc]
        exact h.1

/-- Where arguments start behind a space in `s`, at `q`. -/
def starts : Nat → List UInt8 → List Nat
  | _, [] => []
  | q, c :: s => if c = 32 then (q + 1) :: starts (q + 1) s else starts (q + 1) s

theorem starts_space (q : Nat) (s : List UInt8) :
    starts q (32 :: s) = (q + 1) :: starts (q + 1) s := if_pos rfl

theorem starts_other (hc : c ≠ 32) (q : Nat) (s : List UInt8) :
    starts q (c :: s) = starts (q + 1) s := if_neg hc

/-- One for each space. -/
theorem length_starts (q : Nat) (s : List UInt8) : (starts q s).length = s.count 32 := by
  induction s generalizing q with
  | nil => rfl
  | cons c s ih =>
    by_cases hc : c = 32
    · subst hc
      rw [starts_space, List.count_cons_self, List.length_cons, ih]
    · rw [starts_other hc, List.count_cons_of_ne hc, ih]

/-- The next element of the array. -/
theorem storeArg_next (args : List Nat) (k q : Nat) :
    storeArg (args.map some ++ List.replicate (k + 1) none) args.length q =
      .ok ((args ++ [q]).map some ++ List.replicate k none) := by
  unfold storeArg
  rw [if_pos (by simp), List.set_append_right _ _ (by simp), List.length_map, Nat.sub_self,
    List.replicate_succ, List.set_cons_zero]
  simp

/-- The second pass fills the array up to its end with what starts behind the spaces. -/
theorem findArgs_run (h : BytesAt m (p + i) (cutSpaces s ++ [0])) (hs : ∀ c ∈ s, c ≠ 0)
    (args : List Nat) (hlen : args.length + s.count 32 < 2 ^ 31) :
    m.findArgs p i s.length args.length (args.map some ++ List.replicate (s.count 32) none) =
      .ok ((args ++ starts (p + i) s).map some) := by
  induction s generalizing i args with
  | nil => simp [findArgs, starts]
  | cons c s ih =>
    have hs' : ∀ c ∈ s, c ≠ 0 := fun x hx => hs x (.tail c hx)
    rw [List.length_cons, findArgs]
    by_cases hc : c = 32
    · subst hc
      rw [List.count_cons_self] at hlen ⊢
      rw [load_of_byte h.1]
      show (storeArg _ args.length (p + i + 1) >>= _) = _
      rw [storeArg_next]
      show (int (args.length + 1) >>= _) = _
      rw [int_of_lt (by omega)]
      have hrest := ih (i := i + 1) h.2 hs' (args ++ [p + i + 1]) (by simp; omega)
      rw [List.length_append, List.append_assoc] at hrest
      rw [starts_space]
      exact hrest
    · rw [List.count_cons_of_ne hc] at hlen ⊢
      have hbyte : m.byte (p + i) = some (if c = 32 then 0 else c) := h.1
      rw [if_neg hc] at hbyte
      rw [load_of_byte hbyte]
      show (if c = 0 then _ else m.findArgs p (i + 1) s.length args.length _) = _
      rw [if_neg (hs c List.mem_cons_self), starts_other hc]
      exact ih (i := i + 1) h.2 hs' args hlen

/-- What starts at the string and behind its spaces is what is between them. -/
theorem pieces_cstr {q : Nat} (h : BytesAt m q (cutSpaces s ++ [0])) (hs : ∀ c ∈ s, c ≠ 0) :
    List.Forall₂ (CStr m) (q :: starts q s) (s.splitOn 32) := by
  induction s generalizing q with
  | nil => exact .cons h.1 .nil
  | cons c s ih =>
    have hrest := ih h.2 fun x hx => hs x (.tail c hx)
    rw [List.splitOn_cons_eq_if_modifyHead]
    by_cases hc : c = 32
    · subst hc
      rw [starts_space, if_pos (by decide)]
      exact .cons h.1 hrest
    · rw [starts_other hc, if_neg (by simpa using hc)]
      have hbyte : m.byte q = some (if c = 32 then 0 else c) := h.1
      rw [if_neg hc] at hbyte
      cases hpieces : s.splitOn 32 with
      | nil => exact absurd hpieces (List.splitOn_ne_nil 32 s)
      | cons t ts =>
        rw [hpieces] at hrest
        cases hrest with
        | cons ht hts => exact .cons ⟨hbyte, hs c List.mem_cons_self, ht⟩ hts

/-- **The command line is split exactly**: the array is filled, what it points at are the pieces
between the spaces as strings, and with single spaces between them they are the line again. -/
theorem kernelEntry_args (m : ByteMem) (cmdline : Nat) (s : List UInt8) (hs : CStr m cmdline s)
    (hlen : s.length < 2 ^ 31 - 1) :
    ∃ m' argc args, m.kernelEntry (some (some cmdline)) = .ok (some (m', argc, args.map some)) ∧
      argc = s.count 32 + 1 ∧ args.length = argc ∧
      List.Forall₂ (CStr m') args (s.splitOn 32) ∧ [32].intercalate (s.splitOn 32) = s ∧
      ∀ a, (a < cmdline ∨ cmdline + s.length ≤ a) → m'.byte a = m.byte a := by
  have hcount : s.count 32 ≤ s.length := List.count_le_length
  obtain ⟨m', hsplit, hbytes, hframe⟩ :=
    splitSpaces_run (i := 0) hs (by omega : 1 + s.count 32 < 2 ^ 31)
  have hfind := findArgs_run (i := 0) hbytes hs.nonzero [cmdline] (by simp; omega)
  refine ⟨m', 1 + s.count 32, cmdline :: starts cmdline s, ?_, Nat.add_comm _ _, ?_,
    pieces_cstr hbytes hs.nonzero, List.intercalate_splitOn 32, hframe⟩
  · unfold kernelEntry
    show (m.cmdlineLen cmdline walkFuel 0 >>= _) = _
    rw [cmdlineLen_run (i := 0) hs hs.length_lt, Nat.zero_add]
    show (m.splitSpaces cmdline 0 s.length 1 >>= _) = _
    rw [hsplit]
    have hfirst : storeArg (List.replicate (1 + s.count 32) none) 0 cmdline =
        .ok ([cmdline].map some ++ List.replicate (s.count 32) none) := by
      rw [Nat.add_comm]
      exact storeArg_next [] (s.count 32) cmdline
    show (storeArg (List.replicate (1 + s.count 32) none) 0 cmdline >>= _) = _
    rw [hfirst]
    show (m'.findArgs cmdline 0 s.length [cmdline].length _ >>= _) = _
    rw [hfind]
    rfl
  · rw [List.length_cons, length_starts, Nat.add_comm]

/-- "a  b ", which has an empty argument in it and one at its end. -/
theorem kernelEntry_args_spaces :
    let m := ofList 16 [97, 32, 32, 98, 32, 0] (by decide)
    let s := [97, 32, 32, 98, 32]
    ∃ m' argc args, m.kernelEntry (some (some 16)) = .ok (some (m', argc, args.map some)) ∧
      argc = s.count 32 + 1 ∧ args.length = argc ∧
      List.Forall₂ (CStr m') args (s.splitOn 32) ∧ [32].intercalate (s.splitOn 32) = s ∧
      ∀ a, (a < 16 ∨ 16 + s.length ≤ a) → m'.byte a = m.byte a :=
  kernelEntry_args (ofList 16 [97, 32, 32, 98, 32, 0] (by decide)) 16 [97, 32, 32, 98, 32]
    (by decide) (by decide)

end ByteMem

end HelixKernel
