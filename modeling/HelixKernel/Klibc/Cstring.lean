import HelixKernel.Lib.ByteMem
import Mathlib.Algebra.Group.Int.Defs

/-!
# The string functions as written

Pointers are addresses; one that may be null is an `Option`.  A pointer is advanced without
wrapping around, which would be out of its object; an `unsigned int` wraps at `2 ^ 32`.  A
`char` is its byte: it is compared for equality only, and with the letters and digits, to
which no negative `char` belongs.  A loop is given as many rounds as there are addresses. -/

namespace HelixKernel

/-- `unsigned int` arithmetic -/
def wrap32 (x : Nat) : Nat := x % 2 ^ 32

/-- `(char)c` -/
def toChar (c : Int) : UInt8 := UInt8.ofInt c

/-- A `char` passed as an `int`. -/
def ofChar (b : UInt8) : Int := b.toInt8.toInt

/-- A `long` operation whose result is `x`, and must fit. -/
def long (x : Int) : Except ByteFault Int :=
  if -2 ^ 63 ≤ x ∧ x < 2 ^ 63 then .ok x else .error .overflow

/-- The white space of `strtol`. -/
def isSpace (c : UInt8) : Bool := c = 32 ∨ c = 9 ∨ c = 10 ∨ c = 13 ∨ c = 12 ∨ c = 11

/-- The `digit` of a figure or a letter. -/
def digitOf (c : UInt8) : Option Int :=
  if 48 ≤ c ∧ c ≤ 57 then some (c.toNat - 48)
  else if 97 ≤ c ∧ c ≤ 122 then some (c.toNat - 97 + 10)
  else if 65 ≤ c ∧ c ≤ 90 then some (c.toNat - 65 + 10)
  else none

namespace ByteMem

/-! ## Memory -/

/-- `pdest[i] = psrc[i]` from `i` on, with `todo` bytes to go. -/
def copyUp (m : ByteMem) (dest src : Nat) : Nat → Nat → Except ByteFault ByteMem
  | _, 0 => .ok m
  | i, todo + 1 => do
    let b ← m.load (src + i)
    let m ← m.store (dest + i) b
    copyUp m dest src (i + 1) todo

/-- `for (size_t i = n; i > 0; i--) pdest[i-1] = psrc[i-1];` -/
def copyDown (m : ByteMem) (dest src : Nat) : Nat → Except ByteFault ByteMem
  | 0 => .ok m
  | i + 1 => do
    let b ← m.load (src + i)
    let m ← m.store (dest + i) b
    copyDown m dest src i

/-- `memcpy(dest, src, n)`, which returns `dest`. -/
def memcpy (m : ByteMem) (dest src n : Nat) : Except ByteFault ByteMem := copyUp m dest src 0 n

/-- `memmove(dest, src, n)`, which returns `dest`. -/
def memmove (m : ByteMem) (dest src n : Nat) : Except ByteFault ByteMem :=
  if src > dest then copyUp m dest src 0 n
  else if src < dest then copyDown m dest src n
  else .ok m

def memcmpLoop (m : ByteMem) (s1 s2 : Nat) : Nat → Nat → Except ByteFault Int
  | _, 0 => .ok 0
  | i, todo + 1 => do
    let b1 ← m.load (s1 + i)
    let b2 ← m.load (s2 + i)
    if b1 ≠ b2 then .ok (if b1 < b2 then -1 else 1)
    else memcmpLoop m s1 s2 (i + 1) todo

/-- `memcmp(s1, s2, n)` -/
def memcmp (m : ByteMem) (s1 s2 n : Nat) : Except ByteFault Int := memcmpLoop m s1 s2 0 n

/-! ## Lengths and comparisons -/

/-- `while (str[len]) len++;` -/
def strlenLoop (m : ByteMem) (str : Nat) : Nat → Nat → Except ByteFault Nat
  | 0, _ => .error .diverges
  | fuel + 1, len => do
    let c ← m.load (str + len)
    if c = 0 then .ok len else strlenLoop m str fuel (wrap32 (len + 1))

/-- `strlen(str)` -/
def strlen (m : ByteMem) (str : Nat) : Except ByteFault Nat := strlenLoop m str walkFuel 0

/-- `while (*s1 && (*s1 == *s2)) { s1++; s2++; }` -/
def strcmpLoop (m : ByteMem) : Nat → Nat → Nat → Except ByteFault (Nat × Nat)
  | 0, _, _ => .error .diverges
  | fuel + 1, s1, s2 => do
    let c1 ← m.load s1
    if c1 = 0 then .ok (s1, s2)
    else do
      let c2 ← m.load s2
      if c1 = c2 then strcmpLoop m fuel (s1 + 1) (s2 + 1) else .ok (s1, s2)

/-- `strcmp(s1, s2)` -/
def strcmp (m : ByteMem) (s1 s2 : Nat) : Except ByteFault Int := do
  let (s1, s2) ← strcmpLoop m walkFuel s1 s2
  let c1 ← m.load s1
  let c2 ← m.load s2
  .ok (c1.toNat - c2.toNat)

/-- `while (i < n && s1[i] && (s1[i] == s2[i])) i++;` with `todo` for `n - i`. -/
def strncmpLoop (m : ByteMem) (s1 s2 : Nat) : Nat → Nat → Except ByteFault Nat
  | i, 0 => .ok i
  | i, todo + 1 => do
    let c1 ← m.load (s1 + i)
    if c1 = 0 then .ok i
    else do
      let c2 ← m.load (s2 + i)
      if c1 = c2 then strncmpLoop m s1 s2 (i + 1) todo else .ok i

/-- `strncmp(s1, s2, n)` -/
def strncmp (m : ByteMem) (s1 s2 n : Nat) : Except ByteFault Int := do
  let i ← strncmpLoop m s1 s2 0 n
  if i = n then .ok 0
  else do
    let c1 ← m.load (s1 + i)
    let c2 ← m.load (s2 + i)
    .ok (c1.toNat - c2.toNat)

/-! ## Searching -/

def strchrLoop (m : ByteMem) (c : UInt8) : Nat → Nat → Except ByteFault (Option Nat)
  | 0, _ => .error .diverges
  | fuel + 1, str => do
    let b ← m.load str
    if b = 0 then .ok none
    else if b = c then .ok (some str)
    else strchrLoop m c fuel (str + 1)

/-- `strchr(str, c)` -/
def strchr (m : ByteMem) (str : Nat) (c : Int) : Except ByteFault (Option Nat) :=
  strchrLoop m (toChar c) walkFuel str

def strrchrLoop (m : ByteMem) (c : UInt8) : Nat → Nat → Option Nat → Except ByteFault (Option Nat)
  | 0, _, _ => .error .diverges
  | fuel + 1, s, last => do
    let b ← m.load s
    if b = 0 then .ok last
    else strrchrLoop m c fuel (s + 1) (if b = c then some s else last)

/-- `strrchr(s, c)` -/
def strrchr (m : ByteMem) (s : Nat) (c : Int) : Except ByteFault (Option Nat) :=
  strrchrLoop m (toChar c) walkFuel s none

/-- `while (*h && *n && (*h == *n)) { h++; n++; }`: where `n` is then. -/
def strstrMatch (m : ByteMem) : Nat → Nat → Nat → Except ByteFault Nat
  | 0, _, _ => .error .diverges
  | fuel + 1, h, n => do
    let ch ← m.load h
    if ch = 0 then .ok n
    else do
      let cn ← m.load n
      if cn ≠ 0 ∧ ch = cn then strstrMatch m fuel (h + 1) (n + 1) else .ok n

def strstrLoop (m : ByteMem) (needle : Nat) : Nat → Nat → Except ByteFault (Option Nat)
  | 0, _ => .error .diverges
  | fuel + 1, haystack => do
    let c ← m.load haystack
    if c = 0 then .ok none
    else do
      let n ← strstrMatch m walkFuel haystack needle
      let cn ← m.load n
      if cn = 0 then .ok (some haystack) else strstrLoop m needle fuel (haystack + 1)

/-- `strstr(haystack, needle)` -/
def strstr (m : ByteMem) (haystack needle : Nat) : Except ByteFault (Option Nat) := do
  let c ← m.load needle
  if c = 0 then .ok (some haystack) else strstrLoop m needle walkFuel haystack

/-! ## Tokens -/

/-- `while (*s && strchr(delim, *s)) s++;`, and with `found = false`
`while (*s && !strchr(delim, *s)) s++;` -/
def skipChars (m : ByteMem) (delim : Nat) (found : Bool) : Nat → Nat → Except ByteFault Nat
  | 0, _ => .error .diverges
  | fuel + 1, s => do
    let c ← m.load s
    if c = 0 then .ok s
    else do
      let r ← m.strchr delim (ofChar c)
      if r.isSome = found then skipChars m delim found fuel (s + 1) else .ok s

/-- `strtok(str, delim)`, with the static `next` before and after. -/
def strtok (m : ByteMem) (str : Option Nat) (delim : Nat) (next : Option Nat) :
    Except ByteFault (ByteMem × Option Nat × Option Nat) :=
  let next := if str.isSome then str else next
  match next with
  | none => .ok (m, none, none)
  | some next => do
    let start ← skipChars m delim true walkFuel next
    let c ← m.load start
    if c = 0 then .ok (m, none, none)
    else do
      let stop ← skipChars m delim false walkFuel start
      let c ← m.load stop
      if c ≠ 0 then do
        let m ← m.store stop 0
        .ok (m, some (stop + 1), some start)
      else .ok (m, none, some start)

/-- `strtok_r(str, delim, saveptr)`, with `*saveptr` before and after. -/
def strtokR (m : ByteMem) (str : Option Nat) (delim : Nat) (saveptr : Option Nat) :
    Except ByteFault (ByteMem × Option Nat × Option Nat) :=
  let saveptr := if str ≠ none then str else saveptr
  match saveptr with
  | none => .ok (m, none, none)
  | some s => do
    let token ← skipChars m delim true walkFuel s
    let c ← m.load token
    if c = 0 then .ok (m, none, none)
    else do
      let s ← skipChars m delim false walkFuel token
      let c ← m.load s
      if c = 0 then .ok (m, none, some token)
      else do
        let m ← m.store s 0
        .ok (m, some (s + 1), some token)

/-! ## Numbers -/

def skipSpace (m : ByteMem) : Nat → Nat → Except ByteFault Nat
  | 0, _ => .error .diverges
  | fuel + 1, s => do
    let c ← m.load s
    if isSpace c then skipSpace m fuel (s + 1) else .ok s

/-- The sign: `neg`, and where `s` is then. -/
def strtolSign (m : ByteMem) (s : Nat) : Except ByteFault (Bool × Nat) := do
  let c ← m.load s
  if c = 45 then .ok (true, s + 1)
  else if c = 43 then .ok (false, s + 1)
  else .ok (false, s)

/-- The prefix: where `s` is then, and `base`. -/
def strtolPrefix (m : ByteMem) (s : Nat) (base : Int) : Except ByteFault (Nat × Int) :=
  if base = 0 then do
    let c ← m.load s
    if c = 48 then do
      let c' ← m.load (s + 1)
      if c' = 120 ∨ c' = 88 then .ok (s + 2, 16) else .ok (s + 1, 8)
    else .ok (s, 10)
  else if base = 16 then do
    let c ← m.load s
    if c = 48 then do
      let c' ← m.load (s + 1)
      if c' = 120 ∨ c' = 88 then .ok (s + 2, base) else .ok (s, base)
    else .ok (s, base)
  else .ok (s, base)

/-- The digits: where `s` is then, and `result`. -/
def strtolLoop (m : ByteMem) (base : Int) : Nat → Nat → Int → Except ByteFault (Nat × Int)
  | 0, _, _ => .error .diverges
  | fuel + 1, s, result => do
    let c ← m.load s
    if c = 0 then .ok (s, result)
    else match digitOf c with
      | none => .ok (s, result)
      | some digit =>
        if digit ≥ base then .ok (s, result)
        else do
          let result ← long (result * base)
          let result ← long (result + digit)
          strtolLoop m base fuel (s + 1) result

/-- `strtol(nptr, &end, base)`, with `end` after it. -/
def strtol (m : ByteMem) (nptr : Nat) (base : Int) : Except ByteFault (Int × Nat) := do
  let s ← skipSpace m walkFuel nptr
  let (neg, s) ← strtolSign m s
  let (start, base) ← strtolPrefix m s base
  let (s, result) ← strtolLoop m base walkFuel start 0
  if s = start then .ok (0, nptr)
  else if neg then do
    let result ← long (-result)
    .ok (result, s)
  else .ok (result, s)

/-! ## Copies on the heap -/

/-- `strdup(s)` -/
def strdup (malloc : ByteMem → Nat → ByteMem × Nat) (m : ByteMem) (s : Nat) :
    Except ByteFault (ByteMem × Nat) := do
  let szs ← m.strlen s
  let (m, newStr) := malloc m (szs + 1)
  let m ← m.memcpy newStr s szs
  let m ← m.store (newStr + szs) 0
  .ok (m, newStr)

/-- `strndup(s, n)` -/
def strndup (malloc : ByteMem → Nat → ByteMem × Nat) (m : ByteMem) (s n : Nat) :
    Except ByteFault (ByteMem × Nat) := do
  let szs ← m.strlen s
  let szs := if szs > n then n else szs
  let (m, newStr) := malloc m szs
  let m ← m.memcpy newStr s szs
  .ok (m, newStr)

end ByteMem

end HelixKernel
