import HelixKernel.Lib.ByteWords
import HelixKernel.Klibc.Cstring

/-!
# liballoc's boundary tags (`kernel/src/extra/liballoc/liballoc.c`)

A block of the heap starts with a `struct boundary_tag` of 48 bytes.  The tags of the blocks that
one call of `liballoc_alloc` paid for are linked by `split_left` and `split_right`, in the order of
their addresses; those of free blocks are linked by `next` and `prev` into one of 32 lists.

A tag is cast to `unsigned int` before something is added to it, and what comes out has 64 bits
again: `(unsigned int)tag + sizeof(struct boundary_tag)` is `wrap32 tag + 48`. -/

namespace HelixKernel

def liballocMagic : Nat := 0xc001c0de
def maxComplete : Int := 5
def maxExp : Nat := 32
def minExp : Nat := 8
def lPageSize : Nat := 4096
def lPageCount : Nat := 16

/-- `sizeof(struct boundary_tag)` -/
def tagSize : Nat := 48

/-- `index = -1`, as it is stored. -/
def noIndex : Nat := 2 ^ 32 - 1

inductive TagField where
  | magic
  | size
  | realSize
  | index
  | splitLeft
  | splitRight
  | next
  | prev
deriving DecidableEq, Repr

namespace TagField

def offset : TagField → Nat
  | magic => 0
  | size => 4
  | realSize => 8
  | index => 12
  | splitLeft => 16
  | splitRight => 24
  | next => 32
  | prev => 40

/-- `sizeof` the field. -/
def bytes : TagField → Nat
  | magic | size | realSize | index => 4
  | splitLeft | splitRight | next | prev => 8

end TagField

/-- A call of the page provider. -/
inductive PageCall where
  | alloc (p npages : Nat)
  | free (p npages : Nat)
deriving DecidableEq, Repr

/-- `liballoc_alloc` and `liballoc_free`: the memory they leave, and a pointer. -/
structure PageProvider where
  alloc : ByteMem → Nat → ByteMem × Nat
  free : ByteMem → Nat → Nat → ByteMem

/-- The globals of `liballoc.c`, the memory, and the calls of the page provider so far. -/
structure Liballoc where
  mem : ByteMem
  freePages : Nat → Nat
  completePages : Nat → Int
  initialized : Bool
  calls : List PageCall

/-! ## Exponents -/

/-- `while (shift < MAXEXP) { if ((1<<shift) > size) break; shift += 1; }` -/
def getexpLoop (size : Nat) : Nat → Nat → Nat
  | 0, shift => shift
  | todo + 1, shift => if 2 ^ shift > size then shift else getexpLoop size todo (shift + 1)

/-- `getexp(size)`, where -1 is for less than the quantum. -/
def getexp (size : Nat) : Int :=
  if size < 2 ^ minExp then -1 else (getexpLoop size (maxExp - minExp) minExp : Int) - 1

/-- `index = getexp(size); if (index < MINEXP) index = MINEXP;` -/
def listIndex (size : Nat) : Nat := if getexp size < minExp then minExp else (getexp size).toNat

namespace Liballoc

/-! ## Memory -/

def get (s : Liballoc) (tag : Nat) (f : TagField) : Except ByteFault Nat :=
  s.mem.loadWord (tag + f.offset) f.bytes

def put (s : Liballoc) (tag : Nat) (f : TagField) (v : Nat) : Except ByteFault Liballoc := do
  let mem ← s.mem.storeWord (tag + f.offset) v f.bytes
  .ok { s with mem }

/-- `l_freePages[i]` -/
def head (s : Liballoc) (i : Nat) : Except ByteFault Nat :=
  if i < maxExp then .ok (s.freePages i) else .error (.index i)

def setHead (s : Liballoc) (i tag : Nat) : Except ByteFault Liballoc :=
  if i < maxExp then .ok { s with freePages := Function.update s.freePages i tag }
  else .error (.index i)

/-- `l_completePages[i]` -/
def complete (s : Liballoc) (i : Nat) : Except ByteFault Int :=
  if i < maxExp then .ok (s.completePages i) else .error (.index i)

/-- `l_completePages[i] += n` -/
def addComplete (s : Liballoc) (i : Nat) (n : Int) : Except ByteFault Liballoc :=
  if i < maxExp then
    .ok { s with completePages := Function.update s.completePages i (s.completePages i + n) }
  else .error (.index i)

/-! ## Tags -/

/-- `insert_tag(tag, index)`, where the index -1 is `none`. -/
def insertTag (s : Liballoc) (tag : Nat) (index : Option Nat) : Except ByteFault Liballoc := do
  let realIndex ← (match index with
    | none => do
      let realSize ← s.get tag .realSize
      .ok (listIndex (wrap32 (sub64 realSize tagSize)))
    | some index => .ok index)
  let s ← s.put tag .index realIndex
  let first ← s.head realIndex
  let s ← (if first ≠ 0 then do
      let s ← s.put first .prev tag
      s.put tag .next first
    else .ok s)
  s.setHead realIndex tag

/-- `remove_tag(tag)` -/
def removeTag (s : Liballoc) (tag : Nat) : Except ByteFault Liballoc := do
  let index ← s.get tag .index
  let first ← s.head index
  let s ← (if first = tag then do
      let next ← s.get tag .next
      s.setHead index next
    else .ok s)
  let prev ← s.get tag .prev
  let s ← (if prev ≠ 0 then do
      let next ← s.get tag .next
      s.put prev .next next
    else .ok s)
  let next ← s.get tag .next
  let s ← (if next ≠ 0 then do
      let prev ← s.get tag .prev
      s.put next .prev prev
    else .ok s)
  let s ← s.put tag .next 0
  let s ← s.put tag .prev 0
  s.put tag .index noIndex

/-- `melt_left(tag)`: the tag on the left, which has grown. -/
def meltLeft (s : Liballoc) (tag : Nat) : Except ByteFault (Liballoc × Nat) := do
  let left ← s.get tag .splitLeft
  let leftSize ← s.get left .realSize
  let size ← s.get tag .realSize
  let s ← s.put left .realSize (wrap32 (leftSize + size))
  let right ← s.get tag .splitRight
  let s ← s.put left .splitRight right
  let right ← s.get tag .splitRight
  let s ← (if right ≠ 0 then s.put right .splitLeft left else .ok s)
  .ok (s, left)

/-- `absorb_right(tag)`, which returns `tag`. -/
def absorbRight (s : Liballoc) (tag : Nat) : Except ByteFault Liballoc := do
  let right ← s.get tag .splitRight
  let s ← s.removeTag right
  let size ← s.get tag .realSize
  let rightSize ← s.get right .realSize
  let s ← s.put tag .realSize (wrap32 (size + rightSize))
  let next ← s.get right .splitRight
  let s ← s.put tag .splitRight next
  let next ← s.get right .splitRight
  if next ≠ 0 then s.put next .splitLeft tag else .ok s

/-- `split_tag(tag)` -/
def splitTag (s : Liballoc) (tag : Nat) : Except ByteFault Liballoc := do
  let realSize ← s.get tag .realSize
  let size ← s.get tag .size
  let remainder := wrap32 (sub64 (sub64 realSize tagSize) size)
  let newTag := wrap32 tag + tagSize + size
  let s ← s.put newTag .magic liballocMagic
  let s ← s.put newTag .realSize remainder
  let s ← s.put newTag .next 0
  let s ← s.put newTag .prev 0
  let s ← s.put newTag .splitLeft tag
  let right ← s.get tag .splitRight
  let s ← s.put newTag .splitRight right
  let right ← s.get newTag .splitRight
  let s ← (if right ≠ 0 then s.put right .splitLeft newTag else .ok s)
  let s ← s.put tag .splitRight newTag
  let realSize ← s.get tag .realSize
  let newSize ← s.get newTag .realSize
  let s ← s.put tag .realSize (wrap32 (realSize + 2 ^ 32 - newSize))
  s.insertTag newTag none

/-- The pages that `allocate_new_tag(size)` asks for. -/
def pagesFor (size : Nat) : Nat :=
  let usage := wrap32 (size + tagSize)
  let pages := usage / lPageSize
  let pages := if usage % lPageSize ≠ 0 then pages + 1 else pages
  if pages < lPageCount then lPageCount else pages

/-- `allocate_new_tag(size)` -/
def allocateNewTag (provider : PageProvider) (s : Liballoc) (size : Nat) :
    Except ByteFault (Liballoc × Nat) := do
  let pages := pagesFor size
  let (mem, tag) := provider.alloc s.mem pages
  if tag = 0 then .ok ({ s with mem }, 0)
  else do
    let s := { s with mem, calls := .alloc tag pages :: s.calls }
    let s ← s.put tag .magic liballocMagic
    let s ← s.put tag .size size
    let s ← s.put tag .realSize (wrap32 (pages * lPageSize))
    let s ← s.put tag .index noIndex
    let s ← s.put tag .next 0
    let s ← s.put tag .prev 0
    let s ← s.put tag .splitLeft 0
    let s ← s.put tag .splitRight 0
    .ok (s, tag)

/-! ## `malloc` -/

def setUp (s : Liballoc) : Liballoc :=
  if s.initialized then s
  else { s with freePages := fun _ => 0, completePages := fun _ => 0, initialized := true }

/-- The first tag from `tag` on with space enough for another tag and `size` bytes. -/
def findTag (s : Liballoc) (size : Nat) : Nat → Nat → Except ByteFault Nat
  | 0, _ => .error .diverges
  | fuel + 1, tag =>
    if tag = 0 then .ok 0
    else do
      let realSize ← s.get tag .realSize
      if sub64 realSize tagSize ≥ wrap64 (size + tagSize) then .ok tag
      else do
        let next ← s.get tag .next
        findTag s size fuel next

/-- What `malloc` does with the tag it has got. -/
def takeTag (s : Liballoc) (tag size : Nat) : Except ByteFault (Liballoc × Nat) := do
  let s ← s.put tag .size size
  let realSize ← s.get tag .realSize
  let remainder := wrap32 (sub64 (sub64 realSize size) (tagSize * 2))
  let s ← (if 0 < remainder ∧ remainder < 2 ^ 31 ∧ 0 ≤ getexp remainder then s.splitTag tag
    else .ok s)
  .ok (s, wrap32 tag + tagSize)

/-- `malloc(size)` -/
def malloc (provider : PageProvider) (s : Liballoc) (size : Nat) :
    Except ByteFault (Liballoc × Nat) := do
  let s := s.setUp
  let index := listIndex (wrap32 size)
  let first ← s.head index
  let tag ← s.findTag size walkFuel first
  if tag = 0 then do
    let (s, tag) ← allocateNewTag provider s (wrap32 size)
    if tag = 0 then .ok (s, 0) else s.takeTag tag size
  else do
    let s ← s.removeTag tag
    let left ← s.get tag .splitLeft
    let right ← s.get tag .splitRight
    let s ← (if left = 0 ∧ right = 0 then s.addComplete index (-1) else .ok s)
    s.takeTag tag size

/-! ## `free` -/

/-- `while ((tag->split_left != NULL) && (tag->split_left->index >= 0)) …` -/
def meltLeftLoop (s : Liballoc) : Nat → Nat → Except ByteFault (Liballoc × Nat)
  | 0, _ => .error .diverges
  | fuel + 1, tag => do
    let left ← s.get tag .splitLeft
    if left = 0 then .ok (s, tag)
    else do
      let index ← s.get left .index
      if index < 2 ^ 31 then do
        let (s, tag) ← s.meltLeft tag
        let s ← s.removeTag tag
        meltLeftLoop s fuel tag
      else .ok (s, tag)

/-- `while ((tag->split_right != NULL) && (tag->split_right->index >= 0)) …` -/
def absorbRightLoop (s : Liballoc) (tag : Nat) : Nat → Except ByteFault Liballoc
  | 0 => .error .diverges
  | fuel + 1 => do
    let right ← s.get tag .splitRight
    if right = 0 then .ok s
    else do
      let index ← s.get right .index
      if index < 2 ^ 31 then do
        let s ← s.absorbRight tag
        absorbRightLoop s tag fuel
      else .ok s

/-- What `free` does with the tag once it has grown. -/
def returnTag (provider : PageProvider) (s : Liballoc) (tag : Nat) : Except ByteFault Liballoc := do
  let realSize ← s.get tag .realSize
  let index := listIndex (wrap32 (sub64 realSize tagSize))
  let left ← s.get tag .splitLeft
  let right ← s.get tag .splitRight
  if left = 0 ∧ right = 0 then do
    let n ← s.complete index
    if n = maxComplete then
      let pages := realSize / lPageSize
      let pages := if realSize % lPageSize ≠ 0 then pages + 1 else pages
      let pages := if pages < lPageCount then lPageCount else pages
      .ok { s with mem := provider.free s.mem tag pages, calls := .free tag pages :: s.calls }
    else do
      let s ← s.addComplete index 1
      s.insertTag tag (some index)
  else s.insertTag tag (some index)

/-- `free(ptr)` -/
def free (provider : PageProvider) (s : Liballoc) (ptr : Nat) : Except ByteFault Liballoc :=
  if ptr = 0 then .ok s
  else do
    let tag := sub64 (wrap32 ptr) tagSize
    let magic ← s.get tag .magic
    if magic ≠ liballocMagic then .ok s
    else do
      let (s, tag) ← s.meltLeftLoop walkFuel tag
      let s ← s.absorbRightLoop tag walkFuel
      s.returnTag provider tag

/-! ## `calloc` and `realloc` -/

/-- An `int`, given by its 32 bits, as a `size_t`. -/
def extend32 (x : Nat) : Nat := if x < 2 ^ 31 then x else 2 ^ 64 - 2 ^ 32 + x

/-- `((char*)s)[i] = c` from `p` on, with `n` bytes to go. -/
def memsetLoop (s : Liballoc) (p : Nat) (c : UInt8) : Nat → Except ByteFault Liballoc
  | 0 => .ok s
  | n + 1 => do
    let mem ← s.mem.store p c
    memsetLoop { s with mem } (p + 1) c n

/-- `liballoc_memset(s, c, n)`, which counts with an `int`. -/
def memset (s : Liballoc) (p : Nat) (c : UInt8) (n : Nat) : Except ByteFault Liballoc :=
  if n < 2 ^ 31 then s.memsetLoop p c n
  else do
    let _ ← s.memsetLoop p c (2 ^ 31)
    .error .overflow

/-- `calloc(nobj, size)` -/
def calloc (provider : PageProvider) (s : Liballoc) (nobj size : Nat) :
    Except ByteFault (Liballoc × Nat) := do
  let realSize := extend32 (wrap32 (wrap64 (nobj * size)))
  let (s, p) ← s.malloc provider realSize
  let s ← s.memset p 0 realSize
  .ok (s, p)

/-- The bytes that are left over once `liballoc_memcpy` has copied by `unsigned int`. -/
def memcpyBytes (s : Liballoc) (dest src : Nat) : Nat → Except ByteFault Liballoc
  | 0 => .ok s
  | n + 1 => do
    let b ← s.mem.load src
    let mem ← s.mem.store dest b
    memcpyBytes { s with mem } (dest + 1) (src + 1) n

/-- `liballoc_memcpy(dest, src, n)`, with `words` for `n / 4`. -/
def memcpyWords (s : Liballoc) (dest src n : Nat) : Nat → Except ByteFault Liballoc
  | 0 => s.memcpyBytes dest src n
  | words + 1 => do
    let w ← s.mem.loadWord src 4
    let mem ← s.mem.storeWord dest w 4
    memcpyWords { s with mem } (dest + 4) (src + 4) (n - 4) words

/-- `realloc(p, size)` -/
def realloc (provider : PageProvider) (s : Liballoc) (p size : Nat) :
    Except ByteFault (Liballoc × Nat) :=
  if size = 0 then do
    let s ← s.free provider p
    .ok (s, 0)
  else if p = 0 then s.malloc provider size
  else do
    let realSize ← s.get (sub64 (wrap32 p) tagSize) .size
    let n := if extend32 realSize > size then extend32 (wrap32 size) else extend32 realSize
    let (s, ptr) ← s.malloc provider size
    let s ← s.memcpyWords ptr p n (n / 4)
    let s ← s.free provider p
    .ok (s, ptr)

end Liballoc

end HelixKernel
