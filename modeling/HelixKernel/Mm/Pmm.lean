import HelixKernel.Machine.Memory

/-!
# The physical allocator as written (`kernel/src/mm/pmm.cpp`)

The free lists are intrusive: `segtab` holds the sixteen heads of each segment,
the `next` pointer of a free block is the first word of the block itself, and the
null pointer ends a list.  Pointers to blocks are physical addresses.

`free_list[i]` outside the sixteen heads is a fault, and so is a list walk that
never meets null: after `2 ^ 64` cells some cell has come twice.  `segtab` holds
the `num_segtab` entries in use; `fully_used` is never read and is left out. -/

namespace HelixKernel

/-! ## Orders -/

/-- `(n + 0xFFF) >> 12` -/
def pagesFor (n : Nat) : Nat := wrap64 (n + 0xFFF) >>> 12

/-- `while ((1ULL << order) < pages) order++;` -/
def orderLoop (pages : Nat) : Nat → Nat → Nat
  | 0, order => order
  | fuel + 1, order => if 1 <<< order < pages then orderLoop pages fuel (order + 1) else order

/-- The order `alloc` and `free` compute for `n` bytes. -/
def orderFor (n : Nat) : Nat := orderLoop (pagesFor n) 64 0

/-- `while ((1ULL << (order + 1)) <= pages) order++;` -/
def maxOrderLoop (pages : Nat) : Nat → Nat → Nat
  | 0, order => order
  | fuel + 1, order =>
    if 1 <<< (order + 1) ≤ pages then maxOrderLoop pages fuel (order + 1) else order

/-! ## Segments and their free lists -/

/-- `struct pmm_segment` -/
structure PmmSegment where
  basePtr : Nat
  size : Nat
  pagesUsed : Nat
  freeList : Vector Nat 16
  maxOrder : Nat
deriving DecidableEq, Repr

namespace PmmSegment

/-- Reading `free_list[i]`. -/
def head (seg : PmmSegment) (i : Nat) : Except Fault Nat :=
  if h : i < 16 then .ok seg.freeList[i] else .error (.outOfBounds i)

/-- Writing `free_list[i]`. -/
def setHead (seg : PmmSegment) (i b : Nat) : Except Fault PmmSegment :=
  if h : i < 16 then .ok { seg with freeList := seg.freeList.set i b } else .error (.outOfBounds i)

end PmmSegment

/-- `add_block(seg->free_list[order], b)` -/
def addBlock (mem : Mem) (seg : PmmSegment) (order b : Nat) : Except Fault (Mem × PmmSegment) := do
  let head ← seg.head order
  let seg ← seg.setHead order b
  .ok (mem.store .header b head, seg)

/-- `remove_block(seg->free_list[order])` -/
def removeBlock (mem : Mem) (seg : PmmSegment) (order : Nat) : Except Fault (Nat × PmmSegment) := do
  let b ← seg.head order
  if b = 0 then .ok (b, seg)
  else
    let seg ← seg.setHead order (mem.word b)
    .ok (b, seg)

/-- The globals of `pmm.cpp`, over the memory it manages. -/
structure Pmm where
  mem : Mem
  segtab : List PmmSegment
  totalMem : Nat
  numUsed : Nat
  numErrors : Nat

/-- `for` over the segments, leaving at the first one where `body` returns. -/
def forSegs {β : Type} (body : PmmSegment → Except Fault (Option (PmmSegment × β))) :
    List PmmSegment → Except Fault (Option (List PmmSegment × β))
  | [] => .ok none
  | seg :: rest => do
    match ← body seg with
    | some (seg, r) => .ok (some (seg :: rest, r))
    | none =>
      match ← forSegs body rest with
      | some (rest, r) => .ok (some (seg :: rest, r))
      | none => .ok none

/-! ## `mm::pmm::initialise` -/

/-- The `type` of a Limine memory-map entry. -/
inductive MemmapType where
  | usable
  | reserved
  | acpiReclaimable
  | acpiNvs
  | badMemory
  | bootloaderReclaimable
  | executableAndModules
  | framebuffer
deriving DecidableEq, Repr

/-- A `limine_memmap_entry`: base and length are 64-bit fields. -/
structure MemmapEntry where
  base : Nat
  length : Nat
  type : MemmapType
  base_lt : base < 2 ^ 64 := by decide
  length_lt : length < 2 ^ 64 := by decide
deriving DecidableEq, Repr

/-- The types the allocator takes over. -/
def MemmapType.managed : MemmapType → Bool
  | .usable | .acpiReclaimable | .bootloaderReclaimable => true
  | _ => false

/-- Base and length of the part of an entry that becomes a segment: `none` where the
loop goes on to the next entry, the part below 1 MiB cut off. -/
def MemmapEntry.region (mme : MemmapEntry) : Option (Nat × Nat) :=
  if mme.type.managed then
    if wrap64 (mme.base + mme.length) ≤ 0x100000 then none
    else if mme.base < 0x100000 then
      let delta := 0x100000 - mme.base
      some (mme.base + delta, mme.length - delta)
    else some (mme.base, mme.length)
  else none

/-- The segment record for a region, before its one block is added. -/
def newSegment (base length : Nat) : PmmSegment where
  basePtr := base
  size := length
  pagesUsed := 0
  freeList := Vector.replicate 16 0
  maxOrder := maxOrderLoop (length >>> 12) 64 0

def maxSegtab : Nat := 128

/-- The loop over the memory map. -/
def initialiseLoop : List MemmapEntry → Mem → List PmmSegment → Except Fault (Mem × List PmmSegment)
  | [], mem, segtab => .ok (mem, segtab)
  | mme :: rest, mem, segtab =>
    match mme.region with
    | none => initialiseLoop rest mem segtab
    | some (base, length) =>
      if segtab.length ≥ maxSegtab then .ok (mem, segtab)
      else do
        let seg := newSegment base length
        let (mem, seg) ← addBlock mem seg seg.maxOrder seg.basePtr
        initialiseLoop rest mem (segtab ++ [seg])

/-- `size_t total = 0; for (i < num_segtab) total += segtab[i].size;` -/
def totalSize (segtab : List PmmSegment) : Nat :=
  segtab.foldl (fun total seg => wrap64 (total + seg.size)) 0

namespace Pmm

/-- The entries are data, as they were before the first store: in the kernel they lie in memory of
which a part may be taken over here, and a header would change the ones still to come. -/
def initialise (mem : Mem) (memmap : List MemmapEntry) : Except Fault Pmm := do
  let (mem, segtab) ← initialiseLoop memmap mem []
  .ok { mem, segtab, totalMem := wrap64 (totalSize segtab + 0xFFF) / 0x1000, numUsed := 0,
        numErrors := 0 }

end Pmm

/-! ## `mm::pmm::alloc` -/

/-- `while (current > order) { current--; … add_block(…); }` -/
def allocSplit (order b : Nat) : Nat → Mem → PmmSegment → Except Fault (Mem × PmmSegment)
  | 0, mem, seg => .ok (mem, seg)
  | current + 1, mem, seg =>
    if order < current + 1 then do
      let buddyAddr := wrap64 (b + 1 <<< (current + 12))
      let (mem, seg) ← addBlock mem seg current buddyAddr
      allocSplit order b current mem seg
    else .ok (mem, seg)

/-- `for (current = order; current <= seg->max_order; current++)`, with `todo` orders left. -/
def allocSearch (mem : Mem) (order : Nat) (seg : PmmSegment) :
    Nat → Nat → Except Fault (Option (PmmSegment × Mem × Nat))
  | 0, _ => .ok none
  | todo + 1, current => do
    let head ← seg.head current
    if head = 0 then allocSearch mem order seg todo (current + 1)
    else
      let (b, seg) ← removeBlock mem seg current
      let (mem, seg) ← allocSplit order b current mem seg
      .ok (some ({ seg with pagesUsed := wrap64 (seg.pagesUsed + 1 <<< order) }, mem, b))

/-- The body of the loop over the segments. -/
def allocIn (mem : Mem) (order : Nat) (seg : PmmSegment) :
    Except Fault (Option (PmmSegment × Mem × Nat)) :=
  allocSearch mem order seg (seg.maxOrder + 1 - order) order

/-- `mm::pmm::alloc(n)`; the null pointer is `0`. -/
def Pmm.alloc (s : Pmm) (n : Nat) : Except Fault (Pmm × Nat) := do
  let order := orderFor n
  match ← forSegs (allocIn s.mem order) s.segtab with
  | some (segtab, mem, b) =>
    .ok ({ s with mem, segtab, numUsed := wrap64 (s.numUsed + 1 <<< order) }, b)
  | none => .ok ({ s with numErrors := wrap64 (s.numErrors + 1) }, 0)

/-! ## `mm::pmm::free` -/

/-- The walk `while (curr)` along a free list: `some prev` where `curr` is the buddy. -/
def findBuddy (mem : Mem) (buddyAddr : Nat) : Nat → Nat → Nat → Except Fault (Option Nat)
  | 0, _, curr => if curr = 0 then .ok none else .error .diverges
  | fuel + 1, prev, curr =>
    if curr = 0 then .ok none
    else if curr = buddyAddr then .ok (some prev)
    else findBuddy mem buddyAddr fuel curr (mem.word curr)

/-- `if (prev) prev->next = curr->next; else *head = curr->next;` -/
def unlinkBlock (mem : Mem) (seg : PmmSegment) (order prev curr : Nat) :
    Except Fault (Mem × PmmSegment) :=
  if prev ≠ 0 then .ok (mem.store .header prev (mem.word curr), seg)
  else do
    let seg ← seg.setHead order (mem.word curr)
    .ok (mem, seg)

/-- `while (order < seg->max_order)`, with `todo = max_order - order` rounds left: the
address and the order at which the loop stops. -/
def freeMerge : Nat → Mem → PmmSegment → Nat → Nat → Except Fault (Mem × PmmSegment × Nat × Nat)
  | 0, mem, seg, addr, order => .ok (mem, seg, addr, order)
  | todo + 1, mem, seg, addr, order => do
    let rel := sub64 addr seg.basePtr
    let buddyRel := rel ^^^ 1 <<< (order + 12)
    let buddyAddr := wrap64 (seg.basePtr + buddyRel)
    let head ← seg.head order
    match ← findBuddy mem buddyAddr walkFuel 0 head with
    | none => .ok (mem, seg, addr, order)
    | some prev =>
      let (mem, seg) ← unlinkBlock mem seg order prev buddyAddr
      let addr := if buddyAddr < addr then buddyAddr else addr
      freeMerge todo mem seg addr (order + 1)

/-- The body of the loop over the segments: the memory and the order whose pages are
subtracted, in the segment that holds `addr`. -/
def freeIn (mem : Mem) (addr order : Nat) (seg : PmmSegment) :
    Except Fault (Option (PmmSegment × Mem × Nat)) :=
  if addr < seg.basePtr ∨ addr ≥ wrap64 (seg.basePtr + seg.size) then .ok none
  else do
    let (mem, seg, addr, order) ← freeMerge (seg.maxOrder - order) mem seg addr order
    let (mem, seg) ← addBlock mem seg order addr
    .ok (some ({ seg with pagesUsed := sub64 seg.pagesUsed (1 <<< order) }, mem, order))

/-- `mm::pmm::free(p, n)` -/
def Pmm.free (s : Pmm) (p n : Nat) : Except Fault Pmm := do
  match ← forSegs (freeIn s.mem p (orderFor n)) s.segtab with
  | some (segtab, mem, order) =>
    .ok { s with mem, segtab, numUsed := sub64 s.numUsed (1 <<< order) }
  | none => .ok s

/-! ## Totals -/

def Pmm.totalMemory (s : Pmm) : Nat := totalSize s.segtab

def Pmm.totalUsed (s : Pmm) : Nat := s.numUsed

def Pmm.errorsCount (s : Pmm) : Nat := s.numErrors

end HelixKernel
