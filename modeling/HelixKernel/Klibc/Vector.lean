import HelixKernel.Lib.BlockHeap

/-!
# The vector as written (`kernel/src/klibc/vector`)

A vector object is the three fields `data_`, `size_`, `capacity_`; its elements are in the
block at `data_`.  Iterators are addresses.  Elements are relocated by copying their cells
and are read and destroyed only where there is one.  The overloads for `const T&` and `T&&`
are one function here, and so are `insert` and `emplace` of one element, which get the value
that is constructed; a range or an initializer list is the list of its values. -/

namespace HelixKernel

structure Vec where
  data : Nat
  size : Nat
  capacity : Nat
deriving DecidableEq, Repr

namespace Vec

variable {α : Type}

def empty : Vec := ⟨0, 0, 0⟩

/-- `data_ + idx` -/
def iter (t : ElemType α) (v : Vec) (idx : Nat) : Nat := wrap64 (v.data + t.size * idx)

/-- `(size_t)(pos - data_)` -/
def index (t : ElemType α) (v : Vec) (pos : Nat) : Nat := sub64 pos v.data / t.size

/-! ## Storage -/

/-- `memmove(new_data, data_, sizeof(T) * size_); free(data_);` -/
def relocate (t : ElemType α) (m : BlockHeap α) (v : Vec) (newData : Nat) :
    Except HeapFault (BlockHeap α) := do
  let m ← m.memmove t newData 0 v.data 0 v.size
  m.free v.data

/-- `if (data_) { ... }` in `grow`. -/
def relocateIf (t : ElemType α) (m : BlockHeap α) (v : Vec) (newData : Nat) :
    Except HeapFault (BlockHeap α) :=
  if v.data ≠ 0 then v.relocate t m newData else .ok m

def grow (t : ElemType α) (m : BlockHeap α) (v : Vec) (minCap : Nat) :
    Except HeapFault (BlockHeap α × Vec) := do
  let newCap := if v.capacity ≠ 0 then wrap64 (v.capacity * 2) else 4
  let newCap := if newCap < minCap then minCap else newCap
  let (m, newData) ← m.malloc t newCap
  let m ← v.relocateIf t m newData
  .ok (m, { v with data := newData, capacity := newCap })

/-- `destroy_range`, of `todo` elements from the `i`th on. -/
def destroyRange (m : BlockHeap α) (p : Nat) : Nat → Nat → Except HeapFault (BlockHeap α)
  | _, 0 => .ok m
  | i, todo + 1 => do
    let m ← m.destroy p i
    destroyRange m p (i + 1) todo

/-- `new (p + i) T(...)` for each of the values, one after the other. -/
def constructRange (m : BlockHeap α) (p : Nat) : Nat → List α → Except HeapFault (BlockHeap α)
  | _, [] => .ok m
  | i, a :: as => do
    let m ← m.construct p i a
    constructRange m p (i + 1) as

def reserve (t : ElemType α) (m : BlockHeap α) (v : Vec) (newCap : Nat) :
    Except HeapFault (BlockHeap α × Vec) :=
  if newCap > v.capacity then grow t m v newCap else .ok (m, v)

/-- `if (size_ + count > capacity_) grow(size_ + count);` is `reserve`. -/
def shiftRight (t : ElemType α) (m : BlockHeap α) (v : Vec) (pos count : Nat) :
    Except HeapFault (BlockHeap α × Vec) := do
  let (m, v) ← reserve t m v (wrap64 (v.size + count))
  let m ← m.memmove t v.data (pos + count) v.data pos (sub64 v.size pos)
  .ok (m, v)

def shiftLeft (t : ElemType α) (m : BlockHeap α) (v : Vec) (pos count : Nat) :
    Except HeapFault (BlockHeap α) :=
  m.memmove t v.data pos v.data (pos + count) (sub64 (sub64 v.size pos) count)

def shrinkToFit (t : ElemType α) (m : BlockHeap α) (v : Vec) :
    Except HeapFault (BlockHeap α × Vec) :=
  if v.capacity ≤ v.size then .ok (m, v)
  else if v.size = 0 then do
    let m ← m.free v.data
    .ok (m, { v with data := 0, capacity := 0 })
  else do
    let (m, newData) ← m.malloc t v.size
    let m ← v.relocate t m newData
    .ok (m, { v with data := newData, capacity := v.size })

def clear (m : BlockHeap α) (v : Vec) : Except HeapFault (BlockHeap α × Vec) := do
  let m ← destroyRange m v.data 0 v.size
  .ok (m, { v with size := 0 })

/-! ## Inserting and erasing -/

/-- `insert` of one element, and `emplace`. -/
def insert (t : ElemType α) (m : BlockHeap α) (v : Vec) (pos : Nat) (a : α) :
    Except HeapFault (BlockHeap α × Vec × Nat) := do
  let idx := v.index t pos
  let (m, v) ← shiftRight t m v idx 1
  let m ← m.construct v.data idx a
  let v := { v with size := wrap64 (v.size + 1) }
  .ok (m, v, v.iter t idx)

def insertCount (t : ElemType α) (m : BlockHeap α) (v : Vec) (pos count : Nat) (a : α) :
    Except HeapFault (BlockHeap α × Vec × Nat) := do
  let idx := v.index t pos
  if count = 0 then .ok (m, v, v.iter t idx)
  else
    let (m, v) ← shiftRight t m v idx count
    let m ← constructRange m v.data idx (List.replicate count a)
    let v := { v with size := wrap64 (v.size + count) }
    .ok (m, v, v.iter t idx)

def insertRange (t : ElemType α) (m : BlockHeap α) (v : Vec) (pos : Nat) (as : List α) :
    Except HeapFault (BlockHeap α × Vec × Nat) := do
  let idx := v.index t pos
  let count := as.length
  if count = 0 then .ok (m, v, v.iter t idx)
  else
    let (m, v) ← shiftRight t m v idx count
    let m ← constructRange m v.data idx as
    let v := { v with size := wrap64 (v.size + count) }
    .ok (m, v, v.iter t idx)

def erase (t : ElemType α) (m : BlockHeap α) (v : Vec) (pos : Nat) :
    Except HeapFault (BlockHeap α × Vec × Nat) := do
  let idx := v.index t pos
  let m ← m.destroy v.data idx
  let m ← shiftLeft t m v idx 1
  let v := { v with size := sub64 v.size 1 }
  .ok (m, v, v.iter t idx)

def eraseRange (t : ElemType α) (m : BlockHeap α) (v : Vec) (first last : Nat) :
    Except HeapFault (BlockHeap α × Vec × Nat) := do
  let idx := v.index t first
  let count := sub64 last first / t.size
  if count = 0 then .ok (m, v, v.iter t idx)
  else
    let m ← destroyRange m v.data idx count
    let m ← shiftLeft t m v idx count
    let v := { v with size := sub64 v.size count }
    .ok (m, v, v.iter t idx)

/-! ## At the end -/

/-- `if (size_ >= capacity_) grow(size_ + 1);` -/
def growFull (t : ElemType α) (m : BlockHeap α) (v : Vec) : Except HeapFault (BlockHeap α × Vec) :=
  if v.size ≥ v.capacity then grow t m v (wrap64 (v.size + 1)) else .ok (m, v)

/-- `emplace_back`, which returns the reference; `push_back` does not. -/
def emplaceBack (t : ElemType α) (m : BlockHeap α) (v : Vec) (a : α) :
    Except HeapFault (BlockHeap α × Vec × Nat) := do
  let (m, v) ← growFull t m v
  let m ← m.construct v.data v.size a
  .ok (m, { v with size := wrap64 (v.size + 1) }, v.iter t v.size)

def pushBack (t : ElemType α) (m : BlockHeap α) (v : Vec) (a : α) :
    Except HeapFault (BlockHeap α × Vec) := do
  let (m, v, _) ← emplaceBack t m v a
  .ok (m, v)

/-- `for (; first != last; ++first) push_back(*first);` -/
def pushBackAll (t : ElemType α) (m : BlockHeap α) (v : Vec) :
    List α → Except HeapFault (BlockHeap α × Vec)
  | [] => .ok (m, v)
  | a :: as => do
    let (m, v) ← pushBack t m v a
    pushBackAll t m v as

def popBack (m : BlockHeap α) (v : Vec) : Except HeapFault (BlockHeap α × Vec) :=
  if v.size > 0 then do
    let v := { v with size := v.size - 1 }
    let m ← m.destroy v.data v.size
    .ok (m, v)
  else .ok (m, v)

/-- `resize(count, value)`; `resize(count)` is the same with `T()`. -/
def resize (t : ElemType α) (m : BlockHeap α) (v : Vec) (count : Nat) (a : α) :
    Except HeapFault (BlockHeap α × Vec) :=
  if count < v.size then do
    let m ← destroyRange m v.data count (v.size - count)
    .ok (m, { v with size := count })
  else if count > v.size then do
    let (m, v) ← reserve t m v count
    let m ← constructRange m v.data v.size (List.replicate (count - v.size) a)
    .ok (m, { v with size := count })
  else .ok (m, v)

/-! ## Constructors, assignment, destructor -/

/-- `new (data_ + i) T(other.data_[i])`, `todo` times. -/
def copyElems (m : BlockHeap α) (p src : Nat) : Nat → Nat → Except HeapFault (BlockHeap α)
  | _, 0 => .ok m
  | i, todo + 1 => do
    let a ← m.readElem src i
    let m ← m.construct p i a
    copyElems m p src (i + 1) todo

/-- `reserve(other.size_); for (...) ...; size_ = other.size_;` -/
def copyFrom (t : ElemType α) (m : BlockHeap α) (v other : Vec) :
    Except HeapFault (BlockHeap α × Vec) := do
  let (m, v) ← reserve t m v other.size
  let m ← copyElems m v.data other.data 0 other.size
  .ok (m, { v with size := other.size })

/-- `vector(il)` -/
def ofList (t : ElemType α) (m : BlockHeap α) (as : List α) :
    Except HeapFault (BlockHeap α × Vec) := do
  let (m, v) ← reserve t m empty as.length
  pushBackAll t m v as

/-- `operator=(const vector&)` from another object. -/
def assignCopy (t : ElemType α) (m : BlockHeap α) (v other : Vec) :
    Except HeapFault (BlockHeap α × Vec) := do
  let m ← destroyRange m v.data 0 v.size
  copyFrom t m { v with size := 0 } other

def assignCount (t : ElemType α) (m : BlockHeap α) (v : Vec) (count : Nat) (a : α) :
    Except HeapFault (BlockHeap α × Vec) := do
  let m ← destroyRange m v.data 0 v.size
  resize t m { v with size := 0 } count a

/-- `assign(first, last)`, also behind `assign(il)` and `operator=(il)`. -/
def assignRange (t : ElemType α) (m : BlockHeap α) (v : Vec) (as : List α) :
    Except HeapFault (BlockHeap α × Vec) := do
  let m ← destroyRange m v.data 0 v.size
  pushBackAll t m { v with size := 0 } as

/-- What the destructor, and the move assignment first, do to the storage. -/
def release (m : BlockHeap α) (v : Vec) : Except HeapFault (BlockHeap α) := do
  let m ← destroyRange m v.data 0 v.size
  if v.data ≠ 0 then m.free v.data else .ok m

end Vec

/-! ## Vector objects and the calls on them -/

/-- The vector objects that live, by name, and the heap. -/
structure Vectors (α : Type) where
  mem : BlockHeap α
  obj : Nat → Option Vec

/-- A call on object `x`; positions are given as `begin() + i`. -/
inductive VectorCall (α : Type) where
  | default (x : Nat)
  | sized (x count : Nat)
  | filled (x count : Nat) (a : α)
  | copy (x y : Nat)
  | move (x y : Nat)
  | ofList (x : Nat) (as : List α)
  | ofRange (x : Nat) (as : List α)
  | destroy (x : Nat)
  | assignCopy (x y : Nat)
  | assignMove (x y : Nat)
  | assignCount (x count : Nat) (a : α)
  | assignRange (x : Nat) (as : List α)
  | reserve (x n : Nat)
  | shrinkToFit (x : Nat)
  | clear (x : Nat)
  | insert (x i : Nat) (a : α)
  | insertCount (x i count : Nat) (a : α)
  | insertRange (x i : Nat) (as : List α)
  | emplaceBack (x : Nat) (a : α)
  | erase (x i : Nat)
  | eraseRange (x i j : Nat)
  | pushBack (x : Nat) (a : α)
  | popBack (x : Nat)
  | resize (x count : Nat)
  | resizeValue (x count : Nat) (a : α)
  | swap (x y : Nat)

namespace Vectors

variable {α : Type}

def vec (w : Vectors α) (x : Nat) : Except HeapFault Vec :=
  match w.obj x with
  | some v => .ok v
  | none => .error (.access 0)

def setObj (w : Vectors α) (m : BlockHeap α) (x : Nat) (v : Option Vec) : Vectors α :=
  ⟨m, Function.update w.obj x v⟩

/-- A constructor: the fields are set to null and zero first. -/
def new (w : Vectors α) (x : Nat)
    (f : BlockHeap α → Vec → Except HeapFault (BlockHeap α × Vec)) :
    Except HeapFault (Vectors α × Option Nat) := do
  let (m, v) ← f w.mem .empty
  .ok (w.setObj m x (some v), none)

/-- A member function that returns nothing. -/
def on (w : Vectors α) (x : Nat)
    (f : BlockHeap α → Vec → Except HeapFault (BlockHeap α × Vec)) :
    Except HeapFault (Vectors α × Option Nat) := do
  let v ← w.vec x
  let (m, v) ← f w.mem v
  .ok (w.setObj m x (some v), none)

/-- A member function that returns an iterator or a reference. -/
def onIter (w : Vectors α) (x : Nat)
    (f : BlockHeap α → Vec → Except HeapFault (BlockHeap α × Vec × Nat)) :
    Except HeapFault (Vectors α × Option Nat) := do
  let v ← w.vec x
  let (m, v, p) ← f w.mem v
  .ok (w.setObj m x (some v), some p)

end Vectors

/-- What a call does; the address is the iterator or reference it returns. -/
def VectorCall.run {α : Type} (t : ElemType α) (w : Vectors α) :
    VectorCall α → Except HeapFault (Vectors α × Option Nat)
  | default x => w.new x fun m v => .ok (m, v)
  | sized x count => w.new x fun m v => v.resize t m count t.default
  | filled x count a => w.new x fun m v => v.resize t m count a
  | copy x y => do
    let other ← w.vec y
    w.new x fun m v => v.copyFrom t m other
  | move x y => do
    let other ← w.vec y
    let w := w.setObj w.mem x (some other)
    .ok (w.setObj w.mem y (some .empty), none)
  | ofList x as => w.new x fun m _ => Vec.ofList t m as
  | ofRange x as => w.new x fun m v => v.pushBackAll t m as
  | destroy x => do
    let v ← w.vec x
    let m ← v.release w.mem
    .ok (w.setObj m x none, none)
  | assignCopy x y => do
    let other ← w.vec y
    w.on x fun m v => if x ≠ y then v.assignCopy t m other else .ok (m, v)
  | assignMove x y => do
    let v ← w.vec x
    let other ← w.vec y
    if x ≠ y then
      let m ← v.release w.mem
      let w := w.setObj m x (some other)
      .ok (w.setObj w.mem y (some .empty), none)
    else .ok (w, none)
  | assignCount x count a => w.on x fun m v => v.assignCount t m count a
  | assignRange x as => w.on x fun m v => v.assignRange t m as
  | reserve x n => w.on x fun m v => v.reserve t m n
  | shrinkToFit x => w.on x fun m v => v.shrinkToFit t m
  | clear x => w.on x fun m v => v.clear m
  | insert x i a => w.onIter x fun m v => v.insert t m (v.iter t i) a
  | insertCount x i count a => w.onIter x fun m v => v.insertCount t m (v.iter t i) count a
  | insertRange x i as => w.onIter x fun m v => v.insertRange t m (v.iter t i) as
  | emplaceBack x a => w.onIter x fun m v => v.emplaceBack t m a
  | erase x i => w.onIter x fun m v => v.erase t m (v.iter t i)
  | eraseRange x i j => w.onIter x fun m v => v.eraseRange t m (v.iter t i) (v.iter t j)
  | pushBack x a => w.on x fun m v => v.pushBack t m a
  | popBack x => w.on x fun m v => v.popBack m
  | resize x count => w.on x fun m v => v.resize t m count t.default
  | resizeValue x count a => w.on x fun m v => v.resize t m count a
  | swap x y => do
    let v ← w.vec x
    let other ← w.vec y
    let w := w.setObj w.mem x (some other)
    .ok (w.setObj w.mem y (some v), none)

end HelixKernel
