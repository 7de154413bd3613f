import HelixKernel.Klibc.VectorRefine
import HelixKernel.Lib.ObjectHeap

/-!
# The vector as written, with the lifetimes of its elements

The same code as in `Klibc.Vector`, on buffers whose cells hold objects: `new (...) T(...)`
begins a lifetime, `~T()` ends one, and `memmove` relocates elements.  An argument
`const T& value` is a reference, which may be one to an element, or a value from elsewhere; it
is read as often as a constructor gets it.  Positions are given as indices. -/

namespace HelixKernel

namespace VecObj

variable {α : Type} {t : ElemType α}

/-! ## Storage -/

/-- `memmove(new_data, data_, sizeof(T) * size_); free(data_);` -/
def relocate (m : ObjHeap t) (v : Vec) (newData : Nat) : Except HeapFault (ObjHeap t) := do
  let m ← m.memmove newData 0 v.data 0 v.size
  m.free v.data

/-- `capacity_ ? capacity_ * 2 : 4` -/
def twice (capacity : Nat) : Nat := if capacity ≠ 0 then wrap64 (capacity * 2) else 4

/-- `if (new_cap < min_cap) new_cap = min_cap;` -/
def newCap (capacity minCap : Nat) : Nat :=
  if twice capacity < minCap then minCap else twice capacity

/-- `if (data_) { ... }` in `grow`. -/
def relocateIf (m : ObjHeap t) (v : Vec) (newData : Nat) : Except HeapFault (ObjHeap t) :=
  if v.data ≠ 0 then relocate m v newData else .ok m

def grow (m : ObjHeap t) (v : Vec) (minCap : Nat) : Except HeapFault (ObjHeap t × Vec) := do
  let (m, newData) ← m.malloc (newCap v.capacity minCap)
  let m ← relocateIf m v newData
  .ok (m, { v with data := newData, capacity := newCap v.capacity minCap })

/-- `destroy_range`, of `todo` elements from the `i`th on. -/
def destroyRange (m : ObjHeap t) (p : Nat) : Nat → Nat → Except HeapFault (ObjHeap t)
  | _, 0 => .ok m
  | i, todo + 1 => do
    let m ← m.destroy p i
    destroyRange m p (i + 1) todo

/-- `new (p + i) T(...)` for each of the arguments, one after the other. -/
def constructRange (m : ObjHeap t) (p : Nat) : Nat → List (Arg α) → Except HeapFault (ObjHeap t)
  | _, [] => .ok m
  | i, arg :: args => do
    let m ← m.construct p i arg
    constructRange m p (i + 1) args

def reserve (m : ObjHeap t) (v : Vec) (newCap : Nat) : Except HeapFault (ObjHeap t × Vec) :=
  if newCap > v.capacity then grow m v newCap else .ok (m, v)

/-- `if (size_ + count > capacity_) grow(size_ + count);` is `reserve`. -/
def shiftRight (m : ObjHeap t) (v : Vec) (pos count : Nat) : Except HeapFault (ObjHeap t × Vec) := do
  let (m, v) ← reserve m v (wrap64 (v.size + count))
  let m ← m.memmove v.data (pos + count) v.data pos (sub64 v.size pos)
  .ok (m, v)

def shiftLeft (m : ObjHeap t) (v : Vec) (pos count : Nat) : Except HeapFault (ObjHeap t) :=
  m.memmove v.data pos v.data (pos + count) (sub64 (sub64 v.size pos) count)

def shrinkToFit (m : ObjHeap t) (v : Vec) : Except HeapFault (ObjHeap t × Vec) :=
  if v.capacity ≤ v.size then .ok (m, v)
  else if v.size = 0 then do
    let m ← m.free v.data
    .ok (m, { v with data := 0, capacity := 0 })
  else do
    let (m, newData) ← m.malloc v.size
    let m ← relocate m v newData
    .ok (m, { v with data := newData, capacity := v.size })

def clear (m : ObjHeap t) (v : Vec) : Except HeapFault (ObjHeap t × Vec) := do
  let m ← destroyRange m v.data 0 v.size
  .ok (m, { v with size := 0 })

/-! ## Inserting and erasing -/

/-- What every `insert` does for its arguments, and `emplace`. -/
def insertArgs (m : ObjHeap t) (v : Vec) (idx : Nat) (args : List (Arg α)) :
    Except HeapFault (ObjHeap t × Vec) := do
  let (m, v) ← shiftRight m v idx args.length
  let m ← constructRange m v.data idx args
  .ok (m, { v with size := wrap64 (v.size + args.length) })

/-- `insert(pos, value)` -/
def insert (m : ObjHeap t) (v : Vec) (idx : Nat) (arg : Arg α) :
    Except HeapFault (ObjHeap t × Vec) :=
  insertArgs m v idx [arg]

/-- `emplace(pos, arg)` -/
def emplace (m : ObjHeap t) (v : Vec) (idx : Nat) (arg : Arg α) :
    Except HeapFault (ObjHeap t × Vec) :=
  insertArgs m v idx [arg]

/-- `insert(pos, count, value)` -/
def insertCount (m : ObjHeap t) (v : Vec) (idx count : Nat) (arg : Arg α) :
    Except HeapFault (ObjHeap t × Vec) :=
  if count = 0 then .ok (m, v) else insertArgs m v idx (List.replicate count arg)

/-- `insert(pos, first, last)` -/
def insertRange (m : ObjHeap t) (v : Vec) (idx : Nat) (as : List α) :
    Except HeapFault (ObjHeap t × Vec) :=
  if as.length = 0 then .ok (m, v) else insertArgs m v idx (as.map .value)

def erase (m : ObjHeap t) (v : Vec) (idx : Nat) : Except HeapFault (ObjHeap t × Vec) := do
  let m ← m.destroy v.data idx
  let m ← shiftLeft m v idx 1
  .ok (m, { v with size := sub64 v.size 1 })

/-- `erase(first, last)`, `count` elements. -/
def eraseRange (m : ObjHeap t) (v : Vec) (idx count : Nat) : Except HeapFault (ObjHeap t × Vec) :=
  if count = 0 then .ok (m, v)
  else do
    let m ← destroyRange m v.data idx count
    let m ← shiftLeft m v idx count
    .ok (m, { v with size := sub64 v.size count })

/-! ## At the end -/

/-- `if (size_ >= capacity_) grow(size_ + 1);` -/
def growFull (m : ObjHeap t) (v : Vec) : Except HeapFault (ObjHeap t × Vec) :=
  if v.size ≥ v.capacity then grow m v (wrap64 (v.size + 1)) else .ok (m, v)

def emplaceBack (m : ObjHeap t) (v : Vec) (arg : Arg α) : Except HeapFault (ObjHeap t × Vec) := do
  let (m, v) ← growFull m v
  let m ← m.construct v.data v.size arg
  .ok (m, { v with size := wrap64 (v.size + 1) })

def pushBack (m : ObjHeap t) (v : Vec) (arg : Arg α) : Except HeapFault (ObjHeap t × Vec) :=
  emplaceBack m v arg

/-- `for (; first != last; ++first) push_back(*first);` -/
def pushBackAll (m : ObjHeap t) (v : Vec) : List α → Except HeapFault (ObjHeap t × Vec)
  | [] => .ok (m, v)
  | a :: as => do
    let (m, v) ← pushBack m v (.value a)
    pushBackAll m v as

def popBack (m : ObjHeap t) (v : Vec) : Except HeapFault (ObjHeap t × Vec) :=
  if v.size > 0 then do
    let m ← m.destroy v.data (v.size - 1)
    .ok (m, { v with size := v.size - 1 })
  else .ok (m, v)

/-- `resize(count, value)`; `resize(count)` is the same with `T()`. -/
def resize (m : ObjHeap t) (v : Vec) (count : Nat) (arg : Arg α) :
    Except HeapFault (ObjHeap t × Vec) :=
  if count < v.size then do
    let m ← destroyRange m v.data count (v.size - count)
    .ok (m, { v with size := count })
  else if count > v.size then do
    let (m, v) ← reserve m v count
    let m ← constructRange m v.data v.size (List.replicate (count - v.size) arg)
    .ok (m, { v with size := count })
  else .ok (m, v)

/-! ## Constructors, assignment, destructor -/

/-- `reserve(other.size_); for (...) new (data_ + i) T(other.data_[i]); size_ = other.size_;` -/
def copyFrom (m : ObjHeap t) (v other : Vec) : Except HeapFault (ObjHeap t × Vec) := do
  let (m, v) ← reserve m v other.size
  let m ← constructRange m v.data 0 ((List.range other.size).map (.elem other.data))
  .ok (m, { v with size := other.size })

/-- `vector(il)` -/
def ofList (m : ObjHeap t) (as : List α) : Except HeapFault (ObjHeap t × Vec) := do
  let (m, v) ← reserve m .empty as.length
  pushBackAll m v as

/-- `operator=(const vector&)` from another object. -/
def assignCopy (m : ObjHeap t) (v other : Vec) : Except HeapFault (ObjHeap t × Vec) := do
  let (m, v) ← clear m v
  copyFrom m v other

/-- `assign(count, value)` -/
def assignCount (m : ObjHeap t) (v : Vec) (count : Nat) (arg : Arg α) :
    Except HeapFault (ObjHeap t × Vec) := do
  let (m, v) ← clear m v
  resize m v count arg

/-- `assign(first, last)`, also behind `assign(il)` and `operator=(il)`. -/
def assignRange (m : ObjHeap t) (v : Vec) (as : List α) : Except HeapFault (ObjHeap t × Vec) := do
  let (m, v) ← clear m v
  pushBackAll m v as

/-- What the destructor, and the move assignment first, do to the storage. -/
def release (m : ObjHeap t) (v : Vec) : Except HeapFault (ObjHeap t) := do
  let m ← destroyRange m v.data 0 v.size
  if v.data ≠ 0 then m.free v.data else .ok m

end VecObj

/-! ## Vector objects and the calls on them -/

/-- The vector objects that live, by name, and the heap. -/
structure ObjVectors {α : Type} (t : ElemType α) where
  mem : ObjHeap t
  obj : Nat → Option Vec

namespace ObjVectors

variable {α : Type} {t : ElemType α}

def vec (w : ObjVectors t) (x : Nat) : Except HeapFault Vec :=
  match w.obj x with
  | some v => .ok v
  | none => .error (.access 0)

def setObj (w : ObjVectors t) (m : ObjHeap t) (x : Nat) (v : Option Vec) : ObjVectors t :=
  ⟨m, Function.update w.obj x v⟩

/-- A constructor: the fields are set to null and zero first. -/
def new (w : ObjVectors t) (x : Nat)
    (f : ObjHeap t → Vec → Except HeapFault (ObjHeap t × Vec)) : Except HeapFault (ObjVectors t) := do
  let (m, v) ← f w.mem .empty
  .ok (w.setObj m x (some v))

/-- A member function. -/
def on (w : ObjVectors t) (x : Nat)
    (f : ObjHeap t → Vec → Except HeapFault (ObjHeap t × Vec)) : Except HeapFault (ObjVectors t) := do
  let v ← w.vec x
  let (m, v) ← f w.mem v
  .ok (w.setObj m x (some v))

end ObjVectors

/-- What a call does to the vectors and to the objects, its arguments being values. -/
def VectorCall.runObj {α : Type} {t : ElemType α} (w : ObjVectors t) :
    VectorCall α → Except HeapFault (ObjVectors t)
  | default x => w.new x fun m v => .ok (m, v)
  | sized x count => w.new x fun m v => VecObj.resize m v count (.value t.default)
  | filled x count a => w.new x fun m v => VecObj.resize m v count (.value a)
  | copy x y => do
    let other ← w.vec y
    w.new x fun m v => VecObj.copyFrom m v other
  | move x y => do
    let other ← w.vec y
    let w := w.setObj w.mem x (some other)
    .ok (w.setObj w.mem y (some .empty))
  | ofList x as => w.new x fun m _ => VecObj.ofList m as
  | ofRange x as => w.new x fun m v => VecObj.pushBackAll m v as
  | destroy x => do
    let v ← w.vec x
    let m ← VecObj.release w.mem v
    .ok (w.setObj m x none)
  | assignCopy x y => do
    let other ← w.vec y
    w.on x fun m v => if x ≠ y then VecObj.assignCopy m v other else .ok (m, v)
  | assignMove x y => do
    let v ← w.vec x
    let other ← w.vec y
    if x ≠ y then
      let m ← VecObj.release w.mem v
      let w := w.setObj m x (some other)
      .ok (w.setObj w.mem y (some .empty))
    else .ok w
  | assignCount x count a => w.on x fun m v => VecObj.assignCount m v count (.value a)
  | assignRange x as => w.on x fun m v => VecObj.assignRange m v as
  | reserve x n => w.on x fun m v => VecObj.reserve m v n
  | shrinkToFit x => w.on x fun m v => VecObj.shrinkToFit m v
  | clear x => w.on x fun m v => VecObj.clear m v
  | insert x i a => w.on x fun m v => VecObj.insert m v i (.value a)
  | insertCount x i count a => w.on x fun m v => VecObj.insertCount m v i count (.value a)
  | insertRange x i as => w.on x fun m v => VecObj.insertRange m v i as
  | emplaceBack x a => w.on x fun m v => VecObj.emplaceBack m v (.value a)
  | erase x i => w.on x fun m v => VecObj.erase m v i
  | eraseRange x i j => w.on x fun m v => VecObj.eraseRange m v i (j - i)
  | pushBack x a => w.on x fun m v => VecObj.pushBack m v (.value a)
  | popBack x => w.on x fun m v => VecObj.popBack m v
  | resize x count => w.on x fun m v => VecObj.resize m v count (.value t.default)
  | resizeValue x count a => w.on x fun m v => VecObj.resize m v count (.value a)
  | swap x y => do
    let v ← w.vec x
    let other ← w.vec y
    let w := w.setObj w.mem x (some other)
    .ok (w.setObj w.mem y (some v))

end HelixKernel
