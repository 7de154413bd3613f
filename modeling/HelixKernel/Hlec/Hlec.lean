import HelixKernel.Lib.Heap

/-!
# The event registry as written (`kernel/src/hlec/hlec.cpp`)

The registry is a singly linked list of heap nodes with a head pointer `first_event` and a
tail pointer `last_event`.  Every overloaded pair of functions, by id and by context, is
one definition on an `EventRef`.  A callback is called last, so `raise_event` returns which
call it makes. -/

namespace HelixKernel

/-- `__private_event_context` -/
structure EventNode where
  evId : Int
  evName : Nat
  eventCallback : Nat
  quiet : Bool
  evNext : Nat
deriving DecidableEq, Repr

/-- What the registry keeps on the heap: nodes, and the copies `strdup` makes of names. -/
inductive EventBlock where
  | event (n : EventNode)
  | name
deriving DecidableEq, Repr

abbrev EventHeap := Heap EventBlock

/-- Reading a node through its pointer. -/
def readEvent (h : EventHeap) (p : Nat) : Except HeapFault EventNode := do
  match ← h.load p with
  | .event n => .ok n
  | .name => .error (.access p)

/-- Assigning to fields of a node through its pointer. -/
def writeEvent (h : EventHeap) (p : Nat) (f : EventNode → EventNode) :
    Except HeapFault EventHeap := do
  let n ← readEvent h p
  h.store p (.event (f n))

/-- The globals of `hlec.cpp`, over the heap. -/
structure Hlec where
  heap : EventHeap
  firstEvent : Nat
  lastEvent : Nat
  lastId : Int

/-- The globals are zero at first. -/
def Hlec.init (h : EventHeap) : Hlec := ⟨h, 0, 0, 0⟩

/-- The argument by which the functions name an event. -/
inductive EventRef where
  | id (eventId : Int)
  | ctx (evctx : Nat)
deriving DecidableEq, Repr

/-- What a call returns. -/
inductive EventResult where
  | void
  | context (p : Nat)
  | bool (b : Bool)
  | id (n : Int)
  /-- `raise_event` calls the callback, and returns what it returns -/
  | calls (callback : Nat) (argc : Int) (args : Nat)
deriving DecidableEq, Repr

namespace Hlec

/-- `p` is what `malloc` returns, `junk` what the block holds by then. -/
def allocEvent (s : Hlec) (p : Nat) (junk : EventNode) : Except HeapFault (Hlec × Nat) :=
  if p = 0 then .ok (s, 0)
  else do
    let heap := s.heap.set p (some (.event junk))
    let heap ← writeEvent heap p fun n =>
      { n with evNext := 0, evName := 0, eventCallback := 0, quiet := true }
    if s.firstEvent = 0 then .ok ({ s with heap, firstEvent := p, lastEvent := p }, p)
    else
      let heap ← writeEvent heap s.lastEvent fun n => { n with evNext := p }
      .ok ({ s with heap, lastEvent := p }, p)

/-- `while (curr && curr->ev_next)` -/
def getPrevEventLoop (h : EventHeap) (eventId : Int) : Nat → Nat → Except HeapFault Nat
  | 0, curr => if curr = 0 then .ok 0 else .error .diverges
  | fuel + 1, curr =>
    if curr = 0 then .ok 0
    else do
      let n ← readEvent h curr
      if n.evNext = 0 then .ok 0
      else
        let next ← readEvent h n.evNext
        if next.evId = eventId then .ok curr else getPrevEventLoop h eventId fuel n.evNext

def getPrevEventForId (s : Hlec) (eventId : Int) : Except HeapFault Nat :=
  getPrevEventLoop s.heap eventId walkFuel s.firstEvent

/-- `while (curr)` -/
def getEventLoop (h : EventHeap) (eventId : Int) : Nat → Nat → Except HeapFault Nat
  | 0, curr => if curr = 0 then .ok 0 else .error .diverges
  | fuel + 1, curr =>
    if curr = 0 then .ok 0
    else do
      let n ← readEvent h curr
      if n.evId = eventId then .ok curr else getEventLoop h eventId fuel n.evNext

def getEventForId (s : Hlec) (eventId : Int) : Except HeapFault Nat :=
  getEventLoop s.heap eventId walkFuel s.firstEvent

/-- `strdup`; it does not check what `malloc` gave it. -/
def strdup (h : EventHeap) (q : Nat) : Except HeapFault EventHeap :=
  if q = 0 then .error (.access 0) else .ok (h.set q (some .name))

/-- `p` and `q` are what `malloc` has for the node and for the copy of the name. -/
def newEvent (s : Hlec) (p : Nat) (junk : EventNode) (q : Nat) :
    Except HeapFault (Hlec × EventResult) := do
  let (s, ev) ← s.allocEvent p junk
  if ev = 0 then .ok (s, .context 0)
  else
    let heap ← writeEvent s.heap ev fun n => { n with evId := s.lastId }
    let heap ← strdup heap q
    let heap ← writeEvent heap ev fun n => { n with evName := q, quiet := true }
    .ok ({ s with heap, lastId := s.lastId + 1 }, .context ev)

/-- The pointer behind the argument; by id it is looked up. -/
def resolve (s : Hlec) : EventRef → Except HeapFault Nat
  | .id eventId => s.getEventForId eventId
  | .ctx evctx => .ok evctx

/-- `if (prev) prev->ev_next = next; else first_event = next;` -/
def unlinkEvent (s : Hlec) (prev next : Nat) : Except HeapFault Hlec :=
  if prev ≠ 0 then do
    let heap ← writeEvent s.heap prev fun n => { n with evNext := next }
    .ok { s with heap }
  else .ok { s with firstEvent := next }

/-- `remove_event` by id, and the same lines of `remove_event` by context. -/
def removeEventId (s : Hlec) (eventId : Int) : Except HeapFault (Hlec × EventResult) := do
  let prev ← s.getPrevEventForId eventId
  let node ← s.getEventForId eventId
  if node = 0 then .ok (s, .void)
  else
    let n ← readEvent s.heap node
    let s ← s.unlinkEvent prev n.evNext
    let heap ← writeEvent s.heap node fun n => { n with evNext := 0 }
    let n ← readEvent heap node
    let heap ← heap.free n.evName
    let heap ← heap.free node
    .ok ({ s with heap }, .void)

def removeEvent (s : Hlec) : EventRef → Except HeapFault (Hlec × EventResult)
  | .id eventId => s.removeEventId eventId
  | .ctx evctx =>
    if evctx = 0 then .ok (s, .void)
    else do
      let n ← readEvent s.heap evctx
      s.removeEventId n.evId

def registerEventCallback (s : Hlec) (ref : EventRef) (callback : Nat) :
    Except HeapFault (Hlec × EventResult) := do
  let ev ← s.resolve ref
  if ev = 0 then .ok (s, .bool false)
  else
    let heap ← writeEvent s.heap ev fun n => { n with eventCallback := callback }
    .ok ({ s with heap }, .bool true)

def obtainEventId (s : Hlec) (evctx : Nat) : Except HeapFault (Hlec × EventResult) :=
  if evctx = 0 then .ok (s, .id (-1))
  else do
    let n ← readEvent s.heap evctx
    .ok (s, .id n.evId)

def raiseEvent (s : Hlec) (ref : EventRef) (argc : Int) (args : Nat) :
    Except HeapFault (Hlec × EventResult) := do
  let ev ← s.resolve ref
  if ev = 0 then .ok (s, .id (-1))
  else
    let n ← readEvent s.heap ev
    if n.quiet then .ok (s, .id (-1))
    else if n.eventCallback = 0 then .ok (s, .id (-1))
    else .ok (s, .calls n.eventCallback argc args)

/-- `set_event_quiet` and `unset_event_quiet`. -/
def assignQuiet (s : Hlec) (ref : EventRef) (b : Bool) : Except HeapFault (Hlec × EventResult) := do
  let ev ← s.resolve ref
  if ev = 0 then .ok (s, .void)
  else
    let heap ← writeEvent s.heap ev fun n => { n with quiet := b }
    .ok ({ s with heap }, .void)

def setEventQuiet (s : Hlec) (ref : EventRef) : Except HeapFault (Hlec × EventResult) :=
  s.assignQuiet ref true

def unsetEventQuiet (s : Hlec) (ref : EventRef) : Except HeapFault (Hlec × EventResult) :=
  s.assignQuiet ref false

end Hlec

/-- A call of the interface; for `newEvent` also what `malloc` has for it. -/
inductive HlecCall where
  | newEvent (p : Nat) (junk : EventNode) (q : Nat)
  | removeEvent (ref : EventRef)
  | registerEventCallback (ref : EventRef) (callback : Nat)
  | obtainEventId (evctx : Nat)
  | raiseEvent (ref : EventRef) (argc : Int) (args : Nat)
  | setEventQuiet (ref : EventRef)
  | unsetEventQuiet (ref : EventRef)
deriving DecidableEq, Repr

def HlecCall.run (s : Hlec) : HlecCall → Except HeapFault (Hlec × EventResult)
  | newEvent p junk q => s.newEvent p junk q
  | removeEvent ref => s.removeEvent ref
  | registerEventCallback ref callback => s.registerEventCallback ref callback
  | obtainEventId evctx => s.obtainEventId evctx
  | raiseEvent ref argc args => s.raiseEvent ref argc args
  | setEventQuiet ref => s.setEventQuiet ref
  | unsetEventQuiet ref => s.unsetEventQuiet ref

end HelixKernel
