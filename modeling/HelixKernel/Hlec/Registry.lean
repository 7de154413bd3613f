import HelixKernel.Hlec.Hlec
import HelixKernel.Lib.Chain

/-!
# The event registry as a finite map

`Registry`: the live events in the order of their creation, each with its id, and the id
that comes next.  `Threaded h first es`: the nodes linked from `first` are those of `es`;
the two lookups of `hlec.cpp` are stated on it, and so are the stores the calls make. -/

namespace HelixKernel

structure Event where
  ctx : Nat
  name : Nat
  id : Int
  callback : Nat
  quiet : Bool
deriving DecidableEq, Repr

/-- The node of an event, linked to `next`. -/
def Event.node (e : Event) (next : Nat) : EventNode := ⟨e.id, e.name, e.callback, e.quiet, next⟩

structure Registry where
  events : List Event
  nextId : Int

namespace Registry

def empty : Registry := ⟨[], 0⟩

def find (r : Registry) : EventRef → Option Event
  | .id n => r.events.find? fun e => e.id = n
  | .ctx p => r.events.find? fun e => e.ctx = p

/-- The event named by `ref`, changed by `f`. -/
def modify (r : Registry) (ref : EventRef) (f : Event → Event) : Registry :=
  match r.find ref with
  | some e => { r with events := r.events.map fun x => if x.id = e.id then f x else x }
  | none => r

def remove (r : Registry) (ref : EventRef) : Registry :=
  match r.find ref with
  | some e => { r with events := r.events.filter fun x => x.id ≠ e.id }
  | none => r

/-- The meaning of each call on the map. -/
def apply (r : Registry) : HlecCall → Registry
  | .newEvent p _ q => ⟨r.events ++ [⟨p, q, r.nextId, 0, true⟩], r.nextId + 1⟩
  | .removeEvent ref => r.remove ref
  | .registerEventCallback ref callback => r.modify ref fun e => { e with callback }
  | .obtainEventId _ => r
  | .raiseEvent .. => r
  | .setEventQuiet ref => r.modify ref fun e => { e with quiet := true }
  | .unsetEventQuiet ref => r.modify ref fun e => { e with quiet := false }

/-- What each call returns. -/
def result (r : Registry) : HlecCall → EventResult
  | .newEvent p _ _ => .context p
  | .registerEventCallback ref _ => .bool (r.find ref).isSome
  | .obtainEventId p => match r.find (.ctx p) with
    | some e => .id e.id
    | none => .id (-1)
  | .raiseEvent ref argc args => match r.find ref with
    | some e => if e.quiet ∨ e.callback = 0 then .id (-1) else .calls e.callback argc args
    | none => .id (-1)
  | _ => .void

/-- An id is any number, a context null or that of a live event. -/
def Names (r : Registry) : EventRef → Prop
  | .id _ => True
  | .ctx p => p = 0 ∨ ∃ e ∈ r.events, e.ctx = p

end Registry

/-- Calls as the interface allows them: `malloc` succeeds, ids do not run out, contexts
are live. -/
def HlecCall.Valid (s : Hlec) (r : Registry) : HlecCall → Prop
  | newEvent p _ q => s.heap.Fresh p ∧ s.heap.Fresh q ∧ p ≠ q ∧ r.nextId + 1 < (2 ^ 63 : Nat)
  | removeEvent ref => r.Names ref
  | registerEventCallback ref _ => r.Names ref
  | obtainEventId p => r.Names (.ctx p)
  | raiseEvent ref _ _ => r.Names ref
  | setEventQuiet ref => r.Names ref
  | unsetEventQuiet ref => r.Names ref

/-- It does not remove the last created of several live events. -/
def HlecCall.KeepsTail (r : Registry) : HlecCall → Prop
  | removeEvent ref => ∀ e, r.find ref = some e → r.events.getLast? = some e → r.events = [e]
  | _ => True

/-! ## The list in memory -/

section

variable {h h' : EventHeap} {p first : Nat} {es l₁ l₂ : List Event} {e : Event} {n : EventNode}

theorem readEvent_of_block (hb : h.block p = some (.event n)) : readEvent h p = .ok n := by
  simp [readEvent, Heap.load_of_block hb]

theorem writeEvent_of_block (f : EventNode → EventNode) (hb : h.block p = some (.event n)) :
    writeEvent h p f = .ok (h.set p (some (.event (f n)))) := by
  simp [writeEvent, readEvent_of_block hb, Heap.store_of_block hb]

/-- The link of the node at `p`. -/
def nextEvent (h : EventHeap) (p : Nat) : Nat :=
  match h.block p with
  | some (.event n) => n.evNext
  | _ => 0

theorem nextEvent_of_block (hb : h.block p = some (.event n)) : nextEvent h p = n.evNext := by
  simp [nextEvent, hb]

theorem nextEvent_congr (hb : h'.block p = h.block p) : nextEvent h' p = nextEvent h p := by
  simp [nextEvent, hb]

/-- The nodes linked from `first` are those of `es`, in this order. -/
structure Threaded (h : EventHeap) (first : Nat) (es : List Event) : Prop where
  chain : Chain 0 (nextEvent h) first (es.map Event.ctx)
  node : ∀ e ∈ es, h.block e.ctx = some (.event (e.node (nextEvent h e.ctx)))

namespace Threaded

theorem nodup (ht : Threaded h first es) : (es.map Event.ctx).Nodup := ht.chain.nodup

theorem first_eq_zero (ht : Threaded h first es) : first = 0 ↔ es = [] := by
  rw [ht.chain.nil_iff, List.map_eq_nil_iff]

/-- The first node, and the list behind it. -/
theorem cons (ht : Threaded h first (e :: es)) :
    first = e.ctx ∧ e.ctx ≠ 0 ∧ ∃ next, h.block e.ctx = some (.event (e.node next)) ∧
      Threaded h next es := by
  obtain ⟨hf, h0, hc⟩ := ht.chain
  exact ⟨hf, h0, _, ht.node e List.mem_cons_self, hc,
    fun a ha => ht.node a (List.mem_cons_of_mem _ ha)⟩

theorem congr (ht : Threaded h first es) (h' : EventHeap) (hsame : ∀ e ∈ es, h'.block e.ctx = h.block e.ctx) :
    Threaded h' first es := by
  have hnext : ∀ e ∈ es, nextEvent h' e.ctx = nextEvent h e.ctx :=
    fun e he => nextEvent_congr (hsame e he)
  refine ⟨ht.chain.congr ?_, fun e he => ?_⟩
  · intro a ha
    obtain ⟨e, he, rfl⟩ := List.mem_map.mp ha
    exact hnext e he
  · rw [hsame e he, hnext e he]
    exact ht.node e he

/-- The other nodes are elsewhere. -/
theorem apart (ht : Threaded h first (l₁ ++ e :: l₂)) : ∀ a ∈ l₁ ++ l₂, a.ctx ≠ e.ctx := by
  have hnd := ht.nodup
  rw [List.map_append, List.map_cons, List.nodup_middle, List.nodup_cons] at hnd
  intro a ha hctx
  apply hnd.1
  rw [← List.map_append, ← hctx]
  exact List.mem_map_of_mem ha

/-- Writing data fields of one node. -/
theorem write (ht : Threaded h first (l₁ ++ e :: l₂)) {f : EventNode → EventNode} (e' : Event)
    (hctx : e'.ctx = e.ctx) (hf : ∀ next, f (e.node next) = e'.node next) :
    ∃ n, writeEvent h e.ctx f = .ok (h.set e.ctx (some (.event n))) ∧
      Threaded (h.set e.ctx (some (.event n))) first (l₁ ++ e' :: l₂) := by
  have hb := ht.node e (by simp)
  refine ⟨_, writeEvent_of_block f hb, ?_⟩
  rw [hf]
  have hnext : ∀ x, nextEvent (h.set e.ctx (some (.event (e'.node (nextEvent h e.ctx))))) x =
      nextEvent h x := by
    intro x
    by_cases hx : x = e.ctx
    · rw [hx, nextEvent_of_block (Heap.set_block_self ..)]
      rfl
    · exact nextEvent_congr (Heap.set_block_ne _ _ hx)
  refine ⟨?_, fun a ha => ?_⟩
  · have hmap : (l₁ ++ e' :: l₂).map Event.ctx = (l₁ ++ e :: l₂).map Event.ctx := by
      simp [hctx]
    rw [hmap]
    exact ht.chain.congr fun a _ => hnext a
  · rw [hnext]
    by_cases hae : a = e'
    · rw [hae, hctx, Heap.set_block_self]
    · have ha' : a ∈ l₁ ++ l₂ := by
        simp only [List.mem_append, List.mem_cons] at ha ⊢
        tauto
      rw [Heap.set_block_ne _ _ (ht.apart a ha')]
      apply ht.node
      simp only [List.mem_append, List.mem_cons] at ha' ⊢
      tauto

/-- Linking `t` past its successor `e`. -/
theorem unlink {t : Event} (ht : Threaded h first (l₁ ++ t :: e :: l₂)) :
    ∃ n, writeEvent h t.ctx (fun n => { n with evNext := nextEvent h e.ctx }) =
        .ok (h.set t.ctx (some (.event n))) ∧
      Threaded (h.set t.ctx (some (.event n))) first (l₁ ++ t :: l₂) := by
  have hb := ht.node t (by simp)
  have hne := ht.apart
  have hself : nextEvent (h.set t.ctx (some (.event (t.node (nextEvent h e.ctx))))) t.ctx =
      nextEvent h e.ctx := nextEvent_of_block (Heap.set_block_self ..)
  refine ⟨t.node (nextEvent h e.ctx), writeEvent_of_block _ hb, ?_, fun a ha => ?_⟩
  · have hc := ht.chain
    simp only [List.map_append, List.map_cons] at hc ⊢
    apply hc.unlink hself
    intro a _ hat
    exact nextEvent_congr (Heap.set_block_ne _ _ hat)
  · by_cases hat : a = t
    · rw [hat, Heap.set_block_self, hself]
    · have ha' : a.ctx ≠ t.ctx := by
        apply hne
        simp only [List.mem_append, List.mem_cons] at ha ⊢
        tauto
      rw [Heap.set_block_ne _ _ ha', nextEvent_congr (Heap.set_block_ne _ _ ha')]
      apply ht.node
      simp only [List.mem_append, List.mem_cons] at ha ⊢
      tauto

/-- Linking a node that stands alone behind the last one. -/
theorem snoc {t : Event} (ht : Threaded h first (l₁ ++ [t])) (h0 : e.ctx ≠ 0)
    (hb : h.block e.ctx = some (.event (e.node 0))) (hnew : ∀ a ∈ l₁ ++ [t], a.ctx ≠ e.ctx) :
    ∃ n, writeEvent h t.ctx (fun n => { n with evNext := e.ctx }) =
        .ok (h.set t.ctx (some (.event n))) ∧
      Threaded (h.set t.ctx (some (.event n))) first (l₁ ++ [t, e]) := by
  have hbt := ht.node t (by simp)
  have hne : ∀ a ∈ l₁, a.ctx ≠ t.ctx := fun a ha => ht.apart a (by simpa using ha)
  have het : e.ctx ≠ t.ctx := (hnew t (by simp)).symm
  have hself : nextEvent (h.set t.ctx (some (.event (t.node e.ctx)))) t.ctx = e.ctx :=
    nextEvent_of_block (Heap.set_block_self ..)
  have hother : ∀ x, x ≠ t.ctx →
      nextEvent (h.set t.ctx (some (.event (t.node e.ctx)))) x = nextEvent h x :=
    fun x hx => nextEvent_congr (Heap.set_block_ne _ _ hx)
  have hlast : nextEvent h e.ctx = 0 := nextEvent_of_block hb
  refine ⟨t.node e.ctx, writeEvent_of_block _ hbt, ?_, fun a ha => ?_⟩
  · have hc := ht.chain
    simp only [List.map_append, List.map_cons, List.map_nil] at hc ⊢
    apply hc.snoc hself h0
    · rw [hother _ het, hlast]
    · intro a ha
      obtain ⟨x, hx, rfl⟩ := List.mem_map.mp ha
      exact hother _ (hne x hx)
  · simp only [List.mem_append, List.mem_cons, List.not_mem_nil, or_false] at ha
    rcases ha with ha | rfl | rfl
    · rw [Heap.set_block_ne _ _ (hne a ha), hother _ (hne a ha)]
      exact ht.node a (by simp [ha])
    · rw [Heap.set_block_self, hself]
    · rw [Heap.set_block_ne _ _ het, hother _ het, hlast]
      exact hb

end Threaded

/-! ## The two lookups -/

/-- The pointer that stands for an event, or null. -/
def ctxOf : Option Event → Nat
  | some e => e.ctx
  | none => 0

theorem getEventLoop_spec (ht : Threaded h first es) (eventId : Int) {fuel : Nat}
    (hfuel : es.length ≤ fuel) :
    Hlec.getEventLoop h eventId fuel first =
      .ok (ctxOf (es.find? fun e => e.id = eventId)) := by
  induction es generalizing first fuel with
  | nil =>
    rw [ht.first_eq_zero.mpr rfl]
    cases fuel <;> simp [Hlec.getEventLoop, ctxOf]
  | cons e es ih =>
    obtain ⟨rfl, h0, next, hb, hrest⟩ := ht.cons
    cases fuel with
    | zero => simp at hfuel
    | succ fuel =>
      have hlen : es.length ≤ fuel := by simpa using hfuel
      by_cases hid : e.id = eventId
      · simp [Hlec.getEventLoop, h0, readEvent_of_block hb, Event.node, hid, ctxOf]
      · simpa [Hlec.getEventLoop, h0, readEvent_of_block hb, Event.node, hid] using ih hrest hlen

/-- What the other lookup finds: the node before the one with the id. -/
def prevCtx (eventId : Int) : List Event → Nat
  | [] => 0
  | [_] => 0
  | t :: e :: es => if e.id = eventId then t.ctx else prevCtx eventId (e :: es)

theorem getPrevEventLoop_spec (ht : Threaded h first es) (eventId : Int) {fuel : Nat}
    (hfuel : es.length ≤ fuel) :
    Hlec.getPrevEventLoop h eventId fuel first = .ok (prevCtx eventId es) := by
  induction es generalizing first fuel with
  | nil =>
    rw [ht.first_eq_zero.mpr rfl]
    cases fuel <;> simp [Hlec.getPrevEventLoop, prevCtx]
  | cons t es ih =>
    obtain ⟨rfl, h0, next, hb, hrest⟩ := ht.cons
    cases fuel with
    | zero => simp at hfuel
    | succ fuel =>
      have hlen : es.length ≤ fuel := by simpa using hfuel
      have hstep := ih hrest hlen
      cases es with
      | nil =>
        rw [hrest.first_eq_zero.mpr rfl] at hb
        simp [Hlec.getPrevEventLoop, h0, readEvent_of_block hb, Event.node, prevCtx]
      | cons e es =>
        obtain ⟨rfl, he0, next', hb', -⟩ := hrest.cons
        by_cases hid : e.id = eventId
        · simp [Hlec.getPrevEventLoop, h0, readEvent_of_block hb, Event.node, he0,
            readEvent_of_block hb', hid, prevCtx]
        · simpa [Hlec.getPrevEventLoop, h0, readEvent_of_block hb, Event.node, he0,
            readEvent_of_block hb', hid, prevCtx] using hstep

theorem prevCtx_append {t : Event} (l₂ : List Event) {eventId : Int} (he : e.id = eventId)
    (hne : ∀ a ∈ l₁ ++ [t], a.id ≠ eventId) :
    prevCtx eventId (l₁ ++ t :: e :: l₂) = t.ctx := by
  induction l₁ with
  | nil => simp [prevCtx, he]
  | cons a l₁ ih =>
    have ih' := ih fun x hx => hne x (List.mem_cons_of_mem _ hx)
    cases l₁ with
    | nil => simpa [prevCtx, hne t (by simp)] using ih'
    | cons b l₁ => simpa [prevCtx, hne b (by simp)] using ih'

theorem prevCtx_eq_zero {eventId : Int} (hne : ∀ a ∈ es, a.id ≠ eventId) :
    prevCtx eventId (e :: es) = 0 := by
  induction es generalizing e with
  | nil => rfl
  | cons a es ih =>
    have ih' := ih (e := a) fun x hx => hne x (List.mem_cons_of_mem _ hx)
    simpa [prevCtx, hne a (by simp)] using ih'

end

end HelixKernel
