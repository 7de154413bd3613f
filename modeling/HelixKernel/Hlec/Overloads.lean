import HelixKernel.Hlec.Registry

/-!
# Events by id and by context

Five functions of the interface come in two forms: one takes the event's context, the other
its id and looks it up.  On a list of events with different ids, in whatever order, the two
are the same call.

    Listed s es       the events of the registry, from `first_event` to the last
    overloads_agree   called by context or by id, each of the five leaves the same registry
                      and returns the same, and leaves every other event as it was -/

namespace HelixKernel

/-- The events of the registry, with different ids.  (`last_event` is read by `new_event` only.) -/
structure Listed (s : Hlec) (es : List Event) : Prop where
  threaded : Threaded s.heap s.firstEvent es
  ids : es.Pairwise fun a b => a.id ≠ b.id
  lt : ∀ e ∈ es, e.ctx < 2 ^ 64

/-- The functions that come in two forms. -/
inductive EventOp where
  | removeEvent
  | registerEventCallback (callback : Nat)
  | raiseEvent (argc : Int) (args : Nat)
  | setEventQuiet
  | unsetEventQuiet
deriving DecidableEq, Repr

namespace EventOp

def on (ref : EventRef) : EventOp → HlecCall
  | removeEvent => .removeEvent ref
  | registerEventCallback callback => .registerEventCallback ref callback
  | raiseEvent argc args => .raiseEvent ref argc args
  | setEventQuiet => .setEventQuiet ref
  | unsetEventQuiet => .unsetEventQuiet ref

/-- What stands in the place of the event after the call. -/
def place (e : Event) : EventOp → List Event
  | removeEvent => []
  | registerEventCallback callback => [{ e with callback }]
  | raiseEvent .. => [e]
  | setEventQuiet => [{ e with quiet := true }]
  | unsetEventQuiet => [{ e with quiet := false }]

def result (e : Event) : EventOp → EventResult
  | removeEvent => .void
  | registerEventCallback _ => .bool true
  | raiseEvent argc args =>
    if e.quiet ∨ e.callback = 0 then .id (-1) else .calls e.callback argc args
  | setEventQuiet => .void
  | unsetEventQuiet => .void

end EventOp

/-- `free` takes the name: there is none, or it is a copy on the heap. -/
def Event.NameOk (h : EventHeap) (e : Event) : Prop := e.name = 0 ∨ h.block e.name = some .name

/-! ## Freeing an event -/

section

variable {s : Hlec} {es l₁ l₂ : List Event} {e : Event}

theorem Event.NameOk.ne_ctx {h : EventHeap} {a : Event} {next : Nat} (hname : e.NameOk h)
    (h0 : a.ctx ≠ 0) (hb : h.block a.ctx = some (.event (a.node next))) : e.name ≠ a.ctx := by
  rcases hname with hz | hn
  · rw [hz]
    exact h0.symm
  · intro heq
    rw [heq, hb] at hn
    cases hn

/-- The unlinked node is written once more, its name is freed, and then the node. -/
theorem freeEvent_spec {h : EventHeap} {next : Nat} (h0 : e.ctx ≠ 0)
    (hb : h.block e.ctx = some (.event (e.node next))) (hname : e.NameOk h) : ∃ h2 h3 h4,
      writeEvent h e.ctx (fun n => { n with evNext := 0 }) = .ok h2 ∧
      readEvent h2 e.ctx = .ok (e.node 0) ∧ h2.free e.name = .ok h3 ∧ h3.free e.ctx = .ok h4 ∧
      ∀ x, x ≠ e.ctx → x ≠ e.name → h4.block x = h.block x := by
  have hne := hname.ne_ctx h0 hb
  let h2 := h.set e.ctx (some (.event (e.node 0)))
  have hb2 : h2.block e.ctx = some (.event (e.node 0)) := Heap.set_block_self ..
  obtain ⟨h3, hf3, hframe3⟩ : ∃ h3, h2.free e.name = .ok h3 ∧
      ∀ x, x ≠ e.name → h3.block x = h2.block x := by
    rcases hname with hz | hn
    · exact ⟨h2, if_pos hz, fun _ _ => rfl⟩
    · apply Heap.free_spec
      rw [Heap.set_block_ne _ _ hne, hn]
      rfl
  have hb3 : h3.block e.ctx = some (.event (e.node 0)) := by
    rw [hframe3 _ hne.symm]
    exact hb2
  obtain ⟨h4, hf4, hframe4⟩ := Heap.free_spec (p := e.ctx) (by rw [hb3]; rfl)
  refine ⟨h2, h3, h4, writeEvent_of_block _ hb, readEvent_of_block hb2, hf3, hf4, fun x hx hx' => ?_⟩
  rw [hframe4 x hx, hframe3 x hx', Heap.set_block_ne _ _ hx]

/-! ## The list -/

namespace Listed

theorem length_le (h : Listed s es) : es.length ≤ walkFuel := by
  have hlen := h.threaded.chain.length_le (n := 2 ^ 64) fun a ha => by
    obtain ⟨e, he, rfl⟩ := List.mem_map.mp ha
    exact h.lt e he
  rwa [List.length_map] at hlen

theorem ctx_ne_zero (h : Listed s es) (he : e ∈ es) : e.ctx ≠ 0 :=
  h.threaded.chain.mem_ne_null _ (List.mem_map_of_mem he)

/-- The other events have other ids. -/
theorem id_ne (h : Listed s (l₁ ++ e :: l₂)) : ∀ a ∈ l₁ ++ l₂, a.id ≠ e.id := by
  have hs := h.ids
  rw [List.pairwise_append, List.pairwise_cons] at hs
  obtain ⟨-, ⟨hright, -⟩, hleft⟩ := hs
  intro a ha
  rcases List.mem_append.mp ha with ha | ha
  · exact hleft a ha e List.mem_cons_self
  · exact (hright a ha).symm

theorem find_id (h : Listed s (l₁ ++ e :: l₂)) :
    ((l₁ ++ e :: l₂).find? fun a => a.id = e.id) = some e := by
  have hl : l₁.find? (fun a => a.id = e.id) = none := by
    apply List.find?_eq_none.mpr
    intro a ha
    simpa using h.id_ne a (List.mem_append_left _ ha)
  simp [List.find?_append, hl]

/-- **The lookup by id** leads to the context. -/
theorem getEventForId (h : Listed s (l₁ ++ e :: l₂)) : s.getEventForId e.id = .ok e.ctx := by
  have hloop := getEventLoop_spec h.threaded e.id h.length_le
  rw [h.find_id] at hloop
  exact hloop

/-- The node is unlinked: at the head, or behind the node before it. -/
theorem unlinkEvent_spec (h : Listed s (l₁ ++ e :: l₂)) :
    ∃ s1, s.unlinkEvent (prevCtx e.id (l₁ ++ e :: l₂)) (nextEvent s.heap e.ctx) = .ok s1 ∧
      s1.lastEvent = s.lastEvent ∧ s1.lastId = s.lastId ∧
      Threaded s1.heap s1.firstEvent (l₁ ++ l₂) ∧
      ∀ x, (∀ a ∈ l₁, a.ctx ≠ x) → s1.heap.block x = s.heap.block x := by
  have hne := h.id_ne
  have hthr := h.threaded
  rcases List.eq_nil_or_concat l₁ with rfl | ⟨l, t, rfl⟩
  · have hzero : prevCtx e.id ([] ++ e :: l₂) = 0 :=
      prevCtx_eq_zero fun a ha => hne a (by simpa using ha)
    obtain ⟨-, -, next, hbn, hrest⟩ := Threaded.cons hthr
    refine ⟨{ s with firstEvent := nextEvent s.heap e.ctx }, ?_, rfl, rfl, ?_, fun _ _ => rfl⟩
    · rw [hzero, Hlec.unlinkEvent, if_neg (not_not.mpr rfl)]
    · rw [nextEvent_of_block hbn]
      exact hrest
  · simp only [List.concat_eq_append, List.append_assoc, List.singleton_append] at h hthr hne ⊢
    have hpt : prevCtx e.id (l ++ t :: e :: l₂) = t.ctx := by
      apply prevCtx_append l₂ rfl
      intro a ha
      apply hne
      simp only [List.mem_append, List.mem_cons, List.not_mem_nil, or_false] at ha ⊢
      tauto
    obtain ⟨n, hw, hthr'⟩ := hthr.unlink
    refine ⟨{ s with heap := s.heap.set t.ctx (some (.event n)) }, ?_, rfl, rfl, ?_, ?_⟩
    · rw [hpt, Hlec.unlinkEvent, if_pos (h.ctx_ne_zero (by simp)), hw]
      rfl
    · exact hthr'
    · intro x hx
      exact Heap.set_block_ne _ _ (hx t (by simp)).symm

/-- **`remove_event`** takes the event out of the list; only nodes of the list and the name
are written or freed. -/
theorem removeEventId_spec (h : Listed s (l₁ ++ e :: l₂)) (hname : e.NameOk s.heap) :
    ∃ s', s.removeEventId e.id = .ok (s', .void) ∧ s'.lastEvent = s.lastEvent ∧
      s'.lastId = s.lastId ∧ Threaded s'.heap s'.firstEvent (l₁ ++ l₂) ∧
      ∀ x, (∀ a ∈ l₁ ++ e :: l₂, a.ctx ≠ x) → x ≠ e.name → s'.heap.block x = s.heap.block x := by
  have hmem : e ∈ l₁ ++ e :: l₂ := by simp
  have hsub : ∀ a ∈ l₁ ++ l₂, a ∈ l₁ ++ e :: l₂ := by
    intro a ha
    simp only [List.mem_append, List.mem_cons] at ha ⊢
    tauto
  have hb := h.threaded.node e hmem
  have happ := h.threaded.apart
  have hprev : s.getPrevEventForId e.id = .ok (prevCtx e.id (l₁ ++ e :: l₂)) :=
    getPrevEventLoop_spec h.threaded e.id h.length_le
  have hnames : ∀ a ∈ l₁ ++ e :: l₂, e.name ≠ a.ctx :=
    fun a ha => hname.ne_ctx (h.ctx_ne_zero ha) (h.threaded.node a ha)
  obtain ⟨s1, hs1, hlast1, hid1, hthr1, hframe1⟩ := h.unlinkEvent_spec
  have hb1 : s1.heap.block e.ctx = some (.event (e.node (nextEvent s.heap e.ctx))) := by
    rw [hframe1 _ fun a ha => happ a (List.mem_append_left _ ha)]
    exact hb
  have hname1 : e.NameOk s1.heap := by
    refine hname.imp_right fun hn => ?_
    rw [hframe1 _ fun a ha => (hnames a (hsub a (List.mem_append_left _ ha))).symm]
    exact hn
  obtain ⟨h2, h3, h4, hw2, hr2, hf3, hf4, hframe⟩ := freeEvent_spec (h.ctx_ne_zero hmem) hb1 hname1
  refine ⟨{ s1 with heap := h4 }, ?_, hlast1, hid1, ?_, fun x hx hxn => ?_⟩
  · simp only [Hlec.removeEventId]
    rw [hprev, h.getEventForId]
    simp only [ok_bind, if_neg (h.ctx_ne_zero hmem)]
    rw [readEvent_of_block hb]
    simp only [ok_bind, Event.node] at hs1 ⊢
    rw [hs1]
    simp only [ok_bind]
    rw [hw2]
    simp only [ok_bind]
    rw [hr2]
    simp only [ok_bind, Event.node]
    rw [hf3]
    simp only [ok_bind]
    rw [hf4]
    rfl
  · apply hthr1.congr h4
    intro a ha
    exact hframe _ (happ a ha) (hnames a (hsub a ha)).symm
  · show h4.block x = _
    rw [hframe x (hx e hmem).symm hxn]
    exact hframe1 x fun a ha => hx a (hsub a (List.mem_append_left _ ha))

end Listed

/-! ## The two forms -/

/-- By id or by context, the same node is found. -/
theorem Listed.resolve_eq (h : Listed s (l₁ ++ e :: l₂)) :
    s.resolve (.id e.id) = .ok e.ctx ∧ s.resolve (.ctx e.ctx) = .ok e.ctx :=
  ⟨h.getEventForId, rfl⟩

theorem Listed.run_eq (h : Listed s (l₁ ++ e :: l₂)) (op : EventOp) :
    (op.on (.ctx e.ctx)).run s = (op.on (.id e.id)).run s := by
  obtain ⟨hid, hctx⟩ := h.resolve_eq
  have hmem : e ∈ l₁ ++ e :: l₂ := by simp
  cases op with
  | removeEvent =>
    show s.removeEvent (.ctx e.ctx) = s.removeEventId e.id
    unfold Hlec.removeEvent
    dsimp only
    rw [if_neg (h.ctx_ne_zero hmem), readEvent_of_block (h.threaded.node e hmem)]
    rfl
  | registerEventCallback callback =>
    show s.registerEventCallback _ _ = s.registerEventCallback _ _
    unfold Hlec.registerEventCallback
    rw [hid, hctx]
  | raiseEvent argc args =>
    show s.raiseEvent _ _ _ = s.raiseEvent _ _ _
    unfold Hlec.raiseEvent
    rw [hid, hctx]
  | setEventQuiet =>
    show s.assignQuiet _ _ = s.assignQuiet _ _
    unfold Hlec.assignQuiet
    rw [hid, hctx]
  | unsetEventQuiet =>
    show s.assignQuiet _ _ = s.assignQuiet _ _
    unfold Hlec.assignQuiet
    rw [hid, hctx]

theorem Listed.assignQuiet_spec (h : Listed s (l₁ ++ e :: l₂)) (quiet : Bool) :
    ∃ s', s.assignQuiet (.ctx e.ctx) quiet = .ok (s', .void) ∧
      Threaded s'.heap s'.firstEvent (l₁ ++ { e with quiet } :: l₂) := by
  obtain ⟨n, hw, hthr⟩ := h.threaded.write (f := fun n => { n with quiet })
    { e with quiet } rfl fun _ => rfl
  refine ⟨{ s with heap := s.heap.set e.ctx (some (.event n)) }, ?_, hthr⟩
  unfold Hlec.assignQuiet
  rw [h.resolve_eq.2, ok_bind, if_neg (h.ctx_ne_zero (by simp)), hw]
  rfl

/-- Each call does to its event what it is for, and leaves the others in their places. -/
theorem Listed.run_spec (h : Listed s (l₁ ++ e :: l₂)) (op : EventOp)
    (hname : op = .removeEvent → e.NameOk s.heap) :
    ∃ s', (op.on (.ctx e.ctx)).run s = .ok (s', op.result e) ∧
      Threaded s'.heap s'.firstEvent (l₁ ++ op.place e ++ l₂) := by
  have hmem : e ∈ l₁ ++ e :: l₂ := by simp
  have h0 := h.ctx_ne_zero hmem
  cases op with
  | removeEvent =>
    obtain ⟨s', hrun, -, -, hthr, -⟩ := h.removeEventId_spec (hname rfl)
    refine ⟨s', (h.run_eq .removeEvent).trans hrun, ?_⟩
    rwa [EventOp.place, List.append_nil]
  | registerEventCallback callback =>
    obtain ⟨n, hw, hthr⟩ := h.threaded.write (f := fun n => { n with eventCallback := callback })
      { e with callback } rfl fun _ => rfl
    refine ⟨{ s with heap := s.heap.set e.ctx (some (.event n)) }, ?_, ?_⟩
    · show s.registerEventCallback (.ctx e.ctx) callback = _
      unfold Hlec.registerEventCallback
      rw [h.resolve_eq.2, ok_bind, if_neg h0, hw]
      rfl
    · rwa [EventOp.place, List.append_assoc]
  | raiseEvent argc args =>
    refine ⟨s, ?_, by rw [EventOp.place, List.append_assoc]; exact h.threaded⟩
    show s.raiseEvent (.ctx e.ctx) argc args = _
    unfold Hlec.raiseEvent EventOp.result
    rw [h.resolve_eq.2, ok_bind, if_neg h0, readEvent_of_block (h.threaded.node e hmem), ok_bind]
    by_cases hq : e.quiet = true
    · simp [Event.node, hq]
    · by_cases hc : e.callback = 0 <;> simp [Event.node, hq, hc]
  | setEventQuiet =>
    obtain ⟨s', hrun, hthr⟩ := h.assignQuiet_spec true
    refine ⟨s', hrun, ?_⟩
    rwa [EventOp.place, List.append_assoc]
  | unsetEventQuiet =>
    obtain ⟨s', hrun, hthr⟩ := h.assignQuiet_spec false
    refine ⟨s', hrun, ?_⟩
    rwa [EventOp.place, List.append_assoc]

/-- **The two forms agree**: called by context or by the id that `obtain_event_id` gives, each
of the five functions leaves the same registry and returns the same; it returns (`remove_event`
if `free` takes the name), having changed no other event and no one's place. -/
theorem overloads_agree (h : Listed s (l₁ ++ e :: l₂)) :
    s.obtainEventId e.ctx = .ok (s, .id e.id) ∧
    ∀ op : EventOp, (op.on (.ctx e.ctx)).run s = (op.on (.id e.id)).run s ∧
      ((op = .removeEvent → e.NameOk s.heap) →
        ∃ s', (op.on (.ctx e.ctx)).run s = .ok (s', op.result e) ∧
          Threaded s'.heap s'.firstEvent (l₁ ++ op.place e ++ l₂)) := by
  have hmem : e ∈ l₁ ++ e :: l₂ := by simp
  refine ⟨?_, fun op => ⟨h.run_eq op, h.run_spec op⟩⟩
  unfold Hlec.obtainEventId
  rw [if_neg (h.ctx_ne_zero hmem), readEvent_of_block (h.threaded.node e hmem)]
  rfl

end

/-- Two events, whose ids are in no order. -/
def twoEvents : Hlec where
  heap := (Heap.empty.set 0x1000 (some (.event ⟨7, 0, 5, false, 0x2000⟩))).set 0x2000
    (some (.event ⟨3, 0, 0, true, 0⟩))
  firstEvent := 0x1000
  lastEvent := 0x2000
  lastId := 8

theorem twoEvents_listed :
    Listed twoEvents ([⟨0x1000, 0, 7, 5, false⟩] ++ ⟨0x2000, 0, 3, 0, true⟩ :: []) where
  threaded := by
    refine ⟨⟨rfl, by decide, rfl, by decide, rfl⟩, fun e he => ?_⟩
    simp only [List.cons_append, List.nil_append, List.mem_cons, List.not_mem_nil, or_false] at he
    rcases he with rfl | rfl <;> rfl
  ids := by decide
  lt := by decide

/-- The second of them is removed: the first one stays. -/
theorem overloads_agree_second :
    twoEvents.removeEvent (.ctx 0x2000) = twoEvents.removeEvent (.id 3) ∧
      ∃ s', twoEvents.removeEvent (.ctx 0x2000) = .ok (s', .void) ∧
        Threaded s'.heap s'.firstEvent [⟨0x1000, 0, 7, 5, false⟩] := by
  obtain ⟨heq, hspec⟩ := (overloads_agree twoEvents_listed).2 .removeEvent
  exact ⟨heq, hspec fun _ => .inl rfl⟩

end HelixKernel
