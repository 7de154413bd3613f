import HelixKernel.Hlec.Overloads

/-!
# The event registry refines the map

    hlec_refines     every run in which no removal takes the last of several events refines
                     the map, without a fault; the next call keeps it so exactly if it is
                     no such removal
    hlec_loses_tail  after such a removal `new_event` writes to a freed node -/

namespace HelixKernel

/-- The list holds the events of the map, and their names are on the heap. -/
structure Registered (s : Hlec) (r : Registry) : Prop where
  threaded : Threaded s.heap s.firstEvent r.events
  lastId : s.lastId = r.nextId
  sorted : r.events.Pairwise fun a b => a.id < b.id
  below : ∀ e ∈ r.events, e.id < r.nextId
  lt : ∀ e ∈ r.events, e.ctx < 2 ^ 64
  name : ∀ e ∈ r.events, s.heap.block e.name = some .name
  names : (r.events.map Event.name).Nodup

/-- **Refinement**: moreover `last_event` is the final node. -/
structure Refines (s : Hlec) (r : Registry) : Prop extends Registered s r where
  last : ∀ e, r.events.getLast? = some e → s.lastEvent = e.ctx

section

variable {s : Hlec} {r : Registry} {ref : EventRef} {e : Event} {l₁ l₂ : List Event}

theorem Registry.mem_of_find (hf : r.find ref = some e) : e ∈ r.events := by
  cases ref with
  | id n => exact List.mem_of_find?_eq_some hf
  | ctx p => exact List.mem_of_find?_eq_some hf

namespace Registered

theorem listed (h : Registered s r) : Listed s r.events where
  threaded := h.threaded
  ids := h.sorted.imp fun hlt => by omega
  lt := h.lt

theorem length_le (h : Registered s r) : r.events.length ≤ walkFuel := h.listed.length_le

theorem listed_at (h : Registered s r) (he : r.events = l₁ ++ e :: l₂) :
    Listed s (l₁ ++ e :: l₂) := by
  rw [← he]
  exact h.listed

/-- The other events have other ids. -/
theorem id_ne (h : Registered s r) (he : r.events = l₁ ++ e :: l₂) :
    ∀ a ∈ l₁ ++ l₂, a.id ≠ e.id := (h.listed_at he).id_ne

/-- **The lookups** find the node of the event that is meant. -/
theorem resolve_spec (h : Registered s r) (hn : r.Names ref) :
    s.resolve ref = .ok (ctxOf (r.find ref)) := by
  cases ref with
  | id n => exact getEventLoop_spec h.threaded n h.length_le
  | ctx p =>
    have hctx : p = ctxOf (r.find (.ctx p)) := by
      cases hf : r.find (.ctx p) with
      | some e =>
        have hp := List.find?_some (p := fun e : Event => decide (e.ctx = p)) hf
        simpa [ctxOf, eq_comm] using hp
      | none =>
        rcases hn with h0 | ⟨e, he, hp⟩
        · exact h0
        · have := List.find?_eq_none.mp hf e he
          simp [hp] at this
    simp only [Hlec.resolve]
    rw [← hctx]

theorem ctx_ne_zero (h : Registered s r) (he : e ∈ r.events) : e.ctx ≠ 0 :=
  h.threaded.chain.mem_ne_null _ (List.mem_map_of_mem he)

/-- Nodes and names are different blocks. -/
theorem name_ne_ctx (h : Registered s r) {a : Event} (ha : a ∈ r.events) (he : e ∈ r.events) :
    a.name ≠ e.ctx := by
  intro heq
  have hb := h.name a ha
  rw [heq, h.threaded.node e he] at hb
  cases hb

theorem map_modify (h : Registered s r) (he : r.events = l₁ ++ e :: l₂) (f : Event → Event) :
    (r.events.map fun x => if x.id = e.id then f x else x) = l₁ ++ f e :: l₂ := by
  have hne := h.id_ne he
  have hkeep : ∀ l : List Event, (∀ a ∈ l, a.id ≠ e.id) →
      (l.map fun x => if x.id = e.id then f x else x) = l := by
    intro l hl
    exact (List.map_congr_left fun a ha => if_neg (hl a ha)).trans (List.map_id l)
  rw [he, List.map_append, List.map_cons, if_pos rfl,
    hkeep l₁ fun a ha => hne a (List.mem_append_left _ ha),
    hkeep l₂ fun a ha => hne a (List.mem_append_right _ ha)]

theorem filter_remove (h : Registered s r) (he : r.events = l₁ ++ e :: l₂) :
    (r.events.filter fun x => x.id ≠ e.id) = l₁ ++ l₂ := by
  have hne := h.id_ne he
  have hkeep : ∀ l : List Event, (∀ a ∈ l, a.id ≠ e.id) →
      (l.filter fun x => x.id ≠ e.id) = l := by
    intro l hl
    apply List.filter_eq_self.mpr
    intro a ha
    simpa using hl a ha
  rw [he, List.filter_append, List.filter_cons_of_neg (by simp),
    hkeep l₁ fun a ha => hne a (List.mem_append_left _ ha),
    hkeep l₂ fun a ha => hne a (List.mem_append_right _ ha)]

end Registered

/-! ## Changing an event -/

/-- An event changes in its place; its context, its id and its name stay. -/
theorem Refines.replaced (h : Refines s r) (he : r.events = l₁ ++ e :: l₂) {e' : Event}
    (hctx : e'.ctx = e.ctx) (hid : e'.id = e.id) (hname : e'.name = e.name) {heap : EventHeap}
    (hthr : Threaded heap s.firstEvent (l₁ ++ e' :: l₂))
    (hkeep : ∀ a ∈ r.events, heap.block a.name = s.heap.block a.name) :
    Refines { s with heap } ⟨l₁ ++ e' :: l₂, r.nextId⟩ := by
  have hsorted := h.sorted
  have hnd := h.names
  have hlast := h.last
  have hall : ∀ P : Event → Prop, (∀ a ∈ r.events, P a) → (P e → P e') →
      ∀ a ∈ l₁ ++ e' :: l₂, P a := by
    intro P hP hPe a ha
    rw [he] at hP
    simp only [List.mem_append, List.mem_cons] at ha hP
    rcases ha with ha | rfl | ha
    · exact hP a (.inl ha)
    · exact hPe (hP e (.inr (.inl rfl)))
    · exact hP a (.inr (.inr ha))
  rw [he] at hsorted hnd hlast
  refine { threaded := hthr, lastId := h.lastId, sorted := ?_, below := ?_, lt := ?_, name := ?_,
           names := ?_, last := ?_ }
  · have hmap : (l₁ ++ e' :: l₂).map Event.id = (l₁ ++ e :: l₂).map Event.id := by simp [hid]
    rw [← List.pairwise_map (f := Event.id) (R := (· < ·))] at hsorted ⊢
    rw [hmap]
    exact hsorted
  · exact hall _ h.below (by rw [hid]; exact id)
  · exact hall _ h.lt (by rw [hctx]; exact id)
  · apply hall
    · intro a ha
      show heap.block a.name = _
      rw [hkeep a ha]
      exact h.name a ha
    · rw [hname]
      exact id
  · have hmap : (l₁ ++ e' :: l₂).map Event.name = (l₁ ++ e :: l₂).map Event.name := by simp [hname]
    rw [hmap]
    exact hnd
  · intro a ha
    rcases List.eq_nil_or_concat l₂ with rfl | ⟨l, t, rfl⟩
    · simp only [List.getLast?_append, List.getLast?_singleton] at ha hlast
      cases ha
      rw [hctx]
      exact hlast e rfl
    · simp only [List.concat_eq_append, ← List.cons_append, ← List.append_assoc,
        List.getLast?_append, List.getLast?_singleton] at ha hlast
      cases ha
      exact hlast _ rfl

/-- **Writing to an event's fields** changes the event in the map. -/
theorem Refines.modify (h : Refines s r) (hf : r.find ref = some e) {f : EventNode → EventNode}
    {F : Event → Event} (hctx : (F e).ctx = e.ctx) (hid : (F e).id = e.id)
    (hname : (F e).name = e.name) (hnode : ∀ next, f (e.node next) = (F e).node next) :
    ∃ heap, writeEvent s.heap e.ctx f = .ok heap ∧ Refines { s with heap } (r.modify ref F) := by
  have hmem := Registry.mem_of_find hf
  obtain ⟨l₁, l₂, he⟩ := List.append_of_mem hmem
  have ht := h.threaded
  rw [he] at ht
  obtain ⟨n, hwrite, hthr⟩ := ht.write (F e) hctx hnode
  have hmod : r.modify ref F = ⟨l₁ ++ F e :: l₂, r.nextId⟩ := by
    simp only [Registry.modify, hf]
    rw [h.map_modify he]
  refine ⟨_, hwrite, ?_⟩
  rw [hmod]
  apply h.replaced he hctx hid hname hthr
  intro a ha
  exact Heap.set_block_ne _ _ (h.name_ne_ctx ha hmem)

/-- Looking an event up and writing to it, with what is returned then and what otherwise. -/
theorem Refines.assign_spec (h : Refines s r) (hn : r.Names ref) {f : EventNode → EventNode}
    {F : Event → Event} (hctx : ∀ e, (F e).ctx = e.ctx) (hid : ∀ e, (F e).id = e.id)
    (hname : ∀ e, (F e).name = e.name) (hnode : ∀ e next, f (e.node next) = (F e).node next)
    (found lost : EventResult) :
    ∃ s', (do
        let ev ← s.resolve ref
        if ev = 0 then .ok (s, lost)
        else
          let heap ← writeEvent s.heap ev f
          .ok ({ s with heap }, found)) =
      Except.ok (s', if (r.find ref).isSome then found else lost) ∧ Refines s' (r.modify ref F) := by
  rw [h.resolve_spec hn]
  cases hf : r.find ref with
  | none => exact ⟨s, by simp [ctxOf], by simpa [Registry.modify, hf] using h⟩
  | some e =>
    obtain ⟨heap, hw, h'⟩ := h.modify hf (hctx e) (hid e) (hname e) (hnode e)
    refine ⟨{ s with heap }, ?_, h'⟩
    simp only [ctxOf, ok_bind, if_neg (h.ctx_ne_zero (Registry.mem_of_find hf))]
    rw [hw]
    rfl

/-- `set_event_quiet` and `unset_event_quiet`. -/
theorem Refines.assignQuiet_spec (h : Refines s r) (hn : r.Names ref) (b : Bool) :
    ∃ s', s.assignQuiet ref b = .ok (s', .void) ∧
      Refines s' (r.modify ref fun e => { e with quiet := b }) := by
  obtain ⟨s', hrun, h'⟩ := h.assign_spec hn (f := fun n => { n with quiet := b })
    (F := fun e => { e with quiet := b }) (fun _ => rfl) (fun _ => rfl) (fun _ => rfl)
    (fun _ _ => rfl) .void .void
  rw [ite_self] at hrun
  exact ⟨s', hrun, h'⟩

/-- `register_event_callback` -/
theorem Refines.registerEventCallback_spec (h : Refines s r) (hn : r.Names ref) (callback : Nat) :
    ∃ s', s.registerEventCallback ref callback = .ok (s', .bool (r.find ref).isSome) ∧
      Refines s' (r.modify ref fun e => { e with callback }) := by
  obtain ⟨s', hrun, h'⟩ := h.assign_spec hn (f := fun n => { n with eventCallback := callback })
    (F := fun e => { e with callback }) (fun _ => rfl) (fun _ => rfl) (fun _ => rfl)
    (fun _ _ => rfl) (.bool true) (.bool false)
  have hbool : (if (r.find ref).isSome then EventResult.bool true else .bool false) =
      .bool (r.find ref).isSome := by
    cases (r.find ref).isSome <;> rfl
  rw [hbool] at hrun
  exact ⟨s', hrun, h'⟩

/-- `raise_event` finds what the map holds. -/
theorem Refines.raiseEvent_spec (h : Refines s r) (hn : r.Names ref) (argc : Int) (args : Nat) :
    s.raiseEvent ref argc args = .ok (s, r.result (.raiseEvent ref argc args)) := by
  have hres := h.resolve_spec hn
  simp only [Hlec.raiseEvent, Registry.result]
  rw [hres]
  cases hf : r.find ref with
  | none => simp [ctxOf]
  | some e =>
    have hmem := Registry.mem_of_find hf
    simp only [ctxOf, ok_bind, if_neg (h.ctx_ne_zero hmem)]
    rw [readEvent_of_block (h.threaded.node e hmem)]
    by_cases hq : e.quiet = true
    · simp [Event.node, hq]
    · by_cases hc : e.callback = 0
      · simp [Event.node, hq, hc]
      · simp [Event.node, hq, hc]

/-- `obtain_event_id` reads it off the node. -/
theorem Refines.obtainEventId_spec (h : Refines s r) {p : Nat} (hn : r.Names (.ctx p)) :
    s.obtainEventId p = .ok (s, r.result (.obtainEventId p)) := by
  have hres := h.resolve_spec hn
  injection hres with hctx
  simp only [Hlec.obtainEventId, Registry.result]
  cases hf : r.find (.ctx p) with
  | none =>
    rw [hf] at hctx
    exact if_pos hctx
  | some e =>
    have hmem := Registry.mem_of_find hf
    rw [hf] at hctx
    rw [hctx, ctxOf, if_neg (h.ctx_ne_zero hmem), readEvent_of_block (h.threaded.node e hmem)]
    rfl

/-! ## Creating an event -/

/-- A block that is not in use is no node and no name. -/
theorem Registered.fresh_ne (h : Registered s r) {p : Nat} (hp : s.heap.Fresh p) :
    ∀ a ∈ r.events, a.ctx ≠ p ∧ a.name ≠ p := by
  intro a ha
  have hn := hp.unused
  refine ⟨?_, ?_⟩
  · rintro rfl
    rw [h.threaded.node a ha] at hn
    cases hn
  · rintro rfl
    rw [h.name a ha] at hn
    cases hn

/-- `alloc_event` appends a node, whose id is whatever the block held. -/
theorem Refines.allocEvent_spec (h : Refines s r) {p : Nat} (hp : s.heap.Fresh p)
    (junk : EventNode) :
    ∃ s', s.allocEvent p junk = .ok (s', p) ∧ s'.lastId = s.lastId ∧ s'.lastEvent = p ∧
      Threaded s'.heap s'.firstEvent (r.events ++ [⟨p, 0, junk.evId, 0, true⟩]) ∧
      ∀ x, x ≠ p → (∀ a ∈ r.events, a.ctx ≠ x) → s'.heap.block x = s.heap.block x := by
  have hne := fun a ha => (h.fresh_ne hp a ha).1
  let e : Event := ⟨p, 0, junk.evId, 0, true⟩
  let h1 := s.heap.set p (some (.event junk))
  let h2 := h1.set p (some (.event (e.node 0)))
  have hb : h2.block p = some (.event (e.node 0)) := Heap.set_block_self ..
  have hother : ∀ x, x ≠ p → h2.block x = s.heap.block x := by
    intro x hx
    rw [Heap.set_block_ne _ _ hx, Heap.set_block_ne _ _ hx]
  have hw1 : writeEvent h1 p (fun n =>
      { n with evNext := 0, evName := 0, eventCallback := 0, quiet := true }) = .ok h2 :=
    writeEvent_of_block _ (Heap.set_block_self ..)
  have hold : Threaded h2 s.firstEvent r.events :=
    h.threaded.congr h2 fun a ha => hother _ (hne a ha)
  by_cases hnil : r.events = []
  · have hfirst := h.threaded.first_eq_zero.mpr hnil
    refine ⟨⟨h2, p, p, s.lastId⟩, ?_, rfl, rfl, ?_, ?_⟩
    · simp only [Hlec.allocEvent, if_neg hp.ne_null]
      rw [hw1]
      simp [hfirst]
    · rw [hnil]
      refine ⟨⟨rfl, hp.ne_null, nextEvent_of_block hb⟩, fun a ha => ?_⟩
      obtain rfl := List.mem_singleton.mp ha
      rw [nextEvent_of_block hb]
      exact hb
    · intro x hx _
      exact hother x hx
  · have hfirst : s.firstEvent ≠ 0 := fun h0 => hnil (h.threaded.first_eq_zero.mp h0)
    obtain ⟨l, t, hlt⟩ := (List.eq_nil_or_concat r.events).resolve_left hnil
    rw [List.concat_eq_append] at hlt
    have hlast : s.lastEvent = t.ctx := h.last t (by rw [hlt]; simp)
    rw [hlt] at hold hne
    obtain ⟨n, hw2, hthr⟩ := hold.snoc (e := e) hp.ne_null hb hne
    refine ⟨⟨h2.set t.ctx (some (.event n)), s.firstEvent, p, s.lastId⟩, ?_, rfl, rfl, ?_, ?_⟩
    · simp only [Hlec.allocEvent, if_neg hp.ne_null]
      rw [hw1, hlast]
      simp only [ok_bind, if_neg hfirst]
      rw [hw2]
      rfl
    · rw [hlt, List.append_assoc]
      exact hthr
    · intro x hx hxa
      have hxt : x ≠ t.ctx := (hxa t (by rw [hlt]; simp)).symm
      rw [Heap.set_block_ne _ _ hxt]
      exact hother x hx

/-- A new event at the end of the list, with the next id and a name of its own. -/
theorem Refines.appended (h : Refines s r) {p q : Nat} (hp : s.heap.Fresh p) (hq : s.heap.Fresh q)
    {s' : Hlec} (hthr : Threaded s'.heap s'.firstEvent (r.events ++ [⟨p, q, r.nextId, 0, true⟩]))
    (hid : s'.lastId = s.lastId + 1) (hlast : s'.lastEvent = p)
    (hname : ∀ a ∈ r.events, s'.heap.block a.name = some .name)
    (hnew : s'.heap.block q = some .name) :
    Refines s' ⟨r.events ++ [⟨p, q, r.nextId, 0, true⟩], r.nextId + 1⟩ := by
  have hneq := h.fresh_ne hq
  have hall : ∀ P : Event → Prop, (∀ a ∈ r.events, P a) → P ⟨p, q, r.nextId, 0, true⟩ →
      ∀ a ∈ r.events ++ [⟨p, q, r.nextId, 0, true⟩], P a := by
    intro P hP hPe a ha
    rcases List.mem_append.mp ha with ha | ha
    · exact hP a ha
    · obtain rfl := List.mem_singleton.mp ha
      exact hPe
  refine { threaded := hthr, lastId := ?_, sorted := ?_, below := ?_, lt := ?_, name := ?_,
           names := ?_, last := ?_ }
  · rw [hid, h.lastId]
  · rw [List.pairwise_append]
    refine ⟨h.sorted, List.pairwise_singleton _ _, fun a ha b hb => ?_⟩
    obtain rfl := List.mem_singleton.mp hb
    exact h.below a ha
  · apply hall
    · intro a ha
      have := h.below a ha
      show a.id < r.nextId + 1
      omega
    · show r.nextId < r.nextId + 1
      omega
  · exact hall _ h.lt hp.lt
  · exact hall _ hname hnew
  · rw [List.map_append, List.nodup_append]
    refine ⟨h.names, List.nodup_singleton _, fun a ha b hb => ?_⟩
    obtain ⟨x, hx, rfl⟩ := List.mem_map.mp ha
    obtain rfl := List.mem_singleton.mp hb
    exact (hneq x hx).2
  · intro a ha
    rw [List.getLast?_append, List.getLast?_singleton] at ha
    cases ha
    exact hlast

/-- **`new_event`** appends an event with the next id. -/
theorem Refines.newEvent_spec (h : Refines s r) {p q : Nat} (hp : s.heap.Fresh p)
    (hq : s.heap.Fresh q) (hpq : p ≠ q) (junk : EventNode) :
    ∃ s', s.newEvent p junk q = .ok (s', .context p) ∧
      Refines s' ⟨r.events ++ [⟨p, q, r.nextId, 0, true⟩], r.nextId + 1⟩ := by
  obtain ⟨s1, hrun, hid, hlast, hthr, hframe⟩ := h.allocEvent_spec hp junk
  have hnep := h.fresh_ne hp
  have hneq := h.fresh_ne hq
  let e : Event := ⟨p, 0, junk.evId, 0, true⟩
  let e₁ : Event := { e with id := s1.lastId }
  let e₂ : Event := { e₁ with name := q }
  obtain ⟨n1, hw1, hthr1⟩ := Threaded.write (e := e) hthr (f := fun n => { n with evId := s1.lastId })
    e₁ rfl fun _ => rfl
  -- the copy of the name is none of the nodes
  let h2 := (s1.heap.set p (some (.event n1))).set q (some .name)
  have hthr2 := hthr1.congr h2 fun a ha => by
    apply Heap.set_block_ne
    rcases List.mem_append.mp ha with ha | ha
    · exact (hneq a ha).1
    · obtain rfl := List.mem_singleton.mp ha
      exact hpq
  obtain ⟨n2, hw2, hthr3⟩ := hthr2.write (f := fun n => { n with evName := q, quiet := true })
    e₂ rfl fun _ => rfl
  let h3 := h2.set p (some (.event n2))
  refine ⟨⟨h3, s1.firstEvent, s1.lastEvent, s1.lastId + 1⟩, ?_, ?_⟩
  · simp only [Hlec.newEvent]
    rw [hrun]
    simp only [ok_bind, if_neg hp.ne_null]
    rw [hw1]
    simp only [ok_bind, Hlec.strdup, if_neg hq.ne_null]
    rw [hw2]
    rfl
  · have he₂ : e₂ = ⟨p, q, r.nextId, 0, true⟩ := by
      rw [← h.lastId, ← hid]
    rw [he₂] at hthr3
    apply h.appended hp hq hthr3
    · show s1.lastId + 1 = _
      rw [hid]
    · exact hlast
    · intro a ha
      rw [Heap.set_block_ne _ _ (hnep a ha).2, Heap.set_block_ne _ _ (hneq a ha).2,
        Heap.set_block_ne _ _ (hnep a ha).2, hframe _ (hnep a ha).2]
      · exact h.name a ha
      · intro b hb hctx
        exact h.name_ne_ctx ha hb hctx.symm
    · rw [Heap.set_block_ne _ _ hpq.symm, Heap.set_block_self]

/-! ## Removing an event -/

theorem Registered.name_ne (h : Registered s r) (he : r.events = l₁ ++ e :: l₂) :
    ∀ a ∈ l₁ ++ l₂, a.name ≠ e.name := by
  have hnames := h.names
  rw [he, List.map_append, List.map_cons, List.nodup_middle, List.nodup_cons] at hnames
  intro a ha hname
  apply hnames.1
  rw [← List.map_append, ← hname]
  exact List.mem_map_of_mem ha

/-- The list without one of its events. -/
theorem Registered.erased (h : Registered s r) (he : r.events = l₁ ++ e :: l₂) {s' : Hlec}
    (hthr : Threaded s'.heap s'.firstEvent (l₁ ++ l₂)) (hid : s'.lastId = s.lastId)
    (hname : ∀ a ∈ l₁ ++ l₂, s'.heap.block a.name = some .name) :
    Registered s' ⟨l₁ ++ l₂, r.nextId⟩ := by
  have hsub : (l₁ ++ l₂).Sublist r.events := by
    rw [he]
    exact List.Sublist.append_left (List.sublist_cons_self _ _) _
  exact { threaded := hthr, lastId := hid.trans h.lastId, sorted := h.sorted.sublist hsub,
          below := fun a ha => h.below a (hsub.subset ha),
          lt := fun a ha => h.lt a (hsub.subset ha), name := hname,
          names := h.names.sublist (hsub.map _) }

/-- **`remove_event`** takes the event out of the list and leaves `last_event` alone. -/
theorem Registered.removeEventId_spec (h : Registered s r) (he : r.events = l₁ ++ e :: l₂) :
    ∃ s', s.removeEventId e.id = .ok (s', .void) ∧ s'.lastEvent = s.lastEvent ∧
      Registered s' ⟨l₁ ++ l₂, r.nextId⟩ := by
  have hmem : e ∈ r.events := by rw [he]; simp
  have hrest : ∀ a ∈ l₁ ++ l₂, a ∈ r.events := by
    intro a ha
    rw [he]
    simp only [List.mem_append, List.mem_cons] at ha ⊢
    tauto
  obtain ⟨s', hrun, hlast, hid, hthr, hframe⟩ :=
    (h.listed_at he).removeEventId_spec (.inr (h.name e hmem))
  refine ⟨s', hrun, hlast, h.erased he hthr hid fun a ha => ?_⟩
  rw [hframe _ ?_ (h.name_ne he a ha)]
  · exact h.name a (hrest a ha)
  · intro b hb
    rw [← he] at hb
    exact (h.name_ne_ctx (hrest a ha) hb).symm

/-- No event has the id: nothing happens. -/
theorem Registered.removeEventId_absent (h : Registered s r) {n : Int}
    (hf : r.find (.id n) = none) : s.removeEventId n = .ok (s, .void) := by
  have hprev : s.getPrevEventForId n = .ok (prevCtx n r.events) :=
    getPrevEventLoop_spec h.threaded n h.length_le
  have hnode : s.getEventForId n = .ok 0 := by
    have hres := h.resolve_spec (show r.Names (.id n) from trivial)
    rw [hf] at hres
    exact hres
  simp only [Hlec.removeEventId]
  rw [hprev, hnode]
  simp

/-- Removal by id and by context come to the same. -/
theorem Registered.removeEvent_eq (h : Registered s r) (hf : r.find ref = some e) :
    s.removeEvent ref = s.removeEventId e.id := by
  have hmem := Registry.mem_of_find hf
  cases ref with
  | id n =>
    have hn := List.find?_some (p := fun a : Event => decide (a.id = n)) hf
    rw [Hlec.removeEvent, of_decide_eq_true hn]
  | ctx p =>
    have hp := List.find?_some (p := fun a : Event => decide (a.ctx = p)) hf
    obtain rfl := of_decide_eq_true hp
    rw [Hlec.removeEvent, if_neg (h.ctx_ne_zero hmem), readEvent_of_block (h.threaded.node e hmem)]
    rfl

theorem Registered.removeEvent_absent (h : Registered s r) (hn : r.Names ref)
    (hf : r.find ref = none) : s.removeEvent ref = .ok (s, .void) := by
  cases ref with
  | id n => exact h.removeEventId_absent hf
  | ctx p =>
    have hp : p = 0 := by
      rcases hn with h0 | ⟨e, he, hctx⟩
      · exact h0
      · have := List.find?_eq_none.mp hf e he
        simp [hctx] at this
    simp [Hlec.removeEvent, hp]

/-- What `remove_event` leaves is in order exactly if it was not the tail of several. -/
theorem Refines.remove_iff (h : Refines s r) (hf : r.find ref = some e) {s' : Hlec}
    (he : r.events = l₁ ++ e :: l₂) (hreg : Registered s' ⟨l₁ ++ l₂, r.nextId⟩)
    (hlast : s'.lastEvent = s.lastEvent) :
    Refines s' ⟨l₁ ++ l₂, r.nextId⟩ ↔ (HlecCall.removeEvent ref).KeepsTail r := by
  have hapart := h.threaded
  rw [he] at hapart
  have hne := hapart.apart
  constructor
  · intro h' e' hf' hl
    obtain rfl : e = e' := Option.some.inj (hf.symm.trans hf')
    rw [he] at hl ⊢
    have htail : l₂ = [] := by
      rcases List.eq_nil_or_concat l₂ with hnil | ⟨l, t, rfl⟩
      · exact hnil
      · simp only [List.concat_eq_append, ← List.cons_append, ← List.append_assoc,
          List.getLast?_append, List.getLast?_singleton] at hl
        cases hl
        exact absurd rfl (hne e (by simp))
    subst htail
    rcases List.eq_nil_or_concat l₁ with rfl | ⟨l, t, rfl⟩
    · rfl
    · have ht := h'.last t (by simp)
      rw [hlast, h.last e (by rw [he]; simp)] at ht
      exact absurd ht.symm (hne t (by simp))
  · intro hk
    refine { toRegistered := hreg, last := fun a ha => ?_ }
    rw [hlast]
    apply h.last
    rcases List.eq_nil_or_concat l₂ with rfl | ⟨l, t, rfl⟩
    · have hone := hk e hf (by rw [he]; simp)
      rw [he] at hone
      have hl₁ : l₁ = [] := by
        have hlen := congrArg List.length hone
        apply List.eq_nil_of_length_eq_zero
        simpa using hlen
      rw [hl₁] at ha
      cases ha
    · rw [he]
      simpa [List.getLast?_append, List.getLast?_cons] using ha

/-- **`remove_event`** removes the event from the map. -/
theorem Refines.removeEvent_spec (h : Refines s r) (hn : r.Names ref) :
    ∃ s', s.removeEvent ref = .ok (s', .void) ∧
      (Refines s' (r.remove ref) ↔ (HlecCall.removeEvent ref).KeepsTail r) := by
  cases hf : r.find ref with
  | none =>
    have hr : r.remove ref = r := by simp [Registry.remove, hf]
    refine ⟨s, h.removeEvent_absent hn hf, ?_⟩
    rw [hr]
    exact iff_of_true h fun e he => by rw [hf] at he; cases he
  | some e =>
    obtain ⟨l₁, l₂, he⟩ := List.append_of_mem (Registry.mem_of_find hf)
    obtain ⟨s', hrun, hlast, hreg⟩ := h.removeEventId_spec he
    have hr : r.remove ref = ⟨l₁ ++ l₂, r.nextId⟩ := by
      simp only [Registry.remove, hf]
      rw [h.filter_remove he]
    refine ⟨s', (h.removeEvent_eq hf).trans hrun, ?_⟩
    rw [hr]
    exact h.remove_iff hf he hreg hlast

/-! ## All calls -/

/-- **One call** returns what the map says, without a fault. -/
theorem Refines.step (h : Refines s r) {c : HlecCall} (hv : c.Valid s r) :
    ∃ s', c.run s = .ok (s', r.result c) ∧ (Refines s' (r.apply c) ↔ c.KeepsTail r) := by
  have keeps : ∀ {s' : Hlec} {r' : Registry}, Refines s' r' → (Refines s' r' ↔ True) :=
    fun h' => iff_of_true h' trivial
  cases c with
  | newEvent p junk q =>
    obtain ⟨hp, hq, hpq, -⟩ := hv
    obtain ⟨s', hrun, h'⟩ := h.newEvent_spec hp hq hpq junk
    exact ⟨s', hrun, keeps h'⟩
  | removeEvent ref => exact h.removeEvent_spec hv
  | registerEventCallback ref callback =>
    obtain ⟨s', hrun, h'⟩ := h.registerEventCallback_spec hv callback
    exact ⟨s', hrun, keeps h'⟩
  | obtainEventId p => exact ⟨s, h.obtainEventId_spec hv, keeps h⟩
  | raiseEvent ref argc args => exact ⟨s, h.raiseEvent_spec hv argc args, keeps h⟩
  | setEventQuiet ref => exact (h.assignQuiet_spec hv true).imp fun s' h' => ⟨h'.1, keeps h'.2⟩
  | unsetEventQuiet ref => exact (h.assignQuiet_spec hv false).imp fun s' h' => ⟨h'.1, keeps h'.2⟩

end

/-- Runs of calls that meet `C`. -/
inductive HlecReach (C : Registry → HlecCall → Prop) : Hlec → Registry → Prop
  | init (h : EventHeap) : HlecReach C (.init h) .empty
  | call {s s' : Hlec} {r : Registry} {res : EventResult} (c : HlecCall) (hr : HlecReach C s r)
      (hv : c.Valid s r) (hc : C r c) (hrun : c.run s = .ok (s', res)) :
      HlecReach C s' (r.apply c)

theorem refines_init (h : EventHeap) : Refines (.init h) .empty where
  threaded := ⟨rfl, by simp [Registry.empty]⟩
  lastId := rfl
  sorted := .nil
  below := by simp [Registry.empty]
  lt := by simp [Registry.empty]
  name := by simp [Registry.empty]
  names := .nil
  last := by simp [Registry.empty]

/-- **The registry refines the map** in every run in which no removal takes the last of
several events.  Whatever call comes next meets no fault and returns what the map says, and
the refinement goes on exactly if the call is no such removal. -/
theorem hlec_refines {s : Hlec} {r : Registry} (hr : HlecReach HlecCall.KeepsTail s r) :
    Refines s r ∧ ∀ c : HlecCall, c.Valid s r →
      ∃ s', c.run s = .ok (s', r.result c) ∧ (Refines s' (r.apply c) ↔ c.KeepsTail r) := by
  have h : Refines s r := by
    induction hr with
    | init h => exact refines_init h
    | call c hr hv hc hrun ih =>
      obtain ⟨s', hrun', hiff⟩ := ih.step hv
      rw [hrun] at hrun'
      cases hrun'
      exact hiff.mpr hc
  exact ⟨h, fun c hv => h.step hv⟩

/-- What a block holds that nothing has written to. -/
def junkNode : EventNode := ⟨0, 0, 0, false, 0⟩

/-- The first event of a run, whose memory is free. -/
theorem hlecReach_one (C : Registry → HlecCall → Prop)
    (hC : C .empty (.newEvent 0x1000 junkNode 0x1800)) :
    ∃ s, HlecReach C s ⟨[⟨0x1000, 0x1800, 0, 0, true⟩], 1⟩ := by
  have h1 : HlecReach C _ _ := .call (.newEvent 0x1000 junkNode 0x1800) (.init .empty)
    ⟨⟨by decide, by decide, rfl⟩, ⟨by decide, by decide, rfl⟩, by decide, by decide⟩ hC rfl
  exact ⟨_, h1⟩

/-- An event alone may be removed. -/
theorem hlec_refines_one : ∃ s, Refines s ⟨[⟨0x1000, 0x1800, 0, 0, true⟩], 1⟩ ∧
    ∃ s', (HlecCall.removeEvent (.id 0)).run s = .ok (s', .void) ∧ Refines s' ⟨[], 1⟩ := by
  obtain ⟨s, hr⟩ := hlecReach_one HlecCall.KeepsTail trivial
  obtain ⟨h, hnext⟩ := hlec_refines hr
  obtain ⟨s', hrun, hiff⟩ := hnext (.removeEvent (.id 0)) trivial
  exact ⟨s, h, s', hrun, hiff.mpr fun e he _ => by cases he; rfl⟩

/-- Two events are created and the second is removed: the next one is linked to it. -/
theorem hlec_loses_tail : ∃ s r, HlecReach (fun _ _ => True) s r ∧ ¬ Refines s r ∧
    ∃ c : HlecCall, c.Valid s r ∧ c.run s = .error (.access 0x2000) := by
  have h1 : HlecReach (fun _ _ => True) _ _ :=
    .call (.newEvent 0x1000 junkNode 0x1800) (.init .empty)
      ⟨⟨by decide, by decide, rfl⟩, ⟨by decide, by decide, rfl⟩, by decide, by decide⟩ trivial rfl
  have h2 : HlecReach (fun _ _ => True) _ _ :=
    .call (.newEvent 0x2000 junkNode 0x2800) h1
      ⟨⟨by decide, by decide, rfl⟩, ⟨by decide, by decide, rfl⟩, by decide, by decide⟩ trivial rfl
  have h3 : HlecReach (fun _ _ => True) _ _ := .call (.removeEvent (.id 1)) h2 trivial trivial rfl
  refine ⟨_, _, h3, fun h => ?_, .newEvent 0x3000 junkNode 0x3800, ?_, rfl⟩
  · have hlast := h.last ⟨0x1000, 0x1800, 0, 0, true⟩ rfl
    revert hlast
    decide
  · exact ⟨⟨by decide, by decide, rfl⟩, ⟨by decide, by decide, rfl⟩, by decide, by decide⟩

end HelixKernel
