import HelixKernel.Arch.Idt

/-!
# Interrupts in the middle of a table update

`IrqRun C t rest past`: the table is `t`, the assignments `rest` of the current call are
still to be made, and `past` has happened, newest first; between any two assignments an
interrupt may be delivered on any line.  `C` restricts the calls that are entered.

    irq_steps_safe       no null handler is called, and no handler whose owner's removal
                         has begun, where registrations find their line masked
    irq_steps_null_call  a registration that finds its line unmasked can be interrupted by
                         a call through the null pointer -/

namespace HelixKernel

/-- One assignment of a call, on the call's line. -/
structure IrqStore where
  call : IrqCall
  line : Fin 16
  field : FieldStore
deriving DecidableEq, Repr

def storeField (t : IrqTable) (s : IrqStore) : IrqTable :=
  Function.update t s.line ((t s.line).assign s.field)

/-- What a call entered at table `t` has to do. -/
def IrqCall.pending (t : IrqTable) (c : IrqCall) : List IrqStore :=
  if h : c.irq < 16 then (c.stores (t ⟨c.irq, h⟩)).map (⟨c, ⟨c.irq, h⟩, ·⟩) else []

theorem foldl_storeField (t : IrqTable) (c : IrqCall) (i : Fin 16) (fs : List FieldStore) :
    (fs.map (⟨c, i, ·⟩)).foldl storeField t = Function.update t i ((t i).assignAll fs) := by
  induction fs generalizing t with
  | nil => simp [IrqEntry.assignAll]
  | cons f fs ih =>
    rw [List.map_cons, List.foldl_cons, ih]
    simp [storeField, IrqEntry.assignAll]

/-- Left alone, the steps of a call amount to the call. -/
theorem IrqCall.foldl_pending (t : IrqTable) (c : IrqCall) :
    (c.pending t).foldl storeField t = c.run t := by
  unfold pending run
  by_cases h : c.irq < 16
  · rw [dif_pos h, dif_pos h, foldl_storeField]
  · rw [dif_neg h, dif_neg h, List.foldl_nil]

inductive StepEvent where
  | entered (c : IrqCall)
  | stored (s : IrqStore)
  | delivered (num : Fin 16) (call : Option HandlerCall)
deriving DecidableEq, Repr

inductive IrqRun (C : IrqTable → IrqCall → Prop) :
    IrqTable → List IrqStore → List StepEvent → Prop
  | start : IrqRun C irqTable [] []
  | enter {t : IrqTable} {past : List StepEvent} (c : IrqCall) (h : IrqRun C t [] past)
      (hc : C t c) : IrqRun C t (c.pending t) (.entered c :: past)
  | store {t : IrqTable} {s : IrqStore} {rest : List IrqStore} {past : List StepEvent}
      (h : IrqRun C t (s :: rest) past) : IrqRun C (storeField t s) rest (.stored s :: past)
  | deliver {t : IrqTable} {rest : List IrqStore} {past : List StepEvent} (num : Fin 16)
      (ctx : Nat) (h : IrqRun C t rest past) :
      IrqRun C t rest (.delivered num (irqStubHandler num t ctx) :: past)

/-- No delivery called through a null pointer. -/
def NeverNull (past : List StepEvent) : Prop :=
  ∀ num call, .delivered num (some call) ∈ past → call.handler ≠ 0

/-- A registration of line `i` has stored `handler`, and no removal of the line has made
its first assignment since. -/
def RegisteredSince (past : List StepEvent) (i : Fin 16) (handler : Nat) : Prop :=
  ∃ since before key,
    past = since ++ .stored ⟨.register i handler key, i, .handler handler⟩ :: before ∧
    ∀ k, .stored ⟨.remove i k, i, .used false⟩ ∉ since

/-- Every handler that a delivery called had its owner, whose removal had not begun. -/
def OwnersOnly (past : List StepEvent) : Prop :=
  ∀ later earlier num call, past = later ++ .delivered num (some call) :: earlier →
    call.handler ≠ 0 → RegisteredSince earlier num call.handler

/-- A registration that goes ahead finds its line masked. -/
def MaskedFirst (t : IrqTable) : IrqCall → Prop
  | .register irq handler _ => ∀ i : Fin 16, irq = i → handler ≠ 0 → (t i).used = false →
    (t i).masked = true
  | _ => True

/-! ## Along the steps of a call -/

/-- `P` holds before each of the stores, and `Q` after the last. -/
def Along (P : IrqTable → IrqStore → Prop) (Q : IrqTable → Prop) : IrqTable → List IrqStore → Prop
  | t, [] => Q t
  | t, s :: rest => P t s ∧ Along P Q (storeField t s) rest

/-- Between calls a line is in use exactly if it has a handler. -/
def Idle (t : IrqTable) : Prop := ∀ i, (t i).used = true ↔ (t i).handler ≠ 0

/-- A line that comes into use has no handler yet, and handlers come from registrations. -/
def Orderly (t : IrqTable) (s : IrqStore) : Prop :=
  (s.field = .used true → (t s.line).handler = 0) ∧
  ∀ h, s.field = .handler h → h ≠ 0 → ∃ key, s.call = .register s.line h key

/-- No line would call through a null pointer. -/
def Guarded (t : IrqTable) : Prop :=
  ∀ i, (t i).used = true → (t i).masked = false → (t i).handler ≠ 0

section

variable {t : IrqTable} {i : Fin 16} {e : IrqEntry}

theorem Idle.update (h : Idle t) (he : e.used = true ↔ e.handler ≠ 0) :
    Idle (Function.update t i e) := by
  intro j
  by_cases hj : j = i
  · rw [hj, Function.update_self]
    exact he
  · rw [Function.update_of_ne hj]
    exact h j

theorem Guarded.update (h : Guarded t)
    (he : e.used = true → e.masked = false → e.handler ≠ 0) : Guarded (Function.update t i e) := by
  intro j
  by_cases hj : j = i
  · rw [hj, Function.update_self]
    exact he
  · rw [Function.update_of_ne hj]
    exact h j

theorem Idle.guarded (h : Idle t) : Guarded t := fun i hu _ => (h i).mp hu

end

/-- The four shapes of what a call has to do. -/
theorem IrqCall.pending_cases (t : IrqTable) (c : IrqCall) :
    c.pending t = [] ∨
    (∃ (i : Fin 16) (handler key : Nat), c = .register i handler key ∧ handler ≠ 0 ∧
      (t i).used = false ∧ c.pending t = [⟨c, i, .used true⟩, ⟨c, i, .irq i⟩,
        ⟨c, i, .handler handler⟩, ⟨c, i, .protectionKey key⟩, ⟨c, i, .masked true⟩]) ∨
    (∃ (i : Fin 16) (key : Nat), c = .remove i key ∧ c.pending t = [⟨c, i, .used false⟩,
      ⟨c, i, .irq 0⟩, ⟨c, i, .handler 0⟩, ⟨c, i, .protectionKey 0⟩, ⟨c, i, .masked true⟩]) ∨
    (∃ (i : Fin 16) (b : Bool), c.pending t = [⟨c, i, .masked b⟩]) := by
  unfold pending
  by_cases h : c.irq < 16
  · rw [dif_pos h]
    cases c with
    | register irq handler key =>
      by_cases hfree : handler ≠ 0 ∧ (t ⟨irq, h⟩).used = false
      · refine .inr (.inl ⟨⟨irq, h⟩, handler, key, rfl, hfree.1, hfree.2, ?_⟩)
        simp [stores, IrqCall.irq, IrqEntry.registerIrq_of_free _ key hfree.1 hfree.2]
      · have hr : handler = 0 ∨ (t ⟨irq, h⟩).used = true := by
          by_cases h0 : handler = 0 <;> simp_all
        left
        simp [stores, IrqCall.irq, IrqEntry.registerIrq_of_refused _ key hr]
    | remove irq key =>
      rcases (t ⟨irq, h⟩).removeIrq_cases key with hs | hs
      · simp [stores, IrqCall.irq, hs]
      · exact .inr (.inr (.inl ⟨⟨irq, h⟩, key, rfl, by simp [stores, IrqCall.irq, hs]⟩))
    | unmask irq key =>
      rcases (t ⟨irq, h⟩).unmaskIrq_cases key with hs | hs
      · simp [stores, IrqCall.irq, hs]
      · exact .inr (.inr (.inr ⟨⟨irq, h⟩, false, by simp [stores, IrqCall.irq, hs]⟩))
    | mask irq key =>
      rcases (t ⟨irq, h⟩).maskIrq_cases key with hs | hs
      · simp [stores, IrqCall.irq, hs]
      · exact .inr (.inr (.inr ⟨⟨irq, h⟩, true, by simp [stores, IrqCall.irq, hs]⟩))
  · rw [dif_neg h]
    exact .inl rfl

/-- **A call entered between calls** is orderly all along. -/
theorem Idle.pending_orderly {t : IrqTable} (h : Idle t) (c : IrqCall) :
    Along Orderly Idle t (c.pending t) := by
  rcases c.pending_cases t with hp | ⟨i, handler, key, hc, h0, hu, hp⟩ | ⟨i, key, -, hp⟩ | ⟨i, b, hp⟩
  · rw [hp]
    exact h
  · have hn : (t i).handler = 0 := by
      by_contra hne
      have := (h i).mpr hne
      simp [hu] at this
    rw [hp]
    refine ⟨⟨fun _ => hn, by simp⟩, ⟨by simp, by simp⟩, ⟨by simp, ?_⟩, ⟨by simp, by simp⟩,
      ⟨by simp, by simp⟩, ?_⟩
    · rintro _ ⟨⟩ -
      exact ⟨key, hc⟩
    · simp only [storeField, Function.update_self, Function.update_idem]
      apply h.update
      simp [IrqEntry.assign, h0]
  · rw [hp]
    refine ⟨⟨by simp, by simp⟩, ⟨by simp, by simp⟩, ⟨by simp, by simp⟩, ⟨by simp, by simp⟩,
      ⟨by simp, by simp⟩, ?_⟩
    simp only [storeField, Function.update_self, Function.update_idem]
    apply h.update
    simp [IrqEntry.assign]
  · rw [hp]
    refine ⟨⟨by simp, by simp⟩, ?_⟩
    apply h.update
    exact h i

/-- **A call that meets the condition** is guarded all along. -/
theorem Idle.pending_guarded {t : IrqTable} (h : Idle t) {c : IrqCall} (hc : MaskedFirst t c) :
    Along (fun t _ => Guarded t) Guarded t (c.pending t) := by
  have hg := h.guarded
  rcases c.pending_cases t with hp | ⟨i, handler, key, rfl, h0, hu, hp⟩ | ⟨i, key, -, hp⟩ | ⟨i, b, hp⟩
  · rw [hp]
    exact hg
  · have hm := hc i rfl h0 hu
    rw [hp]
    simp only [Along, storeField, Function.update_self, Function.update_idem]
    refine ⟨hg, hg.update ?_, hg.update ?_, hg.update ?_, hg.update ?_, hg.update ?_⟩ <;>
      simp [IrqEntry.assign, hm]
  · rw [hp]
    simp only [Along, storeField, Function.update_self, Function.update_idem]
    refine ⟨hg, hg.update ?_, hg.update ?_, hg.update ?_, hg.update ?_, hg.update ?_⟩ <;>
      simp [IrqEntry.assign]
  · rw [hp]
    refine ⟨hg, hg.update ?_⟩
    intro hu _
    exact (h i).mp hu

theorem Along.guarded {t : IrqTable} {rest : List IrqStore}
    (h : Along (fun t _ => Guarded t) Guarded t rest) : Guarded t := by
  cases rest with
  | nil => exact h
  | cons s rest => exact h.1

/-! ## Runs -/

section

variable {C : IrqTable → IrqCall → Prop} {t : IrqTable} {rest : List IrqStore}
  {past : List StepEvent}

theorem IrqRun.orderly (h : IrqRun C t rest past) : Along Orderly Idle t rest := by
  induction h with
  | start => exact fun i => by simp [irqTable_idle i]
  | enter c h hc ih => exact Idle.pending_orderly ih c
  | store h ih => exact ih.2
  | deliver num ctx h ih => exact ih

theorem IrqRun.guarded (h : IrqRun MaskedFirst t rest past) :
    Along (fun t _ => Guarded t) Guarded t rest := by
  induction h with
  | start => exact fun i hu => by simp [irqTable_idle i] at hu
  | enter c h hc ih => exact Idle.pending_guarded h.orderly hc
  | store h ih => exact ih.2
  | deliver num ctx h ih => exact ih

theorem RegisteredSince.cons {i : Fin 16} {handler : Nat} (h : RegisteredSince past i handler)
    {e : StepEvent} (he : ∀ k, e ≠ .stored ⟨.remove i k, i, .used false⟩) :
    RegisteredSince (e :: past) i handler := by
  obtain ⟨since, before, key, rfl, hn⟩ := h
  refine ⟨e :: since, before, key, rfl, fun k => ?_⟩
  simp [hn k, Ne.symm (he k)]

/-- **The handler of a line in use** is the one its owner registered. -/
theorem IrqRun.registeredSince (h : IrqRun C t rest past) (i : Fin 16)
    (hu : (t i).used = true) (hh : (t i).handler ≠ 0) :
    RegisteredSince past i (t i).handler := by
  induction h with
  | start => simp [irqTable_idle i] at hu
  | enter c h hc ih => exact (ih hu hh).cons (by simp)
  | deliver num ctx h ih => exact (ih hu hh).cons (by simp)
  | @store t s rest past h ih =>
    obtain ⟨c, l, f⟩ := s
    obtain ⟨hfirst, hreg⟩ : Orderly t ⟨c, l, f⟩ := h.orderly.1
    simp only [storeField] at hu hh ⊢
    by_cases hl : i = l
    · subst hl
      rw [Function.update_self] at hu hh ⊢
      cases f with
      | handler p =>
        obtain ⟨key, rfl⟩ : ∃ key, c = .register i p key := hreg p rfl hh
        exact ⟨[], past, key, rfl, by simp⟩
      | used b =>
        cases b with
        | true => exact absurd (hfirst rfl) hh
        | false => simp [IrqEntry.assign] at hu
      | protectionKey p => exact (ih hu hh).cons (by simp)
      | irq n => exact (ih hu hh).cons (by simp)
      | masked b => exact (ih hu hh).cons (by simp)
    · rw [Function.update_of_ne hl] at hu hh ⊢
      apply (ih hu hh).cons
      rintro k ⟨⟩
      exact hl rfl

/-- No delivery calls a handler whose owner's removal has begun, whatever is entered. -/
theorem IrqRun.ownersOnly (h : IrqRun C t rest past) : OwnersOnly past := by
  induction h with
  | start => intro later earlier num call he; simp at he
  | enter c h hc ih =>
    intro later earlier num call he
    cases later with
    | nil => simp at he
    | cons e later => exact ih later earlier num call (List.cons.inj he).2
  | store h ih =>
    intro later earlier num call he
    cases later with
    | nil => simp at he
    | cons e later => exact ih later earlier num call (List.cons.inj he).2
  | deliver num ctx h ih =>
    intro later earlier num' call he hh
    cases later with
    | nil =>
      obtain ⟨hd, rfl⟩ := List.cons.inj he
      injection hd with hnum hcall
      subst hnum
      obtain ⟨hu, -, rfl⟩ := irqStubHandler_eq_some.mp hcall
      exact h.registeredSince num hu hh
    | cons e later => exact ih later earlier num' call (List.cons.inj he).2 hh

theorem IrqRun.neverNull (h : IrqRun MaskedFirst t rest past) : NeverNull past := by
  induction h with
  | start => simp [NeverNull]
  | enter c h hc ih => simpa [NeverNull] using ih
  | store h ih => simpa [NeverNull] using ih
  | deliver num ctx h ih =>
    intro num' call hmem
    rcases List.mem_cons.mp hmem with he | hmem
    · injection he with hnum hcall
      obtain ⟨hu, hm, rfl⟩ := irqStubHandler_eq_some.mp hcall.symm
      exact h.guarded.guarded num hu hm
    · exact ih num' call hmem

end

/-- **Interrupted updates are safe** in every run whose registrations find their line
masked. -/
theorem irq_steps_safe {t : IrqTable} {rest : List IrqStore} {past : List StepEvent}
    (h : IrqRun MaskedFirst t rest past) : NeverNull past ∧ OwnersOnly past :=
  ⟨h.neverNull, h.ownersOnly⟩

/-- **The condition is needed**: a call that does not meet it can be interrupted after its
first assignment by a call through the null pointer, after any run. -/
theorem irq_steps_null_call {t : IrqTable} {past : List StepEvent} {c : IrqCall}
    (h : IrqRun (fun _ _ => True) t [] past) (hc : ¬ MaskedFirst t c) :
    ∃ t' rest past', IrqRun (fun _ _ => True) t' rest (past' ++ past) ∧ ¬ NeverNull past' := by
  have hidle : Idle t := h.orderly
  cases c with
  | register irq handler key =>
    simp only [MaskedFirst, not_forall] at hc
    obtain ⟨i, rfl, h0, hu, hm⟩ := hc
    have hn : (t i).handler = 0 := by
      by_contra hne
      have := (hidle i).mpr hne
      simp [hu] at this
    have hp : IrqCall.pending t (.register i handler key) =
        ⟨.register i handler key, i, .used true⟩ ::
          [.irq i, .handler handler, .protectionKey key, .masked true].map
            (⟨.register i handler key, i, ·⟩) := by
      simp [IrqCall.pending, IrqCall.stores, IrqCall.irq, IrqEntry.registerIrq_of_free _ key h0 hu]
    have hrun := h.enter (.register i handler key) trivial
    rw [hp] at hrun
    have hcall : irqStubHandler i (storeField t ⟨.register i handler key, i, .used true⟩) 0 =
        some ⟨0, i, 0⟩ := by
      rw [irqStubHandler_eq_some]
      simp [storeField, IrqEntry.assign, hn, hm]
    have hdel := hrun.store.deliver i 0
    rw [hcall] at hdel
    refine ⟨_, _, [_, _, _], hdel, fun hnn => ?_⟩
    exact hnn i ⟨0, i, 0⟩ (by simp) rfl
  | remove irq key => exact absurd trivial hc
  | unmask irq key => exact absurd trivial hc
  | mask irq key => exact absurd trivial hc

/-- Line 1 has never been masked. -/
theorem not_irq_steps_safe :
    ¬ ∀ t rest past, IrqRun (fun _ _ => True) t rest past → NeverNull past ∧ OwnersOnly past := by
  intro hall
  obtain ⟨t, rest, past, hrun, hnull⟩ := irq_steps_null_call (c := .register 1 5 7) .start
    (by simp only [MaskedFirst, not_forall]; exact ⟨1, rfl, by decide, by decide, by decide⟩)
  rw [List.append_nil] at hrun
  exact hnull (hall t rest past hrun).1

/-- Line 0 starts masked: registered, unmasked and hit. -/
theorem irq_steps_safe_line0 : ∃ t past,
    IrqRun MaskedFirst t [] (.delivered 0 (some ⟨5, 0, 9⟩) :: past) ∧
    NeverNull (.delivered 0 (some ⟨5, 0, 9⟩) :: past) ∧
    OwnersOnly (.delivered 0 (some ⟨5, 0, 9⟩) :: past) := by
  have hreg : IrqRun MaskedFirst _ (_ :: _ :: _ :: _ :: _ :: []) _ :=
    IrqRun.start.enter (.register 0 5 7) (by
      rintro ⟨_ | i, hi⟩ h
      · intros; rfl
      · simp at h)
  have hunmask : IrqRun MaskedFirst _ (_ :: []) _ :=
    hreg.store.store.store.store.store.enter (.unmask 0 7) trivial
  have hrun : IrqRun MaskedFirst _ [] (.delivered 0 (some ⟨5, 0, 9⟩) :: _) :=
    hunmask.store.deliver 0 9
  exact ⟨_, _, hrun, irq_steps_safe hrun⟩

end HelixKernel
