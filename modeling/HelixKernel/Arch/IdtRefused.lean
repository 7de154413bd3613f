import HelixKernel.Arch.Idt

/-!
# Refused registrations

`register_irq` fills the slot before it looks at what `malloc` returned, so with no memory
it returns null and the line stays taken, under a null key.

    registerTraceless_iff   a registration that returns null changes nothing iff it got a
                            key, or was turned away before the slot is filled
    refused_registrations   the states of a run are all `Removable` iff every registration
                            of the run got a key or was turned away -/

namespace HelixKernel

namespace IrqCall

/-- If `register_irq` returns null, the table is unchanged. -/
def Traceless (t : IrqTable) (irq handler key : Nat) : Prop :=
  registerResult t irq handler key = 0 → run t (register irq handler key) = t

/-- A registration gets a key from `malloc`, or returns before it fills the slot. -/
def Granted (t : IrqTable) : IrqCall → Prop
  | register irq handler key =>
    key ≠ 0 ∨ 16 ≤ irq ∨ handler = 0 ∨ ∃ i : Fin 16, irq = i ∧ (t i).used = true
  | _ => True

end IrqCall

/-- Every used line has a key, goes with it, and is out of reach of a null key. -/
def Removable (t : IrqTable) : Prop :=
  ∀ i : Fin 16, (t i).used = true → (t i).protectionKey ≠ 0 ∧
    (IrqCall.run t (.remove i (t i).protectionKey) i).used = false ∧
    IrqCall.run t (.mask i 0) = t ∧ IrqCall.run t (.unmask i 0) = t

/-- Every registration was granted. -/
def AllGranted : List IrqEvent → Prop
  | [] => True
  | .call c :: past => c.Granted (replay past) ∧ AllGranted past
  | .deliver .. :: past => AllGranted past

/-- The table was so after every event of the history. -/
def Throughout (P : IrqTable → Prop) (past : List IrqEvent) : Prop :=
  ∀ since before, past = since ++ before → P (replay before)

/-! ## One registration -/

/-- A registration that is not granted takes the line under a null key. -/
theorem register_ungranted {t : IrqTable} {irq handler key : Nat}
    (h : ¬ IrqCall.Granted t (.register irq handler key)) :
    key = 0 ∧ IrqCall.registerResult t irq handler key = 0 ∧
    ∃ i : Fin 16, irq = i ∧ (t i).used = false ∧
      IrqCall.run t (.register irq handler key) i = ⟨0, irq, handler, true, true⟩ := by
  have hk : key = 0 := by
    by_contra hne
    exact h (.inl hne)
  have hirq : irq < 16 := by
    by_contra hge
    exact h (.inr (.inl (by omega)))
  have hh : handler ≠ 0 := fun h0 => h (.inr (.inr (.inl h0)))
  have hu : (t ⟨irq, hirq⟩).used = false := by
    by_contra hne
    exact h (.inr (.inr (.inr ⟨⟨irq, hirq⟩, rfl, by simpa using hne⟩)))
  subst hk
  refine ⟨rfl, ?_, ⟨irq, hirq⟩, rfl, hu, ?_⟩
  · exact IrqCall.registerResult_of_free (i := ⟨irq, hirq⟩) 0 hh hu
  · exact IrqCall.register_of_free (i := ⟨irq, hirq⟩) 0 hh hu

/-- A registration leaves no trace exactly when it is granted. -/
theorem registerTraceless_iff (t : IrqTable) (irq handler key : Nat) :
    IrqCall.Traceless t irq handler key ↔ IrqCall.Granted t (.register irq handler key) := by
  constructor
  · intro ht
    by_contra hg
    obtain ⟨-, hres, i, -, hu, hrun⟩ := register_ungranted hg
    rw [ht hres] at hrun
    rw [hrun] at hu
    exact Bool.noConfusion hu
  · intro hg hres
    rcases hg with hk | href
    · by_cases href : 16 ≤ irq ∨ handler = 0 ∨ ∃ i : Fin 16, irq = i ∧ (t i).used = true
      · exact (IrqCall.register_refused key href).1
      · -- the slot was free, so the key is the result
        have hng : ¬ IrqCall.Granted t (.register irq handler 0) := by
          rintro (h0 | h)
          · exact h0 rfl
          · exact href h
        obtain ⟨-, -, i, hi, hu, -⟩ := register_ungranted hng
        have hh : handler ≠ 0 := fun h0 => href (.inr (.inl h0))
        rw [hi, IrqCall.registerResult_of_free key hh hu] at hres
        exact absurd hres hk
    · exact (IrqCall.register_refused key href).1

/-! ## Runs -/

theorem removable_iff (t : IrqTable) :
    Removable t ↔ ∀ i, (t i).used = true → (t i).protectionKey ≠ 0 := by
  constructor
  · intro h i hu
    exact (h i hu).1
  · intro h i hu
    have hk := h i hu
    have hquiet : ∀ c : IrqCall, c.irq = i → c.stores (t i) = [] → c.run t = t := by
      intro c hc hs
      funext j
      by_cases hj : c.irq = j
      · obtain rfl : i = j := Fin.ext (by omega)
        rw [IrqCall.run_of_eq t hc, hs]
        rfl
      · exact IrqCall.run_of_ne t hj
    refine ⟨hk, ?_, ?_, ?_⟩
    · rw [IrqCall.run_of_eq t (c := .remove i _) rfl]
      simp [IrqCall.stores, IrqEntry.assignAll_removeIrq, hk, hu]
    · exact hquiet (.mask i 0) rfl (if_pos hk)
    · exact hquiet (.unmask i 0) rfl (if_pos hk)

theorem removable_irqTable : Removable irqTable := by
  rw [removable_iff]
  intro i hu
  rw [(irqTable_idle i).1] at hu
  exact absurd hu (by decide)

/-- A granted call keeps a key on every used line. -/
theorem removable_run {t : IrqTable} {c : IrqCall} (h : Removable t) (hg : c.Granted t) :
    Removable (c.run t) := by
  rw [removable_iff] at h ⊢
  intro i hu
  rcases IrqCall.run_key hu with ⟨hu', hk⟩ | ⟨handler, hc⟩
  · rw [hk]
    exact h i hu'
  · -- registered by this call: with a null key it would have been turned away
    intro h0
    rw [h0] at hc
    subst hc
    rcases hg with hg | href
    · exact hg rfl
    · rw [(IrqCall.register_refused 0 href).1] at h0 hu
      exact h i hu h0

/-- A call that is not granted leaves a used line without a key. -/
theorem not_removable_run {t : IrqTable} {c : IrqCall} (hg : ¬ c.Granted t) :
    ¬ Removable (c.run t) := by
  cases c with
  | register irq handler key =>
    obtain ⟨-, -, i, -, -, hrun⟩ := register_ungranted hg
    rw [removable_iff]
    intro h
    exact h i (by rw [hrun]) (by rw [hrun])
  | remove irq key => exact (hg trivial).elim
  | unmask irq key => exact (hg trivial).elim
  | mask irq key => exact (hg trivial).elim

theorem throughout_cons {P : IrqTable → Prop} {e : IrqEvent} {past : List IrqEvent} :
    Throughout P (e :: past) ↔ P (replay (e :: past)) ∧ Throughout P past := by
  constructor
  · intro h
    refine ⟨h [] _ rfl, ?_⟩
    rintro since before rfl
    exact h (e :: since) before rfl
  · rintro ⟨he, h⟩ since before heq
    cases since with
    | nil =>
      obtain rfl : e :: past = before := heq
      exact he
    | cons e' since =>
      rw [List.cons_append, List.cons.injEq] at heq
      exact h since before heq.2

theorem throughout_removable_iff (past : List IrqEvent) :
    Throughout Removable past ↔ AllGranted past := by
  induction past with
  | nil =>
    refine ⟨fun _ => trivial, fun _ since before heq => ?_⟩
    obtain ⟨-, rfl⟩ := List.append_eq_nil_iff.mp heq.symm
    exact removable_irqTable
  | cons e past ih =>
    rw [throughout_cons, ih]
    cases e with
    | deliver num ctx =>
      refine ⟨fun h => h.2, fun h => ⟨?_, h⟩⟩
      exact ih.mpr h [] past rfl
    | call c =>
      constructor
      · rintro ⟨hnow, hpast⟩
        refine ⟨?_, hpast⟩
        by_contra hg
        exact not_removable_run hg hnow
      · rintro ⟨hg, hpast⟩
        exact ⟨removable_run (ih.mpr hpast [] past rfl) hg, hpast⟩

/-- **Refused registrations** leave no trace exactly where they got a key or were turned
away before the slot is filled; and exactly the runs of such registrations have, after
every event, only lines that their owner can remove and a null key cannot reach. -/
theorem refused_registrations (t : IrqTable) (irq handler key : Nat) (past : List IrqEvent) :
    (IrqCall.Traceless t irq handler key ↔ IrqCall.Granted t (.register irq handler key)) ∧
      (Throughout Removable past ↔ AllGranted past) :=
  ⟨registerTraceless_iff t irq handler key, throughout_removable_iff past⟩

/-- The first registration, with no memory for its key: null is returned, line 1 is taken,
and its key is null. -/
theorem register_out_of_memory :
    ¬ IrqCall.Traceless irqTable 1 5 0 ∧
      ¬ Throughout Removable [.call (.register 1 5 0)] := by
  constructor
  · rw [IrqCall.Traceless]
    intro h
    have hrun := congrFun (h (by decide)) 1
    exact absurd hrun (by decide)
  · intro h
    exact absurd (h [] _ rfl 1 (by decide)).1 (by decide)

end HelixKernel
