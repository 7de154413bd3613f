import HelixKernel.Arch.Idt

/-!
# Keys of released lines

The protection key of a line is the address of one allocated byte, and `remove_irq` frees it.
Drivers present only keys that `register_irq` returned to them; `malloc` returns null or any
address that is not allocated, so also that of a freed key.

    released_key   a key has no power after its release, over any run, exactly as long as
                   the line is not registered by another driver under the same address -/

namespace HelixKernel

/-- The table, and who did what: the driver that registered each line in use, the keys
returned to each driver, and the removed registrations by line, driver and key. -/
structure Drivers where
  table : IrqTable
  holder : Fin 16 → Nat
  returned : Nat → Nat → Prop
  removed : Fin 16 → Nat → Nat → Prop

namespace Drivers

def initial : Drivers := ⟨irqTable, fun _ => 0, fun _ _ => False, fun _ _ _ => False⟩

/-- A call by driver `d`. -/
def step (s : Drivers) (d : Nat) (c : IrqCall) : Drivers where
  table := c.run s.table
  holder := fun i => if (s.table i).used = false ∧ (c.run s.table i).used = true then d else s.holder i
  returned := fun a k => s.returned a k ∨ a = d ∧ ∃ irq handler key,
    c = .register irq handler key ∧ k = IrqCall.registerResult s.table irq handler key
  removed := fun i a k => s.removed i a k ∨ a = s.holder i ∧ k = (s.table i).protectionKey ∧
    (s.table i).used = true ∧ (c.run s.table i).used = false

/-- A driver presents what was returned to it, and `malloc` returns nothing that is in use as
a key. -/
def Allowed (s : Drivers) (d : Nat) : IrqCall → Prop
  | .register _ _ key => key ≠ 0 → ∀ i, (s.table i).used = true → (s.table i).protectionKey ≠ key
  | .remove _ key => s.returned d key
  | .unmask _ key => s.returned d key
  | .mask _ key => s.returned d key

/-- It does not register a line under the key of another driver's removed registration of
that line. -/
def NoHandover (s : Drivers) (d : Nat) (c : IrqCall) : Prop :=
  ∀ (i : Fin 16) handler key a, c = .register i handler key → handler ≠ 0 →
    (s.table i).used = false → s.removed i a key → a = d

/-- Allowed calls that meet `P` lead to `s`. -/
inductive Run (P : Drivers → Nat → IrqCall → Prop) : Drivers → Prop where
  | initial : Run P initial
  | step {s : Drivers} {d : Nat} {c : IrqCall} :
      Run P s → s.Allowed d c → P s d c → Run P (s.step d c)

/-- **No power**: a driver whose registration of a line was removed cannot change that of
another driver with the key. -/
def NoPower (s : Drivers) : Prop :=
  ∀ i a k c, s.removed i a k → (s.table i).used = true → s.holder i ≠ a → s.Allowed a c →
    c.Presents i k → c.run s.table i = s.table i

/-- What holds of the keys of a run. -/
structure Keys (s : Drivers) : Prop where
  held : ∀ i, (s.table i).used = true → s.returned (s.holder i) (s.table i).protectionKey
  released : ∀ i a k, s.removed i a k → k ≠ 0 ∧ s.returned a k

/-- No line is in use under the key of another driver's removed registration of it. -/
def NoStaleKey (s : Drivers) : Prop :=
  ∀ i a k, s.removed i a k → (s.table i).used = true → s.holder i ≠ a →
    (s.table i).protectionKey ≠ k

variable {s : Drivers} {d : Nat} {c : IrqCall} {i : Fin 16}

theorem presents_unique {k k' : Nat} (h : c.Presents i k) (h' : c.Presents i k') : k = k' := by
  cases c with
  | register irq handler key => exact h.elim
  | remove irq key => exact h.2.symm.trans h'.2
  | unmask irq key => exact h.2.symm.trans h'.2
  | mask irq key => exact h.2.symm.trans h'.2

/-- Only `remove_irq` takes a line out of use, under its key, which is not null. -/
theorem removes_of_released (hu : (s.table i).used = true) (hf : (c.run s.table i).used = false) :
    (s.table i).protectionKey ≠ 0 := by
  have hne : c.run s.table i ≠ s.table i := by
    intro heq
    rw [heq, hu] at hf
    exact absurd hf (by decide)
  have hirq : c.irq = i := by
    by_contra h
    exact hne (IrqCall.run_of_ne s.table h)
  intro h0
  rw [IrqCall.run_of_eq s.table hirq] at hf
  cases c with
  | register irq handler key =>
    simp [IrqCall.stores, IrqEntry.assignAll_registerIrq, hu] at hf
  | remove irq key =>
    simp only [IrqCall.stores, IrqEntry.assignAll_removeIrq, h0] at hf
    rw [if_neg (fun h => h.1 h.2.2.symm), hu] at hf
    exact absurd hf (by decide)
  | unmask irq key =>
    simp only [IrqCall.stores, IrqEntry.assignAll_unmaskIrq] at hf
    split at hf <;> simp [hu] at hf
  | mask irq key =>
    simp only [IrqCall.stores, IrqEntry.assignAll_maskIrq] at hf
    split at hf <;> simp [hu] at hf

/-- A line that stays in use keeps its key. -/
theorem key_of_used (hu : (s.table i).used = true) (hu' : (c.run s.table i).used = true) :
    (c.run s.table i).protectionKey = (s.table i).protectionKey := by
  by_cases heq : c.run s.table i = s.table i
  · rw [heq]
  · rcases IrqCall.run_key hu' with ⟨-, hk⟩ | ⟨handler, hc⟩
    · exact hk
    · have hp := IrqCall.run_used hu heq
      rw [hc] at hp
      exact hp.elim

/-- A line that comes into use was registered, and its key returned. -/
theorem registers_of_taken (hu : (s.table i).used = false) (hu' : (c.run s.table i).used = true) :
    ∃ handler, handler ≠ 0 ∧ c = .register i handler (c.run s.table i).protectionKey ∧
      IrqCall.registerResult s.table i handler (c.run s.table i).protectionKey =
        (c.run s.table i).protectionKey := by
  rcases IrqCall.run_key hu' with ⟨h, -⟩ | ⟨handler, hc⟩
  · rw [hu] at h
    exact absurd h (by decide)
  · have hh : handler ≠ 0 := by
      rintro rfl
      rw [hc, (IrqCall.register_refused _ (.inr (.inl rfl))).1, hu] at hu'
      exact absurd hu' (by decide)
    exact ⟨handler, hh, hc, IrqCall.registerResult_of_free _ hh hu⟩

/-- A line in use after a call: as it was, or registered by it. -/
theorem line_cases (hu' : (c.run s.table i).used = true) :
    ((s.table i).used = true ∧ (s.step d c).holder i = s.holder i ∧
      (c.run s.table i).protectionKey = (s.table i).protectionKey) ∨
    ((s.table i).used = false ∧ (s.step d c).holder i = d ∧
      ∃ handler, handler ≠ 0 ∧ c = .register i handler (c.run s.table i).protectionKey ∧
        IrqCall.registerResult s.table i handler (c.run s.table i).protectionKey =
          (c.run s.table i).protectionKey) := by
  by_cases hu : (s.table i).used = true
  · exact .inl ⟨hu, if_neg (by simp [hu]), key_of_used hu hu'⟩
  · have hu : (s.table i).used = false := by simpa using hu
    exact .inr ⟨hu, if_pos ⟨hu, hu'⟩, registers_of_taken hu hu'⟩

/-! ## The invariants -/

theorem keys_initial : Keys initial :=
  ⟨fun i hu => by simp [initial, (irqTable_idle i).1] at hu, fun _ _ _ h => h.elim⟩

theorem Keys.step (h : Keys s) (d : Nat) (c : IrqCall) : Keys (s.step d c) := by
  constructor
  · intro i hu'
    show s.returned _ (c.run s.table i).protectionKey ∨ _
    rcases line_cases hu' with ⟨hu, hholder, hkey⟩ | ⟨hu, hholder, handler, -, hc, hres⟩
    · rw [hholder, hkey]
      exact .inl (h.held i hu)
    · exact .inr ⟨hholder, i, handler, _, hc, hres.symm⟩
  · rintro i a k (hr | ⟨rfl, rfl, hu, hf⟩)
    · exact ⟨(h.released i a k hr).1, .inl (h.released i a k hr).2⟩
    · exact ⟨removes_of_released hu hf, .inl (h.held i hu)⟩

theorem noStaleKey_initial : NoStaleKey initial := fun _ _ _ h => h.elim

theorem NoStaleKey.step (h : NoStaleKey s) (hn : s.NoHandover d c) : NoStaleKey (s.step d c) := by
  rintro i a k (hr | ⟨-, -, -, hf⟩) hu' hne
  · show (c.run s.table i).protectionKey ≠ k
    rcases line_cases hu' with ⟨hu, hholder, hkey⟩ | ⟨hu, hholder, handler, hh, hc, -⟩
    · rw [hholder] at hne
      rw [hkey]
      exact h i a k hr hu hne
    · rintro rfl
      exact hne (hholder.trans (hn i handler _ a hc hh hu hr).symm)
  · rw [Drivers.step, hf] at hu'
    exact absurd hu' (by decide)

theorem Run.mono {P Q : Drivers → Nat → IrqCall → Prop} (hPQ : ∀ s d c, P s d c → Q s d c)
    (h : Run P s) : Run Q s := by
  induction h with
  | initial => exact .initial
  | step h hallowed hp ih => exact .step ih hallowed (hPQ _ _ _ hp)

theorem Run.keys {P : Drivers → Nat → IrqCall → Prop} (h : Run P s) : Keys s := by
  induction h with
  | initial => exact keys_initial
  | step h hallowed hp ih => exact ih.step _ _

theorem Run.noStaleKey (h : Run NoHandover s) : NoStaleKey s := by
  induction h with
  | initial => exact noStaleKey_initial
  | step h hallowed hn ih => exact ih.step hn

/-! ## Power -/

/-- A key that is not the line's does nothing. -/
theorem NoStaleKey.refused (h : NoStaleKey s) {a k : Nat} (hr : s.removed i a k)
    (hu : (s.table i).used = true) (hne : s.holder i ≠ a) (hc : c.Presents i k) :
    c.run s.table i = s.table i := by
  by_contra hchange
  exact h i a k hr hu hne (presents_unique (IrqCall.run_used hu hchange) hc)

/-- **A handed-over key** still removes the line. -/
theorem not_noPower_of_handover (hk : Keys s) (hn : ¬ s.NoHandover d c) : ¬ (s.step d c).NoPower := by
  unfold NoHandover at hn
  push Not at hn
  obtain ⟨i, handler, key, a, rfl, hh, hu, hr, hne⟩ := hn
  obtain ⟨hk0, hreturned⟩ := hk.released i a key hr
  have hline := IrqCall.register_of_free key hh hu
  have hused : (IrqCall.run s.table (.register i handler key) i).used = true := by rw [hline]
  have hholder : (s.step d (.register i handler key)).holder i = d := if_pos ⟨hu, hused⟩
  intro hp
  have hsame := hp i a key (.remove i key) (.inl hr) hused (by rw [hholder]; exact Ne.symm hne)
    (.inl hreturned) ⟨rfl, rfl⟩
  rw [IrqCall.run_of_eq _ (c := .remove i key) (i := i) rfl, IrqCall.stores,
    IrqEntry.assignAll_removeIrq] at hsame
  simp [Drivers.step, hline, hk0] at hsame

/-- **A released key** in every run without a handover: no call that presents it changes a
later registration of the line by another driver; and the next call leaves it so exactly if it
is no handover either. -/
theorem released_key (h : Run NoHandover s) :
    (∀ (i : Fin 16) (a k : Nat) (c : IrqCall), s.removed i a k → (s.table i).used = true →
      s.holder i ≠ a → c.Presents i k → c.run s.table i = s.table i) ∧
    ∀ d c, s.Allowed d c → ((s.step d c).NoPower ↔ s.NoHandover d c) := by
  refine ⟨fun i a k c hr hu hne hc => h.noStaleKey.refused hr hu hne hc, fun d c hc => ⟨?_, ?_⟩⟩
  · intro hp
    by_contra hn
    exact not_noPower_of_handover h.keys hn hp
  · intro hn i a k c' hr hu hne _ hc'
    exact (h.step hc hn).noStaleKey.refused hr hu hne hc'

/-! ## Two drivers on line 1 -/

/-- Driver 1 registers the line under key 7 and removes it. -/
def releasedLine : Drivers := (initial.step 1 (.register 1 5 7)).step 1 (.remove 1 7)

theorem releasedLine_removed : releasedLine.removed 1 1 7 :=
  .inr ⟨by decide, by decide, by decide, by decide⟩

theorem releasedLine_free (i : Fin 16) : (releasedLine.table i).used = false := by
  revert i
  decide

theorem releasedLine_run : Run NoHandover releasedLine := by
  have hreg : Run NoHandover (initial.step 1 (.register 1 5 7)) := by
    refine .step .initial ?_ ?_
    · intro _ i hu
      simp [initial, (irqTable_idle i).1] at hu
    · intro i handler key a _ _ _ hr
      exact hr.elim
  refine .step hreg ?_ ?_
  · exact .inr ⟨rfl, 1, 5, 7, rfl, by decide⟩
  · intro i handler key a hc
    exact IrqCall.noConfusion hc

/-- Driver 2 gets the line under `key`. -/
theorem releasedLine_allowed (key : Nat) : releasedLine.Allowed 2 (.register 1 6 key) := by
  intro _ i hu
  rw [releasedLine_free] at hu
  exact absurd hu (by decide)

/-- **The freed key comes back**: driver 1 removes the registration of driver 2 with it. -/
theorem stale_key_removes : ∃ s, Run (fun _ _ _ => True) s ∧ s.removed 1 1 7 ∧
    s.holder 1 = 2 ∧ (s.table 1).used = true ∧ s.Allowed 1 (.remove 1 7) ∧
    (IrqCall.run s.table (.remove 1 7) 1).used = false ∧ ¬ s.NoPower := by
  have hrun : Run (fun _ _ _ => True) releasedLine := releasedLine_run.mono fun _ _ _ _ => trivial
  have hnot : ¬ releasedLine.NoHandover 2 (.register 1 6 7) := by
    intro h
    have := h 1 6 7 1 rfl (by decide) (releasedLine_free 1) releasedLine_removed
    omega
  refine ⟨_, .step hrun (releasedLine_allowed 7) trivial, .inl releasedLine_removed,
    by decide, by decide, .inl ?_, by decide, not_noPower_of_handover releasedLine_run.keys hnot⟩
  exact (releasedLine_run.keys.released 1 1 7 releasedLine_removed).2

theorem reusedLine_run : ∃ s, Run NoHandover s ∧ s.removed 1 1 7 ∧ s.holder 1 = 2 ∧
    (s.table 1).used = true := by
  refine ⟨_, .step releasedLine_run (releasedLine_allowed 8) ?_, .inl releasedLine_removed,
    by decide, by decide⟩
  -- only key 7 has been removed
  rintro i handler key a hc - - (hr | ⟨-, rfl, hu, -⟩)
  · rcases hr with hr | ⟨-, -, hu, -⟩
    · exact hr.elim
    · simp [initial, (irqTable_idle i).1] at hu
  · injection hc with hirq _ hkey
    obtain rfl : i = 1 := Fin.ext hirq.symm
    exact absurd hkey (by decide)

/-- With another key for driver 2 the old one is refused. -/
theorem released_key_two : ∃ s : Drivers, s.removed 1 1 7 ∧ s.holder 1 = 2 ∧
    IrqCall.run s.table (.remove 1 7) 1 = s.table 1 := by
  obtain ⟨s, hrun, hr, hholder, hu⟩ := reusedLine_run
  exact ⟨s, hr, hholder, (released_key hrun).1 1 1 7 (.remove 1 7) hr hu (by omega) ⟨rfl, rfl⟩⟩

end Drivers

end HelixKernel
