import HelixKernel.Arch.Idt

/-!
# Interrupt handlers of uACPI (`kernel/src/extra/uacpi/uacpi_kernel_wrapper.cpp`)

The handler goes into a table of the wrapper, and `register_irq` gets `irq_trampoline`,
which looks it up there.  `register_irq` masks the line; neither the wrapper nor uACPI
unmasks it.

    install_not_effective  in no run does an install make deliveries reach its handler
                           or report that they will not
    install_refused        a refused line: its earlier handler is displaced all the same
    deliver_installed      what unmasking the line with the returned key would give -/

namespace HelixKernel

/-- `irq_entry` of the wrapper; a null pointer is `0`. -/
structure UacpiIrqEntry where
  handler : Nat
  ctx : Nat
deriving DecidableEq, Repr

inductive UacpiStatus where
  | ok
  | internalError
deriving DecidableEq, Repr

/-- The sixteen lines of the kernel and the wrapper's 256 entries. -/
structure UacpiIrqs where
  lines : IrqTable
  table : Fin 256 → UacpiIrqEntry

/-- An access to `irq_table[index]` outside its 256 entries. -/
structure OutsideTable where
  index : Nat
deriving DecidableEq, Repr

namespace UacpiIrqs

/-- Before `main`. -/
def initial : UacpiIrqs := ⟨irqTable, fun _ => ⟨0, 0⟩⟩

/-- `irq_trampoline(irq, _)`: the handler it calls, with its context. -/
def irqTrampoline (s : UacpiIrqs) (irq : Fin 256) : Option UacpiIrqEntry :=
  if (s.table irq).handler ≠ 0 then some (s.table irq) else none

/-- The uACPI handler a delivery on line `num` reaches, `trampoline` being the address of
`irq_trampoline`. -/
def deliver (trampoline : Nat) (s : UacpiIrqs) (num : Fin 16) (frame : Nat) : Option UacpiIrqEntry :=
  (irqStubHandler num s.lines frame).bind fun call =>
    if call.handler = trampoline then s.irqTrampoline (Fin.ofNat 256 call.irq) else none

/-- `uacpi_kernel_install_interrupt_handler`: the status, `*out_irq_handle` and the tables;
`key` is what `malloc(1)` has for `register_irq`. -/
def uacpiKernelInstallInterruptHandler (trampoline : Nat) (s : UacpiIrqs)
    (irq irqHandler ctx key : Nat) : Except OutsideTable (UacpiStatus × Nat × UacpiIrqs) :=
  if h : irq < 256 then
    let table := Function.update s.table ⟨irq, h⟩ ⟨irqHandler, ctx⟩
    let out := IrqCall.registerResult s.lines (irq % 256) trampoline key
    .ok (.ok, out, ⟨IrqCall.run s.lines (.register (irq % 256) trampoline key), table⟩)
  else .error ⟨irq⟩

/-- `register_irq(irq, handler)` by another part of the kernel. -/
def registerIrq (s : UacpiIrqs) (irq handler key : Nat) : UacpiIrqs :=
  { s with lines := IrqCall.run s.lines (.register irq handler key) }

/-- `register_irq` would take the line. -/
def Takeable (s : UacpiIrqs) (irq : Nat) : Prop := ∃ num : Fin 16, num = irq ∧ (s.lines num).used = false

/-- Installs and registrations lead from `s` to `s'`. -/
inductive InstallRun (trampoline : Nat) (s : UacpiIrqs) : UacpiIrqs → Prop where
  | refl : InstallRun trampoline s s
  | install {s' s'' : UacpiIrqs} {irq irqHandler ctx key : Nat} {status : UacpiStatus} {out : Nat} :
      InstallRun trampoline s s' →
      s'.uacpiKernelInstallInterruptHandler trampoline irq irqHandler ctx key = .ok (status, out, s'') →
      InstallRun trampoline s s''
  | register {s' : UacpiIrqs} (irq handler key : Nat) :
      InstallRun trampoline s s' → InstallRun trampoline s (s'.registerIrq irq handler key)

/-- What the interface says of one install: deliveries reach the handler from then on, or the
status says that they will not and who held the line keeps it. -/
structure EffectiveOrRefused (trampoline : Nat) (s : UacpiIrqs) (irq irqHandler ctx key : Nat) :
    Prop where
  effective : ∀ out s',
    s.uacpiKernelInstallInterruptHandler trampoline irq irqHandler ctx key = .ok (.ok, out, s') →
    ∀ s'', InstallRun trampoline s' s'' → ∃ num : Fin 16, num = irq ∧
      ∀ frame, s''.deliver trampoline num frame = some ⟨irqHandler, ctx⟩
  refused : ¬ s.Takeable irq → ∃ status out s',
    s.uacpiKernelInstallInterruptHandler trampoline irq irqHandler ctx key = .ok (status, out, s') ∧
      status ≠ .ok ∧ ∀ num : Fin 16, (s.lines num).used = true →
        s'.lines num = s.lines num ∧ s'.table (Fin.ofNat 256 num) = s.table (Fin.ofNat 256 num)

/-! ## Masked lines -/

/-- No line that is in use is unmasked. -/
def AllMasked (s : UacpiIrqs) : Prop := ∀ num, (s.lines num).used = true → (s.lines num).masked = true

variable {trampoline : Nat} {s s' : UacpiIrqs}

theorem initial_allMasked : initial.AllMasked := by
  intro num hu
  simp [initial, (irqTable_idle num).1] at hu

/-- `register_irq` masks what it takes. -/
theorem AllMasked.registerIrq (hs : s.AllMasked) (irq handler key : Nat) :
    (s.registerIrq irq handler key).AllMasked := by
  intro num
  show (IrqCall.run s.lines (.register irq handler key) num).used = true →
    (IrqCall.run s.lines (.register irq handler key) num).masked = true
  by_cases hirq : (IrqCall.register irq handler key).irq = num
  · rw [IrqCall.run_of_eq s.lines hirq, IrqCall.stores, IrqEntry.assignAll_registerIrq]
    split
    · intro _
      rfl
    · exact hs num
  · rw [IrqCall.run_of_ne s.lines hirq]
    exact hs num

theorem lines_install {irq irqHandler ctx key out : Nat} {status : UacpiStatus}
    (h : s.uacpiKernelInstallInterruptHandler trampoline irq irqHandler ctx key =
      .ok (status, out, s')) :
    irq < 256 ∧ status = .ok ∧ s'.lines = (s.registerIrq irq trampoline key).lines := by
  unfold uacpiKernelInstallInterruptHandler at h
  split at h
  · rename_i hlt
    injection h with h
    simp only [Prod.mk.injEq] at h
    obtain ⟨rfl, -, rfl⟩ := h
    refine ⟨hlt, rfl, ?_⟩
    simp only [registerIrq, Nat.mod_eq_of_lt hlt]
  · injection h

theorem InstallRun.allMasked (h : InstallRun trampoline s s') (hs : s.AllMasked) : s'.AllMasked := by
  induction h with
  | refl => exact hs
  | install h hcall ih =>
    unfold AllMasked
    rw [(lines_install hcall).2.2]
    exact ih.registerIrq _ trampoline _
  | register irq handler key h ih => exact ih.registerIrq irq handler key

theorem deliver_of_allMasked (hs : s.AllMasked) (num : Fin 16) (frame : Nat) :
    s.deliver trampoline num frame = none := by
  have hstub : irqStubHandler num s.lines frame = none := by
    unfold irqStubHandler
    by_cases hu : (s.lines num).used = true
    · simp [hu, hs num hu]
    · simp [hu]
  rw [deliver, hstub]
  rfl

/-- **A refused line**: the status is the same, and the new handler and context go over those
of whoever holds the line. -/
theorem install_refused {irq : Nat} (hlt : irq < 256) (htake : ¬ s.Takeable irq)
    (irqHandler ctx key : Nat) :
    s.uacpiKernelInstallInterruptHandler trampoline irq irqHandler ctx key =
      .ok (.ok, 0, { s with table := Function.update s.table ⟨irq, hlt⟩ ⟨irqHandler, ctx⟩ }) := by
  have hused : 16 ≤ irq ∨ trampoline = 0 ∨ ∃ i : Fin 16, irq = i ∧ (s.lines i).used = true := by
    by_cases h : 16 ≤ irq
    · exact .inl h
    · refine .inr (.inr ⟨⟨irq, by omega⟩, rfl, ?_⟩)
      by_contra hu
      exact htake ⟨⟨irq, by omega⟩, rfl, by simpa using hu⟩
  have ⟨hrun, hresult⟩ := IrqCall.register_refused (t := s.lines) key hused
  simp only [uacpiKernelInstallInterruptHandler, hlt, dif_pos, Nat.mod_eq_of_lt hlt, hrun, hresult]

/-- **No install is effective or refused**: in every state that installs and registrations
reach no delivery calls a uACPI handler, and no install there keeps the promise, whatever
line, handler and context it is for. -/
theorem install_not_effective (hrun : InstallRun trampoline initial s) :
    (∀ num frame, s.deliver trampoline num frame = none) ∧
    ∀ irq irqHandler ctx key, ¬ s.EffectiveOrRefused trampoline irq irqHandler ctx key := by
  have hs : s.AllMasked := hrun.allMasked initial_allMasked
  refine ⟨deliver_of_allMasked hs, fun irq irqHandler ctx key hp => ?_⟩
  by_cases htake : s.Takeable irq
  · -- the line is free, and masked once it is taken
    obtain ⟨num, hnum, -⟩ := htake
    have hlt : irq < 256 := by omega
    obtain ⟨s', out, hcall⟩ : ∃ s' out,
        s.uacpiKernelInstallInterruptHandler trampoline irq irqHandler ctx key = .ok (.ok, out, s') := by
      simp [uacpiKernelInstallInterruptHandler, hlt]
    have hs' : s'.AllMasked := (InstallRun.refl.install hcall).allMasked hs
    obtain ⟨num, -, hdeliver⟩ := hp.effective out s' hcall s' .refl
    have hnone : s'.deliver trampoline num 0 = none := deliver_of_allMasked hs' num 0
    rw [hdeliver 0] at hnone
    exact absurd hnone (by simp)
  · -- it is not, and the status is the same
    obtain ⟨status, out, s', hcall, hne, -⟩ := hp.refused htake
    exact hne (lines_install hcall).2.1

/-- Line 9, where firmware puts the interrupt of ACPI: reported installed, and masked. -/
theorem sci_not_effective :
    (∃ s', initial.uacpiKernelInstallInterruptHandler 1 9 5 7 3 = .ok (.ok, 3, s') ∧
      s'.deliver 1 9 0 = none) ∧ ¬ initial.EffectiveOrRefused 1 9 5 7 3 := by
  obtain ⟨s', hcall⟩ : ∃ s', initial.uacpiKernelInstallInterruptHandler 1 9 5 7 3 = .ok (.ok, 3, s') :=
    ⟨_, rfl⟩
  have hs' : s'.AllMasked := (InstallRun.refl.install hcall).allMasked initial_allMasked
  have hnone : s'.deliver 1 9 0 = none := deliver_of_allMasked hs' 9 0
  refine ⟨⟨s', hcall, hnone⟩, fun hp => ?_⟩
  obtain ⟨num, hnum, hdeliver⟩ := hp.effective 3 s' hcall s' .refl
  obtain rfl : num = 9 := Fin.ext hnum
  rw [hdeliver 0] at hnone
  exact absurd hnone (by simp)

theorem sci_run : ∃ s, InstallRun 1 initial s ∧ (s.lines 9).used = true := by
  obtain ⟨s, hcall⟩ : ∃ s, initial.uacpiKernelInstallInterruptHandler 1 9 5 7 3 = .ok (.ok, 3, s) :=
    ⟨_, rfl⟩
  refine ⟨s, InstallRun.refl.install hcall, ?_⟩
  rw [(lines_install hcall).2.2]
  decide

/-- A second install on the line, over the live first one. -/
theorem install_not_effective_sci : ∃ s : UacpiIrqs, (s.lines 9).used = true ∧
    (∀ num frame, s.deliver 1 num frame = none) ∧ ¬ s.EffectiveOrRefused 1 9 6 8 4 := by
  obtain ⟨s, hrun, hu⟩ := sci_run
  exact ⟨s, hu, (install_not_effective hrun).1, (install_not_effective hrun).2 9 6 8 4⟩

/-! ## With the line unmasked -/

/-- **The missing call**: on a free line the handler is reached once `unmask_irq` has had the
returned key. -/
theorem deliver_installed {num : Fin 16} {irqHandler ctx key out : Nat} (ht : trampoline ≠ 0)
    (hh : irqHandler ≠ 0) (hu : (s.lines num).used = false)
    (hcall : s.uacpiKernelInstallInterruptHandler trampoline num irqHandler ctx key = .ok (.ok, out, s'))
    (frame : Nat) :
    deliver trampoline { s' with lines := IrqCall.run s'.lines (.unmask num out) } num frame =
      some ⟨irqHandler, ctx⟩ := by
  have hlt : (num : Nat) < 256 := by omega
  have hmod : (num : Nat) % 256 = num := Nat.mod_eq_of_lt hlt
  have hself : Fin.ofNat 256 num = ⟨num, hlt⟩ := Fin.ext hmod
  simp only [uacpiKernelInstallInterruptHandler, hlt, dif_pos, Except.ok.injEq, Prod.mk.injEq, true_and,
    hmod] at hcall
  obtain ⟨rfl, rfl⟩ := hcall
  have hline := IrqCall.register_of_free key ht hu
  have hopen : IrqCall.run (IrqCall.run s.lines (.register num trampoline key))
      (.unmask num key) num = ⟨key, num, trampoline, true, false⟩ := by
    rw [IrqCall.run_of_eq _ (c := .unmask num key) (i := num) rfl, IrqCall.stores, hline,
      IrqEntry.assignAll_unmaskIrq, if_pos rfl]
  rw [IrqCall.registerResult_of_free key ht hu]
  have hstub : irqStubHandler num (IrqCall.run (IrqCall.run s.lines
      (.register num trampoline key)) (.unmask num key)) frame = some ⟨trampoline, num, frame⟩ :=
    irqStubHandler_eq_some.mpr ⟨by rw [hopen], by rw [hopen], by rw [hopen]⟩
  simp only [deliver, hstub, Option.bind_some, if_true, hself, irqTrampoline, Function.update_self,
    if_pos hh]

end UacpiIrqs

end HelixKernel
