import Mathlib.Data.Finset.Basic
import Mathlib.Logic.Relation
import Mathlib.Tactic.Common

/-!
# Spinlocks and interrupts (`kernel/src/extra/uacpi/uacpi_kernel_wrapper.cpp`, `kernel/src/mutex`)

One CPU.  A spinlock is a mutex, and a mutex is a word that `mutex_lock` spins on; nothing
clears the interrupt flag.  An interrupt runs its handler to completion with the flag 0, and
`iretq` puts the flag back.

The accesses are those of the source.  The word is not volatile and the loop on it is empty, so a
compiler may drop the loop, as GCC does with -O2.

    spinlocks_safe   no handler waits for a lock of the code it interrupted exactly as long as
                     no interrupt whose handler locks one arrives while it is held -/

namespace HelixKernel

/-- What the calls do to the word of the mutex `l`, one access at a time. -/
inductive LockInstr where
  /-- `while (locked);`, which reads again until it reads false -/
  | spin (l : Nat)
  /-- `locked = true` -/
  | set (l : Nat)
  /-- `locked = false` -/
  | clear (l : Nat)
deriving DecidableEq, Repr

def mutexLock (l : Nat) : List LockInstr := [.spin l, .set l]

def mutexUnlock (l : Nat) : List LockInstr := [.clear l]

def uacpiKernelAcquireMutex (mutex _timeout : Nat) : List LockInstr := mutexLock mutex

def uacpiKernelReleaseMutex (mutex : Nat) : List LockInstr := mutexUnlock mutex

/-- It returns the flags 0. -/
def uacpiKernelLockSpinlock (spinlock : Nat) : List LockInstr := uacpiKernelAcquireMutex spinlock 0xFFFF

def uacpiKernelUnlockSpinlock (spinlock _flags : Nat) : List LockInstr :=
  uacpiKernelReleaseMutex spinlock

inductive LockOp where
  | lock (l : Nat)
  | unlock (l : Nat)
deriving DecidableEq, Repr

/-- A program of calls, each `unlock` with the flags that `lock` returned. -/
def code : List LockOp → List LockInstr
  | [] => []
  | .lock l :: ops => uacpiKernelLockSpinlock l ++ code ops
  | .unlock l :: ops => uacpiKernelUnlockSpinlock l 0 ++ code ops

/-- It locks what it does not hold, unlocks what it holds, and ends with nothing held. -/
def Paired (held : Finset Nat) : List LockOp → Prop
  | [] => held = ∅
  | .lock l :: ops => l ∉ held ∧ Paired (insert l held) ops
  | .unlock l :: ops => l ∈ held ∧ Paired (held.erase l) ops

/-- Running code: the instructions left, the locks it holds, and the flag before it locked the
first of these. -/
structure Context where
  rest : List LockInstr
  held : Finset Nat
  before : Bool

/-- One instruction; `none` at the end and while it spins. -/
def Context.step (c : Context) (locked : Nat → Bool) (flag : Bool) : Option ((Nat → Bool) × Context) :=
  match c.rest with
  | [] => none
  | .spin l :: rest =>
    if locked l then none
    else some (locked, ⟨rest, c.held, if c.held = ∅ then flag else c.before⟩)
  | .set l :: rest => some (Function.update locked l true, ⟨rest, insert l c.held, c.before⟩)
  | .clear l :: rest => some (Function.update locked l false, ⟨rest, c.held.erase l, c.before⟩)

/-- The words of the mutexes, the interrupt flag, the mainline code, the handler that runs, if
any, and the flag it will return to. -/
structure SpinCpu where
  locked : Nat → Bool
  flag : Bool
  main : Context
  handler : Option Context
  saved : Bool

namespace SpinCpu

def start (ops : List LockOp) : SpinCpu := ⟨fun _ => false, true, ⟨code ops, ∅, true⟩, none, true⟩

def stepMain (s : SpinCpu) : Option SpinCpu :=
  if s.handler.isSome then none
  else (s.main.step s.locked s.flag).map fun r => { s with locked := r.1, main := r.2 }

def stepHandler (s : SpinCpu) : Option SpinCpu :=
  s.handler.bind fun c => (c.step s.locked s.flag).map fun r =>
    { s with locked := r.1, handler := some r.2 }

/-- The interrupt gate clears the flag. -/
def interrupt (s : SpinCpu) (ops : List LockOp) : SpinCpu :=
  { s with flag := false, saved := s.flag, handler := some ⟨code ops, ∅, false⟩ }

/-- `iretq` -/
def iret (s : SpinCpu) : SpinCpu := { s with flag := s.saved, handler := none }

/-- Where mainline code `ops` can get, each interrupt that arrives satisfying `P`. -/
inductive Run (P : SpinCpu → List LockOp → Prop) (ops : List LockOp) : SpinCpu → Prop where
  | start : Run P ops (start ops)
  | main {s s' : SpinCpu} : Run P ops s → s.stepMain = some s' → Run P ops s'
  | interrupt {s : SpinCpu} {isr : List LockOp} : Run P ops s → s.handler = none →
      s.flag = true → P s isr → Run P ops (s.interrupt isr)
  | handler {s s' : SpinCpu} : Run P ops s → s.stepHandler = some s' → Run P ops s'
  | iret {s : SpinCpu} {c : Context} : Run P ops s → s.handler = some c → c.rest = [] →
      Run P ops s.iret

/-- A handler waits for a lock that the code it interrupted holds. -/
def Stuck (s : SpinCpu) : Prop :=
  ∃ c l rest, s.handler = some c ∧ c.rest = .spin l :: rest ∧ s.locked l = true ∧ l ∈ s.main.held

/-- No handler is stuck, and an outermost unlock leaves the flag as it was before the lock. -/
structure Safe (s : SpinCpu) : Prop where
  not_stuck : ¬ s.Stuck
  main_flag : ∀ s', s.stepMain = some s' → s.main.held ≠ ∅ → s'.main.held = ∅ →
    s'.flag = s.main.before
  handler_flag : ∀ s' c c', s.stepHandler = some s' → s.handler = some c → s'.handler = some c' →
    c.held ≠ ∅ → c'.held = ∅ → s'.flag = c.before

/-- The handler `isr` locks nothing that is held where it arrives. -/
def NoSharedLock (s : SpinCpu) (isr : List LockOp) : Prop := ∀ l, .lock l ∈ isr → l ∉ s.main.held

/-! ## Steps -/

variable {s s' : SpinCpu} {c : Context} {ops isr : List LockOp}
  {P : SpinCpu → List LockOp → Prop}

/-- What one instruction does. -/
theorem step_cases {locked : Nat → Bool} {flag : Bool} {r : (Nat → Bool) × Context}
    (h : c.step locked flag = some r) :
    (∃ l rest, c.rest = .spin l :: rest ∧ locked l = false ∧
      r = (locked, ⟨rest, c.held, if c.held = ∅ then flag else c.before⟩)) ∨
    (∃ l rest, c.rest = .set l :: rest ∧
      r = (Function.update locked l true, ⟨rest, insert l c.held, c.before⟩)) ∨
    ∃ l rest, c.rest = .clear l :: rest ∧
      r = (Function.update locked l false, ⟨rest, c.held.erase l, c.before⟩) := by
  unfold Context.step at h
  split at h
  · cases h
  · rename_i l rest hrest
    split at h
    · cases h
    · rename_i hl
      injection h with h
      exact .inl ⟨l, rest, hrest, by simpa using hl, h.symm⟩
  · rename_i l rest hrest
    injection h with h
    exact .inr (.inl ⟨l, rest, hrest, h.symm⟩)
  · rename_i l rest hrest
    injection h with h
    exact .inr (.inr ⟨l, rest, hrest, h.symm⟩)

theorem stepMain_eq_some : s.stepMain = some s' ↔ s.handler = none ∧
    ∃ r, s.main.step s.locked s.flag = some r ∧ s' = { s with locked := r.1, main := r.2 } := by
  unfold stepMain
  cases hh : s.handler with
  | none => simp [eq_comm]
  | some c => simp

theorem stepHandler_eq_some : s.stepHandler = some s' ↔ ∃ c, s.handler = some c ∧
    ∃ r, c.step s.locked s.flag = some r ∧
      s' = { s with locked := r.1, handler := some r.2 } := by
  unfold stepHandler
  cases s.handler <;> simp [eq_comm]

theorem rest_of_step {locked : Nat → Bool} {flag : Bool} {r : (Nat → Bool) × Context}
    (h : c.step locked flag = some r) : ∃ i, c.rest = i :: r.2.rest := by
  rcases step_cases h with ⟨l, rest, hrest, -, rfl⟩ | ⟨l, rest, hrest, rfl⟩ | ⟨l, rest, hrest, rfl⟩
  · exact ⟨_, hrest⟩
  · exact ⟨_, hrest⟩
  · exact ⟨_, hrest⟩

theorem before_of_step {locked : Nat → Bool} {flag : Bool} {r : (Nat → Bool) × Context}
    (h : c.step locked flag = some r) (hb : c.before = flag) : r.2.before = flag := by
  rcases step_cases h with ⟨l, rest, -, -, rfl⟩ | ⟨l, rest, -, rfl⟩ | ⟨l, rest, -, rfl⟩
  · show (if c.held = ∅ then flag else c.before) = flag
    rw [hb, ite_self]
  · exact hb
  · exact hb

theorem spin_mem_code {l : Nat} : LockInstr.spin l ∈ code isr ↔ .lock l ∈ isr := by
  induction isr with
  | nil => simp [code]
  | cons op isr ih =>
    cases op with
    | lock m =>
      simp [code, uacpiKernelLockSpinlock, uacpiKernelAcquireMutex, mutexLock, ih]
    | unlock m =>
      simp [code, uacpiKernelUnlockSpinlock, uacpiKernelReleaseMutex, mutexUnlock, ih]

/-! ## The flag -/

/-- The flag is 1 in mainline code and 0 in a handler. -/
structure Flags (s : SpinCpu) : Prop where
  main : s.main.before = true
  idle : s.handler = none → s.flag = true
  busy : ∀ c, s.handler = some c → s.flag = false ∧ s.saved = true ∧ c.before = false

theorem Flags.stepMain (h : s.Flags) (hstep : s.stepMain = some s') : s'.Flags := by
  obtain ⟨hnone, r, hr, rfl⟩ := stepMain_eq_some.mp hstep
  have hflag := h.idle hnone
  have hbefore := before_of_step hr (h.main.trans hflag.symm)
  exact ⟨hbefore.trans hflag, h.idle, h.busy⟩

theorem Flags.stepHandler (h : s.Flags) (hstep : s.stepHandler = some s') : s'.Flags := by
  obtain ⟨c, hc, r, hr, rfl⟩ := stepHandler_eq_some.mp hstep
  obtain ⟨hflag, hsaved, hb⟩ := h.busy c hc
  refine ⟨h.main, (fun hnone => by cases hnone), fun c' hc' => ?_⟩
  injection hc' with hc'
  subst hc'
  exact ⟨hflag, hsaved, (before_of_step hr (hb.trans hflag.symm)).trans hflag⟩

theorem Run.flags (h : Run P ops s) : s.Flags := by
  induction h with
  | start => exact ⟨rfl, fun _ => rfl, fun c hc => by cases hc⟩
  | main h hstep ih => exact ih.stepMain hstep
  | interrupt h hnone hflag hp ih =>
    refine ⟨ih.main, (fun hh => by cases hh), fun c hc => ?_⟩
    injection hc with hc
    subst hc
    exact ⟨rfl, hflag, rfl⟩
  | handler h hstep ih => exact ih.stepHandler hstep
  | iret h hc hrest ih => exact ⟨ih.main, fun _ => (ih.busy _ hc).2.1, fun c hc => by cases hc⟩

/-! ## Locks apart -/

/-- What the handler has still to lock is not held by the code it interrupted. -/
def Apart (s : SpinCpu) : Prop :=
  ∀ c, s.handler = some c → ∀ l, .spin l ∈ c.rest → l ∉ s.main.held

theorem Apart.stepHandler (h : s.Apart) (hstep : s.stepHandler = some s') : s'.Apart := by
  obtain ⟨c, hc, r, hr, rfl⟩ := stepHandler_eq_some.mp hstep
  obtain ⟨i, hi⟩ := rest_of_step hr
  intro c' hc' l hl
  injection hc' with hc'
  subst hc'
  exact h c hc l (by rw [hi]; exact List.mem_cons_of_mem _ hl)

theorem NoSharedLock.apart (h : s.NoSharedLock isr) : (s.interrupt isr).Apart := by
  intro c hc l hl
  injection hc with hc
  subst hc
  exact h l (spin_mem_code.mp hl)

theorem Run.apart (hP : ∀ s isr, P s isr → s.NoSharedLock isr) (h : Run P ops s) : s.Apart := by
  induction h with
  | start => intro c hc; cases hc
  | main h hstep ih =>
    obtain ⟨hnone, r, -, rfl⟩ := stepMain_eq_some.mp hstep
    intro c hc
    exact absurd (hnone.symm.trans hc) (by simp)
  | interrupt h hnone hflag hp ih => exact (hP _ _ hp).apart
  | handler h hstep ih => exact ih.stepHandler hstep
  | iret h hc hrest ih => intro c hc; cases hc

theorem Apart.not_stuck (h : s.Apart) : ¬ s.Stuck := by
  rintro ⟨c, l, rest, hc, hrest, -, hl⟩
  exact h c hc l (by rw [hrest]; exact List.mem_cons_self) hl

theorem Safe.of_flags (hf : s.Flags) (ha : ¬ s.Stuck) : s.Safe := by
  refine ⟨ha, fun s' hstep _ _ => ?_, fun s' c c' hstep hc hc' _ _ => ?_⟩
  · obtain ⟨hnone, r, -, rfl⟩ := stepMain_eq_some.mp hstep
    exact (hf.idle hnone).trans hf.main.symm
  · obtain ⟨c'', hc'', r, -, rfl⟩ := stepHandler_eq_some.mp hstep
    obtain ⟨hflag, -, hb⟩ := hf.busy c hc
    exact hflag.trans hb.symm

/-! ## Handlers that meet a held lock -/

/-- Where a handler of paired calls is: between two calls, or past the spin of a lock. -/
def Position (locked : Nat → Bool) (c : Context) : Prop :=
  (∃ isr, c.rest = code isr ∧ Paired c.held isr) ∨
    ∃ l isr, c.rest = .set l :: code isr ∧ locked l = false ∧ Paired (insert l c.held) isr

/-- The words say what is held, and not twice. -/
structure Words (s : SpinCpu) : Prop where
  idle : s.handler = none → ∀ l, s.locked l = true ↔ l ∈ s.main.held
  busy : ∀ c, s.handler = some c →
    (∀ l, s.locked l = true ↔ l ∈ s.main.held ∨ l ∈ c.held) ∧ Disjoint s.main.held c.held ∧
      Position s.locked c

theorem Words.stepMain (h : s.Words) (hstep : s.stepMain = some s') : s'.Words := by
  obtain ⟨hnone, r, hr, rfl⟩ := stepMain_eq_some.mp hstep
  have hw := h.idle hnone
  refine ⟨fun _ l => ?_, fun c hc => absurd (hnone.symm.trans hc) (by simp)⟩
  rcases step_cases hr with ⟨m, rest, -, -, rfl⟩ | ⟨m, rest, -, rfl⟩ | ⟨m, rest, -, rfl⟩
  · exact hw l
  · by_cases hl : l = m
    · simp [hl]
    · simp [hl, hw l]
  · by_cases hl : l = m
    · simp [hl]
    · simp [hl, hw l]

/-- What an instruction of a handler's own calls is followed by. -/
def Following (locked : Nat → Bool) (c : Context) (rest : List LockInstr) : LockInstr → Prop
  | .spin l => ∃ isr, rest = .set l :: code isr ∧ l ∉ c.held ∧ Paired (insert l c.held) isr
  | .set l => ∃ isr, rest = code isr ∧ locked l = false ∧ Paired (insert l c.held) isr
  | .clear l => ∃ isr, rest = code isr ∧ l ∈ c.held ∧ Paired (c.held.erase l) isr

theorem Position.following {locked : Nat → Bool} {i : LockInstr} {rest : List LockInstr}
    (h : Position locked c) (hrest : c.rest = i :: rest) : Following locked c rest i := by
  rcases h with ⟨isr, hcode, hp⟩ | ⟨l, isr, hcode, hl, hp⟩
  · rw [hrest] at hcode
    cases isr with
    | nil => cases hcode
    | cons op isr =>
      cases op with
      | lock l =>
        obtain ⟨rfl, rfl⟩ : i = .spin l ∧ rest = .set l :: code isr := List.cons.inj hcode
        exact ⟨isr, rfl, hp⟩
      | unlock l =>
        obtain ⟨rfl, rfl⟩ : i = .clear l ∧ rest = code isr := List.cons.inj hcode
        exact ⟨isr, rfl, hp⟩
  · rw [hrest] at hcode
    obtain ⟨rfl, rfl⟩ : i = .set l ∧ rest = code isr := List.cons.inj hcode
    exact ⟨isr, rfl, hl, hp⟩

theorem Words.stepHandler (h : s.Words) (hstep : s.stepHandler = some s') : s'.Words := by
  obtain ⟨c, hc, r, hr, rfl⟩ := stepHandler_eq_some.mp hstep
  obtain ⟨hw, hd, hpos⟩ := h.busy c hc
  refine ⟨(fun hnone => by cases hnone), fun c' hc' => ?_⟩
  injection hc' with hc'
  subst hc'
  rcases step_cases hr with ⟨l, rest, hrest, hl, rfl⟩ | ⟨l, rest, hrest, rfl⟩ | ⟨l, rest, hrest, rfl⟩
  · obtain ⟨isr, hcode, -, hp⟩ := hpos.following hrest
    exact ⟨hw, hd, .inr ⟨l, isr, hcode, hl, hp⟩⟩
  · obtain ⟨isr, hcode, hl, hp⟩ := hpos.following hrest
    have hmain : l ∉ s.main.held := by
      intro hm
      have := (hw l).mpr (.inl hm)
      rw [hl] at this
      cases this
    refine ⟨fun m => ?_, Finset.disjoint_insert_right.mpr ⟨hmain, hd⟩, .inl ⟨isr, hcode, hp⟩⟩
    by_cases hm : m = l
    · simp [hm]
    · simp [hm, hw m]
  · obtain ⟨isr, hcode, hl, hp⟩ := hpos.following hrest
    have hmain : l ∉ s.main.held := Finset.disjoint_right.mp hd hl
    refine ⟨fun m => ?_, hd.mono_right (Finset.erase_subset _ _), .inl ⟨isr, hcode, hp⟩⟩
    by_cases hm : m = l
    · simp [hm, hmain]
    · simp [hm, hw m]

theorem code_eq_nil : code isr = [] ↔ isr = [] := by
  cases isr with
  | nil => simp [code]
  | cons op isr =>
    cases op <;> simp [code, uacpiKernelLockSpinlock, uacpiKernelAcquireMutex, mutexLock,
      uacpiKernelUnlockSpinlock, uacpiKernelReleaseMutex, mutexUnlock]

/-- A handler that has ended holds nothing. -/
theorem Position.held_of_end {locked : Nat → Bool} (h : Position locked c) (hrest : c.rest = []) :
    c.held = ∅ := by
  rcases h with ⟨isr, hcode, hp⟩ | ⟨l, isr, hcode, -⟩
  · obtain rfl : isr = [] := code_eq_nil.mp (hcode.symm.trans hrest)
    exact hp
  · rw [hrest] at hcode
    cases hcode

theorem Words.interrupt (h : s.Words) (hnone : s.handler = none) (hp : Paired ∅ isr) :
    (s.interrupt isr).Words := by
  refine ⟨(fun hh => by cases hh), fun c hc => ?_⟩
  injection hc with hc
  subst hc
  refine ⟨fun l => ?_, Finset.disjoint_empty_right _, .inl ⟨isr, rfl, hp⟩⟩
  show s.locked l = true ↔ l ∈ s.main.held ∨ l ∈ (∅ : Finset Nat)
  simpa using h.idle hnone l

theorem Run.words (hP : ∀ s isr, P s isr → Paired ∅ isr) (h : Run P ops s) : s.Words := by
  induction h with
  | start => exact ⟨fun _ l => by simp [SpinCpu.start], fun c hc => by cases hc⟩
  | main h hstep ih => exact ih.stepMain hstep
  | interrupt h hnone hflag hp ih => exact ih.interrupt hnone (hP _ _ hp)
  | handler h hstep ih => exact ih.stepHandler hstep
  | iret h hc hrest ih =>
    obtain ⟨hw, -, hpos⟩ := ih.busy _ hc
    refine ⟨fun _ l => ?_, fun c hc => by cases hc⟩
    have := hw l
    rw [hpos.held_of_end hrest] at this
    simpa [SpinCpu.iret] using this

/-- The handler runs on. -/
abbrev HandlerSteps : SpinCpu → SpinCpu → Prop :=
  Relation.ReflTransGen fun s s' => s.stepHandler = some s'

theorem stepHandler_spin {l : Nat} {rest : List LockInstr} (hc : s.handler = some c)
    (hrest : c.rest = .spin l :: rest) (hl : s.locked l = false) :
    s.stepHandler =
      some { s with handler := some ⟨rest, c.held, if c.held = ∅ then s.flag else c.before⟩ } := by
  simp [stepHandler, hc, Context.step, hrest, hl]

theorem stepHandler_set {l : Nat} {rest : List LockInstr} (hc : s.handler = some c)
    (hrest : c.rest = .set l :: rest) :
    s.stepHandler = some { s with
      locked := Function.update s.locked l true
      handler := some ⟨rest, insert l c.held, c.before⟩ } := by
  simp [stepHandler, hc, Context.step, hrest]

/-- Both instructions of a lock that is free. -/
theorem stepHandler_lock {l : Nat} {rest : List LockInstr} (hc : s.handler = some c)
    (hrest : c.rest = .spin l :: .set l :: rest) (hl : s.locked l = false) :
    ∃ s₁ s₂ b, s.stepHandler = some s₁ ∧ s₁.stepHandler = some s₂ ∧
      s₂.handler = some ⟨rest, insert l c.held, b⟩ ∧ s₂.main = s.main :=
  ⟨_, _, _, stepHandler_spin hc hrest hl, stepHandler_set rfl rfl, rfl, rfl⟩

theorem stepHandler_clear {l : Nat} {rest : List LockInstr} (hc : s.handler = some c)
    (hrest : c.rest = .clear l :: rest) :
    s.stepHandler = some { s with
      locked := Function.update s.locked l false
      handler := some ⟨rest, c.held.erase l, c.before⟩ } := by
  simp [stepHandler, hc, Context.step, hrest]

/-- **The handler comes to the lock**: between two calls, with a held lock ahead, it ends up
waiting for one. -/
theorem reaches_stuck (hw : s.Words) (hc : s.handler = some c) (hcode : c.rest = code isr)
    (hp : Paired c.held isr) {l : Nat} (hl : .lock l ∈ isr) (hmain : l ∈ s.main.held) :
    ∃ s', HandlerSteps s s' ∧ s'.Stuck := by
  induction isr generalizing s c with
  | nil => simp at hl
  | cons op isr ih =>
    obtain ⟨hwords, -, -⟩ := hw.busy c hc
    cases op with
    | lock m =>
      have hrest : c.rest = .spin m :: .set m :: code isr := hcode
      by_cases hm : m ∈ s.main.held
      · exact ⟨s, .refl, c, m, _, hc, hrest, (hwords m).mpr (.inl hm), hm⟩
      · -- the lock is free: two instructions take it
        have hfree : s.locked m = false := by
          have hnot : ¬ s.locked m = true := fun h => ((hwords m).mp h).elim hm hp.1
          simpa using hnot
        have hl' : .lock l ∈ isr := by
          rcases List.mem_cons.mp hl with heq | hl
          · injection heq with heq
            exact absurd (heq ▸ hmain) hm
          · exact hl
        obtain ⟨s₁, s₂, b, hspin, hset, hc₂, hmain₂⟩ := stepHandler_lock hc hrest hfree
        have hw₂ := (hw.stepHandler hspin).stepHandler hset
        obtain ⟨s', hsteps, hstuck⟩ := ih hw₂ hc₂ rfl hp.2 hl' (by rw [hmain₂]; exact hmain)
        exact ⟨s', .head hspin (.head hset hsteps), hstuck⟩
    | unlock m =>
      have hl' : .lock l ∈ isr := (List.mem_cons.mp hl).resolve_left (by simp)
      have hclear := stepHandler_clear hc (show c.rest = .clear m :: code isr from hcode)
      obtain ⟨s', hsteps, hstuck⟩ := ih (hw.stepHandler hclear) rfl rfl hp.2 hl' hmain
      exact ⟨s', .head hclear hsteps, hstuck⟩

/-- Apart at the start, apart until it returns. -/
theorem Apart.handlerSteps (h : s.Apart) (hsteps : HandlerSteps s s') : s'.Apart := by
  induction hsteps with
  | refl => exact h
  | tail hsteps hstep ih => exact ih.stepHandler hstep

/-- **Spinlocks and interrupts**: any mainline code and any handlers are safe in every state
they reach, as long as no interrupt arrives whose handler locks what is held there; and where
the calls are paired, the next handler never waits for a lock of the code it interrupts exactly
if it locks nothing that is held. -/
theorem spinlocks_safe (ops : List LockOp) :
    (∀ s, Run NoSharedLock ops s → s.Safe) ∧
    ∀ s, Run (fun s isr => s.NoSharedLock isr ∧ Paired ∅ isr) ops s → s.handler = none →
      ∀ isr, Paired ∅ isr →
        ((∀ s', HandlerSteps (s.interrupt isr) s' → ¬ s'.Stuck) ↔ s.NoSharedLock isr) := by
  constructor
  · intro s h
    exact .of_flags h.flags (h.apart fun _ _ hp => hp).not_stuck
  · intro s h hnone isr hp
    constructor
    · intro hnever l hl hmain
      have hw := (h.words fun _ _ hp => hp.2).interrupt hnone hp
      obtain ⟨s', hsteps, hstuck⟩ := reaches_stuck hw rfl rfl hp hl hmain
      exact hnever s' hsteps hstuck
    · intro hn s' hsteps
      exact (hn.apart.handlerSteps hsteps).not_stuck

/-- A stuck handler spins for ever. -/
theorem Stuck.stays (h : s.Stuck) (hsteps : HandlerSteps s s') : s' = s := by
  induction hsteps with
  | refl => rfl
  | tail hsteps hstep ih =>
    subst ih
    obtain ⟨c, l, rest, hc, hrest, hl, -⟩ := h
    obtain ⟨c', hc', r, hr, -⟩ := stepHandler_eq_some.mp hstep
    obtain rfl : c = c' := Option.some.inj (hc.symm.trans hc')
    simp [Context.step, hrest, hl] at hr

/-! ## Mainline code that locks 8 -/

/-- After the two instructions of the lock. -/
theorem lock_run (P : SpinCpu → List LockOp → Prop) : ∃ s, Run P [.lock 8, .unlock 8] s ∧
    s.handler = none ∧ s.flag = true ∧ s.locked 8 = true ∧ s.main.held = {8} := by
  obtain ⟨s₁, h₁, s₂, h₂, hs₂⟩ : ∃ s₁, (start [.lock 8, .unlock 8]).stepMain = some s₁ ∧
      ∃ s₂, s₁.stepMain = some s₂ ∧ s₂.handler = none ∧ s₂.flag = true ∧ s₂.locked 8 = true ∧
        s₂.main.held = {8} :=
    ⟨_, rfl, _, rfl, rfl, rfl, rfl, rfl⟩
  exact ⟨s₂, .main (.main .start h₁) h₂, hs₂⟩

/-- **An interrupt inside the held region**: its handler, which locks the same spinlock, waits
for code that runs only after it. -/
theorem handler_spins : ∃ s, Run (fun _ isr => Paired ∅ isr) [.lock 8, .unlock 8] s ∧ s.Stuck ∧
    ∀ s', HandlerSteps s s' → s' = s := by
  obtain ⟨s, hrun, hnone, hflag, hlocked, hheld⟩ := lock_run fun _ isr => Paired ∅ isr
  have hstuck : (s.interrupt [.lock 8, .unlock 8]).Stuck :=
    ⟨_, 8, _, rfl, rfl, hlocked, by simp [interrupt, hheld]⟩
  exact ⟨_, .interrupt hrun hnone hflag (by simp [Paired]), hstuck, fun s' => hstuck.stays⟩

/-- A handler that locks another one is safe there. -/
theorem spinlocks_safe_apart : ∃ s, Run NoSharedLock [.lock 8, .unlock 8] s ∧
    s.main.held = {8} ∧ s.handler.isSome ∧ s.Safe := by
  obtain ⟨s, hrun, hnone, hflag, -, hheld⟩ := lock_run NoSharedLock
  have hn : s.NoSharedLock [.lock 9, .unlock 9] := by
    intro l hl
    obtain rfl : l = 9 := by simpa using hl
    simp [hheld]
  have hrun' := Run.interrupt hrun hnone hflag hn
  exact ⟨_, hrun', hheld, rfl, (spinlocks_safe _).1 _ hrun'⟩

end SpinCpu

end HelixKernel
