import HelixKernel.Extra.Mutex
import HelixKernel.Extra.UacpiEvent

/-!
# Waits with a timeout (`kernel/src/extra/uacpi/uacpi_kernel_wrapper.cpp`)

`kernel_api.h` gives a wait for a mutex or an event a number of milliseconds, of which only 0xFFFF
is without end.  The wrapper passes no timeout on to `mutex_lock`, and for an event it tells 0 from
the others and has the same loop for all of these.  While nobody else changes it, the word that
such a loop reads stays what it is.

    timed_waits_end   an acquire is as it should be exactly of a mutex that is free, and a wait
                      exactly for an event that is signalled, or with timeout 0 -/

namespace HelixKernel

/-- What `uacpi_kernel_acquire_mutex` returns: `UACPI_STATUS_OK`, or `UACPI_STATUS_TIMEOUT`. -/
inductive AcquireStatus where
  | ok
  | timeout
deriving DecidableEq, Repr

/-! ## The loops, with a number of rounds -/

/-- The accesses of a context that is alone, and the words they leave. -/
def runAlone : Nat → List LockInstr → (Nat → Bool) → Option (Nat → Bool)
  | _, [], locked => some locked
  | 0, _ :: _, _ => none
  | rounds + 1, i :: rest, locked =>
    match i.access locked with
    | some locked => runAlone rounds rest locked
    | none => runAlone rounds (i :: rest) locked

/-- `uacpi_kernel_acquire_mutex(mutex, timeout)`: the status and the words. -/
def acquireMutexAlone (rounds : Nat) (locked : Nat → Bool) (mutex timeout : Nat) :
    Option (AcquireStatus × (Nat → Bool)) := do
  let locked ← runAlone rounds (uacpiKernelAcquireMutex mutex timeout) locked
  some (.ok, locked)

/-- `while (!e->signaled) pause;` -/
def spinSignaled (h : Heap UacpiEvent) (handle : Nat) : Nat → Except HeapFault Unit
  | 0 => .error .diverges
  | rounds + 1 => do
    let e ← h.load handle
    if !e.signaled then spinSignaled h handle rounds else .ok ()

/-- `uacpi_kernel_wait_for_event(handle, timeout)`: the result and the events. -/
def waitForEventAlone (rounds : Nat) (h : Heap UacpiEvent) (handle timeout : Nat) :
    Except HeapFault (Bool × Heap UacpiEvent) :=
  if handle = 0 then .ok (false, h)
  else if timeout = 0 then do
    let e ← h.load handle
    .ok (e.signaled, h)
  else if timeout = 0xFFFF then do
    spinSignaled h handle rounds
    .ok (true, h)
  else do
    spinSignaled h handle rounds
    .ok (true, h)

/-! ## What is asked of them -/

/-- An acquire returns, and of a held mutex it returns that its time is over and leaves it. -/
def AcquireEnds (locked : Nat → Bool) (mutex timeout : Nat) : Prop :=
  ∃ rounds status locked', acquireMutexAlone rounds locked mutex timeout = some (status, locked') ∧
    (locked mutex = true → status = .timeout ∧ locked' mutex = locked mutex)

/-- A wait returns, and for an event that is not signalled it returns false and leaves it. -/
def WaitEnds (h : Heap UacpiEvent) (e timeout : Nat) : Prop :=
  ∃ rounds result h', waitForEventAlone rounds h e timeout = .ok (result, h') ∧
    (h.block e = some ⟨false⟩ → result = false ∧ h'.block e = h.block e)

/-! ## Mutexes -/

variable {locked : Nat → Bool} {mutex timeout : Nat} {rest : List LockInstr}

/-- A free mutex is taken in two accesses. -/
theorem acquire_free (hfree : locked mutex = false) :
    acquireMutexAlone 2 locked mutex timeout = some (.ok, Function.update locked mutex true) := by
  simp [acquireMutexAlone, uacpiKernelAcquireMutex, mutexLock, runAlone, LockInstr.access, hfree]

/-- The loop reads the same word again and again. -/
theorem spin_held (hheld : locked mutex = true) (rounds : Nat) :
    runAlone rounds (.spin mutex :: rest) locked = none := by
  induction rounds with
  | zero => rfl
  | succ rounds ih =>
    have haccess : (LockInstr.spin mutex).access locked = none := if_pos hheld
    rw [runAlone, haccess]
    exact ih

theorem acquire_held (hheld : locked mutex = true) (rounds : Nat) :
    acquireMutexAlone rounds locked mutex timeout = none := by
  unfold acquireMutexAlone uacpiKernelAcquireMutex mutexLock
  rw [spin_held hheld]
  rfl

theorem acquireEnds_iff : AcquireEnds locked mutex timeout ↔ locked mutex = false := by
  constructor
  · rintro ⟨rounds, status, locked', hrun, -⟩
    by_contra hheld
    rw [acquire_held (by simpa using hheld)] at hrun
    cases hrun
  · intro hfree
    refine ⟨2, .ok, _, acquire_free hfree, fun hheld => ?_⟩
    rw [hfree] at hheld
    cases hheld

/-- **A context that is alone** runs as one of those of `Locker.Move` while the others stay where
they are. -/
theorem reaches_of_runAlone {ι : Type} {l rounds : Nat} {locked' : Nat → Bool} {i : ι}
    {s : Contexts ι (Nat → Bool) Locker} (hi : s.loc i = .locking rest)
    (hrun : runAlone rounds rest s.shared = some locked') :
    ∃ s', Contexts.Reaches (Locker.Move l) (fun _ _ _ => True) s s' ∧ s'.shared = locked' ∧
      s'.loc i = .locking [] ∧ ∀ j, j ≠ i → s'.loc j = s.loc j := by
  classical
  induction rounds generalizing s rest with
  | zero =>
    cases rest with
    | nil => exact ⟨s, .refl, Option.some.inj hrun, hi, fun _ _ => rfl⟩
    | cons instr rest => cases hrun
  | succ rounds ih =>
    cases rest with
    | nil => exact ⟨s, .refl, Option.some.inj hrun, hi, fun _ _ => rfl⟩
    | cons instr rest =>
      rw [runAlone] at hrun
      cases haccess : instr.access s.shared with
      | none =>
        rw [haccess] at hrun
        exact ih hi hrun
      | some locked₁ =>
        rw [haccess] at hrun
        have hstep : Contexts.Step (Locker.Move l) i s (s.set i locked₁ (.locking rest)) := by
          refine Contexts.step_set ?_
          rw [hi]
          exact .lock haccess
        obtain ⟨s', hreach, hshared, hloc, hothers⟩ := ih Contexts.set_loc_self hrun
        have hfirst := Contexts.Reaches.single (Q := fun _ _ _ => True) (fun _ _ => trivial) hstep
        refine ⟨s', hfirst.trans hreach, hshared, hloc, fun j hj => ?_⟩
        rw [hothers j hj, Contexts.set_loc_of_ne hj]

/-! ## Events -/

variable {h : Heap UacpiEvent} {e : Nat} {b : UacpiEvent}

theorem spin_signaled (hb : h.block e = some b) (hs : b.signaled = true) (rounds : Nat) :
    spinSignaled h e (rounds + 1) = .ok () := by
  rw [spinSignaled, Heap.load_of_block hb]
  show (if !b.signaled then _ else _) = _
  rw [hs]
  rfl

theorem spin_unsignaled (hb : h.block e = some b) (hs : b.signaled = false) (rounds : Nat) :
    spinSignaled h e rounds = .error .diverges := by
  induction rounds with
  | zero => rfl
  | succ rounds ih =>
    rw [spinSignaled, Heap.load_of_block hb]
    show (if !b.signaled then spinSignaled h e rounds else _) = _
    rw [hs]
    exact ih

theorem wait_zero (he0 : e ≠ 0) (hb : h.block e = some b) (rounds : Nat) :
    waitForEventAlone rounds h e 0 = .ok (b.signaled, h) := by
  unfold waitForEventAlone
  rw [if_neg he0, if_pos rfl, Heap.load_of_block hb]
  rfl

/-- All other timeouts are one. -/
theorem wait_spin (he0 : e ≠ 0) (ht : timeout ≠ 0) (rounds : Nat) :
    waitForEventAlone rounds h e timeout =
      (spinSignaled h e rounds >>= fun _ => .ok (true, h)) := by
  unfold waitForEventAlone
  rw [if_neg he0, if_neg ht, ite_self]

/-- One round is enough, and where it is not there is no end. -/
theorem waitForEventAlone_eq (rounds : Nat) :
    waitForEventAlone (rounds + 1) h e timeout =
      (uacpiKernelWaitForEvent h e timeout).map fun result => (result, h) := by
  unfold uacpiKernelWaitForEvent
  by_cases he0 : e = 0
  · subst he0
    rfl
  · rw [if_neg he0]
    cases hb : h.block e with
    | none =>
      have hload : h.load e = .error (.access e) := by simp [Heap.load, hb]
      unfold waitForEventAlone spinSignaled
      rw [hload, if_neg he0, ite_self]
      split <;> rfl
    | some b =>
      rw [Heap.load_of_block hb]
      by_cases ht : timeout = 0
      · subst ht
        rw [wait_zero he0 hb]
        rfl
      · rw [wait_spin he0 ht]
        show _ = Except.map _ (if timeout = 0 then _ else if b.signaled = true then _ else _)
        rw [if_neg ht]
        cases hs : b.signaled with
        | true =>
          rw [spin_signaled hb hs]
          rfl
        | false =>
          rw [spin_unsignaled hb hs]
          rfl

theorem waitEnds_iff (he0 : e ≠ 0) (hb : h.block e = some b) :
    WaitEnds h e timeout ↔ b.signaled = true ∨ timeout = 0 := by
  constructor
  · rintro ⟨rounds, result, h', hrun, -⟩
    by_contra hnot
    obtain ⟨hs, ht⟩ := not_or.mp hnot
    rw [wait_spin he0 ht, spin_unsignaled hb (by simpa using hs)] at hrun
    cases hrun
  · rintro (hs | rfl)
    · have hwait : uacpiKernelWaitForEvent h e timeout = .ok true := by
        simp [uacpiKernelWaitForEvent, he0, Heap.load_of_block hb, hs]
      refine ⟨1, true, h, ?_, fun hunset => ?_⟩
      · rw [waitForEventAlone_eq, hwait]
        rfl
      · obtain rfl : b = ⟨false⟩ := Option.some.inj (hb.symm.trans hunset)
        cases hs
    · refine ⟨0, b.signaled, h, wait_zero he0 hb 0, fun hunset => ⟨?_, rfl⟩⟩
      obtain rfl : b = ⟨false⟩ := Option.some.inj (hb.symm.trans hunset)
      rfl

/-- **Waits with a timeout**, of any state of a mutex and an event that nobody else changes. -/
theorem timed_waits_end (locked : Nat → Bool) (mutex : Nat) (h : Heap UacpiEvent) (e : Nat)
    (b : UacpiEvent) (timeout : Nat) (he0 : e ≠ 0) (hb : h.block e = some b) :
    (AcquireEnds locked mutex timeout ↔ locked mutex = false) ∧
      (WaitEnds h e timeout ↔ b.signaled = true ∨ timeout = 0) :=
  ⟨acquireEnds_iff, waitEnds_iff he0 hb⟩

/-- A free mutex, and an event that is not signalled with timeout 0. -/
theorem timed_waits_end_free :
    (AcquireEnds (fun _ => false) 8 0 ↔ false = false) ∧
      (WaitEnds (Heap.empty.set 16 (some ⟨false⟩)) 16 0 ↔ false = true ∨ 0 = 0) :=
  timed_waits_end (fun _ => false) 8 (Heap.empty.set 16 (some ⟨false⟩)) 16 ⟨false⟩ 0 (by decide)
    (Heap.set_block_self _ _ _)

/-- **A held mutex, and one millisecond for an event that is not signalled.** -/
theorem held_mutex_waits_on :
    ¬ AcquireEnds (fun _ => true) 8 1 ∧
      ¬ WaitEnds (Heap.empty.set 16 (some ⟨false⟩)) 16 1 := by
  constructor
  · rw [acquireEnds_iff]
    decide
  · rw [waitEnds_iff (b := ⟨false⟩) (by decide) (Heap.set_block_self _ _ _)]
    decide

end HelixKernel
