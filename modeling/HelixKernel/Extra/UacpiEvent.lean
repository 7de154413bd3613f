import HelixKernel.Lib.Heap

/-!
# Events (`kernel/src/extra/uacpi/uacpi_kernel_wrapper.cpp`)

The interface describes an event as a counter of signals: a wait succeeds while it is
positive and takes one off.  The wrapper keeps a flag, which a wait leaves as it is.

    wait_counts         a wait is right exactly if there has been no signal, or fewer waits
                        since the first signal than signals
    counts_iff_counter  a history of right waits is one of the counter -/

namespace HelixKernel

/-- `event` -/
structure UacpiEvent where
  signaled : Bool
deriving DecidableEq, Repr

/-- `uacpi_kernel_create_event()`, `p` being what `malloc` returns. -/
def uacpiKernelCreateEvent (h : Heap UacpiEvent) (p : Nat) : Except HeapFault (Heap UacpiEvent) :=
  if p = 0 then .error (.access 0) else .ok (h.set p (some ⟨false⟩))

def uacpiKernelSignalEvent (h : Heap UacpiEvent) (handle : Nat) : Except HeapFault (Heap UacpiEvent) :=
  if handle ≠ 0 then h.store handle ⟨true⟩ else .ok h

def uacpiKernelResetEvent (h : Heap UacpiEvent) (handle : Nat) : Except HeapFault (Heap UacpiEvent) :=
  if handle ≠ 0 then h.store handle ⟨false⟩ else .ok h

/-- With a timeout it spins until the flag is set, which nobody does meanwhile. -/
def uacpiKernelWaitForEvent (h : Heap UacpiEvent) (handle timeout : Nat) : Except HeapFault Bool :=
  if handle = 0 then .ok false
  else do
    let e ← h.load handle
    if timeout = 0 then .ok e.signaled
    else if e.signaled then .ok true
    else .error .diverges

/-! ## Histories -/

/-- A call that has returned, a wait with its result. -/
inductive EventStep where
  | create (p : Nat)
  | signal (p : Nat)
  | reset (p : Nat)
  | wait (p : Nat) (result : Bool)
deriving DecidableEq, Repr

/-- The history `past`, newest call first, leads to the heap `h`. -/
inductive EventRun : Heap UacpiEvent → List EventStep → Prop where
  | start : EventRun .empty []
  | create {h h' : Heap UacpiEvent} {past : List EventStep} {p : Nat} : EventRun h past → h.Fresh p →
      uacpiKernelCreateEvent h p = .ok h' → EventRun h' (.create p :: past)
  | signal {h h' : Heap UacpiEvent} {past : List EventStep} {p : Nat} : EventRun h past →
      uacpiKernelSignalEvent h p = .ok h' → EventRun h' (.signal p :: past)
  | reset {h h' : Heap UacpiEvent} {past : List EventStep} {p : Nat} : EventRun h past →
      uacpiKernelResetEvent h p = .ok h' → EventRun h' (.reset p :: past)
  | wait {h : Heap UacpiEvent} {past : List EventStep} {p : Nat} {result : Bool} : EventRun h past →
      uacpiKernelWaitForEvent h p 0 = .ok result → EventRun h (.wait p result :: past)

/-- Signals of `e` since it was reset or created. -/
def signals (e : Nat) : List EventStep → Nat
  | [] => 0
  | .create p :: past => if p = e then 0 else signals e past
  | .signal p :: past => if p = e then signals e past + 1 else signals e past
  | .reset p :: past => if p = e then 0 else signals e past
  | .wait .. :: past => signals e past

/-- Waits for `e` since then that returned true. -/
def taken (e : Nat) : List EventStep → Nat
  | [] => 0
  | .create p :: past => if p = e then 0 else taken e past
  | .signal _ :: past => taken e past
  | .reset p :: past => if p = e then 0 else taken e past
  | .wait p result :: past => if p = e ∧ result = true then taken e past + 1 else taken e past

/-- Waits for `e` since the first of these signals, whatever they returned. -/
def waits (e : Nat) : List EventStep → Nat
  | [] => 0
  | .create p :: past => if p = e then 0 else waits e past
  | .signal _ :: past => waits e past
  | .reset p :: past => if p = e then 0 else waits e past
  | .wait p _ :: past => if p = e ∧ 0 < signals e past then waits e past + 1 else waits e past

/-- A wait returns true if and only if the signals exceed the waits that returned true. -/
def WaitRight (e : Nat) (past : List EventStep) (result : Bool) : Prop :=
  result = true ↔ taken e past < signals e past

/-- No signal, or more signals than waits since the first. -/
def Unspent (e : Nat) (past : List EventStep) : Prop :=
  signals e past = 0 ∨ waits e past < signals e past

/-- Every wait for `e` since it was created was right. -/
def Counts (e : Nat) : List EventStep → Prop
  | [] => True
  | .create p :: past => p ≠ e → Counts e past
  | .wait p result :: past => (p = e → WaitRight e past result) ∧ Counts e past
  | _ :: past => Counts e past

/-- Every wait for `e` since then was made where `Unspent` holds. -/
def WaitsUnspent (e : Nat) : List EventStep → Prop
  | [] => True
  | .create p :: past => p ≠ e → WaitsUnspent e past
  | .wait p _ :: past => (p = e → Unspent e past) ∧ WaitsUnspent e past
  | _ :: past => WaitsUnspent e past

/-! ## The counter of the interface -/

/-- A signal adds one, a reset clears it, a wait takes one off if there is one. -/
def counter (e : Nat) : List EventStep → Nat
  | [] => 0
  | .create p :: past => if p = e then 0 else counter e past
  | .signal p :: past => if p = e then counter e past + 1 else counter e past
  | .reset p :: past => if p = e then 0 else counter e past
  | .wait p _ :: past => if p = e then counter e past - 1 else counter e past

/-- Every wait for `e` since it was created returned whether the counter was positive. -/
def FollowsCounter (e : Nat) : List EventStep → Prop
  | [] => True
  | .create p :: past => p ≠ e → FollowsCounter e past
  | .wait p result :: past => (p = e → (result = true ↔ 0 < counter e past)) ∧ FollowsCounter e past
  | _ :: past => FollowsCounter e past

theorem counter_add_taken {e : Nat} {past : List EventStep} (h : FollowsCounter e past) :
    counter e past + taken e past = signals e past := by
  induction past with
  | nil => rfl
  | cons ev past ih =>
    cases ev with
    | create p =>
      by_cases hp : p = e
      · simp [counter, taken, signals, hp]
      · simpa [counter, taken, signals, hp] using ih (h hp)
    | signal p =>
      have := ih h
      by_cases hp : p = e
      · simp only [counter, taken, signals, hp, if_true]
        omega
      · simpa [counter, taken, signals, hp] using this
    | reset p =>
      by_cases hp : p = e
      · simp [counter, taken, signals, hp]
      · simpa [counter, taken, signals, hp] using ih h
    | wait p result =>
      have := ih h.2
      by_cases hp : p = e
      · have hres := h.1 hp
        cases result with
        | false =>
          have h0 : counter e past = 0 := by simpa using hres
          simp only [counter, taken, signals, hp, if_true, reduceCtorEq, and_false, if_false]
          omega
        | true =>
          have hpos : 0 < counter e past := hres.mp rfl
          simp only [counter, taken, signals, hp, if_true, and_self]
          omega
      · simpa [counter, taken, signals, hp] using this

/-- **The documented counter**: the waits are right exactly if they follow it. -/
theorem counts_iff_counter (e : Nat) (past : List EventStep) :
    Counts e past ↔ FollowsCounter e past := by
  induction past with
  | nil => exact Iff.rfl
  | cons ev past ih =>
    cases ev with
    | create p => exact forall_congr' fun _ => ih
    | signal p => exact ih
    | reset p => exact ih
    | wait p result =>
      refine Iff.trans (and_congr_right' ih) (and_congr_left fun hf => forall_congr' fun _ => ?_)
      have := counter_add_taken hf
      unfold WaitRight
      rw [show taken e past < signals e past ↔ 0 < counter e past by omega]

/-! ## The flag -/

/-- The flag of `e` says whether there was a signal, and every wait after it was true. -/
structure Flagged (h : Heap UacpiEvent) (e : Nat) (past : List EventStep) : Prop where
  flag : h.block e = some ⟨decide (0 < signals e past)⟩
  taken_eq : taken e past = waits e past

section

variable {h h' : Heap UacpiEvent} {past : List EventStep} {e p : Nat} {result : Bool}

theorem signalEvent_eq (hp : (h.block p).isSome) (hp0 : p ≠ 0) :
    uacpiKernelSignalEvent h p = .ok (h.set p (some ⟨true⟩)) := by
  simp [uacpiKernelSignalEvent, hp0, Heap.store, hp]

theorem resetEvent_eq (hp : (h.block p).isSome) (hp0 : p ≠ 0) :
    uacpiKernelResetEvent h p = .ok (h.set p (some ⟨false⟩)) := by
  simp [uacpiKernelResetEvent, hp0, Heap.store, hp]

/-- A store to a flag leaves the other events alone. -/
theorem block_of_store {b : UacpiEvent} (hcall : (if p ≠ 0 then h.store p b else .ok h) = .ok h')
    (hne : p ≠ e) : h'.block e = h.block e := by
  by_cases hp0 : p = 0
  · rw [if_neg (by omega)] at hcall
    injection hcall with hcall
    rw [← hcall]
  · rw [if_pos hp0, Heap.store] at hcall
    split at hcall
    · injection hcall with hcall
      rw [← hcall, Heap.set_block_ne _ _ (Ne.symm hne)]
    · injection hcall

theorem waitForEvent_eq {b : UacpiEvent} (he0 : e ≠ 0) (hb : h.block e = some b) :
    uacpiKernelWaitForEvent h e 0 = .ok b.signaled := by
  simp [uacpiKernelWaitForEvent, he0, Heap.load, hb]

/-! ## Runs -/

/-- The call that makes the event. -/
theorem flagged_create (hcall : uacpiKernelCreateEvent h e = .ok h') :
    e ≠ 0 ∧ Flagged h' e (.create e :: past) := by
  unfold uacpiKernelCreateEvent at hcall
  split at hcall
  · injection hcall
  · rename_i he0
    injection hcall with hcall
    subst hcall
    exact ⟨he0, by simp [signals], by simp [taken, waits]⟩

/-- One call keeps the flag and the counts in step. -/
theorem Flagged.create_ne (hf : Flagged h e past) (hp : h.Fresh p)
    (hcall : uacpiKernelCreateEvent h p = .ok h') : Flagged h' e (.create p :: past) := by
  have hne : p ≠ e := by
    rintro rfl
    exact absurd (hp.unused.symm.trans hf.flag) (by simp)
  rw [uacpiKernelCreateEvent, if_neg hp.ne_null] at hcall
  injection hcall with hcall
  subst hcall
  constructor
  · rw [Heap.set_block_ne _ _ (Ne.symm hne), hf.flag, signals, if_neg hne]
  · rw [taken, waits, if_neg hne, if_neg hne, hf.taken_eq]

theorem Flagged.signal (hf : Flagged h e past) (he0 : e ≠ 0)
    (hcall : uacpiKernelSignalEvent h p = .ok h') : Flagged h' e (.signal p :: past) := by
  refine ⟨?_, hf.taken_eq⟩
  by_cases hne : p = e
  · subst hne
    rw [signalEvent_eq (by simp [hf.flag]) he0] at hcall
    injection hcall with hcall
    subst hcall
    simp [signals]
  · rw [block_of_store hcall hne, hf.flag, signals, if_neg hne]

theorem Flagged.reset (hf : Flagged h e past) (he0 : e ≠ 0)
    (hcall : uacpiKernelResetEvent h p = .ok h') : Flagged h' e (.reset p :: past) := by
  by_cases hne : p = e
  · subst hne
    rw [resetEvent_eq (by simp [hf.flag]) he0] at hcall
    injection hcall with hcall
    subst hcall
    exact ⟨by simp [signals], by simp [taken, waits]⟩
  · constructor
    · rw [block_of_store hcall hne, hf.flag, signals, if_neg hne]
    · rw [taken, waits, if_neg hne, if_neg hne, hf.taken_eq]

theorem Flagged.wait_ok (hf : Flagged h e past) (he0 : e ≠ 0) :
    uacpiKernelWaitForEvent h e 0 = .ok (decide (0 < signals e past)) :=
  waitForEvent_eq he0 hf.flag

theorem Flagged.wait (hf : Flagged h e past) (he0 : e ≠ 0)
    (hcall : uacpiKernelWaitForEvent h p 0 = .ok result) :
    Flagged h e (.wait p result :: past) := by
  refine ⟨hf.flag, ?_⟩
  by_cases hne : p = e
  · subst hne
    rw [hf.wait_ok he0] at hcall
    injection hcall with hcall
    subst hcall
    simp [taken, waits, hf.taken_eq]
  · simp [taken, waits, hne, hf.taken_eq]

/-- **The flag of a created event** in every run. -/
theorem EventRun.flagged (hrun : EventRun h past) (he : .create e ∈ past) :
    e ≠ 0 ∧ Flagged h e past := by
  induction hrun with
  | start => simp at he
  | create hrun hp hcall ih =>
    rcases List.mem_cons.mp he with heq | he
    · injection heq with heq
      subst heq
      exact flagged_create hcall
    · exact ⟨(ih he).1, (ih he).2.create_ne hp hcall⟩
  | signal hrun hcall ih =>
    obtain ⟨he0, hf⟩ := ih (by simpa using he)
    exact ⟨he0, hf.signal he0 hcall⟩
  | reset hrun hcall ih =>
    obtain ⟨he0, hf⟩ := ih (by simpa using he)
    exact ⟨he0, hf.reset he0 hcall⟩
  | wait hrun hcall ih =>
    obtain ⟨he0, hf⟩ := ih (by simpa using he)
    exact ⟨he0, hf.wait he0 hcall⟩

/-- What a wait returns is right where signals are left. -/
theorem Flagged.waitRight_iff (hf : Flagged h e past) :
    WaitRight e past (decide (0 < signals e past)) ↔ Unspent e past := by
  unfold WaitRight Unspent
  rw [hf.taken_eq, decide_eq_true_eq]
  omega

/-- The waits of a history, one by one. -/
theorem EventRun.counts_iff_unspent (hrun : EventRun h past) (he : .create e ∈ past) :
    Counts e past ↔ WaitsUnspent e past := by
  induction hrun with
  | start => exact Iff.rfl
  | create hrun hp hcall ih =>
    refine forall_congr' fun hne => ih ((List.mem_cons.mp he).resolve_left ?_)
    rintro ⟨⟩
    exact hne rfl
  | signal hrun hcall ih => exact ih (by simpa using he)
  | reset hrun hcall ih => exact ih (by simpa using he)
  | wait hrun hcall ih =>
    have he := (List.mem_cons.mp he).resolve_left (by simp)
    refine and_congr (forall_congr' fun hpe => ?_) (ih he)
    subst hpe
    obtain ⟨he0, hf⟩ := hrun.flagged he
    rw [hf.wait_ok he0] at hcall
    injection hcall with hcall
    subst hcall
    exact hf.waitRight_iff

/-- **Events count signals** as far as this: in every history of an event the next wait
returns, and is right exactly if there was no signal since the last reset or there were more
of them than waits since the first; and all waits so far were right, and those of the
documented counter, exactly if each was made so. -/
theorem wait_counts (hrun : EventRun h past) (he : .create e ∈ past) :
    (∃ result, uacpiKernelWaitForEvent h e 0 = .ok result ∧
      (WaitRight e past result ↔ Unspent e past)) ∧
    (Counts e past ↔ WaitsUnspent e past) ∧ (FollowsCounter e past ↔ WaitsUnspent e past) := by
  obtain ⟨he0, hf⟩ := hrun.flagged he
  have hcounts := hrun.counts_iff_unspent he
  exact ⟨⟨_, hf.wait_ok he0, hf.waitRight_iff⟩, hcounts, (counts_iff_counter e past).symm.trans hcounts⟩

end

/-- An event at 8 with one signal. -/
theorem signaled_run : ∃ h, EventRun h [.signal 8, .create 8] ∧ h.block 8 = some ⟨true⟩ := by
  have hfresh : (Heap.empty : Heap UacpiEvent).Fresh 8 := ⟨by decide, by decide, rfl⟩
  have hcreate : EventRun _ [.create 8] := .create .start hfresh rfl
  refine ⟨_, .signal hcreate (signalEvent_eq ?_ (by decide)), Heap.set_block_self _ _ _⟩
  rw [Heap.set_block_self]
  rfl

/-- **One signal, two waits**: the second returns true as well. -/
theorem signal_taken_twice : ∃ h past, EventRun h past ∧ .create 8 ∈ past ∧ signals 8 past = 1 ∧
    taken 8 past = 1 ∧ uacpiKernelWaitForEvent h 8 0 = .ok true ∧ ¬ WaitRight 8 past true := by
  obtain ⟨h, hrun, hb⟩ := signaled_run
  have hwait : uacpiKernelWaitForEvent h 8 0 = .ok true := waitForEvent_eq (by decide) hb
  exact ⟨h, _, hrun.wait hwait, by decide, by decide, by decide, hwait,
    by simp [WaitRight, taken, signals]⟩

/-- The first wait is right. -/
theorem wait_counts_signaled : ∃ h result, uacpiKernelWaitForEvent h 8 0 = .ok result ∧
    WaitRight 8 [.signal 8, .create 8] result := by
  obtain ⟨h, hrun, -⟩ := signaled_run
  obtain ⟨result, hwait, hiff⟩ := (wait_counts (e := 8) hrun (by decide)).1
  exact ⟨h, result, hwait, hiff.mpr (.inr (by decide))⟩

end HelixKernel
