import HelixKernel.Extra.MutexClients

/-!
# Recursive locks (`kernel/src/extra/uacpi/mutex.c`)

A recursive lock tells from the thread id whether the caller has it already, and then only counts.
The kernel's wrapper has one thread id for everyone.

    recursive_lock_excludes_iff   in all runs in which no context is disturbed between the read and
                                  the write of the mutex one at most has the lock exactly if their
                                  thread ids differ; then `depth` is how often it has acquired it
                                  more than released it, `owner` is its thread, and all can get
                                  out again -/

namespace HelixKernel

open Contexts MutexClient

/-- `UACPI_THREAD_ID_NONE` -/
def uacpiThreadIdNone : Nat := 2 ^ 64 - 1

def uacpiKernelGetThreadId : Nat := 1

/-- A `uacpi_recursive_lock` without the handle of its mutex. -/
structure UacpiRecursiveLock where
  depth : Nat
  owner : Nat
deriving DecidableEq, Repr

/-- `uacpi_recursive_lock_init`, with what `uacpi_kernel_create_mutex` returns; none if it is out of
memory. -/
def uacpiRecursiveLockInit (created : Nat) : Option (Nat × UacpiRecursiveLock) :=
  if created = 0 then none else some (created, ⟨0, uacpiThreadIdNone⟩)

/-- Where a context is that has acquired the lock `held` times more than released it, and what it
has loaded from `depth`. -/
inductive RecursivePc where
  | out
  | acquire (held : Nat)
  | deepen (held : Nat)
  | deepenStore (held depth : Nat)
  | acquireMutex (held : Nat)
  | acquireOwner (held : Nat)
  | acquireDepth (held : Nat)
  | holding (held : Nat)
  | release (held : Nat)
  | releaseStore (held depth : Nat)
  | releaseOwner (held : Nat)
  | releaseMutex (held : Nat)
deriving DecidableEq, Repr

/-- A context runs in a thread. -/
structure RecursivePlace where
  tid : Nat
  pc : RecursivePc
deriving DecidableEq, Repr

namespace UacpiRecursiveLock

open RecursivePc

/-- After a call. -/
def back (held : Nat) : RecursivePc := if held = 0 then out else holding held

def call (mutex : Nat) : RecursivePc → Option MutexCall
  | acquireMutex _ => uacpiAcquireNativeMutex mutex
  | releaseMutex _ => uacpiReleaseNativeMutex mutex
  | _ => none

def next : RecursivePc → RecursivePc
  | acquireMutex held => acquireOwner held
  | releaseMutex held => back (held - 1)
  | pc => pc

/-- `uacpi_recursive_lock_acquire` and `uacpi_recursive_lock_release`, but for the calls.  No
context goes deeper than `depth` can count. -/
def act (mutex tid : Nat) (lock : UacpiRecursiveLock) :
    RecursivePc → List (UacpiRecursiveLock × RecursivePc)
  | out => [(lock, acquire 0)]
  | acquire held => [(lock, if lock.owner = tid then deepen held else acquireMutex held)]
  | deepen held => [(lock, deepenStore held lock.depth)]
  | deepenStore held depth => [({ lock with depth := (depth + 1) % 2 ^ 64 }, holding (held + 1))]
  | acquireMutex held => if mutex = 0 then [(lock, back held)] else []
  | acquireOwner held => [({ lock with owner := tid }, acquireDepth held)]
  | acquireDepth held => [({ lock with depth := 1 }, holding (held + 1))]
  | holding held =>
    (if held + 1 < 2 ^ 64 then [(lock, acquire held)] else []) ++ [(lock, release held)]
  | release held => [(lock, releaseStore held lock.depth)]
  | releaseStore held depth =>
    [({ lock with depth := (depth + 2 ^ 64 - 1) % 2 ^ 64 },
      if depth > 1 then back (held - 1) else releaseOwner held)]
  | releaseOwner held => [({ lock with owner := uacpiThreadIdNone }, releaseMutex held)]
  | releaseMutex held => if mutex = 0 then [(lock, back (held - 1))] else []

def code (mutex : Nat) : MutexClient UacpiRecursiveLock RecursivePlace where
  call a := call mutex a.pc
  next a := { a with pc := next a.pc }
  act lock a := (act mutex a.tid lock a.pc).map fun r => (r.1, { a with pc := r.2 })

/-- Before anyone's first call. -/
def start {ι : Type} (mutex : Nat) (lock : UacpiRecursiveLock) (locked : Nat → Bool)
    (tid : ι → Nat) : Contexts ι (Interlocked UacpiRecursiveLock) RecursivePlace :=
  ⟨⟨Function.update locked mutex false, lock⟩, fun i => ⟨tid i, out⟩⟩

/-! ## Who has it -/

/-- It has the mutex. -/
def inside : RecursivePc → Bool
  | out | acquire 0 | acquireMutex _ => false
  | _ => true

/-- It is the owner. -/
def owns : RecursivePc → Bool
  | out | acquire 0 | acquireMutex _ | acquireOwner _ | releaseMutex _ => false
  | _ => true

/-- What `depth` is while it is there. -/
def depthAt : RecursivePc → Option Nat
  | acquire (held + 1) => some (held + 1)
  | deepen held | deepenStore held _ | holding held | release held | releaseStore held _ => some held
  | _ => none

/-- A place where a context can be. -/
def Possible : RecursivePc → Prop
  | out => True
  | acquire held => held + 1 < 2 ^ 64
  | deepen held => 1 ≤ held ∧ held + 1 < 2 ^ 64
  | deepenStore held depth => 1 ≤ held ∧ held + 1 < 2 ^ 64 ∧ depth = held
  | holding held | release held => 1 ≤ held ∧ held < 2 ^ 64
  | releaseStore held depth => 1 ≤ held ∧ held < 2 ^ 64 ∧ depth = held
  | acquireMutex held | acquireOwner held | acquireDepth held => held = 0
  | releaseOwner held | releaseMutex held => held = 1

/-- What holds of a context. -/
structure Here (mutex : Nat) (x : Interlocked UacpiRecursiveLock) (a : RecursivePlace) : Prop where
  possible : Possible a.pc
  locked : inside a.pc = true → x.locked mutex = true
  owner : x.data.owner = a.tid ↔ owns a.pc = true
  tid : a.tid ≠ uacpiThreadIdNone
  depth : ∀ d, depthAt a.pc = some d → x.data.depth = d

/-- What holds of two. -/
def Apart (a b : RecursivePlace) : Prop :=
  a.tid ≠ b.tid ∧ ¬ (inside a.pc = true ∧ inside b.pc = true)

/-- What a step changes for the others. -/
structure Effect (mutex : Nat) (x : Interlocked UacpiRecursiveLock) (a : RecursivePlace)
    (x' : Interlocked UacpiRecursiveLock) (b : RecursivePlace) : Prop where
  tid : b.tid = a.tid
  inside : inside b.pc = true → inside a.pc = true ∨ x.locked mutex = false
  guarded : UacpiRecursiveLock.inside a.pc = true ∨ x'.data = x.data ∧
    (x.locked mutex = true → x'.locked mutex = true)
  owner : x'.data.owner = x.data.owner ∨ x'.data.owner = a.tid ∨
    x'.data.owner = uacpiThreadIdNone
  held : x'.locked mutex = true →
    UacpiRecursiveLock.inside b.pc = true ∨
      UacpiRecursiveLock.inside a.pc = false ∧ x.locked mutex = true

variable {mutex : Nat} {x x' : Interlocked UacpiRecursiveLock} {a b m : RecursivePlace}

theorem owns_inside : ∀ pc, owns pc = true → inside pc = true := by
  intro pc h
  cases pc with
  | acquire held => cases held <;> simp_all [owns, inside]
  | _ => simp_all [owns, inside]

theorem depthAt_of_outside {pc : RecursivePc} (h : inside pc = false) : depthAt pc = none := by
  cases pc with
  | acquire held => cases held <;> simp_all [depthAt, inside]
  | _ => simp_all [depthAt, inside]

/-- It gets the mutex. -/
theorem Here.acquired {tid held : Nat} (h : Here mutex x ⟨tid, acquireMutex held⟩)
    (hfree : x.locked mutex = false) :
    Here mutex { x with locked := Function.update x.locked mutex true } ⟨tid, acquireOwner held⟩ ∧
      Effect mutex x ⟨tid, acquireMutex held⟩
        { x with locked := Function.update x.locked mutex true } ⟨tid, acquireOwner held⟩ := by
  have howner := h.owner
  refine ⟨⟨h.possible, fun _ => by simp, howner, h.tid, ?_⟩, rfl, fun _ => .inr hfree,
    .inr ⟨rfl, fun _ => by simp⟩, .inl rfl, fun _ => .inl rfl⟩
  rintro d ⟨⟩

/-- It gives it back, having released the lock as often as acquired it. -/
theorem Here.released {tid held : Nat} (h : Here mutex x ⟨tid, releaseMutex held⟩) :
    Here mutex { x with locked := Function.update x.locked mutex false } ⟨tid, back (held - 1)⟩ ∧
      Effect mutex x ⟨tid, releaseMutex held⟩
        { x with locked := Function.update x.locked mutex false } ⟨tid, back (held - 1)⟩ := by
  obtain rfl : held = 1 := h.possible
  have howner := h.owner
  refine ⟨⟨trivial, ?_, howner, h.tid, ?_⟩, rfl, ?_, .inl rfl, .inl rfl, fun hl => ?_⟩
  · rintro ⟨⟩
  · rintro d ⟨⟩
  · rintro ⟨⟩
  · simp at hl

theorem back_of_pos {held : Nat} (h : 0 < held) : back held = holding held :=
  if_neg (Nat.ne_of_gt h)

/-- It compares the owner with its thread. -/
theorem Here.compared {tid held : Nat} (h : Here mutex x ⟨tid, acquire held⟩) :
    Here mutex x ⟨tid, if x.data.owner = tid then deepen held else acquireMutex held⟩ ∧
      Effect mutex x ⟨tid, acquire held⟩ x
        ⟨tid, if x.data.owner = tid then deepen held else acquireMutex held⟩ := by
  obtain ⟨hpossible, hlocked, howner, htid, hdepth⟩ := h
  cases held with
  | zero =>
    have hother : x.data.owner ≠ tid := fun heq => by cases howner.1 heq
    rw [if_neg hother]
    exact ⟨⟨rfl, hlocked, howner, htid, hdepth⟩, rfl, .inl, .inr ⟨rfl, id⟩, .inl rfl,
      fun hl => .inr ⟨rfl, hl⟩⟩
  | succ held =>
    rw [if_pos (howner.2 rfl)]
    exact ⟨⟨⟨Nat.le_add_left 1 held, hpossible⟩, hlocked, howner, htid, hdepth⟩, rfl, .inl, .inl rfl,
      .inl rfl, fun _ => .inl rfl⟩

/-- It counts a call. -/
theorem Here.deepened {tid held depth : Nat} (h : Here mutex x ⟨tid, deepenStore held depth⟩) :
    Here mutex { x with data := { x.data with depth := (depth + 1) % 2 ^ 64 } }
        ⟨tid, holding (held + 1)⟩ ∧
      Effect mutex x ⟨tid, deepenStore held depth⟩
        { x with data := { x.data with depth := (depth + 1) % 2 ^ 64 } }
        ⟨tid, holding (held + 1)⟩ := by
  obtain ⟨hpos, hlt, rfl⟩ := h.possible
  refine ⟨⟨⟨Nat.le_add_left 1 depth, hlt⟩, h.locked, h.owner, h.tid, ?_⟩, rfl, fun _ => .inl rfl,
    .inl rfl, .inl rfl, fun _ => .inl rfl⟩
  rintro d ⟨⟩
  exact Nat.mod_eq_of_lt hlt

/-- It counts one back. -/
theorem Here.undeepened {tid held depth : Nat} (h : Here mutex x ⟨tid, releaseStore held depth⟩) :
    Here mutex { x with data := { x.data with depth := (depth + 2 ^ 64 - 1) % 2 ^ 64 } }
        ⟨tid, if depth > 1 then back (held - 1) else releaseOwner held⟩ ∧
      Effect mutex x ⟨tid, releaseStore held depth⟩
        { x with data := { x.data with depth := (depth + 2 ^ 64 - 1) % 2 ^ 64 } }
        ⟨tid, if depth > 1 then back (held - 1) else releaseOwner held⟩ := by
  obtain ⟨hpos, hlt, rfl⟩ := h.possible
  have hmod : (depth + 2 ^ 64 - 1) % 2 ^ 64 = depth - 1 := by omega
  rw [hmod]
  by_cases hmore : depth > 1
  · rw [if_pos hmore, back_of_pos (by omega)]
    refine ⟨⟨⟨by omega, by omega⟩, h.locked, h.owner, h.tid, ?_⟩, rfl, fun _ => .inl rfl, .inl rfl,
      .inl rfl, fun _ => .inl rfl⟩
    rintro d ⟨⟩
    rfl
  · rw [if_neg hmore]
    have hone : depth = 1 := by omega
    refine ⟨⟨hone, h.locked, h.owner, h.tid, ?_⟩, rfl, .inl, .inl rfl, .inl rfl,
      fun _ => .inl rfl⟩
    rintro d ⟨⟩

/-- It has the lock and calls again. -/
theorem Here.again {tid held : Nat} {d : UacpiRecursiveLock} {pc : RecursivePc}
    (h : Here mutex x ⟨tid, holding held⟩) (hact : (d, pc) ∈ act mutex tid x.data (holding held)) :
    Here mutex { x with data := d } ⟨tid, pc⟩ ∧
      Effect mutex x ⟨tid, holding held⟩ { x with data := d } ⟨tid, pc⟩ := by
  obtain ⟨hpos, hlt⟩ := h.possible
  have hchoice : d = x.data ∧ (held + 1 < 2 ^ 64 ∧ pc = acquire held ∨ pc = release held) := by
    rcases List.mem_append.1 hact with hmem | hmem
    · split at hmem
      · obtain ⟨rfl, rfl⟩ := Prod.mk.inj (List.mem_singleton.1 hmem)
        exact ⟨rfl, .inl ⟨‹_›, rfl⟩⟩
      · cases hmem
    · obtain ⟨rfl, rfl⟩ := Prod.mk.inj (List.mem_singleton.1 hmem)
      exact ⟨rfl, .inr rfl⟩
  obtain ⟨rfl, ⟨hmore, rfl⟩ | rfl⟩ := hchoice
  · obtain ⟨held, rfl⟩ := Nat.exists_eq_add_of_le' hpos
    exact ⟨⟨hmore, h.locked, h.owner, h.tid, h.depth⟩, rfl, .inl, .inl rfl, .inl rfl,
      fun _ => .inl rfl⟩
  · exact ⟨⟨⟨hpos, hlt⟩, h.locked, h.owner, h.tid, h.depth⟩, rfl, .inl, .inl rfl, .inl rfl,
      fun _ => .inl rfl⟩

/-- It reads or writes the owner or the depth. -/
theorem Here.acted {tid : Nat} {pc pc' : RecursivePc} {d : UacpiRecursiveLock} (hmutex : mutex ≠ 0)
    (h : Here mutex x ⟨tid, pc⟩) (hact : (d, pc') ∈ act mutex tid x.data pc) :
    Here mutex { x with data := d } ⟨tid, pc'⟩ ∧
      Effect mutex x ⟨tid, pc⟩ { x with data := d } ⟨tid, pc'⟩ := by
  cases pc with
  | holding held => exact h.again hact
  | acquireMutex held => simp [act, hmutex] at hact
  | releaseMutex held => simp [act, hmutex] at hact
  | out =>
    obtain ⟨rfl, rfl⟩ := Prod.mk.inj (List.mem_singleton.1 hact)
    have hzero : 0 + 1 < 2 ^ 64 := by decide
    exact ⟨⟨hzero, h.locked, h.owner, h.tid, h.depth⟩, rfl, .inl, .inr ⟨rfl, id⟩, .inl rfl,
      fun hl => .inr ⟨rfl, hl⟩⟩
  | acquire held =>
    obtain ⟨rfl, rfl⟩ := Prod.mk.inj (List.mem_singleton.1 hact)
    exact h.compared
  | deepen held =>
    obtain ⟨rfl, rfl⟩ := Prod.mk.inj (List.mem_singleton.1 hact)
    exact ⟨⟨⟨h.possible.1, h.possible.2, h.depth held rfl⟩, h.locked, h.owner, h.tid, h.depth⟩, rfl,
      .inl, .inl rfl, .inl rfl, fun _ => .inl rfl⟩
  | deepenStore held depth =>
    obtain ⟨rfl, rfl⟩ := Prod.mk.inj (List.mem_singleton.1 hact)
    exact h.deepened
  | acquireOwner held =>
    obtain ⟨rfl, rfl⟩ := Prod.mk.inj (List.mem_singleton.1 hact)
    exact ⟨⟨h.possible, h.locked, iff_of_true rfl rfl, h.tid, h.depth⟩, rfl, .inl, .inl rfl,
      .inr (.inl rfl), fun _ => .inl rfl⟩
  | acquireDepth held =>
    obtain ⟨rfl, rfl⟩ := Prod.mk.inj (List.mem_singleton.1 hact)
    obtain rfl : held = 0 := h.possible
    refine ⟨⟨⟨Nat.le_refl 1, by decide⟩, h.locked, h.owner, h.tid, ?_⟩, rfl, fun _ => .inl rfl,
      .inl rfl, .inl rfl, fun _ => .inl rfl⟩
    rintro d ⟨⟩
    rfl
  | release held =>
    obtain ⟨rfl, rfl⟩ := Prod.mk.inj (List.mem_singleton.1 hact)
    exact ⟨⟨⟨h.possible.1, h.possible.2, h.depth held rfl⟩, h.locked, h.owner, h.tid, h.depth⟩, rfl,
      .inl, .inl rfl, .inl rfl, fun _ => .inl rfl⟩
  | releaseStore held depth =>
    obtain ⟨rfl, rfl⟩ := Prod.mk.inj (List.mem_singleton.1 hact)
    exact h.undeepened
  | releaseOwner held =>
    obtain ⟨rfl, rfl⟩ := Prod.mk.inj (List.mem_singleton.1 hact)
    exact ⟨⟨h.possible, h.locked, iff_of_false h.tid.symm Bool.false_ne_true, h.tid, h.depth⟩, rfl,
      .inl, .inl rfl, .inr (.inr rfl), fun _ => .inl rfl⟩

/-- The steps from a place, in the program. -/
theorem step_cases (hmutex : mutex ≠ 0) (h : (code mutex).Atomic x a x' b) :
    (∃ held, a.pc = acquireMutex held ∧ x.locked mutex = false ∧ b = ⟨a.tid, acquireOwner held⟩ ∧
        x' = { x with locked := Function.update x.locked mutex true }) ∨
      (∃ held, a.pc = releaseMutex held ∧ b = ⟨a.tid, back (held - 1)⟩ ∧
        x' = { x with locked := Function.update x.locked mutex false }) ∨
      ∃ d pc, (d, pc) ∈ act mutex a.tid x.data a.pc ∧ b = ⟨a.tid, pc⟩ ∧ x' = { x with data := d } := by
  obtain ⟨tid, pc⟩ := a
  rcases atomic_cases h with ⟨m, hk, hfree, rfl, rfl⟩ | ⟨m, hk, rfl, rfl⟩ | ⟨d, hact, rfl⟩
  · cases pc <;> simp [code, call, uacpiAcquireNativeMutex, uacpiReleaseNativeMutex, hmutex] at hk
    subst hk
    exact .inl ⟨_, rfl, hfree, rfl, rfl⟩
  · cases pc <;> simp [code, call, uacpiAcquireNativeMutex, uacpiReleaseNativeMutex, hmutex] at hk
    subst hk
    exact .inr (.inl ⟨_, rfl, rfl, rfl⟩)
  · obtain ⟨⟨d', pc⟩, hmem, heq⟩ := List.mem_map.1 hact
    obtain ⟨rfl, rfl⟩ := Prod.mk.inj heq
    exact .inr (.inr ⟨d', pc, hmem, rfl, rfl⟩)

theorem Here.step (hmutex : mutex ≠ 0) (h : Here mutex x a) (hstep : (code mutex).Atomic x a x' b) :
    Here mutex x' b ∧ Effect mutex x a x' b := by
  obtain ⟨tid, pc⟩ := a
  rcases step_cases hmutex hstep with ⟨held, hpc, hfree, rfl, rfl⟩ | ⟨held, hpc, rfl, rfl⟩ |
    ⟨d, pc', hact, rfl, rfl⟩
  · obtain rfl : pc = acquireMutex held := hpc
    exact h.acquired hfree
  · obtain rfl : pc = releaseMutex held := hpc
    exact h.released
  · exact h.acted hmutex hact

/-- **One step** beside another context. -/
theorem Effect.beside (he : Effect mutex x a x' b) (h : Here mutex x m) (hapart : Apart a m) :
    Here mutex x' m ∧ Apart b m := by
  obtain ⟨hne, hboth⟩ := hapart
  have htid : b.tid ≠ m.tid := he.tid ▸ hne
  rcases he.guarded with hin | ⟨hdata, hlocked⟩
  · -- then the other one is not inside, and minds only who the owner is
    have hout : UacpiRecursiveLock.inside m.pc = false := by
      by_contra hm
      exact hboth ⟨hin, by simpa using hm⟩
    have howns : owns m.pc = false := by
      by_contra hm
      exact hboth ⟨hin, owns_inside _ (by simpa using hm)⟩
    have howner : x'.data.owner ≠ m.tid := by
      rcases he.owner with heq | heq | heq
      · rw [heq]
        intro howner
        rw [h.owner.1 howner] at howns
        cases howns
      · rw [heq]
        exact hne
      · rw [heq]
        exact h.tid.symm
    refine ⟨⟨h.possible, fun hm => ?_, iff_of_false howner (by simp [howns]), h.tid, ?_⟩, htid,
      fun hm => ?_⟩
    · rw [hout] at hm
      cases hm
    · rw [depthAt_of_outside hout]
      rintro d ⟨⟩
    · rw [hout] at hm
      cases hm.2
  · refine ⟨⟨h.possible, fun hm => hlocked (h.locked hm), ?_, h.tid, ?_⟩, htid, fun hm => ?_⟩
    · rw [hdata]
      exact h.owner
    · rw [hdata]
      exact h.depth
    · rcases he.inside hm.1 with hin | hfree
      · exact hboth ⟨hin, hm.2⟩
      · rw [h.locked hm.2] at hfree
        cases hfree

theorem stepKeeps (hmutex : mutex ≠ 0) :
    StepKeeps (code mutex).Atomic (fun _ _ _ => True) (Here mutex) Apart where
  own hstep h := (h.step hmutex hstep).1
  other hstep _ h hm hapart := (h.step hmutex hstep).2.beside hm hapart
  symm h := ⟨h.1.symm, fun hboth => h.2 hboth.symm⟩

/-! ## Runs -/

variable {ι : Type} {tid : ι → Nat} {t : Contexts ι (Interlocked UacpiRecursiveLock) RecursivePlace}
  {locked : Nat → Bool} {lock : UacpiRecursiveLock} {i j : ι}

/-- What holds of each context and of every two. -/
abbrev Inv (mutex : Nat) (t : Contexts ι (Interlocked UacpiRecursiveLock) RecursivePlace) : Prop :=
  Pairwise (Here mutex) Apart t

theorem inv_of_reaches (hmutex : mutex ≠ 0) (hnone : ∀ i, tid i ≠ uacpiThreadIdNone)
    (hinj : Function.Injective tid)
    (h : Reaches (code mutex).Atomic (fun _ _ _ => True)
      (start mutex ⟨0, uacpiThreadIdNone⟩ locked tid) t) : Inv mutex t := by
  refine h.pairwise (stepKeeps hmutex) ⟨fun i => ?_, fun i j hij => ?_⟩
  · refine ⟨trivial, ?_, iff_of_false (hnone i).symm Bool.false_ne_true, hnone i, ?_⟩
    · rintro ⟨⟩
    · rintro d ⟨⟩
  · refine ⟨fun heq => hij (hinj heq), ?_⟩
    rintro ⟨⟨⟩, -⟩

theorem atomic_tid (h : (code mutex).Atomic x a x' b) : b.tid = a.tid := by
  cases h with
  | acquire hcall hfree => rfl
  | release hcall => rfl
  | act hmem =>
    obtain ⟨r, -, heq⟩ := List.mem_map.1 hmem
    rw [← (Prod.mk.inj heq).2]

/-- A context stays in its thread. -/
theorem tid_of_reaches (h : Reaches (code mutex).Atomic (fun _ _ _ => True) (start mutex lock locked tid) t)
    (i : ι) : (t.loc i).tid = tid i := by
  induction h with
  | refl => rfl
  | @tail t t' j _ _ hstep ih =>
    by_cases hij : i = j
    · subst hij
      exact (atomic_tid hstep.own).trans ih
    · rw [hstep.others i hij]
      exact ih

/-- The depth and the owner while a context has the lock. -/
theorem Here.counted {held : Nat} (h : Here mutex x a) (hpc : a.pc = holding held) :
    x.data = ⟨held, a.tid⟩ ∧ 0 < held ∧ held < 2 ^ 64 := by
  have hpossible := h.possible
  have howner := h.owner
  have hdepth := h.depth held
  rw [hpc] at hpossible howner hdepth
  obtain ⟨hpos, hlt⟩ := hpossible
  refine ⟨?_, hpos, hlt⟩
  rw [← hdepth rfl, ← howner.2 rfl]

theorem Here.not_owner (h : Here mutex x a) (hpc : a.pc = out) : x.data.owner ≠ a.tid := by
  intro heq
  have howns := h.owner.1 heq
  rw [hpc] at howns
  cases howns

theorem call_release {m : Nat} (h : (code mutex).call a = some (.release m)) :
    inside a.pc = true := by
  obtain ⟨tid, pc⟩ := a
  cases pc <;> simp_all [code, call, uacpiAcquireNativeMutex, inside]

theorem call_acquire {m : Nat} (h : (code mutex).call a = some (.acquire m)) :
    inside (next a.pc) = true := by
  obtain ⟨tid, pc⟩ := a
  cases pc <;> simp_all [code, call, uacpiReleaseNativeMutex, next, inside]

theorem Inv.disciplined (h : Inv mutex t) : (code mutex).Disciplined t := by
  intro i j m a hij hrelease hacquire hj
  refine (h.both i j hij).2 ⟨call_release hrelease, ?_⟩
  rw [hj]
  exact call_acquire hacquire

/-! ## Waiting -/

/-- How far a context is from being out. -/
def rank : RecursivePc → Nat
  | out => 0
  | acquire held => 10 * held + 19
  | acquireMutex held => 10 * held + 18
  | deepen held | acquireOwner held => 10 * held + 17
  | deepenStore held _ | acquireDepth held => 10 * held + 16
  | holding held => 10 * held + 5
  | release held => 10 * held + 4
  | releaseStore held _ => 10 * held + 3
  | releaseOwner held => 10 * held + 2
  | releaseMutex held => 10 * held + 1

theorem rank_back (held : Nat) : rank (back held) ≤ 10 * held + 5 := by
  unfold back
  split
  · exact Nat.zero_le _
  · exact Nat.le_refl _

theorem rank_next (a : RecursivePlace) (k : MutexCall) (h : (code mutex).call a = some k) :
    rank ((code mutex).next a).pc < rank a.pc := by
  obtain ⟨tid, pc⟩ := a
  cases pc with
  | acquireMutex held => exact Nat.lt_succ_self _
  | releaseMutex held =>
    have hback := rank_back (held - 1)
    show rank (back (held - 1)) < 10 * held + 1
    cases held with
    | zero => decide
    | succ held =>
      rw [Nat.add_sub_cancel] at hback ⊢
      omega
  | _ => cases h

theorem eq_out_of_rank {pc : RecursivePc} (h : rank pc = 0) : pc = out := by
  cases pc <;> simp_all [rank]

/-- Whoever does not wait can go on. -/
theorem enabled_or_waits (hmutex : mutex ≠ 0) (hp : Possible a.pc) (hrank : rank a.pc ≠ 0) :
    (code mutex).Enabled (fun a => rank a.pc) x a ∨
      inside a.pc = false ∧ x.locked mutex = true := by
  obtain ⟨tid, pc⟩ := a
  have hact {d : UacpiRecursiveLock} {pc' : RecursivePc} (hk : call mutex pc = none)
      (hmem : (d, pc') ∈ act mutex tid x.data pc) (hlt : rank pc' < rank pc) :
      (code mutex).Enabled (fun a => rank a.pc) x ⟨tid, pc⟩ :=
    .inr (.inr ⟨hk, d, ⟨tid, pc'⟩, List.mem_map.2 ⟨(d, pc'), hmem, rfl⟩, hlt⟩)
  cases pc with
  | out => exact absurd rfl hrank
  | acquireMutex held =>
    cases hl : x.locked mutex with
    | true => exact .inr ⟨rfl, rfl⟩
    | false => exact .inl (.inl ⟨mutex, if_neg hmutex, hl⟩)
  | releaseMutex held => exact .inl (.inr (.inl ⟨mutex, if_neg hmutex⟩))
  | acquire held =>
    refine .inl (hact rfl (List.mem_singleton.2 rfl) ?_)
    split <;> simp [rank]
  | holding held =>
    exact .inl (hact rfl (List.mem_append_right _ (List.mem_singleton.2 rfl)) (by simp [rank]))
  | releaseStore held depth =>
    obtain ⟨hpos, -, rfl⟩ := hp
    refine .inl (hact rfl (List.mem_singleton.2 rfl) ?_)
    have hback := rank_back (depth - 1)
    have hstore : rank (releaseStore depth depth) = 10 * depth + 3 := rfl
    have howner : rank (releaseOwner depth) = 10 * depth + 2 := rfl
    split <;> omega
  | _ =>
    refine .inl (hact rfl (List.mem_singleton.2 rfl) ?_)
    simp [rank]
    try omega

/-- While the mutex is locked, somebody is inside. -/
theorem held_of_reaches (hmutex : mutex ≠ 0) (hnone : ∀ i, tid i ≠ uacpiThreadIdNone)
    (hinj : Function.Injective tid)
    (h : Reaches (code mutex).Atomic (fun _ _ _ => True)
      (start mutex ⟨0, uacpiThreadIdNone⟩ locked tid) t) :
    Inv mutex t ∧ (t.shared.locked mutex = true → ∃ i, inside (t.loc i).pc = true) := by
  induction h with
  | refl =>
    refine ⟨inv_of_reaches hmutex hnone hinj .refl, fun hl => ?_⟩
    simp [start] at hl
  | @tail t t' i hreach _ hstep ih =>
    obtain ⟨hinv, hheld⟩ := ih
    have he := ((hinv.each i).step hmutex hstep.own).2
    refine ⟨inv_of_reaches hmutex hnone hinj (hreach.tail (fun _ _ => trivial) hstep), fun hl => ?_⟩
    rcases he.held hl with hin | ⟨hout, hl⟩
    · exact ⟨i, hin⟩
    · obtain ⟨j, hj⟩ := hheld hl
      have hji : j ≠ i := by
        rintro rfl
        rw [hout] at hj
        cases hj
      exact ⟨j, by rwa [hstep.others j hji]⟩

/-- **Somebody can go on.** -/
theorem progress (hmutex : mutex ≠ 0) (hinv : Inv mutex t)
    (hheld : t.shared.locked mutex = true → ∃ i, inside (t.loc i).pc = true)
    (hleft : ∃ i, rank (t.loc i).pc ≠ 0) :
    ∃ i, (code mutex).Enabled (fun a => rank a.pc) t.shared (t.loc i) := by
  obtain ⟨i, hi⟩ := hleft
  rcases enabled_or_waits hmutex (hinv.each i).possible hi with he | ⟨-, hl⟩
  · exact ⟨i, he⟩
  · obtain ⟨j, hj⟩ := hheld hl
    have hrank : rank (t.loc j).pc ≠ 0 := by
      intro hzero
      rw [eq_out_of_rank hzero] at hj
      cases hj
    rcases enabled_or_waits hmutex (hinv.each j).possible hrank with he | ⟨hout, -⟩
    · exact ⟨j, he⟩
    · rw [hout] at hj
      cases hj

/-! ## Threads with one id -/

/-- A context reads or writes the owner or the depth. -/
theorem reaches_lock_act {t₀ : Contexts ι (Interlocked UacpiRecursiveLock) RecursivePlace} {n : Nat}
    {pc pc' : RecursivePc} {d : UacpiRecursiveLock}
    (h : Reaches (code mutex).Atomic (fun _ _ _ => True) t₀ t) (hi : t.loc i = ⟨n, pc⟩)
    (hact : (d, pc') ∈ act mutex n t.shared.data pc) :
    ∃ t', Reaches (code mutex).Atomic (fun _ _ _ => True) t₀ t' ∧
      t'.shared = { t.shared with data := d } ∧ t'.loc i = ⟨n, pc'⟩ ∧
      ∀ j, j ≠ i → t'.loc j = t.loc j :=
  reaches_act h hi (List.mem_map.2 ⟨(d, pc'), hact, rfl⟩)

/-- The first context gets the lock. -/
theorem reaches_holding (locked : Nat → Bool) (hmutex : mutex ≠ 0) (hnone : tid i ≠ uacpiThreadIdNone) :
    ∃ t, Reaches (code mutex).Atomic (fun _ _ _ => True)
        (start mutex ⟨0, uacpiThreadIdNone⟩ locked tid) t ∧
      t.shared.data = ⟨1, tid i⟩ ∧ t.loc i = ⟨tid i, holding 1⟩ ∧
      ∀ j, j ≠ i → t.loc j = ⟨tid j, out⟩ := by
  have hstart : Reaches (code mutex).Atomic (fun _ _ _ => True)
      (start mutex ⟨0, uacpiThreadIdNone⟩ locked tid) _ := .refl
  obtain ⟨t₁, h₁, hx₁, hi₁, ho₁⟩ := reaches_lock_act (i := i) hstart rfl (List.mem_singleton.2 rfl)
  obtain ⟨t₂, h₂, hx₂, hi₂, ho₂⟩ := reaches_lock_act h₁ hi₁ (List.mem_singleton.2 rfl)
  have hother : t₁.shared.data.owner ≠ tid i := by
    rw [hx₁]
    exact hnone.symm
  rw [if_neg hother] at hi₂
  have hfree : t₂.shared.locked mutex = false := by
    rw [hx₂, hx₁]
    simp [start]
  obtain ⟨t₃, h₃, hx₃, hi₃, ho₃⟩ := reaches_acquire h₂ hi₂ (if_neg hmutex) hfree
  obtain ⟨t₄, h₄, hx₄, hi₄, ho₄⟩ := reaches_lock_act h₃ hi₃ (List.mem_singleton.2 rfl)
  obtain ⟨t₅, h₅, hx₅, hi₅, ho₅⟩ := reaches_lock_act h₄ hi₄ (List.mem_singleton.2 rfl)
  refine ⟨t₅, h₅, ?_, hi₅, fun j hj => ?_⟩
  · rw [hx₅, hx₄]
  · rw [ho₅ j hj, ho₄ j hj, ho₃ j hj, ho₂ j hj, ho₁ j hj]
    rfl

/-- Another context of the same thread gets it too. -/
theorem reaches_holding_both (locked : Nat → Bool) (hmutex : mutex ≠ 0)
    (hnone : tid i ≠ uacpiThreadIdNone) (hij : i ≠ j) (heq : tid i = tid j) :
    ∃ t, Reaches (code mutex).Atomic (fun _ _ _ => True)
        (start mutex ⟨0, uacpiThreadIdNone⟩ locked tid) t ∧
      t.loc i = ⟨tid i, holding 1⟩ ∧ t.loc j = ⟨tid j, holding 1⟩ := by
  obtain ⟨t, h, hx, hi, ho⟩ := reaches_holding locked hmutex hnone
  obtain ⟨t₁, h₁, hx₁, hj₁, ho₁⟩ := reaches_lock_act h (ho j hij.symm) (List.mem_singleton.2 rfl)
  obtain ⟨t₂, h₂, hx₂, hj₂, ho₂⟩ := reaches_lock_act h₁ hj₁ (List.mem_singleton.2 rfl)
  have howner : t₁.shared.data.owner = tid j := by
    rw [hx₁, hx]
    exact heq
  rw [if_pos howner] at hj₂
  obtain ⟨t₃, h₃, hx₃, hj₃, ho₃⟩ := reaches_lock_act h₂ hj₂ (List.mem_singleton.2 rfl)
  obtain ⟨t₄, h₄, hx₄, hj₄, ho₄⟩ := reaches_lock_act h₃ hj₃ (List.mem_singleton.2 rfl)
  refine ⟨t₄, h₄, ?_, hj₄⟩
  rw [ho₄ i hij, ho₃ i hij, ho₂ i hij, ho₁ i hij]
  exact hi

/-- Between an acquire and the release that it is for. -/
def Holds (l : Caller RecursivePlace) : Prop := ∃ n held, l = .own ⟨n, holding held⟩

theorem Holds.inside {l : Caller RecursivePlace} (h : Holds l) :
    UacpiRecursiveLock.inside ((code mutex).place l).pc = true := by
  obtain ⟨n, held, rfl⟩ := h
  rfl

/-- What a recursive lock is for. -/
def Excludes (mutex : Nat) (lock : UacpiRecursiveLock) (locked : Nat → Bool) (tid : ι → Nat) :
    Prop :=
  ∀ s, Reaches (code mutex).Move Undisturbed (settled (start mutex lock locked tid)) s →
    ∀ i j, i ≠ j → Holds (s.loc i) → ¬ Holds (s.loc j)

end UacpiRecursiveLock

open UacpiRecursiveLock

/-- **A recursive lock excludes exactly if the threads' ids differ**, in all runs of any contexts
that acquire and release it where none is disturbed between the read and the write of the mutex.
Then it also counts right, however the calls are nested: who has acquired it `held` times more than
released it finds this number in `depth` and its thread in `owner`, and who does not have it is not
the owner.  And from every state all can get out again. -/
theorem recursive_lock_excludes_iff {ι : Type} [Fintype ι] {created mutex : Nat}
    {lock : UacpiRecursiveLock} (hinit : uacpiRecursiveLockInit created = some (mutex, lock))
    (locked : Nat → Bool) (tid : ι → Nat) (hnone : ∀ i, tid i ≠ uacpiThreadIdNone) :
    (Excludes mutex lock locked tid ↔ Function.Injective tid) ∧
    (Function.Injective tid → ∀ s,
      Reaches (UacpiRecursiveLock.code mutex).Move Undisturbed
        (settled (start mutex lock locked tid)) s → ∀ i a, s.loc i = .own a →
      a.tid = tid i ∧ (∀ held, a.pc = .holding held →
        s.shared.data = ⟨held, tid i⟩ ∧ 0 < held ∧ held < 2 ^ 64) ∧
      (a.pc = .out → s.shared.data.owner ≠ tid i)) ∧
    (Function.Injective tid → ∀ s,
      Reaches (UacpiRecursiveLock.code mutex).Move Undisturbed
        (settled (start mutex lock locked tid)) s →
      ∃ s', Reaches (UacpiRecursiveLock.code mutex).Move Undisturbed s s' ∧
        ∀ i, ∃ a, s'.loc i = .own a ∧ a.pc = .out) := by
  obtain ⟨hmutex, rfl⟩ : mutex ≠ 0 ∧ lock = ⟨0, uacpiThreadIdNone⟩ := by
    unfold uacpiRecursiveLockInit at hinit
    split at hinit
    · cases hinit
    · obtain ⟨rfl, rfl⟩ := Prod.mk.inj (Option.some.inj hinit)
      exact ⟨‹_›, rfl⟩
  have hdisciplined (hinj : Function.Injective tid) (t : Contexts ι _ _)
      (ht : Reaches (UacpiRecursiveLock.code mutex).Atomic (fun _ _ _ => True)
        (start mutex ⟨0, uacpiThreadIdNone⟩ locked tid) t) :=
    Inv.disciplined (inv_of_reaches hmutex hnone hinj ht)
  refine ⟨⟨fun hex i j heq => ?_, fun hinj s h i j hij hi hj => ?_⟩, fun hinj s h i a ha => ?_,
    fun hinj s h => ?_⟩
  · by_contra hij
    obtain ⟨t, h, hi, hj⟩ := reaches_holding_both locked hmutex (hnone i) hij heq
    exact hex _ (reaches_of_atomic h) i j hij ⟨_, _, congrArg Caller.own hi⟩
      ⟨_, _, congrArg Caller.own hj⟩
  · obtain ⟨t, ht, hR⟩ := reaches_atomic h (hdisciplined hinj)
    refine ((inv_of_reaches hmutex hnone hinj ht).both i j hij).2 ?_
    rw [hR.loc i, hR.loc j]
    exact ⟨hi.inside, hj.inside⟩
  · obtain ⟨t, ht, hR⟩ := reaches_atomic h (hdisciplined hinj)
    have hloc : t.loc i = a := by
      rw [hR.loc i, ha]
      rfl
    have htid : a.tid = tid i := hloc ▸ tid_of_reaches ht i
    have hhere : Here mutex t.shared a := hloc ▸ (inv_of_reaches hmutex hnone hinj ht).each i
    rw [← htid, ← hR.data]
    exact ⟨rfl, fun held hpc => hhere.counted hpc, hhere.not_owner⟩
  · obtain ⟨s', hreach, hs'⟩ := reaches_settled h (hdisciplined hinj) rank_next fun t ht hleft =>
      progress hmutex (held_of_reaches hmutex hnone hinj ht).1
        (held_of_reaches hmutex hnone hinj ht).2 hleft
    refine ⟨s', hreach, fun i => ?_⟩
    obtain ⟨a, ha, hrank⟩ := hs' i
    exact ⟨a, ha, eq_out_of_rank hrank⟩

/-- Two threads. -/
def ownThread (b : Bool) : Nat := if b then 1 else 2

/-- With the wrapper's thread id two contexts have the lock at once; with one id each the first that
has it finds itself as the owner. -/
theorem recursive_lock_excludes_iff_wrapper :
    ¬ Excludes 8 ⟨0, uacpiThreadIdNone⟩ (fun _ => false) (fun _ : Bool => uacpiKernelGetThreadId) ∧
    Excludes 8 ⟨0, uacpiThreadIdNone⟩ (fun _ => false) ownThread ∧
    ∃ s, Reaches (UacpiRecursiveLock.code 8).Move Undisturbed
        (settled (start 8 ⟨0, uacpiThreadIdNone⟩ (fun _ => false) ownThread)) s ∧
      s.loc true = .own ⟨1, .holding 1⟩ ∧ s.shared.data = ⟨1, 1⟩ := by
  have hinit : uacpiRecursiveLockInit 8 = some (8, ⟨0, uacpiThreadIdNone⟩) := rfl
  have hone := recursive_lock_excludes_iff hinit (fun _ => false)
    (fun _ : Bool => uacpiKernelGetThreadId) (fun _ => by decide)
  have hnone : ∀ b, ownThread b ≠ uacpiThreadIdNone := by decide
  obtain ⟨hiff, hcount, -⟩ := recursive_lock_excludes_iff hinit (fun _ => false) ownThread hnone
  have hinj : Function.Injective ownThread := by decide
  refine ⟨fun hex => ?_, hiff.2 hinj, ?_⟩
  · have heq : true = false := hone.1.1 hex rfl
    cases heq
  · have hmutex : (8 : Nat) ≠ 0 := by decide
    obtain ⟨t, ht, -, hi, -⟩ := reaches_holding (fun _ => false) hmutex (hnone true)
    have hloc : (settled t).loc true = .own ⟨1, .holding 1⟩ := congrArg Caller.own hi
    exact ⟨_, reaches_of_atomic ht, hloc,
      ((hcount hinj _ (reaches_of_atomic ht) true _ hloc).2.1 1 rfl).1⟩

end HelixKernel
