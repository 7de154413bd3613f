import HelixKernel.Extra.Mutex
import HelixKernel.Lib.Census

/-!
# Code that calls mutexes (`kernel/src/extra/uacpi/mutex.c`, `kernel/src/mutex/mutex.cpp`)

The locks of uACPI are code of their own around calls of `uacpi_kernel_acquire_mutex` and
`uacpi_kernel_release_mutex`, which are the accesses that `Mutex.lean` has.  Contexts, any number of
them, run such code over a state they share.  While no context reads that a mutex is free between
the read and the write of another one, each run is one of the same code with calls that take one
step, if the code releases no mutex that another context has just been given
(`reaches_atomic`).  And if this coarser code never has all contexts wait, neither has the code
(`reaches_settled`). -/

namespace HelixKernel

open Contexts

inductive MutexCall where
  | acquire (m : Nat)
  | release (m : Nat)
deriving DecidableEq, Repr

def MutexCall.accesses : MutexCall → List LockInstr
  | .acquire m => uacpiKernelAcquireMutex m 0xFFFF
  | .release m => uacpiKernelReleaseMutex m

/-- `uacpi_acquire_native_mutex(mtx)`, where it calls the kernel. -/
def uacpiAcquireNativeMutex (mtx : Nat) : Option MutexCall :=
  if mtx = 0 then none else some (.acquire mtx)

/-- `uacpi_release_native_mutex(mtx)` -/
def uacpiReleaseNativeMutex (mtx : Nat) : Option MutexCall :=
  if mtx = 0 then none else some (.release mtx)

/-- The words of the mutexes, and what else is shared. -/
structure Interlocked (σ : Type) where
  locked : Nat → Bool
  data : σ

/-- Code with places `τ` over a shared state `σ`: the call at a place, if there is one, the place
it returns to, and the accesses to the state, of which a context may have a choice. -/
structure MutexClient (σ τ : Type) where
  call : τ → Option MutexCall
  next : τ → τ
  act : σ → τ → List (σ × τ)

/-- At a place, or in the call there with the accesses that are left. -/
inductive Caller (τ : Type) where
  | own (a : τ)
  | calling (a : τ) (rest : List LockInstr)

namespace MutexClient

variable {ι σ τ : Type} (c : MutexClient σ τ)

/-- What a context does, an access at a time. -/
inductive Move : Interlocked σ → Caller τ → Interlocked σ → Caller τ → Prop where
  | call {x : Interlocked σ} {a : τ} {k : MutexCall} (h : c.call a = some k) :
      Move x (.own a) x (.calling a k.accesses)
  | spin {x : Interlocked σ} {a : τ} {i : LockInstr} {rest : List LockInstr}
      (h : i.access x.locked = none) : Move x (.calling a (i :: rest)) x (.calling a (i :: rest))
  | access {x : Interlocked σ} {a : τ} {i : LockInstr} {rest : List LockInstr} {locked : Nat → Bool}
      (h : i.access x.locked = some locked) :
      Move x (.calling a (i :: rest)) { x with locked := locked } (.calling a rest)
  | ret {x : Interlocked σ} {a : τ} : Move x (.calling a []) x (.own (c.next a))
  | act {x : Interlocked σ} {a b : τ} {d : σ} (h : (d, b) ∈ c.act x.data a) :
      Move x (.own a) { x with data := d } (.own b)

/-- The same code with calls of one step each. -/
inductive Atomic : Interlocked σ → τ → Interlocked σ → τ → Prop where
  | acquire {x : Interlocked σ} {a : τ} {m : Nat} (h : c.call a = some (.acquire m))
      (hfree : x.locked m = false) :
      Atomic x a { x with locked := Function.update x.locked m true } (c.next a)
  | release {x : Interlocked σ} {a : τ} {m : Nat} (h : c.call a = some (.release m)) :
      Atomic x a { x with locked := Function.update x.locked m false } (c.next a)
  | act {x : Interlocked σ} {a b : τ} {d : σ} (h : (d, b) ∈ c.act x.data a) :
      Atomic x a { x with data := d } b

theorem atomic_cases {c : MutexClient σ τ} {x x' : Interlocked σ} {a b : τ} (h : c.Atomic x a x' b) :
    (∃ m, c.call a = some (.acquire m) ∧ x.locked m = false ∧ b = c.next a ∧
        x' = { x with locked := Function.update x.locked m true }) ∨
      (∃ m, c.call a = some (.release m) ∧ b = c.next a ∧
        x' = { x with locked := Function.update x.locked m false }) ∨
      ∃ d, (d, b) ∈ c.act x.data a ∧ x' = { x with data := d } := by
  cases h with
  | acquire h hfree => exact .inl ⟨_, h, hfree, rfl, rfl⟩
  | release h => exact .inr (.inl ⟨_, h, rfl, rfl⟩)
  | act h => exact .inr (.inr ⟨_, h, rfl⟩)

/-- Past the read that ended the loop for `m`, and before the write. -/
def between (a : τ) (m : Nat) : Caller τ := .calling a [.set m]

/-- A context that reads that a mutex is free does so while the other one is not in between. -/
def Undisturbed (x : Interlocked σ) (l l' : Caller τ) : Prop :=
  ∀ a m, l = .calling a (mutexLock m) → x.locked m = false → ∀ b, l' ≠ between b m

/-- No context is about to release a mutex that another one has just been given. -/
def Disciplined (t : Contexts ι (Interlocked σ) τ) : Prop :=
  ∀ i j m a, i ≠ j → c.call (t.loc i) = some (.release m) → c.call a = some (.acquire m) →
    t.loc j ≠ c.next a

/-! ## The steps there are -/

/-- A context is in a call that there is at its place. -/
def Fits : Caller τ → Prop
  | .own _ => True
  | .calling a rest => ∃ k, c.call a = some k ∧ rest <:+ k.accesses

/-- The moves, from where a context can be. -/
inductive Line : Interlocked σ → Caller τ → Interlocked σ → Caller τ → Prop where
  | call {x : Interlocked σ} {a : τ} {k : MutexCall} (h : c.call a = some k) :
      Line x (.own a) x (.calling a k.accesses)
  | spin {x : Interlocked σ} {a : τ} {m : Nat} (h : c.call a = some (.acquire m))
      (hl : x.locked m = true) : Line x (.calling a (mutexLock m)) x (.calling a (mutexLock m))
  | read {x : Interlocked σ} {a : τ} {m : Nat} (h : c.call a = some (.acquire m))
      (hl : x.locked m = false) : Line x (.calling a (mutexLock m)) x (between a m)
  | take {x : Interlocked σ} {a : τ} {m : Nat} (h : c.call a = some (.acquire m)) :
      Line x (between a m) { x with locked := Function.update x.locked m true } (.calling a [])
  | clear {x : Interlocked σ} {a : τ} {m : Nat} (h : c.call a = some (.release m)) :
      Line x (.calling a (mutexUnlock m)) { x with locked := Function.update x.locked m false }
        (.calling a [])
  | ret {x : Interlocked σ} {a : τ} {k : MutexCall} (h : c.call a = some k) :
      Line x (.calling a []) x (.own (c.next a))
  | act {x : Interlocked σ} {a b : τ} {d : σ} (h : (d, b) ∈ c.act x.data a) :
      Line x (.own a) { x with data := d } (.own b)

variable {c} {x x' : Interlocked σ} {l l' : Caller τ} {a b : τ} {m : Nat} {k : MutexCall}
  {s s' : Contexts ι (Interlocked σ) (Caller τ)} {t t₀ : Contexts ι (Interlocked σ) τ} {i j : ι}

/-- What is left of a call. -/
theorem suffix_cases {rest : List LockInstr} (h : rest <:+ k.accesses) :
    (∃ m, k = .acquire m ∧ (rest = mutexLock m ∨ rest = [.set m])) ∨
      (∃ m, k = .release m ∧ rest = mutexUnlock m) ∨ rest = [] := by
  cases k with
  | acquire m =>
    rcases List.suffix_cons_iff.1 h with heq | h
    · exact .inl ⟨m, rfl, .inl heq⟩
    · rcases List.suffix_cons_iff.1 h with heq | h
      · exact .inl ⟨m, rfl, .inr heq⟩
      · exact .inr (.inr (List.suffix_nil.1 h))
  | release m =>
    rcases List.suffix_cons_iff.1 h with heq | h
    · exact .inr (.inl ⟨m, rfl, heq⟩)
    · exact .inr (.inr (List.suffix_nil.1 h))

theorem Move.line (h : c.Move x l x' l') (hfits : c.Fits l) : c.Line x l x' l' := by
  cases h with
  | call h => exact .call h
  | @spin a instr rest haccess =>
    obtain ⟨k, hk, hsuffix⟩ := hfits
    rcases suffix_cases hsuffix with ⟨m, rfl, heq | heq⟩ | ⟨m, rfl, heq⟩ | heq
    · obtain ⟨rfl, rfl⟩ := List.cons.inj heq
      refine .spin hk ?_
      simpa [LockInstr.access] using haccess
    · obtain ⟨rfl, rfl⟩ := List.cons.inj heq
      cases haccess
    · obtain ⟨rfl, rfl⟩ := List.cons.inj heq
      cases haccess
    · cases heq
  | @access a instr rest locked haccess =>
    obtain ⟨k, hk, hsuffix⟩ := hfits
    rcases suffix_cases hsuffix with ⟨m, rfl, heq | heq⟩ | ⟨m, rfl, heq⟩ | heq
    · obtain ⟨rfl, rfl⟩ := List.cons.inj heq
      obtain ⟨hfree, rfl⟩ : x.locked m = false ∧ x.locked = locked := by
        simpa [LockInstr.access] using haccess
      exact .read hk hfree
    · obtain ⟨rfl, rfl⟩ := List.cons.inj heq
      cases haccess
      exact .take hk
    · obtain ⟨rfl, rfl⟩ := List.cons.inj heq
      cases haccess
      exact .clear hk
    · cases heq
  | ret =>
    obtain ⟨k, hk, -⟩ := hfits
    exact .ret hk
  | act h => exact .act h

theorem Line.fits (h : c.Line x l x' l') : c.Fits l' := by
  cases h with
  | call h => exact ⟨_, h, List.suffix_rfl⟩
  | spin h hl => exact ⟨_, h, List.suffix_rfl⟩
  | read h hl => exact ⟨_, h, List.suffix_cons _ _⟩
  | take h => exact ⟨_, h, List.nil_suffix⟩
  | clear h => exact ⟨_, h, List.nil_suffix⟩
  | ret h => trivial
  | act h => trivial

/-! ## Calls of one step -/

variable (c) in
/-- A context whose call has taken or cleared the word is where the call returns to. -/
def place : Caller τ → τ
  | .own a => a
  | .calling a rest => if (c.call a).map MutexCall.accesses = some rest then a else c.next a

theorem place_calling (h : c.call a = some k) : c.place (.calling a k.accesses) = a := by
  simp [place, h]

theorem place_between (h : c.call a = some (.acquire m)) : c.place (between a m) = c.next a := by
  simp [place, between, h, MutexCall.accesses, uacpiKernelAcquireMutex, mutexLock]

theorem place_returning (h : c.call a = some k) : c.place (.calling a []) = c.next a := by
  cases k <;> simp [place, h, MutexCall.accesses, uacpiKernelAcquireMutex, mutexLock,
    uacpiKernelReleaseMutex, mutexUnlock]

theorem accesses_ne_between : Caller.calling a k.accesses ≠ between b m := by
  cases k <;> simp [between, MutexCall.accesses, uacpiKernelAcquireMutex, mutexLock,
    uacpiKernelReleaseMutex, mutexUnlock]

/-- One that is in between has just been given the mutex. -/
theorem Fits.given (h : c.Fits (between a m)) : c.call a = some (.acquire m) := by
  obtain ⟨k, hk, hsuffix⟩ := h
  rcases suffix_cases hsuffix with ⟨m', rfl, heq | heq⟩ | ⟨m', rfl, heq⟩ | heq
  · simp [mutexLock] at heq
  · obtain ⟨⟨⟩, -⟩ := List.cons.inj heq
    exact hk
  · simp [mutexUnlock] at heq
  · cases heq

/-- One that waits in the loop. -/
theorem Fits.waiting (h : c.Fits (.calling a (mutexLock m))) : c.call a = some (.acquire m) := by
  obtain ⟨k, hk, hsuffix⟩ := h
  rcases suffix_cases hsuffix with ⟨m', rfl, heq | heq⟩ | ⟨m', rfl, heq⟩ | heq
  · obtain ⟨⟨⟩, -⟩ := List.cons.inj heq
    exact hk
  · simp [mutexLock] at heq
  · simp [mutexLock, mutexUnlock] at heq
  · cases heq

theorem place_waiting (h : c.call a = some (.acquire m)) :
    c.place (.calling a (mutexLock m)) = a := place_calling h

variable (c) in
/-- A mutex is locked where its word is true, or someone is in between. -/
structure Refines (s : Contexts ι (Interlocked σ) (Caller τ)) (t : Contexts ι (Interlocked σ) τ) : Prop where
  fits : ∀ i, c.Fits (s.loc i)
  data : t.shared.data = s.shared.data
  loc : ∀ i, t.loc i = c.place (s.loc i)
  locked : ∀ m, t.shared.locked m = true ↔
    s.shared.locked m = true ∨ ∃ i a, s.loc i = between a m

/-- Everyone is at its place. -/
def settled (t : Contexts ι (Interlocked σ) τ) : Contexts ι (Interlocked σ) (Caller τ) :=
  ⟨t.shared, fun i => .own (t.loc i)⟩

theorem refines_settled (t : Contexts ι (Interlocked σ) τ) : c.Refines (settled t) t where
  fits _ := trivial
  data := rfl
  loc _ := rfl
  locked m := by simp [settled, between]

theorem between_congr (hstep : Contexts.Step c.Move i s s') (h : ∀ a, s.loc i ≠ between a m)
    (h' : ∀ a, s'.loc i ≠ between a m) :
    (∃ j a, s'.loc j = between a m) ↔ ∃ j a, s.loc j = between a m := by
  refine exists_congr fun j => exists_congr fun a => ?_
  by_cases hj : j = i
  · rw [hj]
    exact iff_of_false (h' a) (h a)
  · rw [hstep.others j hj]

namespace Refines

theorem locs (h : c.Refines s t) (hstep : Contexts.Step c.Move i s s') :
    (∀ j, c.Fits (s'.loc j)) ∧ ∀ j, j ≠ i → t.loc j = c.place (s'.loc j) := by
  constructor
  · intro j
    by_cases hj : j = i
    · rw [hj]
      exact (hstep.own.line (h.fits i)).fits
    · rw [hstep.others j hj]
      exact h.fits j
  · intro j hj
    rw [hstep.others j hj]
    exact h.loc j

/-- A step that changes neither the place of the context nor what is locked. -/
theorem stutter (h : c.Refines s t) (hstep : Contexts.Step c.Move i s s')
    (hdata : s'.shared.data = s.shared.data) (hplace : c.place (s'.loc i) = c.place (s.loc i))
    (hlocked : ∀ m, (s'.shared.locked m = true ∨ ∃ j a, s'.loc j = between a m) ↔
      (s.shared.locked m = true ∨ ∃ j a, s.loc j = between a m)) : c.Refines s' t where
  fits := (h.locs hstep).1
  data := h.data.trans hdata.symm
  loc j := by
    by_cases hj : j = i
    · rw [hj, hplace]
      exact h.loc i
    · exact (h.locs hstep).2 j hj
  locked m := (h.locked m).trans (hlocked m).symm

open Classical in
/-- A step that the coarser code takes too. -/
theorem matched (h : c.Refines s t) (hstep : Contexts.Step c.Move i s s')
    (hatomic : c.Atomic t.shared (t.loc i) x (c.place (s'.loc i)))
    (hdata : x.data = s'.shared.data)
    (hlocked : ∀ m, x.locked m = true ↔
      s'.shared.locked m = true ∨ ∃ j a, s'.loc j = between a m) :
    ∃ t', Reaches c.Atomic (fun _ _ _ => True) t t' ∧ c.Refines s' t' := by
  refine ⟨t.set i x (c.place (s'.loc i)), Reaches.single (fun _ _ => trivial) (step_set hatomic),
    (h.locs hstep).1, hdata, fun j => ?_, hlocked⟩
  by_cases hj : j = i
  · rw [hj, set_loc_self]
  · rw [set_loc_of_ne hj]
    exact (h.locs hstep).2 j hj

/-- **One access** is one step of the coarser code, or none. -/
theorem step (h : c.Refines s t) (hd : c.Disciplined t) (ha : s.Allowed Undisturbed i)
    (hstep : Contexts.Step c.Move i s s') :
    ∃ t', Reaches c.Atomic (fun _ _ _ => True) t t' ∧ c.Refines s' t' := by
  have hline := hstep.own.line (h.fits i)
  have hloc := h.loc i
  generalize hl : s.loc i = l at hline hloc
  generalize hl' : s'.loc i = l' at hline
  generalize hx : s.shared = y at hline
  generalize hx' : s'.shared = y' at hline
  cases hline with
  | @call a k hk =>
    refine ⟨t, .refl, h.stutter hstep (by rw [hx, hx']) ?_ fun m => ?_⟩
    · rw [hl, hl', place_calling hk]
      rfl
    · rw [hx, hx', between_congr hstep (fun b => by simp [hl, between]) fun b => by
        rw [hl']
        exact accesses_ne_between]
  | @spin a m hk hlocked =>
    refine ⟨t, .refl, h.stutter hstep (by rw [hx, hx']) (by rw [hl, hl']) fun m' => ?_⟩
    rw [hx, hx', between_congr hstep (fun b => by simp [hl, between, mutexLock]) fun b => by
      simp [hl', between, mutexLock]]
  | @read a m hk hfree =>
    -- the coarser code takes the mutex here
    have hnobody : ¬ ∃ j b, s.loc j = between b m := by
      rintro ⟨j, b, hj⟩
      by_cases hji : j = i
      · rw [hji, hl] at hj
        simp [between, mutexLock] at hj
      · exact ha j hji a m hl (by rw [hx]; exact hfree) b hj
    have hout : t.shared.locked m = false := by
      rw [← Bool.not_eq_true, h.locked, hx, hfree]
      simpa using hnobody
    have ht : t.loc i = a := hloc.trans (place_calling hk)
    refine h.matched hstep (x := { t.shared with locked := Function.update t.shared.locked m true })
      ?_ ?_ fun m' => ?_
    · rw [hl', place_between hk, ht]
      exact .acquire hk hout
    · rw [hx']
      exact h.data.trans (by rw [hx])
    · by_cases hm : m' = m
      · subst hm
        exact iff_of_true (by simp) (.inr ⟨i, a, hl'⟩)
      · have hother : Function.update t.shared.locked m true m' = t.shared.locked m' := by
          simp [hm]
        show Function.update t.shared.locked m true m' = true ↔ _
        rw [hother, h.locked, hx, hx', between_congr hstep (fun b => by
          simp [hl, between, mutexLock]) fun b => by simp [hl', between, Ne.symm hm]]
  | @take a m hk =>
    refine ⟨t, .refl, h.stutter hstep (by rw [hx, hx']) ?_ fun m' => ?_⟩
    · rw [hl, hl', place_between hk, place_returning hk]
    · by_cases hm : m' = m
      · subst hm
        exact iff_of_true (.inl (by simp [hx'])) (.inr ⟨i, a, hl⟩)
      · rw [hx, hx', between_congr hstep (fun b => by simp [hl, between, Ne.symm hm]) fun b => by
          simp [hl', between]]
        simp [hm]
  | @clear a m hk =>
    have ht : t.loc i = a := hloc.trans (place_calling (k := .release m) hk)
    have hnobody : ¬ ∃ j b, s.loc j = between b m := by
      rintro ⟨j, b, hj⟩
      have hji : i ≠ j := by
        rintro rfl
        rw [hl] at hj
        simp [between, mutexUnlock] at hj
      have hgiven : c.call b = some (.acquire m) := Fits.given (hj ▸ h.fits j)
      refine hd i j m b hji (by rw [ht]; exact hk) hgiven ?_
      rw [h.loc j, hj, place_between hgiven]
    have hcongr (m' : Nat) : (∃ j b, s'.loc j = between b m') ↔ ∃ j b, s.loc j = between b m' :=
      between_congr hstep (fun b => by simp [hl, between, mutexUnlock]) fun b => by
        simp [hl', between]
    refine h.matched hstep (x := { t.shared with locked := Function.update t.shared.locked m false })
      ?_ ?_ fun m' => ?_
    · rw [hl', place_returning hk, ht]
      exact .release hk
    · rw [hx']
      exact h.data.trans (by rw [hx])
    · rw [hcongr, hx']
      by_cases hm : m' = m
      · subst hm
        simpa using hnobody
      · simpa [hm, hx] using h.locked m'
  | @ret a k hk =>
    refine ⟨t, .refl, h.stutter hstep (by rw [hx, hx']) ?_ fun m => ?_⟩
    · rw [hl, hl', place_returning hk]
      rfl
    · rw [hx, hx', between_congr hstep (fun b => by simp [hl, between]) fun b => by
        simp [hl', between]]
  | @act a b d hact =>
    have ht : t.loc i = a := hloc
    refine h.matched hstep (x := { t.shared with data := d }) ?_ (by rw [hx']) fun m => ?_
    · rw [hl', ht]
      refine .act ?_
      rw [h.data, hx]
      exact hact
    · rw [hx', between_congr hstep (fun b => by simp [hl, between]) fun b => by simp [hl', between]]
      rw [h.locked, hx]

end Refines

/-- **Each run is one of the coarser code**, as long as nobody is disturbed. -/
theorem reaches_atomic (h : Reaches c.Move Undisturbed (settled t₀) s)
    (hd : ∀ t, Reaches c.Atomic (fun _ _ _ => True) t₀ t → c.Disciplined t) :
    ∃ t, Reaches c.Atomic (fun _ _ _ => True) t₀ t ∧ c.Refines s t :=
  h.simulates (refines_settled t₀) fun _ _ t _ hreach hR ha hstep => hR.step (hd t hreach) ha hstep

open Classical in
/-- One access while everyone else is at its place. -/
theorem reaches_alone (h : c.Move x l x' l') :
    Reaches c.Move Undisturbed ((settled t).set i x l) ((settled t).set i x' l') := by
  refine Reaches.single (i := i) (fun j hj a m _ _ b => ?_) ⟨?_, fun j hj => ?_⟩
  · rw [set_loc_of_ne hj]
    simp [settled, between]
  · rw [set_shared, set_shared, set_loc_self, set_loc_self]
    exact h
  · rw [set_loc_of_ne hj, set_loc_of_ne hj]

open Classical in
theorem settled_of_step {t' : Contexts ι (Interlocked σ) τ} (h : Contexts.Step c.Atomic i t t') :
    settled t' = (settled t).set i t'.shared (.own (t'.loc i)) := by
  have hloc : (settled t').loc = ((settled t).set i t'.shared (.own (t'.loc i))).loc := by
    funext j
    by_cases hj : j = i
    · rw [hj, set_loc_self]
      rfl
    · rw [set_loc_of_ne hj]
      exact congrArg Caller.own (h.others j hj)
  exact congrArg (Contexts.mk t'.shared) hloc

open Classical in
/-- The accesses of a call that does not wait. -/
theorem reaches_of_step {t' : Contexts ι (Interlocked σ) τ} (h : Contexts.Step c.Atomic i t t') :
    Reaches c.Move Undisturbed (settled t) (settled t') := by
  have hstart : (settled t).set i t.shared (.own (t.loc i)) = settled t := by
    simp [Contexts.set, settled]
  rw [settled_of_step h]
  suffices hruns : Reaches c.Move Undisturbed ((settled t).set i t.shared (.own (t.loc i)))
      ((settled t).set i t'.shared (.own (t'.loc i))) by rwa [hstart] at hruns
  have hown := h.own
  clear hstart
  generalize t'.shared = x', t'.loc i = b, t.shared = x, t.loc i = a at hown ⊢
  cases hown with
  | @acquire m hk hfree =>
    have hloop : c.Move x (.calling a (mutexLock m)) x (.calling a [.set m]) :=
      .access (by simp [LockInstr.access, hfree])
    have htake : c.Move x (.calling a [.set m])
        { x with locked := Function.update x.locked m true } (.calling a []) := .access rfl
    exact (((reaches_alone (.call hk)).trans (reaches_alone hloop)).trans
      (reaches_alone htake)).trans (reaches_alone .ret)
  | @release m hk =>
    have hclear : c.Move x (.calling a (mutexUnlock m))
        { x with locked := Function.update x.locked m false } (.calling a []) := .access rfl
    exact ((reaches_alone (.call hk)).trans (reaches_alone hclear)).trans (reaches_alone .ret)
  | act hact => exact reaches_alone (.act hact)

/-- **Each run of the coarser code is one of the code.** -/
theorem reaches_of_atomic (h : Reaches c.Atomic (fun _ _ _ => True) t₀ t) :
    Reaches c.Move Undisturbed (settled t₀) (settled t) := by
  induction h with
  | refl => exact .refl
  | tail _ _ hstep ih => exact ih.trans (reaches_of_step hstep)

/-! ## A run, a step at a time -/

open Classical in
theorem reaches_act {d : σ} (h : Reaches c.Atomic (fun _ _ _ => True) t₀ t) (hi : t.loc i = a)
    (hact : (d, b) ∈ c.act t.shared.data a) :
    ∃ t', Reaches c.Atomic (fun _ _ _ => True) t₀ t' ∧ t'.shared = { t.shared with data := d } ∧
      t'.loc i = b ∧ ∀ j, j ≠ i → t'.loc j = t.loc j :=
  ⟨_, h.next (.act (by rw [hi]; exact hact)), rfl, set_loc_self, fun _ hj => set_loc_of_ne hj⟩

open Classical in
theorem reaches_acquire (h : Reaches c.Atomic (fun _ _ _ => True) t₀ t) (hi : t.loc i = a)
    (hk : c.call a = some (.acquire m)) (hfree : t.shared.locked m = false) :
    ∃ t', Reaches c.Atomic (fun _ _ _ => True) t₀ t' ∧
      t'.shared = { t.shared with locked := Function.update t.shared.locked m true } ∧
      t'.loc i = c.next a ∧ ∀ j, j ≠ i → t'.loc j = t.loc j :=
  ⟨_, h.next (.acquire (by rw [hi]; exact hk) hfree), rfl, by rw [set_loc_self, hi],
    fun _ hj => set_loc_of_ne hj⟩

open Classical in
theorem reaches_release (h : Reaches c.Atomic (fun _ _ _ => True) t₀ t) (hi : t.loc i = a)
    (hk : c.call a = some (.release m)) :
    ∃ t', Reaches c.Atomic (fun _ _ _ => True) t₀ t' ∧
      t'.shared = { t.shared with locked := Function.update t.shared.locked m false } ∧
      t'.loc i = c.next a ∧ ∀ j, j ≠ i → t'.loc j = t.loc j :=
  ⟨_, h.next (.release (by rw [hi]; exact hk)), rfl, by rw [set_loc_self, hi],
    fun _ hj => set_loc_of_ne hj⟩

/-! ## Waiting -/

/-- A context can go on: it waits for nothing, or what it waits for is free. -/
def Enabled (c : MutexClient σ τ) (rank : τ → Nat) (x : Interlocked σ) (a : τ) : Prop :=
  (∃ m, c.call a = some (.acquire m) ∧ x.locked m = false) ∨ (∃ m, c.call a = some (.release m)) ∨
    c.call a = none ∧ ∃ d b, (d, b) ∈ c.act x.data a ∧ rank b < rank a

/-- The way that is left, in accesses. -/
def callerRank (c : MutexClient σ τ) (rank : τ → Nat) : Caller τ → Nat
  | .own a => 4 * rank a
  | .calling a rest => 4 * rank (c.next a) + 1 + rest.length

variable {rank : τ → Nat}

theorem length_accesses_le (k : MutexCall) : k.accesses.length ≤ 2 := by
  cases k <;> simp [MutexCall.accesses, uacpiKernelAcquireMutex, mutexLock,
    uacpiKernelReleaseMutex, mutexUnlock]

theorem callerRank_calling (hnext : ∀ a k, c.call a = some k → rank (c.next a) < rank a)
    (h : c.call a = some k) : callerRank c rank (.calling a k.accesses) < 4 * rank a := by
  have hlt := hnext a k h
  have hlen := length_accesses_le k
  show 4 * rank (c.next a) + 1 + k.accesses.length < 4 * rank a
  omega

/-- In the middle of a call nothing keeps a context from going on. -/
theorem exists_step_of_through (hfits : c.Fits (s.loc i))
    (h : ∀ b, s.loc i ≠ .own b) (h' : ∀ b m, s.loc i ≠ .calling b (mutexLock m)) :
    ∃ s', s.Allowed Undisturbed i ∧ Contexts.Step c.Move i s s' ∧
      callerRank c rank (s'.loc i) < callerRank c rank (s.loc i) := by
  classical
  have hallowed : s.Allowed Undisturbed i := fun j _ a m hl => absurd hl (h' a m)
  cases hl : s.loc i with
  | own a => exact absurd hl (h a)
  | calling a rest =>
    cases rest with
    | nil =>
      refine ⟨s.set i s.shared (.own (c.next a)), hallowed, step_set ?_, ?_⟩
      · rw [hl]
        exact .ret
      · rw [set_loc_self]
        simp [callerRank]
    | cons instr rest =>
      have haccess : ∃ locked, instr.access s.shared.locked = some locked := by
        rw [hl] at hfits
        obtain ⟨k, -, hsuffix⟩ := hfits
        rcases suffix_cases hsuffix with ⟨m, rfl, heq | heq⟩ | ⟨m, rfl, heq⟩ | heq
        · exact absurd hl (by rw [heq]; exact h' a m)
        · obtain ⟨rfl, -⟩ := List.cons.inj heq
          exact ⟨_, rfl⟩
        · obtain ⟨rfl, -⟩ := List.cons.inj heq
          exact ⟨_, rfl⟩
        · cases heq
      obtain ⟨locked, haccess⟩ := haccess
      refine ⟨s.set i { s.shared with locked := locked } (.calling a rest), hallowed,
        step_set ?_, ?_⟩
      · rw [hl]
        exact .access haccess
      · rw [set_loc_self]
        simp [callerRank]

/-- Where everyone is at its place or waits in the loop, one that the coarser code lets go on
can. -/
theorem exists_step_of_enabled (hR : c.Refines s t)
    (hnext : ∀ a k, c.call a = some k → rank (c.next a) < rank a)
    (hwait : ∀ j, (∃ b, s.loc j = .own b) ∨ ∃ b m, s.loc j = .calling b (mutexLock m))
    (henabled : c.Enabled rank t.shared (t.loc i)) :
    ∃ s', s.Allowed Undisturbed i ∧ Contexts.Step c.Move i s s' ∧
      callerRank c rank (s'.loc i) < callerRank c rank (s.loc i) := by
  classical
  have hnobody (m : Nat) (j : ι) (b : τ) : s.loc j ≠ between b m := by
    rcases hwait j with ⟨b', hj⟩ | ⟨b', m', hj⟩ <;> simp [hj, between, mutexLock]
  have hallowed : s.Allowed Undisturbed i := fun j _ _ m _ _ b => hnobody m j b
  rw [hR.loc i] at henabled
  rcases hwait i with ⟨a, ha⟩ | ⟨a, m, ha⟩
  · rw [ha] at henabled ⊢
    cases hk : c.call a with
    | some k =>
      refine ⟨s.set i s.shared (.calling a k.accesses), hallowed, step_set ?_, ?_⟩
      · rw [ha]
        exact .call hk
      · rw [set_loc_self]
        exact callerRank_calling hnext hk
    | none =>
      rcases henabled with ⟨m, hm, -⟩ | ⟨m, hm⟩ | ⟨-, d, b, hact, hlt⟩
      · exact absurd (hk.symm.trans hm) (by simp)
      · exact absurd (hk.symm.trans hm) (by simp)
      · refine ⟨s.set i { s.shared with data := d } (.own b), hallowed, step_set ?_, ?_⟩
        · rw [ha]
          refine .act ?_
          rw [← hR.data]
          exact hact
        · rw [set_loc_self]
          exact Nat.mul_lt_mul_of_pos_left hlt (by decide)
  · have hgiven := (ha ▸ hR.fits i : c.Fits _).waiting
    rw [ha, place_waiting hgiven] at henabled
    have hfree : s.shared.locked m = false := by
      rcases henabled with ⟨m', hm', hfree⟩ | ⟨m', hm'⟩ | ⟨hnone, -⟩
      · obtain ⟨⟩ := hgiven.symm.trans hm'
        rw [← Bool.not_eq_true] at hfree ⊢
        exact fun hl => hfree ((hR.locked m).2 (.inl hl))
      · cases hgiven.symm.trans hm'
      · cases hgiven.symm.trans hnone
    refine ⟨s.set i s.shared (.calling a [.set m]), hallowed, step_set ?_, ?_⟩
    · rw [ha]
      exact .access (by simp [LockInstr.access, hfree])
    · rw [set_loc_self, ha]
      simp [callerRank, mutexLock]

/-- **All contexts can get to where they have nothing left to do**, if the coarser code always lets
one that has something left go on. -/
theorem reaches_settled [Fintype ι] (h : Reaches c.Move Undisturbed (settled t₀) s)
    (hd : ∀ t, Reaches c.Atomic (fun _ _ _ => True) t₀ t → c.Disciplined t)
    (hnext : ∀ a k, c.call a = some k → rank (c.next a) < rank a)
    (hgo : ∀ t, Reaches c.Atomic (fun _ _ _ => True) t₀ t → (∃ i, rank (t.loc i) ≠ 0) →
      ∃ i, c.Enabled rank t.shared (t.loc i)) :
    ∃ s', Reaches c.Move Undisturbed s s' ∧ ∀ i, ∃ a, s'.loc i = .own a ∧ rank a = 0 := by
  classical
  have hsteps : ∀ s, Reaches c.Move Undisturbed (settled t₀) s → (∃ i, callerRank c rank (s.loc i) ≠ 0) →
      ∃ i s', s.Allowed Undisturbed i ∧ Contexts.Step c.Move i s s' ∧
        callerRank c rank (s'.loc i) < callerRank c rank (s.loc i) := by
    rintro s hs ⟨i, hi⟩
    obtain ⟨t, ht, hR⟩ := reaches_atomic hs hd
    by_cases hwait : ∀ j, (∃ b, s.loc j = .own b) ∨ ∃ b m, s.loc j = .calling b (mutexLock m)
    · have hleft : rank (t.loc i) ≠ 0 := by
        rw [hR.loc i]
        rcases hwait i with ⟨a, ha⟩ | ⟨a, m, ha⟩
        · rw [ha] at hi ⊢
          exact fun hzero => hi (Nat.mul_eq_zero.2 (.inr hzero))
        · have hgiven := (ha ▸ hR.fits i : c.Fits _).waiting
          rw [ha]
          exact (place_waiting hgiven).symm ▸ Nat.ne_zero_of_lt (hnext a _ hgiven)
      obtain ⟨j, hj⟩ := hgo t ht ⟨i, hleft⟩
      exact ⟨j, exists_step_of_enabled hR hnext hwait hj⟩
    · obtain ⟨j, hj⟩ := not_forall.1 hwait
      refine ⟨j, exists_step_of_through (hR.fits j) (fun b hb => hj (.inl ⟨b, hb⟩))
        fun b m hb => hj (.inr ⟨b, m, hb⟩)⟩
  obtain ⟨s', hreach, hs'⟩ := h.drains hsteps
  refine ⟨s', hreach, fun i => ?_⟩
  have hi := hs' i
  cases hl : s'.loc i with
  | own a =>
    rw [hl] at hi
    exact ⟨a, rfl, (Nat.mul_eq_zero.1 hi).resolve_left (by decide)⟩
  | calling a rest =>
    rw [hl] at hi
    simp [callerRank] at hi

end MutexClient

end HelixKernel
