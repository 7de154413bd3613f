import HelixKernel.Extra.Spinlock
import HelixKernel.Lib.Interleave

/-!
# Mutexes (`kernel/src/mutex/mutex.cpp`)

Contexts, any number of them, lock a mutex, do something and unlock it, again and again.  Each
access to its word is one step, as the source has them: the loop is kept, though a compiler may drop
it (`Spinlock.lean`).  `mutex_lock` reads that the word is false in one step and makes it
true in another one, and in between it still looks free.

    mutex_excludes   no two contexts are past `mutex_lock` in any run where none reads that the
                     mutex is free while another one is in between, and from where one does
                     there is a run in which two are -/

namespace HelixKernel

/-- One access to the words; none where a loop reads that its word is true. -/
def LockInstr.access (locked : Nat → Bool) : LockInstr → Option (Nat → Bool)
  | .spin l => if locked l then none else some locked
  | .set l => some (Function.update locked l true)
  | .clear l => some (Function.update locked l false)

/-- Where a context is: in a call, with the accesses it has left, or past `mutex_lock`. -/
inductive Locker where
  | locking (rest : List LockInstr)
  | critical
  | unlocking (rest : List LockInstr)
deriving DecidableEq, Repr

namespace Locker

/-- What a context does that locks `l` again and again. -/
inductive Move (l : Nat) : (Nat → Bool) → Locker → (Nat → Bool) → Locker → Prop where
  | spin {locked : Nat → Bool} {i : LockInstr} {rest : List LockInstr}
      (h : i.access locked = none) :
      Move l locked (.locking (i :: rest)) locked (.locking (i :: rest))
  | lock {locked locked' : Nat → Bool} {i : LockInstr} {rest : List LockInstr}
      (h : i.access locked = some locked') :
      Move l locked (.locking (i :: rest)) locked' (.locking rest)
  | enter {locked : Nat → Bool} : Move l locked (.locking []) locked .critical
  | work {locked : Nat → Bool} : Move l locked .critical locked .critical
  | leave {locked : Nat → Bool} : Move l locked .critical locked (.unlocking (mutexUnlock l))
  | unlock {locked locked' : Nat → Bool} {i : LockInstr} {rest : List LockInstr}
      (h : i.access locked = some locked') :
      Move l locked (.unlocking (i :: rest)) locked' (.unlocking rest)
  | again {locked : Nat → Bool} : Move l locked (.unlocking []) locked (.locking (mutexLock l))

/-- Past the read that ended the loop, and before the write. -/
def between (l : Nat) : Locker := .locking [.set l]

/-- A context that reads that the mutex is free does so while the other one is not in between. -/
def Undisturbed (l : Nat) (locked : Nat → Bool) (a b : Locker) : Prop :=
  a = .locking (mutexLock l) → locked l = false → b ≠ between l

/-! ## The steps there are -/

/-- Where a context can be; from its write to the next one the word is true. -/
def At (l : Nat) (locked : Nat → Bool) : Locker → Prop
  | .locking rest => rest = mutexLock l ∨ rest = [.set l] ∨ rest = [] ∧ locked l = true
  | .critical => locked l = true
  | .unlocking rest => rest = mutexUnlock l ∧ locked l = true ∨ rest = []

/-- It has left the loop, and not written false since. -/
def Through (l : Nat) : Locker → Prop
  | .locking rest => rest ≠ mutexLock l
  | .critical => True
  | .unlocking rest => rest ≠ []

/-- One of two contexts at most is through. -/
def NotBoth (l : Nat) (a b : Locker) : Prop := ¬ (a.Through l ∧ b.Through l)

/-- The moves, from where a context can be. -/
inductive Line (l : Nat) : (Nat → Bool) → Locker → (Nat → Bool) → Locker → Prop where
  | spin {locked : Nat → Bool} (h : locked l = true) :
      Line l locked (.locking (mutexLock l)) locked (.locking (mutexLock l))
  | read {locked : Nat → Bool} (h : locked l = false) :
      Line l locked (.locking (mutexLock l)) locked (between l)
  | take {locked : Nat → Bool} :
      Line l locked (between l) (Function.update locked l true) (.locking [])
  | enter {locked : Nat → Bool} (h : locked l = true) : Line l locked (.locking []) locked .critical
  | work {locked : Nat → Bool} (h : locked l = true) : Line l locked .critical locked .critical
  | leave {locked : Nat → Bool} (h : locked l = true) :
      Line l locked .critical locked (.unlocking (mutexUnlock l))
  | release {locked : Nat → Bool} (h : locked l = true) :
      Line l locked (.unlocking (mutexUnlock l)) (Function.update locked l false) (.unlocking [])
  | again {locked : Nat → Bool} : Line l locked (.unlocking []) locked (.locking (mutexLock l))

variable {l : Nat} {locked locked' : Nat → Bool} {a b c : Locker}

theorem Move.line (h : Move l locked a locked' b) (hat : a.At l locked) :
    Line l locked a locked' b := by
  cases h with
  | spin h =>
    rcases hat with heq | heq | ⟨heq, -⟩
    · obtain ⟨rfl, rfl⟩ := List.cons.inj heq
      refine .spin ?_
      simpa [LockInstr.access] using h
    · obtain ⟨rfl, rfl⟩ := List.cons.inj heq
      cases h
    · cases heq
  | lock h =>
    rcases hat with heq | heq | ⟨heq, -⟩
    · obtain ⟨rfl, rfl⟩ := List.cons.inj heq
      obtain ⟨hfree, rfl⟩ : locked l = false ∧ locked = locked' := by
        simpa [LockInstr.access] using h
      exact .read hfree
    · obtain ⟨rfl, rfl⟩ := List.cons.inj heq
      cases h
      exact .take
    · cases heq
  | enter =>
    rcases hat with heq | heq | ⟨-, hl⟩
    · cases heq
    · cases heq
    · exact .enter hl
  | work => exact .work hat
  | leave => exact .leave hat
  | unlock h =>
    rcases hat with ⟨heq, hl⟩ | heq
    · obtain ⟨rfl, rfl⟩ := List.cons.inj heq
      cases h
      exact .release hl
    · cases heq
  | again => exact .again

theorem Line.eq_between (h : Line l locked (.locking (mutexLock l)) locked' b)
    (hfree : locked l = false) : b = between l := by
  cases h with
  | spin hl =>
    rw [hfree] at hl
    cases hl
  | read _ => rfl

/-- A context that is not through does not mind the word. -/
theorem At.of_not_through (h : a.At l locked) (hout : ¬ a.Through l) : a.At l locked' := by
  cases a with
  | locking rest => exact .inl (by simpa [Through] using hout)
  | critical => exact absurd trivial hout
  | unlocking rest => exact .inr (by simpa [Through] using hout)

theorem through_between : (between l).Through l := by
  simp [between, Through, mutexLock]

/-- One that is through has written, or is in between. -/
theorem Through.between_or (h : a.Through l) (hat : a.At l locked) :
    a = between l ∨ locked l = true := by
  cases a with
  | locking rest =>
    rcases hat with heq | heq | ⟨-, hl⟩
    · exact absurd heq h
    · exact .inl (congrArg locking heq)
    · exact .inr hl
  | critical => exact .inr hat
  | unlocking rest =>
    rcases hat with ⟨-, hl⟩ | heq
    · exact .inr hl
    · exact absurd heq h

/-! ## Exclusion -/

theorem Line.at_self (h : Line l locked a locked' b) : b.At l locked' := by
  cases h with
  | spin h => exact .inl rfl
  | read h => exact .inr (.inl rfl)
  | take => exact .inr (.inr ⟨rfl, Function.update_self l true locked⟩)
  | enter h => exact h
  | work h => exact h
  | leave h => exact .inl ⟨rfl, h⟩
  | release h => exact .inr rfl
  | again => exact .inl rfl

/-- **One step** beside another context: one of them at most is through. -/
theorem Line.at_other (h : Line l locked a locked' b) (hq : Undisturbed l locked a c)
    (hc : c.At l locked) (hone : NotBoth l a c) : c.At l locked' ∧ NotBoth l b c := by
  by_cases ha : a.Through l
  · -- then the other one is not, and does not mind
    have hout : ¬ c.Through l := fun hthrough => hone ⟨ha, hthrough⟩
    exact ⟨hc.of_not_through hout, fun hboth => hout hboth.2⟩
  · cases h with
    | spin h => exact ⟨hc, hone⟩
    | read hfree =>
      refine ⟨hc, fun hboth => ?_⟩
      rcases hboth.2.between_or hc with hbetween | hl
      · exact hq rfl hfree hbetween
      · rw [hfree] at hl
        cases hl
    | take => exact absurd through_between ha
    | enter h => exact absurd (by simp [Through, mutexLock]) ha
    | work h => exact absurd trivial ha
    | leave h => exact absurd trivial ha
    | release h => exact absurd (by simp [Through, mutexUnlock]) ha
    | again => exact ⟨hc, fun hboth => hboth.1 rfl⟩

theorem stepKeeps (l : Nat) : Contexts.StepKeeps (Move l) (Undisturbed l)
    (fun locked a => a.At l locked) (NotBoth l) where
  own h hat := (h.line hat).at_self
  other h hq hat hc hone := (h.line hat).at_other hq hc hone
  symm hone hboth := hone hboth.symm

end Locker

/-! ## Runs -/

open Contexts Locker

/-- No two contexts are past `mutex_lock`. -/
def Exclusive {ι : Type} (s : Contexts ι (Nat → Bool) Locker) : Prop :=
  ∀ i j, s.loc i = .critical → s.loc j = .critical → i = j

/-- What `create_mutex` leaves at `l`, before the contexts' first calls. -/
def createMutex (ι : Type) (l : Nat) (locked : Nat → Bool) : Contexts ι (Nat → Bool) Locker :=
  ⟨Function.update locked l false, fun _ => .locking (mutexLock l)⟩

variable {ι : Type} {l : Nat} {locked : Nat → Bool} {s s' : Contexts ι (Nat → Bool) Locker}
  {i j : ι}

/-- Every context is where it can be, and one of them at most is through. -/
abbrev MutexInv (l : Nat) (s : Contexts ι (Nat → Bool) Locker) : Prop :=
  Pairwise (fun locked a => a.At l locked) (NotBoth l) s

theorem mutexInv_of_reaches (h : Reaches (Move l) (Undisturbed l) (createMutex ι l locked) s) :
    MutexInv l s :=
  h.pairwise (stepKeeps l) ⟨fun _ => .inl rfl, fun _ _ _ hboth => hboth.1 rfl⟩

theorem MutexInv.exclusive (h : MutexInv l s) : Exclusive s := by
  intro i j hi hj
  by_contra hne
  refine h.both i j hne ?_
  rw [hi, hj]
  exact ⟨trivial, trivial⟩

/-- From in between, nothing keeps a context out. -/
theorem reaches_critical {Q : (Nat → Bool) → Locker → Locker → Prop}
    (hQ : ∀ locked a b, a ≠ .locking (mutexLock l) → Q locked a b) (hi : s.loc i = between l) :
    ∃ s', Reaches (Move l) Q s s' ∧ s'.loc i = .critical ∧ ∀ j, j ≠ i → s'.loc j = s.loc j := by
  classical
  have htake : Contexts.Step (Move l) i s
      (s.set i (Function.update s.shared l true) (.locking [])) := by
    refine step_set ?_
    rw [hi]
    exact .lock rfl
  have henter : Contexts.Step (Move l) i (s.set i (Function.update s.shared l true) (.locking []))
      ((s.set i (Function.update s.shared l true) (.locking [])).set i
        (Function.update s.shared l true) .critical) := by
    refine step_set ?_
    rw [set_loc_self]
    exact .enter
  refine ⟨_, (Reaches.single ?_ htake).tail ?_ henter, set_loc_self, fun j hj => ?_⟩
  · intro j hj
    exact hQ _ _ _ (by simp [hi, between, mutexLock])
  · intro j hj
    exact hQ _ _ _ (by simp [mutexLock])
  · rw [set_loc_of_ne hj, set_loc_of_ne hj]

/-- Of two contexts in between both get past `mutex_lock`. -/
theorem reaches_not_exclusive {Q : (Nat → Bool) → Locker → Locker → Prop}
    (hQ : ∀ locked a b, a ≠ .locking (mutexLock l) → Q locked a b) (hne : i ≠ j)
    (hi : s.loc i = between l) (hj : s.loc j = between l) :
    ∃ s', Reaches (Move l) Q s s' ∧ ¬ Exclusive s' := by
  obtain ⟨s₁, h₁, hi₁, hothers₁⟩ := reaches_critical hQ hi
  have hj₁ : s₁.loc j = between l := (hothers₁ j (Ne.symm hne)).trans hj
  obtain ⟨s₂, h₂, hj₂, hothers₂⟩ := reaches_critical hQ hj₁
  exact ⟨s₂, h₁.trans h₂, fun hex => hne (hex i j ((hothers₂ i hne).trans hi₁) hj₂)⟩

/-- **The mutex excludes as long as no context reads that it is free while another one is between
this read and the write**, and no longer: after a step in which one does, two contexts can get past
`mutex_lock` even if no other step is like this. -/
theorem mutex_excludes (l : Nat) (locked : Nat → Bool) (s : Contexts ι (Nat → Bool) Locker)
    (h : Reaches (Move l) (Undisturbed l) (createMutex ι l locked) s) :
    Exclusive s ∧ ∀ i s', Contexts.Step (Move l) i s s' →
      (s.Allowed (Undisturbed l) i ↔
        ∀ s'', Reaches (Move l) (Undisturbed l) s' s'' → Exclusive s'') := by
  have hinv := mutexInv_of_reaches h
  refine ⟨MutexInv.exclusive hinv, fun i s' hstep => ⟨fun ha s'' h' => ?_, fun hex => ?_⟩⟩
  · exact MutexInv.exclusive (mutexInv_of_reaches ((h.tail ha hstep).trans h'))
  · intro j hj hi hfree hbetween
    have hline := hstep.own.line (hinv.each i)
    rw [hi] at hline
    have hi' : s'.loc i = between l := hline.eq_between hfree
    have hj' : s'.loc j = between l := (hstep.others j hj).trans hbetween
    obtain ⟨s'', h'', hnot⟩ := reaches_not_exclusive (Q := Undisturbed l)
      (fun _ _ _ hne heq => absurd heq hne) (Ne.symm hj) hi' hj'
    exact hnot (hex s'' h'')

/-- The read of a free mutex. -/
theorem read_step [DecidableEq ι] (hi : s.loc i = .locking (mutexLock l))
    (hfree : s.shared l = false) : Contexts.Step (Move l) i s (s.set i s.shared (between l)) := by
  refine step_set ?_
  rw [hi]
  exact .lock (by simp [LockInstr.access, hfree])

/-- **Two contexts read that the mutex is free before either has written**: both get past
`mutex_lock`. -/
theorem mutex_entered_twice :
    ∃ s, Reaches (Move 8) (fun _ _ _ => True) (createMutex Bool 8 fun _ => false) s ∧
      ¬ Exclusive s := by
  have hread := read_step (s := createMutex Bool 8 fun _ => false) (i := true) rfl (by decide)
  have hread' := read_step (s := (createMutex Bool 8 fun _ => false).set true
    (createMutex Bool 8 fun _ => false).shared (between 8)) (i := false) rfl (by decide)
  obtain ⟨s, hrun, hnot⟩ := reaches_not_exclusive (Q := fun _ _ _ => True) (fun _ _ _ _ => trivial)
    Bool.false_ne_true set_loc_self ((set_loc_of_ne (by decide)).trans set_loc_self)
  have hreads : Reaches (Move 8) (fun _ _ _ => True) (createMutex Bool 8 fun _ => false) _ :=
    .tail (.single (fun _ _ => trivial) hread) (fun _ _ => trivial) hread'
  exact ⟨s, hreads.trans hrun, hnot⟩

/-- A context that is alone in between gets past `mutex_lock` alone. -/
theorem mutex_excludes_first :
    ∃ s, s.loc true = .critical ∧ Exclusive s ∧
      Reaches (Move 8) (Undisturbed 8) (createMutex Bool 8 fun _ => false) s := by
  have hread := read_step (s := createMutex Bool 8 fun _ => false) (i := true) rfl (by decide)
  have hallowed : (createMutex Bool 8 fun _ => false).Allowed (Undisturbed 8) true := by
    intro j _ _ _
    exact fun h => by cases h
  obtain ⟨s, hrun, hs, -⟩ := reaches_critical (Q := Undisturbed 8)
    (fun _ _ _ hne heq => absurd heq hne) (set_loc_self (s := createMutex Bool 8 fun _ => false))
  have hreach := (Reaches.single hallowed hread).trans hrun
  exact ⟨s, hs, (mutex_excludes 8 (fun _ => false) s hreach).1, hreach⟩

end HelixKernel
