import Mathlib.Tactic.Common

/-!
# Critical sections (`kernel/src/extra/uacpi`, `kernel/src/extra/liballoc`)

uACPI opens one with `uacpi_kernel_disable_interrupts`, the heap with `liballoc_lock`.  Both
clear the interrupt flag and save nothing; both ends set it.

    sections_nest   the sections nest exactly if interrupts were on at the start and no
                    section is closed inside another one -/

namespace HelixKernel

/-! ## The four calls, as the flag they leave -/

/-- The state it returns, and the flag. -/
def uacpiKernelDisableInterrupts (_flag : Bool) : Nat × Bool := (0, false)

def uacpiKernelRestoreInterrupts (_state : Nat) (_flag : Bool) : Bool := true

def liballocLock (_flag : Bool) : Nat × Bool := (0, false)

def liballocUnlock (_flag : Bool) : Nat × Bool := (0, true)

/-! ## Sections -/

/-- Who opens a section. -/
inductive SectionKind where
  | uacpi
  | heap
deriving DecidableEq, Repr

/-- An open section: what its first call returned, and the flag before that call. -/
structure OpenSection where
  kind : SectionKind
  state : Nat
  before : Bool
deriving DecidableEq, Repr

/-- The interrupt flag and the open sections, innermost first. -/
structure Sections where
  flag : Bool
  opened : List OpenSection
deriving DecidableEq, Repr

/-- The first call of a section, or the second one of the innermost. -/
inductive SectionCall where
  | enter (kind : SectionKind)
  | leave
deriving DecidableEq, Repr

namespace Sections

def enter (s : Sections) : SectionKind → Sections
  | .uacpi =>
    let (state, flag) := uacpiKernelDisableInterrupts s.flag
    ⟨flag, ⟨.uacpi, state, s.flag⟩ :: s.opened⟩
  | .heap =>
    let (state, flag) := liballocLock s.flag
    ⟨flag, ⟨.heap, state, s.flag⟩ :: s.opened⟩

/-- `restore` gets back what the matching `disable` returned. -/
def closeFlag (o : OpenSection) (flag : Bool) : Bool :=
  match o.kind with
  | .uacpi => uacpiKernelRestoreInterrupts o.state flag
  | .heap => (liballocUnlock flag).2

/-- `none` where there is nothing to close. -/
def step (s : Sections) : SectionCall → Option Sections
  | .enter kind => some (s.enter kind)
  | .leave =>
    match s.opened with
    | [] => none
    | o :: rest => some ⟨closeFlag o s.flag, rest⟩

/-- The flag is 0 while a section is open, and closing one gives it its value from before. -/
structure Nests (s : Sections) (c : SectionCall) (s' : Sections) : Prop where
  masked : s'.opened ≠ [] → s'.flag = false
  restored : c = .leave → ∀ o rest, s.opened = o :: rest → s'.flag = o.before

/-- Every call of the sequence keeps to it. -/
def AllNest (s : Sections) : List SectionCall → Prop
  | [] => True
  | c :: cs => ∀ s', s.step c = some s' → s.Nests c s' ∧ AllNest s' cs

end Sections

/-- No section is closed that is not open, starting with `depth` open ones. -/
def WellNested (depth : Nat) : List SectionCall → Prop
  | [] => True
  | .enter _ :: cs => WellNested (depth + 1) cs
  | .leave :: cs => 0 < depth ∧ WellNested (depth - 1) cs

/-- A section is closed only with interrupts on at the start and no other section open. -/
def ClosedOutermost (flag : Bool) (depth : Nat) : List SectionCall → Prop
  | [] => True
  | .enter _ :: cs => ClosedOutermost flag (depth + 1) cs
  | .leave :: cs => (flag = true ∧ depth = 1) ∧ ClosedOutermost flag (depth - 1) cs

namespace Sections

/-! ## The flag of nested sections -/

/-- The flag with the sections `opened`, from `flag` with none. -/
def expected (flag : Bool) (opened : List OpenSection) : Bool := if opened = [] then flag else false

/-- Each section was opened at the flag expected there. -/
def SavedFlags (flag : Bool) : List OpenSection → Prop
  | [] => True
  | o :: rest => o.before = expected flag rest ∧ SavedFlags flag rest

structure Nested (flag : Bool) (s : Sections) : Prop where
  flag_eq : s.flag = expected flag s.opened
  saved : SavedFlags flag s.opened

variable {f : Bool} {s s' : Sections}

theorem enter_eq (s : Sections) (kind : SectionKind) :
    s.enter kind = ⟨false, ⟨kind, 0, s.flag⟩ :: s.opened⟩ := by
  cases kind <;> rfl

theorem closeFlag_eq (o : OpenSection) (flag : Bool) : closeFlag o flag = true := by
  unfold closeFlag
  split <;> rfl

theorem step_leave {o : OpenSection} {rest : List OpenSection} (hs : s.opened = o :: rest) :
    s.step .leave = some ⟨true, rest⟩ := by
  rw [step, hs]
  simp only [closeFlag_eq]

/-- **Opening** a section always nests. -/
theorem Nested.enter (h : Nested f s) (kind : SectionKind) :
    s.Nests (.enter kind) (s.enter kind) ∧ Nested f (s.enter kind) := by
  rw [enter_eq]
  exact ⟨⟨fun _ => rfl, fun hc => by cases hc⟩, ⟨rfl, h.flag_eq, h.saved⟩⟩

/-- **Closing** one does if the flag it sets is the one expected. -/
theorem Nested.leave_iff (h : Nested f s) {o : OpenSection} {rest : List OpenSection}
    (hs : s.opened = o :: rest) : s.Nests .leave ⟨true, rest⟩ ↔ f = true ∧ s.opened.length = 1 := by
  have hbefore : o.before = expected f rest := by
    have := h.saved
    rw [hs] at this
    exact this.1
  rw [hs, List.length_cons]
  constructor
  · intro hn
    have hrest : rest = [] := by
      by_contra hne
      exact Bool.noConfusion (hn.masked hne)
    have hflag : true = o.before := hn.restored rfl o rest hs
    rw [hbefore, hrest] at hflag
    exact ⟨hflag.symm, by rw [hrest, List.length_nil]⟩
  · rintro ⟨rfl, hlen⟩
    have hrest : rest = [] := List.eq_nil_of_length_eq_zero (by omega)
    subst hrest
    refine ⟨fun hne => absurd rfl hne, fun _ o' rest' hs' => ?_⟩
    rw [hs] at hs'
    injection hs' with ho
    rw [← ho, hbefore]
    rfl

/-- **A sequence of calls**, from any state that earlier ones may have left. -/
theorem Nested.allNest_iff (cs : List SectionCall) (h : Nested f s)
    (hw : WellNested s.opened.length cs) : s.AllNest cs ↔ ClosedOutermost f s.opened.length cs := by
  induction cs generalizing s with
  | nil => exact Iff.rfl
  | cons c cs ih =>
    cases c with
    | enter kind =>
      have hlen : (s.enter kind).opened.length = s.opened.length + 1 := by rw [enter_eq]; rfl
      obtain ⟨hn, hnested⟩ := h.enter kind
      have hrest := ih hnested (by rw [hlen]; exact hw)
      rw [hlen] at hrest
      constructor
      · intro hall
        exact hrest.mp (hall _ rfl).2
      · intro hout s' hs'
        injection hs' with hs'
        subst hs'
        exact ⟨hn, hrest.mpr hout⟩
    | leave =>
      obtain ⟨o, rest, hs⟩ := List.exists_cons_of_length_pos hw.1
      have hstep := step_leave hs
      have hlen : s.opened.length = rest.length + 1 := by rw [hs, List.length_cons]
      have hiff := h.leave_iff hs
      -- the rest of the sequence, once this call nests
      have hnext (hclose : f = true ∧ s.opened.length = 1) :
          AllNest ⟨true, rest⟩ cs ↔ ClosedOutermost f (s.opened.length - 1) cs := by
        have hrest : rest = [] := List.eq_nil_of_length_eq_zero (by omega)
        subst hrest
        have hw' := hw.2
        rw [hlen] at hw' ⊢
        exact ih ⟨hclose.1.symm, trivial⟩ hw'
      constructor
      · intro hall
        obtain ⟨hn, hall⟩ := hall _ hstep
        have hclose := hiff.mp hn
        exact ⟨hclose, (hnext hclose).mp hall⟩
      · rintro ⟨hclose, hout⟩ s' hs'
        rw [hstep] at hs'
        injection hs' with hs'
        subst hs'
        exact ⟨hiff.mpr hclose, (hnext hclose).mpr hout⟩

/-- **Critical sections** nest, over any well-nested sequence from either value of the flag,
exactly if interrupts were on and no section is closed inside another. -/
theorem sections_nest (flag : Bool) (cs : List SectionCall) (hw : WellNested 0 cs) :
    AllNest ⟨flag, []⟩ cs ↔ ClosedOutermost flag 0 cs :=
  Nested.allNest_iff cs ⟨rfl, trivial⟩ hw

/-- **A heap call inside a section** of uACPI turns interrupts on before the section ends. -/
theorem heap_call_unmasks :
    (∃ s, ((Sections.mk true []).enter .uacpi |>.enter .heap).step .leave = some s ∧
      s.opened ≠ [] ∧ s.flag = true) ∧
    ¬ AllNest ⟨true, []⟩ [.enter .uacpi, .enter .heap, .leave] := by
  refine ⟨⟨_, rfl, by decide, by decide⟩, fun hall => ?_⟩
  have hn := (((hall _ rfl).2 _ rfl).2 _ rfl).1
  exact absurd (hn.masked (by decide)) (by decide)

/-- One after the other they nest. -/
theorem sections_nest_apart :
    AllNest ⟨true, []⟩ [.enter .uacpi, .leave, .enter .heap, .leave] :=
  (sections_nest true [.enter .uacpi, .leave, .enter .heap, .leave] (by simp [WellNested])).mpr
    (by simp [ClosedOutermost])

end Sections

end HelixKernel
