import Mathlib.Logic.Function.Basic
import Mathlib.Tactic.Common

/-!
# Interrupt lines and their owners

`irq_table`, the four calls that change it and the sixteen stubs that read it.  Each call
is the list of the field assignments it makes, in program order, so that one definition
serves both the whole calls here and the interrupted ones of `IdtSteps`.

    irq_owner    in every run a used line is its owner's: only calls with the owner's key
                 change it, and a delivery calls the owner's handler if the owner listens,
                 and otherwise none -/

namespace HelixKernel

/-- `irq_entry`; a null pointer is `0`. -/
structure IrqEntry where
  protectionKey : Nat
  irq : Nat
  handler : Nat
  used : Bool
  masked : Bool
deriving DecidableEq, Repr

/-- An assignment to one field of an entry. -/
inductive FieldStore where
  | protectionKey (p : Nat)
  | irq (n : Nat)
  | handler (p : Nat)
  | used (b : Bool)
  | masked (b : Bool)
deriving DecidableEq, Repr

namespace IrqEntry

def assign (e : IrqEntry) : FieldStore → IrqEntry
  | .protectionKey p => { e with protectionKey := p }
  | .irq n => { e with irq := n }
  | .handler p => { e with handler := p }
  | .used b => { e with used := b }
  | .masked b => { e with masked := b }

def assignAll (e : IrqEntry) (fs : List FieldStore) : IrqEntry := fs.foldl assign e

/-! ## The calls, on the entry of their line -/

/-- `key` is what `malloc(1)` returns. -/
def registerIrq (e : IrqEntry) (irq handler key : Nat) : List FieldStore :=
  if handler = 0 then []
  else if e.used then []
  else [.used true, .irq irq, .handler handler, .protectionKey key, .masked true]

def removeIrq (e : IrqEntry) (key : Nat) : List FieldStore :=
  if key = 0 then []
  else if !e.used then []
  else if e.protectionKey = key then
    -- `free(protection_key)` stands before the fourth assignment and leaves the table alone
    [.used false, .irq 0, .handler 0, .protectionKey 0, .masked true]
  else []

def unmaskIrq (e : IrqEntry) (key : Nat) : List FieldStore :=
  if e.protectionKey ≠ key then [] else [.masked false]

def maskIrq (e : IrqEntry) (key : Nat) : List FieldStore :=
  if e.protectionKey ≠ key then [] else [.masked true]

theorem registerIrq_of_free {e : IrqEntry} {handler : Nat} (irq key : Nat) (hh : handler ≠ 0)
    (hu : e.used = false) :
    e.registerIrq irq handler key =
      [.used true, .irq irq, .handler handler, .protectionKey key, .masked true] := by
  simp [registerIrq, hh, hu]

theorem registerIrq_of_refused {e : IrqEntry} {handler : Nat} (irq key : Nat)
    (h : handler = 0 ∨ e.used = true) : e.registerIrq irq handler key = [] := by
  unfold registerIrq
  rcases h with h | h <;> simp [h]

theorem removeIrq_cases (e : IrqEntry) (key : Nat) : e.removeIrq key = [] ∨
    e.removeIrq key = [.used false, .irq 0, .handler 0, .protectionKey 0, .masked true] := by
  unfold removeIrq
  by_cases h0 : key = 0
  · exact .inl (if_pos h0)
  · by_cases hu : e.used = true
    · by_cases hk : e.protectionKey = key <;> simp [h0, hu, hk]
    · simp [hu]

theorem unmaskIrq_cases (e : IrqEntry) (key : Nat) :
    e.unmaskIrq key = [] ∨ e.unmaskIrq key = [.masked false] := by
  unfold unmaskIrq
  by_cases hk : e.protectionKey = key <;> simp [hk]

theorem maskIrq_cases (e : IrqEntry) (key : Nat) :
    e.maskIrq key = [] ∨ e.maskIrq key = [.masked true] := by
  unfold maskIrq
  by_cases hk : e.protectionKey = key <;> simp [hk]

theorem assignAll_registerIrq (e : IrqEntry) (irq handler key : Nat) :
    e.assignAll (e.registerIrq irq handler key) =
      if handler ≠ 0 ∧ e.used = false then ⟨key, irq, handler, true, true⟩ else e := by
  by_cases h : handler ≠ 0 ∧ e.used = false
  · simp [registerIrq_of_free irq key h.1 h.2, h, assignAll, assign]
  · rw [registerIrq_of_refused irq key (by by_cases h0 : handler = 0 <;> simp_all), if_neg h]
    rfl

theorem assignAll_removeIrq (e : IrqEntry) (key : Nat) :
    e.assignAll (e.removeIrq key) =
      if key ≠ 0 ∧ e.used = true ∧ e.protectionKey = key then ⟨0, 0, 0, false, true⟩ else e := by
  unfold removeIrq
  by_cases h0 : key = 0
  · simp [h0, assignAll]
  · by_cases hu : e.used = true
    · by_cases hk : e.protectionKey = key
      · simp [h0, hu, hk, assignAll, assign]
      · simp [h0, hu, hk, assignAll]
    · simp [h0, hu, assignAll]

theorem assignAll_unmaskIrq (e : IrqEntry) (key : Nat) :
    e.assignAll (e.unmaskIrq key) =
      if e.protectionKey = key then { e with masked := false } else e := by
  unfold unmaskIrq
  by_cases hk : e.protectionKey = key <;> simp [hk, assignAll, assign]

theorem assignAll_maskIrq (e : IrqEntry) (key : Nat) :
    e.assignAll (e.maskIrq key) =
      if e.protectionKey = key then { e with masked := true } else e := by
  unfold maskIrq
  by_cases hk : e.protectionKey = key <;> simp [hk, assignAll, assign]

end IrqEntry

/-! ## The table -/

abbrev IrqTable := Fin 16 → IrqEntry

/-- `irq_table` before `main`: the initialiser reaches the first slot only. -/
def irqTable : IrqTable := fun i => if i = 0 then ⟨0, 0, 0, false, true⟩ else ⟨0, 0, 0, false, false⟩

theorem irqTable_idle (i : Fin 16) :
    (irqTable i).used = false ∧ (irqTable i).handler = 0 ∧ (irqTable i).protectionKey = 0 := by
  unfold irqTable
  by_cases h : i = 0 <;> simp [h]

/-- `handler(num, ctx)` -/
structure HandlerCall where
  handler : Nat
  irq : Nat
  ctx : Nat
deriving DecidableEq, Repr

/-- `irq_stub_handler_num`: the call it makes, if any. -/
def irqStubHandler (num : Fin 16) (t : IrqTable) (ctx : Nat) : Option HandlerCall :=
  if !(t num).used then none
  else if (t num).masked then none
  else some ⟨(t num).handler, num, ctx⟩

theorem irqStubHandler_eq_some {num : Fin 16} {t : IrqTable} {ctx : Nat} {c : HandlerCall} :
    irqStubHandler num t ctx = some c ↔
      (t num).used = true ∧ (t num).masked = false ∧ c = ⟨(t num).handler, num, ctx⟩ := by
  unfold irqStubHandler
  by_cases hu : (t num).used = true
  · by_cases hm : (t num).masked = true
    · simp [hu, hm]
    · simp [hu, hm, eq_comm]
  · simp [hu]

/-- A call; for `register` also the key that `malloc` has for it. -/
inductive IrqCall where
  | register (irq handler key : Nat)
  | remove (irq key : Nat)
  | unmask (irq key : Nat)
  | mask (irq key : Nat)
deriving DecidableEq, Repr

namespace IrqCall

def irq : IrqCall → Nat
  | register irq _ _ => irq
  | remove irq _ => irq
  | unmask irq _ => irq
  | mask irq _ => irq

/-- The assignments it makes where the entry of its line is `e`. -/
def stores (e : IrqEntry) : IrqCall → List FieldStore
  | register irq handler key => e.registerIrq irq handler key
  | remove _ key => e.removeIrq key
  | unmask _ key => e.unmaskIrq key
  | mask _ key => e.maskIrq key

/-- All four return at once on `irq >= 16`. -/
def run (t : IrqTable) (c : IrqCall) : IrqTable :=
  if h : c.irq < 16 then
    Function.update t ⟨c.irq, h⟩ ((t ⟨c.irq, h⟩).assignAll (c.stores (t ⟨c.irq, h⟩)))
  else t

theorem run_of_ne (t : IrqTable) {c : IrqCall} {i : Fin 16} (h : c.irq ≠ i) : c.run t i = t i := by
  unfold run
  by_cases hlt : c.irq < 16
  · rw [dif_pos hlt, Function.update_of_ne]
    intro hi
    exact h (by rw [hi])
  · rw [dif_neg hlt]

theorem run_of_eq (t : IrqTable) {c : IrqCall} {i : Fin 16} (h : c.irq = i) :
    c.run t i = (t i).assignAll (c.stores (t i)) := by
  have hi : (⟨c.irq, by omega⟩ : Fin 16) = i := Fin.ext h
  unfold run
  rw [dif_pos (by omega : c.irq < 16), hi, Function.update_self]

/-- It names line `i` and presents `key`. -/
def Presents (i : Fin 16) (key : Nat) : IrqCall → Prop
  | register .. => False
  | remove irq k => irq = i ∧ k = key
  | unmask irq k => irq = i ∧ k = key
  | mask irq k => irq = i ∧ k = key

/-- `malloc` succeeds, with a key that is in no entry. -/
def Fresh (t : IrqTable) : IrqCall → Prop
  | register _ _ key => key ≠ 0 ∧ ∀ j, (t j).protectionKey ≠ key
  | _ => True

/-- What `register_irq` returns. -/
def registerResult (t : IrqTable) (irq handler key : Nat) : Nat :=
  if h : irq < 16 then
    if (t ⟨irq, h⟩).registerIrq irq handler key = [] then 0
    else (run t (register irq handler key) ⟨irq, h⟩).protectionKey
  else 0

/-- **A used line** changes only under a call with its key. -/
theorem run_used {t : IrqTable} {c : IrqCall} {i : Fin 16} (hu : (t i).used = true)
    (hne : c.run t i ≠ t i) : c.Presents i (t i).protectionKey := by
  have hirq : c.irq = i := by
    by_contra h
    exact hne (run_of_ne t h)
  rw [run_of_eq t hirq] at hne
  cases c with
  | register irq handler key =>
    simp [stores, IrqEntry.assignAll_registerIrq, hu] at hne
  | remove irq key =>
    refine ⟨hirq, ?_⟩
    by_contra hk
    simp [stores, IrqEntry.assignAll_removeIrq, Ne.symm hk] at hne
  | unmask irq key =>
    refine ⟨hirq, ?_⟩
    by_contra hk
    simp [stores, IrqEntry.assignAll_unmaskIrq, Ne.symm hk] at hne
  | mask irq key =>
    refine ⟨hirq, ?_⟩
    by_contra hk
    simp [stores, IrqEntry.assignAll_maskIrq, Ne.symm hk] at hne

/-- **A refused registration** changes nothing and returns null. -/
theorem register_refused {t : IrqTable} {irq handler : Nat} (key : Nat)
    (h : 16 ≤ irq ∨ handler = 0 ∨ ∃ i : Fin 16, irq = i ∧ (t i).used = true) :
    run t (register irq handler key) = t ∧ registerResult t irq handler key = 0 := by
  by_cases hlt : irq < 16
  · have hs : (t ⟨irq, hlt⟩).registerIrq irq handler key = [] := by
      apply IrqEntry.registerIrq_of_refused
      rcases h with h | h | ⟨i, rfl, hu⟩
      · omega
      · exact .inl h
      · exact .inr hu
    constructor
    · funext i
      by_cases hi : irq = i
      · have hi' : (⟨irq, hlt⟩ : Fin 16) = i := Fin.ext hi
        rw [run_of_eq t (c := register irq handler key) hi, stores, ← hi', hs]
        rfl
      · exact run_of_ne t hi
    · simp [registerResult, hlt, hs]
  · simp [run, registerResult, IrqCall.irq, hlt]

/-- **A registration of a free line** takes it, masked. -/
theorem register_of_free {t : IrqTable} {i : Fin 16} {handler : Nat} (key : Nat)
    (hh : handler ≠ 0) (hu : (t i).used = false) :
    run t (register i handler key) i = ⟨key, i, handler, true, true⟩ := by
  rw [run_of_eq t (c := register i handler key) (i := i) rfl, stores, IrqEntry.assignAll_registerIrq,
    if_pos ⟨hh, hu⟩]

theorem registerResult_of_free {t : IrqTable} {i : Fin 16} {handler : Nat} (key : Nat)
    (hh : handler ≠ 0) (hu : (t i).used = false) : registerResult t i handler key = key := by
  have hne : (t i).registerIrq i handler key ≠ [] := by
    simp [IrqEntry.registerIrq_of_free _ key hh hu]
  have hrun := run_of_eq t (c := register i handler key) (i := i) rfl
  simp [registerResult, hne, hrun, stores, IrqEntry.assignAll_registerIrq, hh, hu]

/-- A registration that returns a key was one of a free line. -/
theorem free_of_registerResult {t : IrqTable} {i : Fin 16} {handler key : Nat} (hk : key ≠ 0)
    (hr : registerResult t i handler key = key) : handler ≠ 0 ∧ (t i).used = false := by
  by_contra hno
  have hrefused : 16 ≤ (i : Nat) ∨ handler = 0 ∨ ∃ j : Fin 16, (i : Nat) = j ∧ (t j).used = true := by
    by_cases hh : handler = 0
    · exact .inr (.inl hh)
    · exact .inr (.inr ⟨i, rfl, by simpa [hh] using hno⟩)
  exact hk (hr.symm.trans (register_refused key hrefused).2)

/-- **A used line stays its owner's** under any call but its removal, and open but for a mask. -/
theorem run_kept {t : IrqTable} {c : IrqCall} {i : Fin 16} (hu : (t i).used = true)
    (hr : c ≠ remove i (t i).protectionKey) :
    (c.run t i).used = true ∧ (c.run t i).protectionKey = (t i).protectionKey ∧
      (c.run t i).handler = (t i).handler ∧
      ((t i).masked = false → c ≠ mask i (t i).protectionKey → (c.run t i).masked = false) := by
  by_cases hirq : c.irq = i
  · rw [run_of_eq t hirq]
    cases c with
    | register irq handler key =>
      simp [stores, IrqEntry.assignAll_registerIrq, hu]
    | remove irq key =>
      obtain rfl : irq = i := hirq
      have hkey : (t i).protectionKey ≠ key := fun hk => hr (by rw [hk])
      simp [stores, IrqEntry.assignAll_removeIrq, hkey, hu]
    | unmask irq key =>
      simp only [stores, IrqEntry.assignAll_unmaskIrq]
      split
      · exact ⟨hu, rfl, rfl, fun _ _ => rfl⟩
      · exact ⟨hu, rfl, rfl, fun hm _ => hm⟩
    | mask irq key =>
      obtain rfl : irq = i := hirq
      simp only [stores, IrqEntry.assignAll_maskIrq]
      split
      · rename_i hk
        exact ⟨hu, rfl, rfl, fun _ hne => absurd (by rw [hk]) hne⟩
      · exact ⟨hu, rfl, rfl, fun hm _ => hm⟩
  · rw [run_of_ne t hirq]
    exact ⟨hu, rfl, rfl, fun hm _ => hm⟩

/-- A line in use after a call was so before with the same key, or is newly registered. -/
theorem run_key {t : IrqTable} {c : IrqCall} {i : Fin 16} (hu : (c.run t i).used = true) :
    ((t i).used = true ∧ (c.run t i).protectionKey = (t i).protectionKey) ∨
      ∃ handler, c = register i handler (c.run t i).protectionKey := by
  by_cases hirq : c.irq = i
  · rw [run_of_eq t hirq] at hu ⊢
    cases c with
    | register irq handler key =>
      obtain rfl : irq = i := hirq
      simp only [stores, IrqEntry.assignAll_registerIrq] at hu ⊢
      split
      · exact .inr ⟨handler, rfl⟩
      · rename_i hfree
        rw [if_neg hfree] at hu
        exact .inl ⟨hu, rfl⟩
    | remove irq key =>
      simp only [stores, IrqEntry.assignAll_removeIrq] at hu ⊢
      split
      · rename_i hrem
        simp [hrem] at hu
      · rename_i hrem
        rw [if_neg hrem] at hu
        exact .inl ⟨hu, rfl⟩
    | unmask irq key =>
      simp only [stores, IrqEntry.assignAll_unmaskIrq] at hu ⊢
      split at hu <;> simp_all
    | mask irq key =>
      simp only [stores, IrqEntry.assignAll_maskIrq] at hu ⊢
      split at hu <;> simp_all
  · rw [run_of_ne t hirq] at hu ⊢
    exact .inl ⟨hu, rfl⟩

end IrqCall

/-! ## Runs -/

inductive IrqEvent where
  | call (c : IrqCall)
  | deliver (num : Fin 16) (ctx : Nat)
deriving DecidableEq, Repr

/-- The table after a history, newest event first. -/
def replay : List IrqEvent → IrqTable
  | [] => irqTable
  | .call c :: past => c.run (replay past)
  | .deliver .. :: past => replay past

/-- Every registration got a fresh key. -/
def FreshKeys : List IrqEvent → Prop
  | [] => True
  | .call c :: past => c.Fresh (replay past) ∧ FreshKeys past
  | .deliver .. :: past => FreshKeys past

/-- Line `i` was registered with `handler`, `key` was returned, and it has not been used
to remove the line since. -/
def Owner (past : List IrqEvent) (i : Fin 16) (key handler : Nat) : Prop :=
  ∃ since before, past = since ++ .call (.register i handler key) :: before ∧ key ≠ 0 ∧
    IrqCall.registerResult (replay before) i handler key = key ∧ .call (.remove i key) ∉ since

/-- The owner has unmasked the line since registering and not masked it again. -/
def Listening (past : List IrqEvent) (i : Fin 16) (key handler : Nat) : Prop :=
  ∃ since before, past = since ++ .call (.unmask i key) :: before ∧ Owner before i key handler ∧
    .call (.remove i key) ∉ since ∧ .call (.mask i key) ∉ since

section

variable {past : List IrqEvent} {i : Fin 16} {key handler : Nat} {e : IrqEvent}

theorem Owner.cons (h : Owner past i key handler) (he : e ≠ .call (.remove i key)) :
    Owner (e :: past) i key handler := by
  obtain ⟨since, before, rfl, hk, hr, hn⟩ := h
  refine ⟨e :: since, before, rfl, hk, hr, ?_⟩
  simp [hn, Ne.symm he]

theorem Listening.cons (h : Listening past i key handler) (he : e ≠ .call (.remove i key))
    (hm : e ≠ .call (.mask i key)) : Listening (e :: past) i key handler := by
  obtain ⟨since, before, rfl, ho, hn, hn'⟩ := h
  refine ⟨e :: since, before, rfl, ho, ?_, ?_⟩
  · simp [hn, Ne.symm he]
  · simp [hn', Ne.symm hm]

end

/-- What the table says of a line agrees with the history. -/
structure Held (past : List IrqEvent) (i : Fin 16) (e : IrqEntry) : Prop where
  owner : Owner past i e.protectionKey e.handler
  listening : e.masked = false → Listening past i e.protectionKey e.handler
  handler : e.handler ≠ 0

theorem Held.cons {past : List IrqEvent} {i : Fin 16} {e : IrqEntry} (h : Held past i e)
    {ev : IrqEvent} (hr : ev ≠ .call (.remove i e.protectionKey))
    (hm : ev ≠ .call (.mask i e.protectionKey)) : Held (ev :: past) i e :=
  ⟨h.owner.cons hr, fun hmask => (h.listening hmask).cons hr hm, h.handler⟩

/-- One call keeps the agreement, on every line. -/
theorem held_call {past : List IrqEvent} {c : IrqCall} {i : Fin 16} (hf : c.Fresh (replay past))
    (ih : (replay past i).used = true → Held past i (replay past i))
    (hu : (c.run (replay past) i).used = true) :
    Held (.call c :: past) i (c.run (replay past) i) := by
  by_cases hirq : c.irq = i
  · rw [IrqCall.run_of_eq _ hirq] at hu ⊢
    generalize he : replay past i = e at ih hu ⊢
    cases c with
    | register irq handler key =>
      obtain rfl : irq = i := hirq
      simp only [IrqCall.stores, IrqEntry.assignAll_registerIrq] at hu ⊢
      split
      · rename_i hfree
        refine ⟨⟨[], past, rfl, hf.1, ?_, by simp⟩, by simp, hfree.1⟩
        exact IrqCall.registerResult_of_free key hfree.1 (by rw [he]; exact hfree.2)
      · rename_i hfree
        rw [if_neg hfree] at hu
        exact (ih hu).cons (by simp) (by simp)
    | remove irq key =>
      simp only [IrqCall.stores, IrqEntry.assignAll_removeIrq] at hu ⊢
      split
      · rename_i hrem
        simp [hrem] at hu
      · rename_i hrem
        rw [if_neg hrem] at hu
        refine (ih hu).cons ?_ (by simp)
        -- the key is the line's and not null, so this would have been a removal
        intro hev
        obtain ⟨since, before, -, hk, -⟩ := (ih hu).owner
        simp only [IrqEvent.call.injEq, IrqCall.remove.injEq] at hev
        exact hrem ⟨hev.2 ▸ hk, hu, hev.2.symm⟩
    | unmask irq key =>
      obtain rfl : irq = i := hirq
      simp only [IrqCall.stores, IrqEntry.assignAll_unmaskIrq] at hu ⊢
      split
      · rename_i hk
        rw [if_pos hk] at hu
        have hold := ih hu
        refine ⟨hold.owner.cons (by simp), fun _ => ?_, hold.handler⟩
        exact ⟨[], past, by simp [hk], hold.owner, by simp, by simp⟩
      · rename_i hk
        rw [if_neg hk] at hu
        exact (ih hu).cons (by simp) (by simp)
    | mask irq key =>
      simp only [IrqCall.stores, IrqEntry.assignAll_maskIrq] at hu ⊢
      split
      · rename_i hk
        rw [if_pos hk] at hu
        exact ⟨(ih hu).owner.cons (by simp), by simp, (ih hu).handler⟩
      · rename_i hk
        rw [if_neg hk] at hu
        refine (ih hu).cons (by simp) ?_
        simp [Ne.symm hk]
  · rw [IrqCall.run_of_ne _ hirq] at hu ⊢
    apply (ih hu).cons
    · rintro ⟨⟩
      exact hirq rfl
    · rintro ⟨⟩
      exact hirq rfl

/-- **In every run** a used line is held by its owner. -/
theorem held_of_used {past : List IrqEvent} (hf : FreshKeys past) (i : Fin 16)
    (hu : (replay past i).used = true) : Held past i (replay past i) := by
  induction past with
  | nil => simp [replay, (irqTable_idle i).1] at hu
  | cons ev past ih =>
    cases ev with
    | call c => exact held_call hf.1 (ih hf.2) hu
    | deliver num ctx => exact (ih hf hu).cons (by simp) (by simp)

/-- The entry of an owner. -/
theorem Owner.entry {past : List IrqEvent} {i : Fin 16} {key handler : Nat}
    (h : Owner past i key handler) : (replay past i).used = true ∧
      (replay past i).protectionKey = key ∧ (replay past i).handler = handler := by
  obtain ⟨since, before, rfl, hk, hr, hn⟩ := h
  induction since with
  | nil =>
    obtain ⟨hh, hu⟩ := IrqCall.free_of_registerResult hk hr
    rw [List.nil_append, replay, IrqCall.register_of_free key hh hu]
    exact ⟨rfl, rfl, rfl⟩
  | cons ev since ih =>
    obtain ⟨hu, hkey, hhandler⟩ := ih fun hin => hn (List.mem_cons_of_mem ev hin)
    cases ev with
    | deliver num ctx => exact ⟨hu, hkey, hhandler⟩
    | call c =>
      obtain ⟨hu', hkey', hhandler', -⟩ := IrqCall.run_kept (c := c) hu fun hc =>
        hn (by rw [hc, hkey]; exact List.mem_cons_self)
      exact ⟨hu', hkey'.trans hkey, hhandler'.trans hhandler⟩

/-- And of one who is listening. -/
theorem Listening.entry {past : List IrqEvent} {i : Fin 16} {key handler : Nat}
    (h : Listening past i key handler) :
    (replay past i).used = true ∧ (replay past i).protectionKey = key ∧
      (replay past i).handler = handler ∧ (replay past i).masked = false := by
  obtain ⟨since, before, rfl, howner, hn, hn'⟩ := h
  induction since with
  | nil =>
    obtain ⟨hu, hkey, hhandler⟩ := howner.entry
    rw [List.nil_append, replay, IrqCall.run_of_eq _ (c := .unmask i key) (i := i) rfl,
      IrqCall.stores, IrqEntry.assignAll_unmaskIrq, if_pos hkey]
    exact ⟨hu, hkey, hhandler, rfl⟩
  | cons ev since ih =>
    obtain ⟨hu, hkey, hhandler, hm⟩ := ih (fun hin => hn (List.mem_cons_of_mem ev hin))
      fun hin => hn' (List.mem_cons_of_mem ev hin)
    cases ev with
    | deliver num ctx => exact ⟨hu, hkey, hhandler, hm⟩
    | call c =>
      obtain ⟨hu', hkey', hhandler', hm'⟩ := IrqCall.run_kept (c := c) hu fun hc =>
        hn (by rw [hc, hkey]; exact List.mem_cons_self)
      refine ⟨hu', hkey'.trans hkey, hhandler'.trans hhandler, hm' hm fun hc => hn' ?_⟩
      rw [hc, hkey]
      exact List.mem_cons_self

/-- **A delivery** calls the handler of an owner who is listening. -/
theorem Listening.delivers {past : List IrqEvent} {i : Fin 16} {key handler : Nat}
    (h : Listening past i key handler) (ctx : Nat) :
    irqStubHandler i (replay past) ctx = some ⟨handler, i, ctx⟩ := by
  obtain ⟨hu, -, hhandler, hm⟩ := h.entry
  exact irqStubHandler_eq_some.mpr ⟨hu, hm, by rw [hhandler]⟩

/-- Used lines have different keys. -/
theorem keys_distinct {past : List IrqEvent} (hf : FreshKeys past) {i j : Fin 16}
    (hi : (replay past i).used = true) (hj : (replay past j).used = true)
    (hk : (replay past i).protectionKey = (replay past j).protectionKey) : i = j := by
  induction past with
  | nil => simp [replay, (irqTable_idle i).1] at hi
  | cons ev past ih =>
    cases ev with
    | deliver num ctx => exact ih hf hi hj hk
    | call c =>
      simp only [replay] at hi hj hk
      rcases IrqCall.run_key hi with ⟨hi', hki⟩ | ⟨h, hci⟩
      · rcases IrqCall.run_key hj with ⟨hj', hkj⟩ | ⟨h, hcj⟩
        · exact ih hf.2 hi' hj' (by rw [← hki, ← hkj, hk])
        · have hfresh : c.Fresh (replay past) := hf.1
          rw [hcj] at hfresh
          exact absurd (hki ▸ hk) (hfresh.2 i)
      · rcases IrqCall.run_key hj with ⟨hj', hkj⟩ | ⟨h', hcj⟩
        · have hfresh : c.Fresh (replay past) := hf.1
          rw [hci] at hfresh
          exact absurd (hkj ▸ hk.symm) (hfresh.2 j)
        · rw [hci] at hcj
          injection hcj with hirq
          exact Fin.ext hirq

/-- **Line ownership**, after any history: a used line changes only under a call with its
key, which is no other used line's; a refused registration changes nothing; what a
delivery calls, if anything, is the handler of an owner who is listening; and where one
listens, it calls this handler. -/
theorem irq_owner {past : List IrqEvent} (hf : FreshKeys past) :
    (∀ c i, (replay past i).used = true → IrqCall.run (replay past) c i ≠ replay past i →
      c.Presents i (replay past i).protectionKey) ∧
    (∀ i j, (replay past i).used = true → (replay past j).used = true →
      (replay past i).protectionKey = (replay past j).protectionKey → i = j) ∧
    (∀ irq handler key : Nat,
      (16 ≤ irq ∨ handler = 0 ∨ ∃ i : Fin 16, irq = i ∧ (replay past i).used = true) →
      IrqCall.run (replay past) (.register irq handler key) = replay past ∧
        IrqCall.registerResult (replay past) irq handler key = 0) ∧
    (∀ (i : Fin 16) ctx call, irqStubHandler i (replay past) ctx = some call →
      (replay past i).used = true ∧ ∃ handler, handler ≠ 0 ∧ call = ⟨handler, i, ctx⟩ ∧
        Owner past i (replay past i).protectionKey handler ∧
        Listening past i (replay past i).protectionKey handler) ∧
    ∀ (i : Fin 16) key handler ctx, Listening past i key handler →
      irqStubHandler i (replay past) ctx = some ⟨handler, i, ctx⟩ := by
  refine ⟨fun c i => IrqCall.run_used, fun i j => keys_distinct hf, ?_, ?_,
    fun i key handler ctx h => h.delivers ctx⟩
  · intro irq handler key
    exact IrqCall.register_refused key
  · intro i ctx call hcall
    obtain ⟨hu, hm, rfl⟩ := irqStubHandler_eq_some.mp hcall
    have hheld := held_of_used hf i hu
    exact ⟨hu, _, hheld.handler, rfl, hheld.owner, hheld.listening hm⟩

/-- Line 1: registered, hit while masked, unmasked. -/
def timerHistory : List IrqEvent :=
  [.call (.unmask 1 7), .deliver 1 0, .call (.register 1 5 7)]

theorem timerHistory_fresh : FreshKeys timerHistory :=
  ⟨trivial, (by decide : 7 ≠ 0 ∧ ∀ j : Fin 16, (irqTable j).protectionKey ≠ 7), trivial⟩

theorem irq_owner_timer : irqStubHandler 1 (replay timerHistory) 9 = some ⟨5, 1, 9⟩ ∧
    Owner timerHistory 1 7 5 ∧ Listening timerHistory 1 7 5 := by
  have hcall : irqStubHandler 1 (replay timerHistory) 9 = some ⟨5, 1, 9⟩ := by decide
  obtain ⟨-, handler, -, heq, howner, hlistening⟩ :=
    (irq_owner timerHistory_fresh).2.2.2.1 1 9 ⟨5, 1, 9⟩ hcall
  obtain rfl : 5 = handler := congrArg HandlerCall.handler heq
  exact ⟨(irq_owner timerHistory_fresh).2.2.2.2 1 7 5 9 hlistening, howner, hlistening⟩

end HelixKernel
