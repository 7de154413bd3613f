import HelixKernel.Extra.MutexClients
import Mathlib.Data.BitVec

/-!
# The global lock (`kernel/src/extra/uacpi/mutex.c`, `event.c`)

A word in memory says whether the firmware or the system owns the lock, and whether the other one
waits for it.  Contexts of the system pass a mutex first; one that finds the firmware there
waits for an event that the handler of its release interrupt signals.  The firmware is no part of
the kernel: it is a parameter, and each of its steps is one that the ACPI specification has it do
with the same two bits (`allowedSteps`).

    global_lock_protocol         the two sides never both own it, one context at most does, and
                                 none of the two waits without being told
    global_lock_never_released   a context that got it from `uacpi_acquire_global_lock` keeps it for
                                 ever -/

namespace HelixKernel

open Contexts MutexClient

/-! ## The word -/

def globalLockPending : BitVec 32 := 1#32

def globalLockOwned : BitVec 32 := 2#32

def globalLockMask : BitVec 32 := 3#32

def wasOwned (value : BitVec 32) : Bool := (value &&& globalLockOwned) >>> 1 != 0#32

def isPending (value : BitVec 32) : Bool := value &&& globalLockPending != 0#32

/-- What `try_acquire_global_lock_from_firmware` writes over `value`. -/
def acquireValue (value : BitVec 32) : BitVec 32 :=
  let newValue := value &&& ~~~globalLockMask
  let newValue := newValue ||| globalLockOwned
  if wasOwned value then newValue ||| globalLockPending else newValue

/-- What `do_release_global_lock_to_firmware` writes over it. -/
def releaseValue (value : BitVec 32) : BitVec 32 := value &&& ~~~globalLockMask

theorem getLsbD_two : ∀ i < 32, (2#32).getLsbD (1 + i) = decide (i = 0) := by decide

theorem wasOwned_eq (v : BitVec 32) : wasOwned v = v.getLsbD 1 := by
  have h : (v &&& globalLockOwned) >>> 1 = if v.getLsbD 1 then 1#32 else 0#32 := by
    refine BitVec.eq_of_getLsbD_eq fun i hi => ?_
    rw [BitVec.getLsbD_ushiftRight, BitVec.getLsbD_and, globalLockOwned, getLsbD_two i hi]
    cases i with
    | zero => cases v.getLsbD 1 <;> rfl
    | succ i => cases v.getLsbD 1 <;> simp
  rw [wasOwned, h]
  cases v.getLsbD 1 <;> rfl

theorem isPending_eq (v : BitVec 32) : isPending v = v.getLsbD 0 := by
  have h : v &&& globalLockPending = if v.getLsbD 0 then 1#32 else 0#32 := by
    refine BitVec.eq_of_getLsbD_eq fun i hi => ?_
    rw [BitVec.getLsbD_and, globalLockPending]
    cases i with
    | zero => cases v.getLsbD 0 <;> rfl
    | succ i => cases v.getLsbD 0 <;> simp
  rw [isPending, h]
  cases v.getLsbD 0 <;> rfl

@[simp] theorem wasOwned_acquireValue (v : BitVec 32) : wasOwned (acquireValue v) = true := by
  simp only [wasOwned_eq, acquireValue]
  split <;> simp [globalLockMask, globalLockOwned, globalLockPending]

@[simp] theorem isPending_acquireValue (v : BitVec 32) : isPending (acquireValue v) = wasOwned v := by
  simp only [isPending_eq, acquireValue]
  split <;> simp_all [globalLockMask, globalLockOwned, globalLockPending]

@[simp] theorem wasOwned_releaseValue (v : BitVec 32) : wasOwned (releaseValue v) = false := by
  simp [wasOwned_eq, releaseValue, globalLockMask]

/-! ## The code -/

/-- The fields of `g_uacpi_rt_ctx` for the lock, the word in the FACS, the signals of the event,
the two bits of the PM1 registers, and whether the firmware has the lock and whether it waits. -/
structure GlobalLock where
  word : BitVec 32
  seqNum : Nat
  acquired : Bool
  pending : Bool
  signals : Nat
  gblSts : Bool
  gblRls : Bool
  firmwareOwns : Bool
  firmwareWaits : Bool
deriving DecidableEq, Repr

/-- Where a context of the system is, one that runs the handler of the interrupt, or the firmware.
`aml` tells the outermost acquire of the lock as an AML mutex from `uacpi_acquire_global_lock`. -/
inductive GlobalPlace where
  | idle
  | acquireMutex (aml : Bool)
  | fromFirmware (aml : Bool)
  | lockSpinlock (aml : Bool) (spins : Nat)
  | tryLoad (aml : Bool) (spins : Nat)
  | tryCmpxchg (aml : Bool) (spins : Nat) (value : BitVec 32)
  | failed (aml : Bool) (spins : Nat)
  | unlockSpinlock (aml : Bool) (spins : Nat)
  | waitForEvent (aml : Bool) (spins : Nat)
  | settle (aml success : Bool)
  | unlockSettled (aml success : Bool)
  | giveUp
  | wrap
  | number
  | mark (seq : Nat)
  | holding (seq : Option Nat)
  | checkAcquired (seq : Nat)
  | checkSeq (seq : Nat)
  | clearAcquired
  | toFirmware
  | releaseCmpxchg (value : BitVec 32)
  | notify
  | releaseMutex
  | asleep
  | handlerLock
  | handlerCheck
  | handlerSignal
  | handlerClear
  | handlerUnlock
  | firmware
deriving DecidableEq, Repr

namespace GlobalPlace

/-- It has the mutex. -/
def hasMutex : GlobalPlace → Bool
  | idle | acquireMutex _ | asleep | handlerLock | handlerCheck | handlerSignal | handlerClear
  | handlerUnlock | firmware => false
  | _ => true

/-- It has the spinlock. -/
def hasSpinlock : GlobalPlace → Bool
  | tryLoad .. | tryCmpxchg .. | failed .. | unlockSpinlock .. | settle .. | unlockSettled ..
  | handlerCheck | handlerSignal | handlerClear | handlerUnlock => true
  | _ => false

/-- The system owns the lock through it. -/
def owns : GlobalPlace → Bool
  | settle _ success | unlockSettled _ success => success
  | wrap | number | mark _ | holding _ | checkAcquired _ | checkSeq _ | clearAcquired | toFirmware
  | releaseCmpxchg _ => true
  | _ => false

/-- It has asked the firmware for the lock and set `global_lock_pending`. -/
def awaits : GlobalPlace → Bool
  | unlockSpinlock .. | waitForEvent .. => true
  | _ => false

/-- It has asked the firmware for the lock. -/
def asks : GlobalPlace → Bool
  | failed .. | unlockSpinlock .. | waitForEvent .. => true
  | _ => false

/-- It is about to signal the event, if somebody waits. -/
def handles : GlobalPlace → Bool
  | handlerLock | handlerCheck | handlerSignal => true
  | _ => false

def clears : GlobalPlace → Bool
  | handlerClear => true
  | _ => false

def notifies : GlobalPlace → Bool
  | notify => true
  | _ => false

/-- The number it has been given. -/
def seqOf : GlobalPlace → Option Nat
  | mark seq | holding (some seq) | checkAcquired seq | checkSeq seq => some seq
  | _ => none

theorem hasMutex_of_owns {a : GlobalPlace} (h : a.owns = true) : a.hasMutex = true := by
  cases a with
  | settle | unlockSettled | wrap | number | mark | holding | checkAcquired | checkSeq
  | clearAcquired | toFirmware | releaseCmpxchg => rfl
  | _ => cases h

theorem hasMutex_of_asks {a : GlobalPlace} (h : a.asks = true) : a.hasMutex = true := by
  cases a with
  | failed | unlockSpinlock | waitForEvent => rfl
  | _ => cases h

theorem asks_of_awaits {a : GlobalPlace} (h : a.awaits = true) : a.asks = true := by
  cases a with
  | unlockSpinlock | waitForEvent => rfl
  | _ => cases h

theorem awaits_or_hasSpinlock {a : GlobalPlace} (h : a.asks = true) :
    a.awaits = true ∨ a.hasSpinlock = true := by
  cases a with
  | unlockSpinlock | waitForEvent => exact .inl rfl
  | failed => exact .inr rfl
  | _ => cases h

theorem hasSpinlock_of_clears {a : GlobalPlace} (h : a.clears = true) : a.hasSpinlock = true := by
  cases a with
  | handlerClear => rfl
  | _ => cases h

theorem hasMutex_of_seqOf {a : GlobalPlace} {n : Nat} (h : a.seqOf = some n) :
    a.hasMutex = true := by
  cases a with
  | mark | holding | checkAcquired | checkSeq => rfl
  | _ => cases h

theorem not_asks_of_handles {a : GlobalPlace} (h : a.handles = true) : a.asks = false := by
  cases a with
  | handlerLock | handlerCheck | handlerSignal => rfl
  | _ => cases h

end GlobalPlace

/-- The handles of the mutex and the spinlock, `has_global_lock`, what a wait that succeeds
leaves of the signals: of `uacpi_kernel_wait_for_event` all of them, and what the firmware may do
next. -/
structure GlobalLockSetup where
  mutex : Nat
  spinlock : Nat
  hasGlobalLock : Bool
  takeSignal : Nat → Nat
  firmwareSteps : GlobalLock → List GlobalLock

namespace GlobalLockSetup

open GlobalPlace

variable (g : GlobalLockSetup)

def call : GlobalPlace → Option MutexCall
  | acquireMutex _ => some (.acquire g.mutex)
  | giveUp | releaseMutex => some (.release g.mutex)
  | lockSpinlock .. | handlerLock => some (.acquire g.spinlock)
  | unlockSpinlock .. | unlockSettled .. | handlerUnlock => some (.release g.spinlock)
  | _ => none

def gotten (aml : Bool) : GlobalPlace := if aml then holding none else wrap

def next : GlobalPlace → GlobalPlace
  | acquireMutex aml => fromFirmware aml
  | lockSpinlock aml spins => tryLoad aml spins
  | unlockSpinlock aml spins => waitForEvent aml spins
  | unlockSettled aml success => if success then gotten aml else giveUp
  | giveUp | releaseMutex => idle
  | handlerLock => handlerCheck
  | handlerUnlock => asleep
  | a => a

/-- A firmware takes the lock if it is free, asks for it if the system has it, gives it back with
an interrupt if the system asked, and sees that the system has given it back. -/
def allowedSteps (x : GlobalLock) : List GlobalLock :=
  (if wasOwned x.word then
    if x.firmwareOwns then [] else [{ x with word := acquireValue x.word, firmwareWaits := true }]
  else [{ x with word := acquireValue x.word, firmwareOwns := true, firmwareWaits := false }]) ++
  (if x.firmwareOwns then
    [{ x with word := releaseValue x.word, firmwareOwns := false,
              gblSts := x.gblSts || isPending x.word }]
  else []) ++
  if x.gblRls then [{ x with gblRls := false, firmwareWaits := false }] else []

def act (x : GlobalLock) : GlobalPlace → List (GlobalLock × GlobalPlace)
  | idle => [(x, acquireMutex false), (x, acquireMutex true)]
  | fromFirmware aml => [(x, if !g.hasGlobalLock then gotten aml else lockSpinlock aml 0)]
  | tryLoad aml spins => [(x, tryCmpxchg aml ((spins + 1) % 2 ^ 16) x.word)]
  | tryCmpxchg aml spins value =>
    if x.word = value then
      [({ x with word := acquireValue value },
        if !wasOwned value then settle aml true else failed aml spins)]
    else [(x, tryCmpxchg aml spins x.word)]
  | failed aml spins =>
    if spins = 0xFFFF then [(x, settle aml false)]
    else [({ x with pending := true }, unlockSpinlock aml spins)]
  | waitForEvent aml spins =>
    if x.signals = 0 then []
    else [({ x with signals := g.takeSignal x.signals }, lockSpinlock aml spins)]
  | settle aml success => [({ x with pending := false }, unlockSettled aml success)]
  | wrap => [({ x with seqNum := if x.seqNum = 0xFFFFFFFF then 0 else x.seqNum }, number)]
  | number => [({ x with seqNum := (x.seqNum + 1) % 2 ^ 32 }, mark x.seqNum)]
  | mark seq => [({ x with acquired := true }, holding (some seq))]
  | holding none => [(x, toFirmware)]
  | holding (some seq) => [(x, checkAcquired seq)]
  | checkAcquired seq => [(x, if !x.acquired then holding (some seq) else checkSeq seq)]
  | checkSeq seq => [(x, if seq ≠ x.seqNum then holding (some seq) else clearAcquired)]
  | clearAcquired => [({ x with acquired := false }, toFirmware)]
  | toFirmware => [(x, if !g.hasGlobalLock then releaseMutex else releaseCmpxchg x.word)]
  | releaseCmpxchg value =>
    if x.word = value then
      [({ x with word := releaseValue value }, if isPending value then notify else releaseMutex)]
    else [(x, releaseCmpxchg x.word)]
  | notify => [({ x with gblRls := true }, releaseMutex)]
  | asleep =>
    if x.gblSts then [({ x with gblSts := false }, if !g.hasGlobalLock then asleep else handlerLock)]
    else []
  | handlerCheck => [(x, if !x.pending then handlerUnlock else handlerSignal)]
  | handlerSignal => [({ x with signals := x.signals + 1 }, handlerClear)]
  | handlerClear => [({ x with pending := false }, handlerUnlock)]
  | firmware => (g.firmwareSteps x).map fun x' => (x', firmware)
  | _ => []

def code : MutexClient GlobalLock GlobalPlace := ⟨g.call, next, g.act⟩

/-- Before anyone's first step: neither side owns the lock. -/
def start {ι : Type} (locked : Nat → Bool) (word : BitVec 32) (role : ι → GlobalPlace) :
    Contexts ι (Interlocked GlobalLock) GlobalPlace :=
  ⟨⟨Function.update (Function.update locked g.mutex false) g.spinlock false,
    ⟨word, 0, false, false, 0, false, false, false, false⟩⟩, role⟩

/-- Two mutexes, and a firmware that keeps to the protocol. -/
structure Ready : Prop where
  mutex : g.mutex ≠ g.spinlock
  firmware : g.hasGlobalLock = true
  protocol : ∀ x, g.firmwareSteps x ⊆ allowedSteps x

/-- The firmware has the lock and knows that the system waits for it. -/
def Asked (x : GlobalLock) : Prop := x.firmwareOwns = true ∧ isPending x.word = true

/-- The system has it and is to tell the firmware. -/
def Wanted (x : GlobalLock) : Prop :=
  x.firmwareOwns = false ∧ wasOwned x.word = true ∧ isPending x.word = true

/-! ## The invariant -/

variable {ι : Type}

structure Inv (t : Contexts ι (Interlocked GlobalLock) GlobalPlace) : Prop where
  mutex : ∀ i, (t.loc i).hasMutex = true → t.shared.locked g.mutex = true
  mutexOnce : ∀ i j, i ≠ j → (t.loc i).hasMutex = true → (t.loc j).hasMutex = false
  spinlock : ∀ i, (t.loc i).hasSpinlock = true → t.shared.locked g.spinlock = true
  spinlockOnce : ∀ i j, i ≠ j → (t.loc i).hasSpinlock = true → (t.loc j).hasSpinlock = false
  owns : ∀ i, (t.loc i).owns = true →
    wasOwned t.shared.data.word = true ∧ t.shared.data.firmwareOwns = false
  firmware : t.shared.data.firmwareOwns = true → wasOwned t.shared.data.word = true
  owner : wasOwned t.shared.data.word = true →
    t.shared.data.firmwareOwns = true ∨ ∃ i, (t.loc i).owns = true
  asked : (∃ i, (t.loc i).asks = true) → Asked t.shared.data ∨ t.shared.data.gblSts = true ∨
    (∃ i, (t.loc i).handles = true) ∨ 0 < t.shared.data.signals
  flag : (∃ i, (t.loc i).awaits = true) → t.shared.data.pending = true ∨ 0 < t.shared.data.signals
  clears : (∃ i, (t.loc i).clears = true) → (∃ i, (t.loc i).awaits = true) →
    0 < t.shared.data.signals
  waits : t.shared.data.firmwareWaits = true → Wanted t.shared.data ∨
    (∃ i, (t.loc i).notifies = true) ∨ t.shared.data.gblRls = true
  seq : ∀ i n, (t.loc i).seqOf = some n → t.shared.data.seqNum = n + 1
  low : ∀ i, t.loc i = number → t.shared.data.seqNum < 0xFFFFFFFF
  bound : t.shared.data.seqNum < 2 ^ 32
  refused : ∀ i, t.loc i ≠ clearAcquired

/-- What it says of a context. -/
structure Here (x : GlobalLock) (a : GlobalPlace) : Prop where
  owns : a.owns = true → wasOwned x.word = true ∧ x.firmwareOwns = false
  firmware : x.firmwareOwns = true → wasOwned x.word = true
  other : a.hasMutex = true → a.owns = false → wasOwned x.word = true →
    x.firmwareOwns = true
  seq : ∀ n, a.seqOf = some n → x.seqNum = n + 1
  low : a = number → x.seqNum < 0xFFFFFFFF
  bound : x.seqNum < 2 ^ 32
  refused : a ≠ clearAcquired

/-- What a step does to a mutex, `p` being who has it. -/
structure LockEffect (m : Nat) (p : GlobalPlace → Bool) (x : Interlocked GlobalLock) (a : GlobalPlace)
    (x' : Interlocked GlobalLock) (b : GlobalPlace) : Prop where
  self : p b = true → x'.locked m = true ∨ p a = true ∧ x'.locked m = x.locked m
  enter : p b = true → p a = true ∨ x.locked m = false
  other : x.locked m = true → x'.locked m = true ∨ p a = true

/-- What a step does to the word. -/
structure WordEffect (x : GlobalLock) (a : GlobalPlace) (x' : GlobalLock) (b : GlobalPlace) :
    Prop where
  owns : b.owns = true → wasOwned x'.word = true ∧ x'.firmwareOwns = false
  others : a.hasMutex = true ∨ (wasOwned x.word = true ∧ x.firmwareOwns = false →
    wasOwned x'.word = true ∧ x'.firmwareOwns = false)
  firmware : x'.firmwareOwns = true → wasOwned x'.word = true
  owner : wasOwned x'.word = true → x'.firmwareOwns = true ∨ b.owns = true ∨
    wasOwned x.word = true ∧ a.owns = false ∧
      (x.firmwareOwns = true → x'.firmwareOwns = true)

/-- What it does to who waits for the firmware. -/
structure EventEffect (x : GlobalLock) (a : GlobalPlace) (x' : GlobalLock) (b : GlobalPlace) :
    Prop where
  asks : b.asks = true → a.asks = true ∨ Asked x'
  asked : Asked x ∨ x.gblSts = true → Asked x' ∨ x'.gblSts = true ∨ b.handles = true
  handled : a.handles = true → b.handles = true ∨ 0 < x'.signals ∨
    a.hasSpinlock = true ∧ x.pending = false ∧ x' = x
  signals : 0 < x.signals → 0 < x'.signals ∨ a.hasMutex = true ∧ b.asks = false
  awaits : b.awaits = true → a.awaits = true ∨
    x'.pending = true ∧ a.hasSpinlock = true
  pending : x.pending = true → x'.pending = true ∨
    a.hasMutex = true ∧ b.asks = false ∨ a.clears = true
  clears : b.clears = true → 0 < x'.signals

/-- What it does to whether the firmware waits. -/
def WaitsEffect (x : GlobalLock) (a : GlobalPlace) (x' : GlobalLock) (b : GlobalPlace) : Prop :=
  x'.firmwareWaits = true → Wanted x' ∨ x.firmwareWaits = true ∧
    (Wanted x → b.notifies = true) ∧ (x.gblRls = true → x'.gblRls = true) ∧
    (a.notifies = true → b.notifies = true ∨ x'.gblRls = true)

/-- What it does to the numbers. -/
structure SeqEffect (x : GlobalLock) (a : GlobalPlace) (x' : GlobalLock) (b : GlobalPlace) :
    Prop where
  kept : x'.seqNum = x.seqNum ∨ a.hasMutex = true
  seq : ∀ n, b.seqOf = some n → x'.seqNum = n + 1
  low : b = number → x'.seqNum < 0xFFFFFFFF
  bound : x'.seqNum < 2 ^ 32
  refused : b ≠ clearAcquired

structure Effect (x : GlobalLock) (a : GlobalPlace) (x' : GlobalLock) (b : GlobalPlace) : Prop where
  word : WordEffect x a x' b
  event : EventEffect x a x' b
  waits : WaitsEffect x a x' b
  seq : SeqEffect x a x' b

variable {g} {t t' : Contexts ι (Interlocked GlobalLock) GlobalPlace} {i j : ι}
  {x x' : GlobalLock} {a b : GlobalPlace}

/-! ## Each step -/

/-- The word stays. -/
theorem WordEffect.same (h : Here x a) (hword : x'.word = x.word)
    (hfirmware : x'.firmwareOwns = x.firmwareOwns) (howns : b.owns = a.owns) :
    WordEffect x a x' b := by
  refine ⟨?_, .inr ?_, ?_, ?_⟩ <;> rw [hword, hfirmware]
  · rw [howns]
    exact h.owns
  · exact id
  · exact h.firmware
  · intro hw
    rw [howns]
    cases ha : a.owns with
    | true => exact .inr (.inl rfl)
    | false => exact .inr (.inr ⟨hw, rfl, id⟩)

/-- Nothing that concerns those who wait changes, nor does the context. -/
theorem EventEffect.same (hx : Asked x ∨ x.gblSts = true → Asked x' ∨ x'.gblSts = true)
    (hsignals : x'.signals = x.signals) (hpending : x.pending = true → x'.pending = true)
    (hasks : b.asks = true → a.asks = true) (hhandles : a.handles = true → b.handles = true)
    (hawaits : b.awaits = true → a.awaits = true) (hclears : b.clears = false) :
    EventEffect x a x' b where
  asks h := .inl (hasks h)
  asked h := (hx h).imp id .inl
  handled h := .inl (hhandles h)
  signals h := .inl (hsignals ▸ h)
  awaits h := .inl (hawaits h)
  pending h := .inl (hpending h)
  clears h := by
    rw [hclears] at h
    cases h

theorem WaitsEffect.same (hwaits : x'.firmwareWaits = x.firmwareWaits)
    (hx : Wanted x → Wanted x') (hrls : x.gblRls = true → x'.gblRls = true)
    (hnotifies : a.notifies = true → b.notifies = true ∨ x'.gblRls = true) :
    WaitsEffect x a x' b := by
  intro h
  by_cases hw : Wanted x
  · exact .inl (hx hw)
  · exact .inr ⟨hwaits ▸ h, fun hw' => absurd hw' hw, hrls, hnotifies⟩

theorem SeqEffect.same (h : Here x a) (hseq : x'.seqNum = x.seqNum)
    (hn : ∀ n, b.seqOf = some n → a.seqOf = some n) (hlow : b ≠ number)
    (hrefused : b ≠ clearAcquired) : SeqEffect x a x' b where
  kept := .inl hseq
  seq n hb := hseq.trans (h.seq n (hn n hb))
  low hb := absurd hb hlow
  bound := hseq ▸ h.bound
  refused := hrefused

/-- Only the place changes. -/
theorem Effect.same (h : Here x a) (howns : b.owns = a.owns)
    (hasks : b.asks = true → a.asks = true) (hhandles : a.handles = true → b.handles = true)
    (hawaits : b.awaits = true → a.awaits = true) (hclears : b.clears = false)
    (hnotifies : a.notifies = true → b.notifies = true)
    (hn : ∀ n, b.seqOf = some n → a.seqOf = some n) (hlow : b ≠ number)
    (hrefused : b ≠ clearAcquired) : Effect x a x b where
  word := .same h rfl rfl howns
  event := .same id rfl id hasks hhandles hawaits hclears
  waits := .same rfl id id fun hn => .inl (hnotifies hn)
  seq := .same h rfl hn hlow hrefused

/-- `try_acquire_global_lock_from_firmware` writes. -/
theorem Here.tryCmpxchg {aml : Bool} {spins : Nat}
    (h : Here x (.tryCmpxchg aml spins x.word)) :
    Effect x (.tryCmpxchg aml spins x.word) { x with word := acquireValue x.word }
      (if !wasOwned x.word then .settle aml true else .failed aml spins) := by
  have hword : wasOwned (acquireValue x.word) = true := wasOwned_acquireValue x.word
  cases hw : wasOwned x.word with
  | false =>
    have hfw : x.firmwareOwns = false := by
      cases hf : x.firmwareOwns with
      | false => rfl
      | true => exact absurd (h.firmware hf) (by simp [hw])
    refine ⟨⟨fun _ => ⟨hword, hfw⟩, .inl rfl, fun _ => hword, fun _ => .inr (.inl rfl)⟩,
      .same ?_ rfl id nofun nofun nofun rfl, .same rfl ?_ id nofun, .same h rfl nofun nofun nofun⟩
    · rintro (⟨hf, -⟩ | hs)
      · exact absurd hf (by simp [hfw])
      · exact .inr hs
    · rintro ⟨-, ho, -⟩
      exact absurd ho (by simp [hw])
  | true =>
    have hfw : x.firmwareOwns = true := h.other rfl rfl hw
    have hasked : Asked { x with word := acquireValue x.word } :=
      ⟨hfw, (isPending_acquireValue x.word).trans hw⟩
    refine ⟨⟨nofun, .inl rfl, fun _ => hword, fun _ => .inl hfw⟩,
      ⟨fun _ => .inr hasked, fun _ => .inl hasked, nofun, .inl, nofun, .inl, nofun⟩,
      .same rfl ?_ id nofun, .same h rfl nofun nofun nofun⟩
    rintro ⟨hf, -⟩
    exact absurd hf (by simp [hfw])

/-- `do_release_global_lock_to_firmware` writes. -/
theorem Here.releaseCmpxchg (h : Here x (.releaseCmpxchg x.word)) :
    Effect x (.releaseCmpxchg x.word) { x with word := releaseValue x.word }
      (if isPending x.word then .notify else .releaseMutex) := by
  have hword : wasOwned (releaseValue x.word) = false := wasOwned_releaseValue x.word
  obtain ⟨hw, hfw⟩ := h.owns rfl
  have hasked : Asked x ∨ x.gblSts = true →
      Asked { x with word := releaseValue x.word } ∨ x.gblSts = true := by
    rintro (⟨hf, -⟩ | hs)
    · exact absurd hf (by simp [hfw])
    · exact .inr hs
  have hfirmware : x.firmwareOwns = true → wasOwned (releaseValue x.word) = true := fun hf =>
    absurd hf (by simp [hfw])
  have howner : wasOwned (releaseValue x.word) = true → False := fun ho => by
    rw [hword] at ho
    cases ho
  cases hp : isPending x.word with
  | true =>
    exact ⟨⟨nofun, .inl rfl, hfirmware, fun ho => (howner ho).elim⟩,
      .same hasked rfl id nofun nofun nofun rfl,
      fun hwaits => .inr ⟨hwaits, fun _ => rfl, id, nofun⟩, .same h rfl nofun nofun nofun⟩
  | false =>
    refine ⟨⟨nofun, .inl rfl, hfirmware, fun ho => (howner ho).elim⟩,
      .same hasked rfl id nofun nofun nofun rfl, .same rfl ?_ id nofun,
      .same h rfl nofun nofun nofun⟩
    rintro ⟨-, -, hpending⟩
    exact absurd hpending (by simp [hp])

/-- The number of an acquire. -/
theorem Here.wrap (h : Here x .wrap) :
    Effect x .wrap { x with seqNum := if x.seqNum = 0xFFFFFFFF then 0 else x.seqNum } .number := by
  have hbound := h.bound
  have hlow : (if x.seqNum = 0xFFFFFFFF then 0 else x.seqNum) < 0xFFFFFFFF := by
    split <;> omega
  exact ⟨.same h rfl rfl rfl, .same id rfl id nofun nofun nofun rfl, .same rfl id id nofun,
    ⟨.inr rfl, nofun, fun _ => hlow, hlow.trans (by decide), nofun⟩⟩

theorem Here.number (h : Here x .number) :
    Effect x .number { x with seqNum := (x.seqNum + 1) % 2 ^ 32 } (.mark x.seqNum) := by
  have hmod : (x.seqNum + 1) % 2 ^ 32 = x.seqNum + 1 := by
    have hlow := h.low rfl
    omega
  refine ⟨.same h rfl rfl rfl, .same id rfl id nofun nofun nofun rfl, .same rfl id id nofun,
    ⟨.inr rfl, ?_, nofun, Nat.mod_lt _ (by decide), nofun⟩⟩
  rintro n ⟨⟩
  exact hmod

/-- A release with the number is refused. -/
theorem Here.checkSeq {seq : Nat} (h : Here x (.checkSeq seq)) :
    Effect x (.checkSeq seq) x (if seq ≠ x.seqNum then .holding (some seq) else .clearAcquired) := by
  have hne : seq ≠ x.seqNum := by
    rw [h.seq seq rfl]
    exact Nat.ne_of_lt (Nat.lt_succ_self seq)
  rw [if_pos hne]
  exact .same h rfl id id id rfl id (fun _ => id) nofun nofun

/-- The handler finds that nobody waits. -/
theorem Here.handlerCheck (h : Here x .handlerCheck) :
    Effect x .handlerCheck x (if !x.pending then .handlerUnlock else .handlerSignal) := by
  cases hp : x.pending with
  | true => exact .same h rfl nofun id nofun rfl nofun nofun nofun nofun
  | false =>
    exact ⟨.same h rfl rfl rfl,
      ⟨nofun, fun hx => hx.imp id .inl, fun _ => .inr (.inr ⟨rfl, hp, rfl⟩), .inl, nofun, .inl, nofun⟩,
      .same rfl id id nofun, .same h rfl nofun nofun nofun⟩

/-- The firmware asks. -/
theorem Here.firmwareAsks (h : Here x .firmware) (hw : wasOwned x.word = true)
    (hf : x.firmwareOwns = false) :
    Effect x .firmware { x with word := acquireValue x.word, firmwareWaits := true } .firmware := by
  have hword : wasOwned (acquireValue x.word) = true := wasOwned_acquireValue x.word
  have hpending : isPending (acquireValue x.word) = true := (isPending_acquireValue x.word).trans hw
  refine ⟨⟨nofun, .inr fun _ => ⟨hword, hf⟩, fun _ => hword, fun _ => .inr (.inr ⟨hw, rfl, id⟩)⟩,
    .same ?_ rfl id nofun nofun nofun rfl, fun _ => .inl ⟨hf, hword, hpending⟩,
    .same h rfl nofun nofun nofun⟩
  rintro (⟨hf', -⟩ | hs)
  · exact absurd hf' (by simp [hf])
  · exact .inr hs

/-- It takes the lock. -/
theorem Here.firmwareTakes (h : Here x .firmware) (hw : wasOwned x.word = false) :
    Effect x .firmware { x with
      word := acquireValue x.word, firmwareOwns := true, firmwareWaits := false } .firmware := by
  have hword : wasOwned (acquireValue x.word) = true := wasOwned_acquireValue x.word
  have hnot : wasOwned x.word = true → False := fun ho => by
    rw [hw] at ho
    cases ho
  refine ⟨⟨nofun, .inr fun ho => (hnot ho.1).elim, fun _ => hword, fun _ => .inl rfl⟩,
    .same ?_ rfl id nofun nofun nofun rfl, nofun, .same h rfl nofun nofun nofun⟩
  rintro (⟨hf, -⟩ | hs)
  · exact (hnot (h.firmware hf)).elim
  · exact .inr hs

/-- It gives it back, with an interrupt if the system asked for it. -/
theorem Here.firmwareReleases (h : Here x .firmware) (hf : x.firmwareOwns = true) :
    Effect x .firmware { x with
      word := releaseValue x.word, firmwareOwns := false,
      gblSts := x.gblSts || isPending x.word } .firmware := by
  have hword : wasOwned (releaseValue x.word) = false := wasOwned_releaseValue x.word
  have hnot : x.firmwareOwns = false → False := fun hf' => by
    rw [hf] at hf'
    cases hf'
  refine ⟨⟨nofun, .inr fun ho => (hnot ho.2).elim, nofun, fun ho => ?_⟩,
    .same ?_ rfl id nofun nofun nofun rfl, .same rfl (fun hw => (hnot hw.1).elim) id nofun,
    .same h rfl nofun nofun nofun⟩
  · rw [hword] at ho
    cases ho
  · rintro (⟨-, hp⟩ | hs)
    · exact .inr (by simp [hp])
    · exact .inr (by simp [hs])

theorem Here.firmware_effect (h : Here x .firmware) (hx : x' ∈ allowedSteps x) :
    Effect x .firmware x' .firmware := by
  rcases List.mem_append.1 hx with hx | hx
  · rcases List.mem_append.1 hx with hx | hx
    · cases hw : wasOwned x.word with
      | true =>
        rw [hw, if_pos rfl] at hx
        cases hf : x.firmwareOwns with
        | true =>
          rw [hf] at hx
          cases hx
        | false =>
          rw [if_neg (by simp [hf]), List.mem_singleton] at hx
          exact hx ▸ h.firmwareAsks hw hf
      | false =>
        rw [hw, if_neg Bool.false_ne_true, List.mem_singleton] at hx
        exact hx ▸ h.firmwareTakes hw
    · cases hf : x.firmwareOwns with
      | true =>
        rw [hf, if_pos rfl, List.mem_singleton] at hx
        exact hx ▸ h.firmwareReleases hf
      | false =>
        rw [hf] at hx
        cases hx
  · cases hrls : x.gblRls with
    | true =>
      rw [hrls, if_pos rfl, List.mem_singleton] at hx
      rw [hx]
      exact ⟨.same h rfl rfl rfl, .same id rfl id nofun nofun nofun rfl, nofun,
        .same h rfl nofun nofun nofun⟩
    | false =>
      rw [hrls] at hx
      cases hx

theorem act_tryCmpxchg {aml : Bool} {spins : Nat} {value : BitVec 32} :
    g.act x (.tryCmpxchg aml spins value) =
      if x.word = value then
        [({ x with word := acquireValue value },
          if !wasOwned value then .settle aml true else .failed aml spins)]
      else [(x, .tryCmpxchg aml spins x.word)] := rfl

theorem act_failed {aml : Bool} {spins : Nat} :
    g.act x (.failed aml spins) =
      if spins = 0xFFFF then [(x, .settle aml false)]
      else [({ x with pending := true }, .unlockSpinlock aml spins)] := rfl

theorem act_waitForEvent {aml : Bool} {spins : Nat} :
    g.act x (.waitForEvent aml spins) =
      if x.signals = 0 then []
      else [({ x with signals := g.takeSignal x.signals }, .lockSpinlock aml spins)] := rfl

theorem act_releaseCmpxchg {value : BitVec 32} :
    g.act x (.releaseCmpxchg value) =
      if x.word = value then
        [({ x with word := releaseValue value }, if isPending value then .notify else .releaseMutex)]
      else [(x, .releaseCmpxchg x.word)] := rfl

theorem act_asleep : g.act x .asleep =
    if x.gblSts then
      [({ x with gblSts := false }, if !g.hasGlobalLock then .asleep else .handlerLock)]
    else [] := rfl

/-- **One step**, but for the calls. -/
theorem Here.effect (hready : g.Ready) (h : Here x a) (hact : (x', b) ∈ g.act x a) :
    Effect x a x' b ∧ b.hasMutex = a.hasMutex ∧ b.hasSpinlock = a.hasSpinlock := by
  cases a with
  | acquireMutex | lockSpinlock | unlockSpinlock | unlockSettled | giveUp | releaseMutex
  | handlerLock | handlerUnlock => cases hact
  | clearAcquired => exact absurd rfl h.refused
  | idle =>
    rcases List.mem_pair.1 hact with heq | heq <;> obtain ⟨rfl, rfl⟩ := Prod.mk.inj heq <;>
      exact ⟨.same h rfl id id id rfl id nofun nofun nofun, rfl, rfl⟩
  | fromFirmware aml =>
    obtain ⟨rfl, rfl⟩ := Prod.mk.inj (List.mem_singleton.1 hact)
    rw [hready.firmware]
    exact ⟨.same h rfl id id id rfl id nofun nofun nofun, rfl, rfl⟩
  | tryLoad aml spins =>
    obtain ⟨rfl, rfl⟩ := Prod.mk.inj (List.mem_singleton.1 hact)
    exact ⟨.same h rfl id id id rfl id nofun nofun nofun, rfl, rfl⟩
  | tryCmpxchg aml spins value =>
    rw [act_tryCmpxchg] at hact
    split at hact
    · obtain ⟨rfl, rfl⟩ := Prod.mk.inj (List.mem_singleton.1 hact)
      subst value
      exact ⟨h.tryCmpxchg, by split <;> rfl, by split <;> rfl⟩
    · obtain ⟨rfl, rfl⟩ := Prod.mk.inj (List.mem_singleton.1 hact)
      exact ⟨.same h rfl id id id rfl id nofun nofun nofun, rfl, rfl⟩
  | failed aml spins =>
    rw [act_failed] at hact
    split at hact
    · obtain ⟨rfl, rfl⟩ := Prod.mk.inj (List.mem_singleton.1 hact)
      exact ⟨.same h rfl nofun id nofun rfl id nofun nofun nofun, rfl, rfl⟩
    · obtain ⟨rfl, rfl⟩ := Prod.mk.inj (List.mem_singleton.1 hact)
      exact ⟨⟨.same h rfl rfl rfl,
        ⟨fun _ => .inl rfl, fun hx => hx.imp id .inl, nofun, .inl, fun _ => .inr ⟨rfl, rfl⟩,
          fun _ => .inl rfl, nofun⟩,
        .same rfl id id nofun, .same h rfl nofun nofun nofun⟩, rfl, rfl⟩
  | waitForEvent aml spins =>
    rw [act_waitForEvent] at hact
    split at hact
    · cases hact
    · obtain ⟨rfl, rfl⟩ := Prod.mk.inj (List.mem_singleton.1 hact)
      exact ⟨⟨.same h rfl rfl rfl,
        ⟨nofun, fun hx => hx.imp id .inl, nofun, fun _ => .inr ⟨rfl, rfl⟩, nofun, .inl, nofun⟩,
        .same rfl id id nofun, .same h rfl nofun nofun nofun⟩, rfl, rfl⟩
  | settle aml success =>
    obtain ⟨rfl, rfl⟩ := Prod.mk.inj (List.mem_singleton.1 hact)
    exact ⟨⟨.same h rfl rfl rfl,
      ⟨nofun, fun hx => hx.imp id .inl, nofun, .inl, nofun, fun _ => .inr (.inl ⟨rfl, rfl⟩), nofun⟩,
      .same rfl id id nofun, .same h rfl nofun nofun nofun⟩, rfl, rfl⟩
  | wrap =>
    obtain ⟨rfl, rfl⟩ := Prod.mk.inj (List.mem_singleton.1 hact)
    exact ⟨h.wrap, rfl, rfl⟩
  | number =>
    obtain ⟨rfl, rfl⟩ := Prod.mk.inj (List.mem_singleton.1 hact)
    exact ⟨h.number, rfl, rfl⟩
  | mark seq =>
    obtain ⟨rfl, rfl⟩ := Prod.mk.inj (List.mem_singleton.1 hact)
    exact ⟨⟨.same h rfl rfl rfl, .same id rfl id nofun nofun nofun rfl, .same rfl id id nofun,
      .same h rfl (fun _ => id) nofun nofun⟩, rfl, rfl⟩
  | holding seq =>
    cases seq with
    | none =>
      obtain ⟨rfl, rfl⟩ := Prod.mk.inj (List.mem_singleton.1 hact)
      exact ⟨.same h rfl id id id rfl id nofun nofun nofun, rfl, rfl⟩
    | some seq =>
      obtain ⟨rfl, rfl⟩ := Prod.mk.inj (List.mem_singleton.1 hact)
      exact ⟨.same h rfl id id id rfl id (fun _ => id) nofun nofun, rfl, rfl⟩
  | checkAcquired seq =>
    obtain ⟨rfl, rfl⟩ := Prod.mk.inj (List.mem_singleton.1 hact)
    split <;> exact ⟨.same h rfl id id id rfl id (fun _ => id) nofun nofun, rfl, rfl⟩
  | checkSeq seq =>
    obtain ⟨rfl, rfl⟩ := Prod.mk.inj (List.mem_singleton.1 hact)
    exact ⟨h.checkSeq, by split <;> rfl, by split <;> rfl⟩
  | toFirmware =>
    obtain ⟨rfl, rfl⟩ := Prod.mk.inj (List.mem_singleton.1 hact)
    rw [hready.firmware]
    exact ⟨.same h rfl id id id rfl id nofun nofun nofun, rfl, rfl⟩
  | releaseCmpxchg value =>
    rw [act_releaseCmpxchg] at hact
    split at hact
    · obtain ⟨rfl, rfl⟩ := Prod.mk.inj (List.mem_singleton.1 hact)
      subst value
      exact ⟨h.releaseCmpxchg, by split <;> rfl, by split <;> rfl⟩
    · obtain ⟨rfl, rfl⟩ := Prod.mk.inj (List.mem_singleton.1 hact)
      exact ⟨.same h rfl id id id rfl id nofun nofun nofun, rfl, rfl⟩
  | notify =>
    obtain ⟨rfl, rfl⟩ := Prod.mk.inj (List.mem_singleton.1 hact)
    exact ⟨⟨.same h rfl rfl rfl, .same id rfl id nofun nofun nofun rfl,
      .same rfl id (fun _ => rfl) fun _ => .inr rfl, .same h rfl nofun nofun nofun⟩, rfl, rfl⟩
  | asleep =>
    rw [act_asleep, hready.firmware] at hact
    split at hact
    · obtain ⟨rfl, rfl⟩ := Prod.mk.inj (List.mem_singleton.1 hact)
      exact ⟨⟨.same h rfl rfl rfl,
        ⟨nofun, fun _ => .inr (.inr rfl), nofun, .inl, nofun, .inl, nofun⟩,
        .same rfl id id nofun, .same h rfl nofun nofun nofun⟩, rfl, rfl⟩
    · cases hact
  | handlerCheck =>
    obtain ⟨rfl, rfl⟩ := Prod.mk.inj (List.mem_singleton.1 hact)
    exact ⟨h.handlerCheck, by split <;> rfl, by split <;> rfl⟩
  | handlerSignal =>
    obtain ⟨rfl, rfl⟩ := Prod.mk.inj (List.mem_singleton.1 hact)
    have hpos : 0 < x.signals + 1 := Nat.succ_pos _
    exact ⟨⟨.same h rfl rfl rfl,
      ⟨nofun, fun hx => hx.imp id .inl, fun _ => .inr (.inl hpos), fun _ => .inl hpos, nofun, .inl,
        fun _ => hpos⟩,
      .same rfl id id nofun, .same h rfl nofun nofun nofun⟩, rfl, rfl⟩
  | handlerClear =>
    obtain ⟨rfl, rfl⟩ := Prod.mk.inj (List.mem_singleton.1 hact)
    exact ⟨⟨.same h rfl rfl rfl,
      ⟨nofun, fun hx => hx.imp id .inl, nofun, .inl, nofun, fun _ => .inr (.inr rfl), nofun⟩,
      .same rfl id id nofun, .same h rfl nofun nofun nofun⟩, rfl, rfl⟩
  | firmware =>
    obtain ⟨y, hy, heq⟩ := List.mem_map.1 hact
    obtain ⟨rfl, rfl⟩ := Prod.mk.inj heq
    exact ⟨h.firmware_effect (hready.protocol x hy), rfl, rfl⟩

/-- A call changes the place only. -/
theorem Here.called {k : MutexCall} (h : Here x a) (hk : g.call a = some k) :
    Effect x a x (next a) := by
  cases a with
  | acquireMutex | lockSpinlock | unlockSpinlock | giveUp | releaseMutex | handlerLock
  | handlerUnlock => exact .same h rfl id id id rfl id nofun nofun nofun
  | unlockSettled aml success =>
    cases success with
    | false => exact .same h rfl id id id rfl id nofun nofun nofun
    | true => cases aml <;> exact .same h rfl id id id rfl id nofun nofun nofun
  | _ => cases hk

theorem call_acquire {m : Nat} (h : g.call a = some (.acquire m)) :
    m = g.mutex ∧ (next a).hasMutex = true ∧ (next a).hasSpinlock = a.hasSpinlock ∨
      m = g.spinlock ∧ (next a).hasSpinlock = true ∧ (next a).hasMutex = a.hasMutex := by
  cases a <;> cases h
  case acquireMutex => exact .inl ⟨rfl, rfl, rfl⟩
  all_goals exact .inr ⟨rfl, rfl, rfl⟩

theorem call_release {m : Nat} (h : g.call a = some (.release m)) :
    m = g.mutex ∧ a.hasMutex = true ∧ (next a).hasMutex = false ∧
        (next a).hasSpinlock = a.hasSpinlock ∨
      m = g.spinlock ∧ a.hasSpinlock = true ∧ (next a).hasSpinlock = false ∧
        (next a).hasMutex = a.hasMutex := by
  cases a with
  | giveUp | releaseMutex =>
    cases h
    exact .inl ⟨rfl, rfl, rfl, rfl⟩
  | unlockSpinlock | handlerUnlock =>
    cases h
    exact .inr ⟨rfl, rfl, rfl, rfl⟩
  | unlockSettled aml success =>
    cases h
    cases success <;> cases aml <;> exact .inr ⟨rfl, rfl, rfl, rfl⟩
  | _ => cases h

section

variable {m m' : Nat} {p : GlobalPlace → Bool} {y y' : Interlocked GlobalLock}

theorem LockEffect.same (hlocked : y'.locked m = y.locked m) (hp : p b = p a) :
    LockEffect m p y a y' b where
  self h := .inr ⟨hp ▸ h, hlocked⟩
  enter h := .inl (hp ▸ h)
  other h := .inl (hlocked ▸ h)

theorem LockEffect.acquired (hfree : y.locked m = false) (hlocked : y'.locked m = true) :
    LockEffect m p y a y' b :=
  ⟨fun _ => .inl hlocked, fun _ => .inr hfree, fun _ => .inl hlocked⟩

theorem LockEffect.released (ha : p a = true) (hb : p b = false) : LockEffect m p y a y' b where
  self h := by
    rw [hb] at h
    cases h
  enter _ := .inl ha
  other _ := .inr ha

/-- **One step.** -/
theorem effect_of_step (hready : g.Ready) (h : Here y.data a) (hstep : g.code.Atomic y a y' b) :
    Effect y.data a y'.data b ∧ LockEffect g.mutex hasMutex y a y' b ∧
      LockEffect g.spinlock hasSpinlock y a y' b := by
  have hne := hready.mutex
  rcases atomic_cases hstep with ⟨m, hk, hfree, rfl, rfl⟩ | ⟨m, hk, rfl, rfl⟩ | ⟨d, hact, rfl⟩
  · refine ⟨h.called hk, ?_⟩
    rcases call_acquire hk with ⟨rfl, -, hspin⟩ | ⟨rfl, -, hmutex⟩
    · exact ⟨.acquired hfree (by simp), .same (by simp [hne.symm]) hspin⟩
    · exact ⟨.same (by simp [hne]) hmutex, .acquired hfree (by simp)⟩
  · refine ⟨h.called hk, ?_⟩
    rcases call_release hk with ⟨rfl, ha, hb, hspin⟩ | ⟨rfl, ha, hb, hmutex⟩
    · exact ⟨.released ha hb, .same (by simp [hne.symm]) hspin⟩
    · exact ⟨.same (by simp [hne]) hmutex, .released ha hb⟩
  · obtain ⟨he, hmutex, hspin⟩ := h.effect hready hact
    exact ⟨he, .same rfl hmutex, .same rfl hspin⟩

end

/-! ## Runs -/

namespace Inv

theorem here (h : g.Inv t) (i : ι) : Here t.shared.data (t.loc i) where
  owns := h.owns i
  firmware := h.firmware
  other hm ho hw := by
    rcases h.owner hw with hf | ⟨j, hj⟩
    · exact hf
    · have hne : i ≠ j := by
        rintro rfl
        rw [ho] at hj
        cases hj
      have hout := h.mutexOnce i j hne hm
      rw [hasMutex_of_owns hj] at hout
      cases hout
  seq := h.seq i
  low := h.low i
  bound := h.bound
  refused := h.refused i

/-- Who has a mutex after a step. -/
theorem locks {m : Nat} {p : GlobalPlace → Bool} (hstep : Contexts.Step g.code.Atomic i t t')
    (hl : LockEffect m p t.shared (t.loc i) t'.shared (t'.loc i))
    (hlocked : ∀ i, p (t.loc i) = true → t.shared.locked m = true)
    (honce : ∀ i j, i ≠ j → p (t.loc i) = true → p (t.loc j) = false) :
    (∀ k, p (t'.loc k) = true → t'.shared.locked m = true) ∧
      ∀ k l, k ≠ l → p (t'.loc k) = true → p (t'.loc l) = false := by
  have halone (k : ι) (hk : k ≠ i) (hp : p (t.loc k) = true) : p (t'.loc i) = false := by
    by_contra hi
    rcases hl.enter (by simpa using hi) with ha | hfree
    · rw [honce k i hk hp] at ha
      cases ha
    · rw [hlocked k hp] at hfree
      cases hfree
  constructor
  · intro k hk
    by_cases hki : k = i
    · subst hki
      rcases hl.self hk with hl' | ⟨ha, heq⟩
      · exact hl'
      · rw [heq]
        exact hlocked k ha
    · rw [hstep.others k hki] at hk
      rcases hl.other (hlocked k hk) with hl' | ha
      · exact hl'
      · rw [honce k i hki hk] at ha
        cases ha
  · intro k l hkl hk
    by_cases hki : k = i
    · subst hki
      by_contra hl'
      rw [hstep.others l hkl.symm] at hl'
      rw [halone l hkl.symm (by simpa using hl')] at hk
      cases hk
    · rw [hstep.others k hki] at hk
      by_cases hli : l = i
      · rw [hli]
        exact halone k hki hk
      · rw [hstep.others l hli]
        exact honce k l hkl hk

/-- Someone else, or the one that takes the step. -/
theorem exists_or {p : GlobalPlace → Bool} (hstep : Contexts.Step g.code.Atomic i t t')
    (h : ∃ k, p (t.loc k) = true) :
    p (t.loc i) = true ∨ ∃ k, k ≠ i ∧ p (t.loc k) = true ∧ p (t'.loc k) = true := by
  obtain ⟨k, hk⟩ := h
  by_cases hki : k = i
  · exact .inl (hki ▸ hk)
  · exact .inr ⟨k, hki, hk, by rwa [hstep.others k hki]⟩

theorem exists_or' {p : GlobalPlace → Bool} (hstep : Contexts.Step g.code.Atomic i t t')
    (h : ∃ k, p (t'.loc k) = true) :
    p (t'.loc i) = true ∨ ∃ k, k ≠ i ∧ p (t.loc k) = true := by
  obtain ⟨k, hk⟩ := h
  by_cases hki : k = i
  · exact .inl (hki ▸ hk)
  · exact .inr ⟨k, hki, by rwa [hstep.others k hki] at hk⟩

theorem not_mutex {k : ι} (h : g.Inv t) (hki : k ≠ i) (hi : (t.loc i).hasMutex = true)
    (hk : (t.loc k).hasMutex = true) : False := by
  rw [h.mutexOnce i k hki.symm hi] at hk
  cases hk

theorem not_spinlock {k : ι} (h : g.Inv t) (hki : k ≠ i) (hi : (t.loc i).hasSpinlock = true)
    (hk : (t.loc k).hasSpinlock = true) : False := by
  rw [h.spinlockOnce i k hki.symm hi] at hk
  cases hk

/-- Signals stay for the one that waits. -/
theorem signals_step (h : g.Inv t) (hstep : Contexts.Step g.code.Atomic i t t')
    (he : Effect t.shared.data (t.loc i) t'.shared.data (t'.loc i))
    (hasks : ∃ k, (t'.loc k).asks = true) (hpos : 0 < t.shared.data.signals) :
    0 < t'.shared.data.signals := by
  rcases he.event.signals hpos with hpos' | ⟨hm, hb⟩
  · exact hpos'
  · rcases exists_or' hstep hasks with hi | ⟨k, hki, hk⟩
    · rw [hb] at hi
      cases hi
    · exact (h.not_mutex hki hm (hasMutex_of_asks hk)).elim

/-- The handler finds no flag only after a signal. -/
theorem signals_of_handled {k : ι} (h : g.Inv t) (hki : k ≠ i)
    (hspin : (t.loc i).hasSpinlock = true) (hpending : t.shared.data.pending = false)
    (hk : (t.loc k).asks = true) : 0 < t.shared.data.signals := by
  rcases awaits_or_hasSpinlock hk with hawaits | hk'
  · rcases h.flag ⟨k, hawaits⟩ with hp | hpos
    · rw [hpending] at hp
      cases hp
    · exact hpos
  · exact (h.not_spinlock hki hspin hk').elim

theorem asked_step (h : g.Inv t) (hstep : Contexts.Step g.code.Atomic i t t')
    (he : Effect t.shared.data (t.loc i) t'.shared.data (t'.loc i))
    (hasks : ∃ k, (t'.loc k).asks = true) :
    Asked t'.shared.data ∨ t'.shared.data.gblSts = true ∨ (∃ i, (t'.loc i).handles = true) ∨
      0 < t'.shared.data.signals := by
  have hold : Asked t'.shared.data ∨ ∃ k, (t.loc k).asks = true := by
    rcases exists_or' hstep hasks with hi | ⟨k, -, hk⟩
    · exact (he.event.asks hi).elim (fun ha => .inr ⟨i, ha⟩) .inl
    · exact .inr ⟨k, hk⟩
  rcases hold with hasked | hold
  · exact .inl hasked
  · have hnotified : Asked t.shared.data ∨ t.shared.data.gblSts = true →
        Asked t'.shared.data ∨ t'.shared.data.gblSts = true ∨
          (∃ i, (t'.loc i).handles = true) ∨ 0 < t'.shared.data.signals := fun hx => by
      rcases he.event.asked hx with ha | hs | hb
      · exact .inl ha
      · exact .inr (.inl hs)
      · exact .inr (.inr (.inl ⟨i, hb⟩))
    rcases h.asked hold with ha | hs | hhandles | hpos
    · exact hnotified (.inl ha)
    · exact hnotified (.inr hs)
    · rcases exists_or hstep hhandles with hi | ⟨k, -, -, hk⟩
      · rcases he.event.handled hi with hb | hpos | ⟨hspin, hpending, hsame⟩
        · exact .inr (.inr (.inl ⟨i, hb⟩))
        · exact .inr (.inr (.inr hpos))
        · obtain ⟨k, hk⟩ := hold
          have hki : k ≠ i := by
            rintro rfl
            rw [not_asks_of_handles hi] at hk
            cases hk
          rw [hsame]
          exact .inr (.inr (.inr (h.signals_of_handled hki hspin hpending hk)))
      · exact .inr (.inr (.inl ⟨k, hk⟩))
    · exact .inr (.inr (.inr (h.signals_step hstep he hasks hpos)))

theorem asks_of_exists_awaits (hawaits : ∃ k, (t.loc k).awaits = true) :
    ∃ k, (t.loc k).asks = true :=
  hawaits.imp fun _ => asks_of_awaits

theorem flag_step (h : g.Inv t) (hstep : Contexts.Step g.code.Atomic i t t')
    (he : Effect t.shared.data (t.loc i) t'.shared.data (t'.loc i))
    (hawaits : ∃ k, (t'.loc k).awaits = true) :
    t'.shared.data.pending = true ∨ 0 < t'.shared.data.signals := by
  have hasks := asks_of_exists_awaits hawaits
  have hold : t'.shared.data.pending = true ∨ ∃ k, (t.loc k).awaits = true := by
    rcases exists_or' hstep hawaits with hi | ⟨k, -, hk⟩
    · exact (he.event.awaits hi).elim (fun ha => .inr ⟨i, ha⟩) fun hp => .inl hp.1
    · exact .inr ⟨k, hk⟩
  rcases hold with hp | hold
  · exact .inl hp
  · rcases h.flag hold with hp | hpos
    · rcases he.event.pending hp with hp' | ⟨hm, hb⟩ | hc
      · exact .inl hp'
      · rcases exists_or' hstep hasks with hi | ⟨k, hki, hk⟩
        · rw [hb] at hi
          cases hi
        · exact (h.not_mutex hki hm (hasMutex_of_asks hk)).elim
      · exact .inr (h.signals_step hstep he hasks (h.clears ⟨i, hc⟩ hold))
    · exact .inr (h.signals_step hstep he hasks hpos)

theorem clears_step (h : g.Inv t) (hstep : Contexts.Step g.code.Atomic i t t')
    (he : Effect t.shared.data (t.loc i) t'.shared.data (t'.loc i))
    (hclears : ∃ k, (t'.loc k).clears = true) (hawaits : ∃ k, (t'.loc k).awaits = true) :
    0 < t'.shared.data.signals := by
  have hasks := asks_of_exists_awaits hawaits
  rcases exists_or' hstep hclears with hi | ⟨k, hki, hk⟩
  · exact he.event.clears hi
  · rcases exists_or' hstep hawaits with hi | ⟨l, -, hl⟩
    · rcases he.event.awaits hi with ha | ⟨-, hspin⟩
      · exact h.signals_step hstep he hasks (h.clears ⟨k, hk⟩ ⟨i, ha⟩)
      · exact (h.not_spinlock hki hspin (hasSpinlock_of_clears hk)).elim
    · exact h.signals_step hstep he hasks (h.clears ⟨k, hk⟩ ⟨l, hl⟩)

theorem waits_step (h : g.Inv t) (hstep : Contexts.Step g.code.Atomic i t t')
    (he : Effect t.shared.data (t.loc i) t'.shared.data (t'.loc i))
    (hwaits : t'.shared.data.firmwareWaits = true) :
    Wanted t'.shared.data ∨ (∃ i, (t'.loc i).notifies = true) ∨ t'.shared.data.gblRls = true := by
  rcases he.waits hwaits with hw | ⟨hold, hwanted, hrls, hnotifies⟩
  · exact .inl hw
  · rcases h.waits hold with hw | hn | hr
    · exact .inr (.inl ⟨i, hwanted hw⟩)
    · rcases exists_or hstep hn with hi | ⟨k, -, -, hk⟩
      · exact (hnotifies hi).elim (fun hb => .inr (.inl ⟨i, hb⟩)) fun hr => .inr (.inr hr)
      · exact .inr (.inl ⟨k, hk⟩)
    · exact .inr (.inr (hrls hr))

theorem owns_step (h : g.Inv t) (hstep : Contexts.Step g.code.Atomic i t t')
    (he : Effect t.shared.data (t.loc i) t'.shared.data (t'.loc i)) (k : ι)
    (hk : (t'.loc k).owns = true) :
    wasOwned t'.shared.data.word = true ∧ t'.shared.data.firmwareOwns = false := by
  by_cases hki : k = i
  · exact he.word.owns (hki ▸ hk)
  · rw [hstep.others k hki] at hk
    rcases he.word.others with hm | hkept
    · exact (h.not_mutex hki hm (hasMutex_of_owns hk)).elim
    · exact hkept (h.owns k hk)

theorem owner_step (h : g.Inv t) (hstep : Contexts.Step g.code.Atomic i t t')
    (he : Effect t.shared.data (t.loc i) t'.shared.data (t'.loc i))
    (hw : wasOwned t'.shared.data.word = true) :
    t'.shared.data.firmwareOwns = true ∨ ∃ i, (t'.loc i).owns = true := by
  rcases he.word.owner hw with hf | hb | ⟨hold, ha, hf⟩
  · exact .inl hf
  · exact .inr ⟨i, hb⟩
  · rcases h.owner hold with hf' | hk
    · exact .inl (hf hf')
    · rcases exists_or hstep hk with hi | ⟨k, -, -, hk'⟩
      · rw [ha] at hi
        cases hi
      · exact .inr ⟨k, hk'⟩

theorem seq_step (h : g.Inv t) (hstep : Contexts.Step g.code.Atomic i t t')
    (he : Effect t.shared.data (t.loc i) t'.shared.data (t'.loc i)) (k : ι) (n : Nat)
    (hk : (t'.loc k).seqOf = some n) : t'.shared.data.seqNum = n + 1 := by
  by_cases hki : k = i
  · exact he.seq.seq n (hki ▸ hk)
  · rw [hstep.others k hki] at hk
    rcases he.seq.kept with hkept | hm
    · exact hkept.trans (h.seq k n hk)
    · exact (h.not_mutex hki hm (hasMutex_of_seqOf hk)).elim

theorem low_step (h : g.Inv t) (hstep : Contexts.Step g.code.Atomic i t t')
    (he : Effect t.shared.data (t.loc i) t'.shared.data (t'.loc i)) (k : ι)
    (hk : t'.loc k = number) : t'.shared.data.seqNum < 0xFFFFFFFF := by
  by_cases hki : k = i
  · exact he.seq.low (hki ▸ hk)
  · rw [hstep.others k hki] at hk
    rcases he.seq.kept with hkept | hm
    · exact hkept ▸ h.low k hk
    · exact (h.not_mutex hki hm (by rw [hk]; rfl)).elim

/-- **One step.** -/
theorem step (h : g.Inv t) (hready : g.Ready) (hstep : Contexts.Step g.code.Atomic i t t') :
    g.Inv t' := by
  obtain ⟨he, hmutex, hspin⟩ := effect_of_step hready (h.here i) hstep.own
  obtain ⟨hm, hm'⟩ := locks hstep hmutex h.mutex h.mutexOnce
  obtain ⟨hs, hs'⟩ := locks hstep hspin h.spinlock h.spinlockOnce
  refine ⟨hm, hm', hs, hs', h.owns_step hstep he, he.word.firmware, h.owner_step hstep he,
    h.asked_step hstep he, h.flag_step hstep he, h.clears_step hstep he, h.waits_step hstep he,
    h.seq_step hstep he, h.low_step hstep he, he.seq.bound, fun k hk => ?_⟩
  by_cases hki : k = i
  · exact he.seq.refused (hki ▸ hk)
  · exact h.refused k (by rwa [hstep.others k hki] at hk)

theorem disciplined (h : g.Inv t) (hready : g.Ready) : g.code.Disciplined t := by
  intro i j m a hij hrelease hacquire hj
  rcases call_release hrelease with ⟨hm, hi, -⟩ | ⟨hm, hi, -⟩ <;>
    rcases call_acquire hacquire with ⟨hm', hnext, -⟩ | ⟨hm', hnext, -⟩
  · exact h.not_mutex hij.symm hi (hj ▸ hnext)
  · exact hready.mutex (hm.symm.trans hm')
  · exact hready.mutex (hm'.symm.trans hm)
  · exact h.not_spinlock hij.symm hi (hj ▸ hnext)

end Inv

/-- Where a context starts: a context of the system, one that runs the handler, or the firmware. -/
def Role (a : GlobalPlace) : Prop := a = idle ∨ a = asleep ∨ a = firmware

theorem start_inv {locked : Nat → Bool} {word : BitVec 32} {role : ι → GlobalPlace}
    (hrole : ∀ i, Role (role i)) (hword : wasOwned word = false) :
    g.Inv (g.start locked word role) := by
  have hout {p : GlobalPlace → Bool} (hidle : p idle = false) (hasleep : p asleep = false)
      (hfirmware : p firmware = false) (i : ι) (hi : p (role i) = true) : False := by
    rcases hrole i with heq | heq | heq <;> rw [heq] at hi
    · rw [hidle] at hi
      cases hi
    · rw [hasleep] at hi
      cases hi
    · rw [hfirmware] at hi
      cases hi
  refine ⟨fun i hi => (hout rfl rfl rfl i hi).elim, fun i _ _ hi => (hout rfl rfl rfl i hi).elim,
    fun i hi => (hout rfl rfl rfl i hi).elim, fun i _ _ hi => (hout rfl rfl rfl i hi).elim,
    fun i hi => (hout rfl rfl rfl i hi).elim, nofun, fun hw => ?_,
    fun ⟨i, hi⟩ => (hout rfl rfl rfl i hi).elim, fun ⟨i, hi⟩ => (hout rfl rfl rfl i hi).elim,
    fun ⟨i, hi⟩ => (hout rfl rfl rfl i hi).elim, nofun, fun i n hi => ?_, fun i hi => ?_,
    (by decide : 0 < 2 ^ 32), fun i hi => ?_⟩
  · rw [show (g.start locked word role).shared.data.word = word from rfl, hword] at hw
    cases hw
  all_goals
    rcases hrole i with heq | heq | heq <;>
      rw [show (g.start locked word role).loc i = role i from rfl, heq] at hi <;> cases hi

theorem inv_of_reaches {locked : Nat → Bool} {word : BitVec 32} {role : ι → GlobalPlace}
    (hready : g.Ready) (hrole : ∀ i, Role (role i)) (hword : wasOwned word = false)
    (h : Reaches g.code.Atomic (fun _ _ _ => True) (g.start locked word role) t) : g.Inv t :=
  h.rule (start_inv hrole hword) fun _ _ _ hinv _ hstep => hinv.step hready hstep

/-- It has the number, and tries to release the lock with it. -/
def Keeps (seq : Nat) (a : GlobalPlace) : Prop :=
  a = holding (some seq) ∨ a = checkAcquired seq ∨ a = checkSeq seq

theorem Keeps.seqOf {seq : Nat} (h : Keeps seq a) : a.seqOf = some seq := by
  rcases h with rfl | rfl | rfl <;> rfl

theorem Keeps.owns {seq : Nat} (h : Keeps seq a) : a.owns = true := by
  rcases h with rfl | rfl | rfl <;> rfl

theorem Keeps.call {seq : Nat} (h : Keeps seq a) : g.call a = none := by
  rcases h with rfl | rfl | rfl <;> rfl

/-- Trying changes nothing. -/
theorem Keeps.act {seq : Nat} (h : Keeps seq a) (hseq : x.seqNum = seq + 1)
    (hact : (x', b) ∈ g.act x a) : Keeps seq b := by
  rcases h with rfl | rfl | rfl <;> obtain ⟨rfl, rfl⟩ := Prod.mk.inj (List.mem_singleton.1 hact)
  · exact .inr (.inl rfl)
  · split
    · exact .inl rfl
    · exact .inr (.inr rfl)
  · rw [if_pos (by omega)]
    exact .inl rfl

end GlobalLockSetup

open GlobalLockSetup

variable {ι : Type}

/-- **The firmware and the system never both own the lock, nor do two contexts; a context waits for
the event only while the firmware has the lock and is to tell, or has told; and the firmware waits
only while a context has the lock and is to tell, or has told.**  In any run of the system's
contexts, of those that handle the interrupt and of a firmware with the protocol of the two bits
where none is disturbed between the read and the write of a mutex. -/
theorem global_lock_protocol (g : GlobalLockSetup) (hready : g.Ready) (locked : Nat → Bool)
    (word : BitVec 32) (role : ι → GlobalPlace) (hrole : ∀ i, Role (role i))
    (hword : wasOwned word = false) (s : Contexts ι (Interlocked GlobalLock) (Caller GlobalPlace))
    (h : Reaches g.code.Move Undisturbed (settled (g.start locked word role)) s) :
    (∀ i seq, s.loc i = .own (.holding seq) →
      wasOwned s.shared.data.word = true ∧ s.shared.data.firmwareOwns = false ∧
      ∀ j seq', j ≠ i → s.loc j ≠ .own (.holding seq')) ∧
    (∀ i aml spins, s.loc i = .own (.waitForEvent aml spins) → s.shared.data.signals = 0 →
      s.shared.data.pending = true ∧ (Asked s.shared.data ∨ s.shared.data.gblSts = true ∨
        ∃ j, (g.code.place (s.loc j)).handles = true)) ∧
    (s.shared.data.firmwareWaits = true →
      (∃ j, (g.code.place (s.loc j)).owns = true ∧ isPending s.shared.data.word = true) ∨
      (∃ j, (g.code.place (s.loc j)).notifies = true) ∨ s.shared.data.gblRls = true) := by
  obtain ⟨t, ht, hR⟩ := reaches_atomic h fun t ht =>
    (inv_of_reaches hready hrole hword ht).disciplined hready
  have hinv := inv_of_reaches hready hrole hword ht
  have hloc (i : ι) (a : GlobalPlace) (hi : s.loc i = .own a) : t.loc i = a := by
    rw [hR.loc, hi]
    rfl
  rw [← hR.data]
  refine ⟨fun i seq hi => ?_, fun i aml spins hi hzero => ?_, fun hwaits => ?_⟩
  · have hi' := hloc i _ hi
    obtain ⟨hw, hf⟩ := hinv.owns i (by rw [hi']; rfl)
    refine ⟨hw, hf, fun j seq' hj hj' => hinv.not_mutex hj (by rw [hi']; rfl) ?_⟩
    rw [hloc j _ hj']
    rfl
  · have hi' := hloc i _ hi
    have hnone : ¬ 0 < t.shared.data.signals := by omega
    have hflag := (hinv.flag ⟨i, by rw [hi']; rfl⟩).resolve_right hnone
    refine ⟨hflag, ?_⟩
    rcases hinv.asked ⟨i, by rw [hi']; rfl⟩ with ha | hs | ⟨j, hj⟩ | hpos
    · exact .inl ha
    · exact .inr (.inl hs)
    · exact .inr (.inr ⟨j, hR.loc j ▸ hj⟩)
    · exact absurd hpos hnone
  · rcases hinv.waits hwaits with ⟨hf, hw, hp⟩ | ⟨j, hj⟩ | hr
    · rcases hinv.owner hw with hf' | ⟨j, hj⟩
      · rw [hf] at hf'
        cases hf'
      · exact .inl ⟨j, hR.loc j ▸ hj, hp⟩
    · exact .inr (.inl ⟨j, hR.loc j ▸ hj⟩)
    · exact .inr (.inr hr)

/-- **A context that got the lock from `uacpi_acquire_global_lock` keeps it for ever**: whenever it
calls `uacpi_release_global_lock` with its number it is refused, the system goes on owning the
lock, and no other context gets it. -/
theorem global_lock_never_released (g : GlobalLockSetup) (hready : g.Ready) (locked : Nat → Bool)
    (word : BitVec 32) (role : ι → GlobalPlace) (hrole : ∀ i, Role (role i))
    (hword : wasOwned word = false) (s s' : Contexts ι (Interlocked GlobalLock) (Caller GlobalPlace))
    (h : Reaches g.code.Move Undisturbed (settled (g.start locked word role)) s) (i : ι) (seq : Nat)
    (hi : s.loc i = .own (.holding (some seq))) (h' : Reaches g.code.Move Undisturbed s s') :
    (∃ a, s'.loc i = .own a ∧ Keeps seq a) ∧ wasOwned s'.shared.data.word = true ∧
      s'.shared.data.firmwareOwns = false ∧ ∀ j seq', j ≠ i → s'.loc j ≠ .own (.holding seq') := by
  have hatomic := fun (u : Contexts ι (Interlocked GlobalLock) (Caller GlobalPlace))
    (hu : Reaches g.code.Move Undisturbed (settled (g.start locked word role)) u) =>
    reaches_atomic hu fun t ht => (inv_of_reaches hready hrole hword ht).disciplined hready
  have hkeeps : ∃ a, s'.loc i = .own a ∧ Keeps seq a := by
    induction h' with
    | refl => exact ⟨_, hi, .inl rfl⟩
    | @tail u u' k hu _ hstep ih =>
      obtain ⟨a, ha, hk⟩ := ih
      by_cases hki : i = k
      · subst hki
        obtain ⟨t, ht, hR⟩ := hatomic u (h.trans hu)
        have hinv := inv_of_reaches hready hrole hword ht
        have hseq : u.shared.data.seqNum = seq + 1 := by
          rw [← hR.data]
          refine hinv.seq i seq ?_
          rw [hR.loc, ha]
          exact hk.seqOf
        have hown := hstep.own
        rw [ha] at hown
        generalize u'.shared = y, u'.loc i = l at hown ⊢
        cases hown with
        | call hcall => exact absurd (hcall.symm.trans hk.call) (by simp)
        | act hact => exact ⟨_, rfl, hk.act hseq hact⟩
      · rw [hstep.others i hki]
        exact ⟨a, ha, hk⟩
  obtain ⟨a, ha, hk⟩ := hkeeps
  obtain ⟨t, ht, hR⟩ := hatomic s' (h.trans h')
  have hinv := inv_of_reaches hready hrole hword ht
  have hti : t.loc i = a := by
    rw [hR.loc, ha]
    rfl
  obtain ⟨hw, hf⟩ := hinv.owns i (hti ▸ hk.owns)
  refine ⟨⟨a, ha, hk⟩, hR.data ▸ hw, hR.data ▸ hf, fun j seq' hj hj' => ?_⟩
  refine hinv.not_mutex hj (hti ▸ GlobalPlace.hasMutex_of_owns hk.owns) ?_
  rw [hR.loc, hj']
  rfl

def soloSetup : GlobalLockSetup := ⟨8, 16, true, id, allowedSteps⟩

/-- A context and a firmware. -/
def soloRole (system : Bool) : GlobalPlace := if system then .idle else .firmware

theorem takes_of_free {g : GlobalLockSetup} {x : GlobalLock} {aml : Bool} {spins : Nat}
    (hw : wasOwned x.word = false) :
    ({ x with word := acquireValue x.word }, .settle aml true) ∈
      g.act x (.tryCmpxchg aml spins x.word) := by
  rw [act_tryCmpxchg, if_pos rfl, hw]
  exact List.mem_singleton.2 rfl

/-- The context gets the lock. -/
theorem reaches_solo :
    ∃ s seq, Reaches soloSetup.code.Move Undisturbed
        (settled (soloSetup.start (fun _ => false) 0#32 soloRole)) s ∧
      s.loc true = .own (.holding (some seq)) := by
  have h₀ : Reaches soloSetup.code.Atomic (fun _ _ _ => True)
      (soloSetup.start (fun _ => false) 0#32 soloRole) _ := .refl
  obtain ⟨t₁, h₁, hx₁, hi₁, -⟩ := reaches_act (i := true) h₀ rfl (List.mem_cons_self ..)
  obtain ⟨t₂, h₂, hx₂, hi₂, -⟩ := reaches_acquire h₁ hi₁ rfl (by rw [hx₁]; rfl)
  obtain ⟨t₃, h₃, hx₃, hi₃, -⟩ := reaches_act h₂ hi₂ (List.mem_singleton.2 rfl)
  obtain ⟨t₄, h₄, hx₄, hi₄, -⟩ := reaches_acquire h₃ hi₃ rfl (by rw [hx₃, hx₂, hx₁]; rfl)
  obtain ⟨t₅, h₅, hx₅, hi₅, -⟩ := reaches_act h₄ hi₄ (List.mem_singleton.2 rfl)
  have hword : t₄.shared.data.word = 0#32 := by rw [hx₄, hx₃, hx₂, hx₁]; rfl
  have hdata : t₄.shared.data = t₅.shared.data := by rw [hx₅]
  rw [hdata] at hi₅ hword
  obtain ⟨t₆, h₆, -, hi₆, -⟩ := reaches_act h₅ hi₅ 
    (takes_of_free (g := soloSetup) (by rw [hword]; decide))
  obtain ⟨t₇, h₇, -, hi₇, -⟩ := reaches_act h₆ hi₆ (List.mem_singleton.2 rfl)
  obtain ⟨t₈, h₈, -, hi₈, -⟩ := reaches_release h₇ hi₇ rfl
  obtain ⟨t₉, h₉, -, hi₉, -⟩ := reaches_act h₈ hi₈ (List.mem_singleton.2 rfl)
  obtain ⟨t₁₀, h₁₀, -, hi₁₀, -⟩ := reaches_act h₉ hi₉ (List.mem_singleton.2 rfl)
  obtain ⟨t₁₁, h₁₁, -, hi₁₁, -⟩ := reaches_act h₁₀ hi₁₀ (List.mem_singleton.2 rfl)
  exact ⟨_, _, reaches_of_atomic h₁₁, congrArg Caller.own hi₁₁⟩

theorem soloRole_role (i : Bool) : Role (soloRole i) := by
  cases i
  · exact .inr (.inr rfl)
  · exact .inl rfl

theorem solo_ready : soloSetup.Ready := ⟨by decide, rfl, fun _ => List.Subset.refl _⟩

/-- A context that has it. -/
theorem global_lock_protocol_solo :
    ∃ (s : Contexts Bool (Interlocked GlobalLock) (Caller GlobalPlace)) (seq : Nat),
      s.loc true = .own (.holding (some seq)) ∧ wasOwned s.shared.data.word = true ∧
        s.shared.data.firmwareOwns = false := by
  obtain ⟨s, seq, h, hi⟩ := reaches_solo
  obtain ⟨hw, hf, -⟩ := (global_lock_protocol _ solo_ready _ 0#32 _ soloRole_role (by decide) s h).1
    true (some seq) hi
  exact ⟨s, seq, hi, hw, hf⟩

/-- A context that tries to release it. -/
theorem global_lock_never_released_solo :
    ∃ (s : Contexts Bool (Interlocked GlobalLock) (Caller GlobalPlace)) (seq : Nat),
      s.loc true = .own (.holding (some seq)) ∧
        ∀ s', Reaches soloSetup.code.Move Undisturbed s s' →
          wasOwned s'.shared.data.word = true := by
  obtain ⟨s, seq, h, hi⟩ := reaches_solo
  exact ⟨s, seq, hi, fun s' h' => (global_lock_never_released _ solo_ready _ 0#32 _ soloRole_role
    (by decide) s s' h true seq hi h').2.1⟩

end HelixKernel
