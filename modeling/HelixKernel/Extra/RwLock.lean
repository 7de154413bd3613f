import HelixKernel.Extra.MutexClients

/-!
# Read-write locks (`kernel/src/extra/uacpi/mutex.c`)

Readers count themselves under one mutex, and the first and the last of them take and give back
the other one, which a writer takes alone.

    rw_lock_excludes   in any run of finitely many contexts in which none is disturbed between
                       the read and the write of a mutex, a writer is alone, and from every
                       state all can get out again -/

namespace HelixKernel

open Contexts MutexClient

/-- The handles of a `uacpi_rw_lock`; `num_readers` is what the contexts share. -/
structure UacpiRwLock where
  readMutex : Nat
  writeMutex : Nat
deriving DecidableEq, Repr

/-- `uacpi_rw_lock_init`, with what `uacpi_kernel_create_mutex` returns; none if it is out of
memory. -/
def uacpiRwLockInit (created created' : Nat) : Option (UacpiRwLock × Nat) :=
  if created = 0 then none
  else if created' = 0 then none
  else some (⟨created, created'⟩, 0)

/-- Where a context is that calls them: `readX` in `uacpi_rw_lock_read`, `unreadX` in
`uacpi_rw_unlock_read`.  A number is what it has loaded from `num_readers`. -/
inductive RwPlace where
  | idle
  | readAcquire
  | readLoad
  | readStore (v : Nat)
  | readAcquireWrite
  | readReset
  | readRelease (success : Bool)
  | reading
  | unreadAcquire
  | unreadLoad
  | unreadStore (v : Nat)
  | unreadReleaseWrite
  | unreadRelease
  | writeAcquire
  | writing
  | writeRelease
deriving DecidableEq, Repr

namespace UacpiRwLock

open RwPlace

variable (lock : UacpiRwLock)

def call : RwPlace → Option MutexCall
  | readAcquire | unreadAcquire => uacpiAcquireNativeMutex lock.readMutex
  | readAcquireWrite | writeAcquire => uacpiAcquireNativeMutex lock.writeMutex
  | unreadReleaseWrite | writeRelease => uacpiReleaseNativeMutex lock.writeMutex
  | readRelease _ | unreadRelease => some (.release lock.readMutex)
  | _ => none

def next : RwPlace → RwPlace
  | readAcquire => readLoad
  | readAcquireWrite => readRelease true
  | readRelease success => if success then reading else idle
  | unreadAcquire => unreadLoad
  | unreadReleaseWrite => unreadRelease
  | unreadRelease => idle
  | writeAcquire => writing
  | writeRelease => idle
  | a => a

/-- The accesses to `num_readers`, and what follows a call that fails for a null handle. -/
def act (numReaders : Nat) : RwPlace → List (Nat × RwPlace)
  | idle => [(numReaders, readAcquire), (numReaders, writeAcquire)]
  | readAcquire => if lock.readMutex = 0 then [(numReaders, idle)] else []
  | readLoad => [(numReaders, readStore numReaders)]
  | readStore v => [((v + 1) % 2 ^ 64, if v = 0 then readAcquireWrite else readRelease true)]
  | readAcquireWrite => if lock.writeMutex = 0 then [(numReaders, readReset)] else []
  | readReset => [(0, readRelease false)]
  | reading => [(numReaders, unreadAcquire)]
  | unreadAcquire => if lock.readMutex = 0 then [(numReaders, reading)] else []
  | unreadLoad => [(numReaders, unreadStore numReaders)]
  | unreadStore v =>
    [((v + 2 ^ 64 - 1) % 2 ^ 64, if v = 1 then unreadReleaseWrite else unreadRelease)]
  | unreadReleaseWrite => if lock.writeMutex = 0 then [(numReaders, unreadRelease)] else []
  | writeAcquire => if lock.writeMutex = 0 then [(numReaders, idle)] else []
  | writing => [(numReaders, writeRelease)]
  | writeRelease => if lock.writeMutex = 0 then [(numReaders, idle)] else []
  | _ => []

def code : MutexClient Nat RwPlace := ⟨lock.call, next, lock.act⟩

/-- Before anyone's first call. -/
def start (ι : Type) (locked : Nat → Bool) (numReaders : Nat) : Contexts ι (Interlocked Nat) RwPlace :=
  ⟨⟨Function.update (Function.update locked lock.readMutex false) lock.writeMutex false,
    numReaders⟩, fun _ => idle⟩

/-- The handles are two mutexes. -/
structure Ready : Prop where
  read : lock.readMutex ≠ 0
  write : lock.writeMutex ≠ 0
  apart : lock.readMutex ≠ lock.writeMutex

/-! ## Who holds what -/

def holdsRead : RwPlace → Bool
  | readLoad | readStore _ | readAcquireWrite | readReset | readRelease _ | unreadLoad
  | unreadStore _ | unreadReleaseWrite | unreadRelease => true
  | _ => false

def holdsWrite : RwPlace → Bool
  | writing | writeRelease => true
  | _ => false

/-- `num_readers` counts it. -/
def counted : RwPlace → Bool
  | readAcquireWrite | readReset | readRelease true | reading | unreadAcquire | unreadLoad
  | unreadStore _ => true
  | _ => false

/-- The first reader, which does not yet have the other mutex for all of them. -/
def opening : RwPlace → Bool
  | readAcquireWrite | readReset => true
  | _ => false

/-- The last one, which still has it. -/
def closing : RwPlace → Bool
  | unreadReleaseWrite => true
  | _ => false

/-- What is between the load and the store of `num_readers`. -/
def loaded : RwPlace → Option Nat
  | readStore v | unreadStore v => some v
  | _ => none

/-- The read mutex has one holder, `num_readers` counts the readers, and the write mutex is
held once: by a writer, or for all readers. -/
structure Inv {ι : Type} [Fintype ι] (t : Contexts ι (Interlocked Nat) RwPlace) : Prop where
  read : t.census holdsRead = (t.shared.locked lock.readMutex).toNat
  readers : t.census counted = t.shared.data
  opens : 1 ≤ t.census opening → t.shared.data = 1
  closes : 1 ≤ t.census closing → t.shared.data = 0
  write : t.census holdsWrite + t.census closing + (if t.shared.data = 0 then 0 else 1) =
    (t.shared.locked lock.writeMutex).toNat + t.census opening
  fresh : ∀ i v, loaded (t.loc i) = some v → v = t.shared.data

/-- What it says of a context. -/
structure Here (x : Interlocked Nat) (a : RwPlace) : Prop where
  read : holdsRead a = true → x.locked lock.readMutex = true
  write : holdsWrite a = true ∨ closing a = true → x.locked lock.writeMutex = true
  readers : counted a = true → 1 ≤ x.data
  bound : x.data < 2 ^ 64
  more : counted a = false → x.data + 1 < 2 ^ 64
  opens : opening a = true → x.data = 1
  closes : closing a = true → x.data = 0
  fresh : ∀ v, loaded a = some v → v = x.data

/-- What a step of one changes. -/
structure Effect (x : Interlocked Nat) (a : RwPlace) (x' : Interlocked Nat) (b : RwPlace) : Prop where
  read : (x'.locked lock.readMutex).toNat + (holdsRead a).toNat =
    (x.locked lock.readMutex).toNat + (holdsRead b).toNat
  readers : x'.data + (counted a).toNat = x.data + (counted b).toNat
  write : (holdsWrite b).toNat + (closing b).toNat + (if x'.data = 0 then 0 else 1) +
      (x.locked lock.writeMutex).toNat + (opening a).toNat =
    (holdsWrite a).toNat + (closing a).toNat + (if x.data = 0 then 0 else 1) +
      (x'.locked lock.writeMutex).toNat + (opening b).toNat
  guarded : holdsRead a = true ∨ x'.data = x.data ∧ opening b = false ∧ closing b = false
  opens : opening b = true → x'.data = 1
  closes : closing b = true → x'.data = 0
  fresh : ∀ v, loaded b = some v → v = x'.data

variable {lock} {ι : Type} [Fintype ι] {t t' : Contexts ι (Interlocked Nat) RwPlace} {i j : ι}
  {x x' : Interlocked Nat} {a b : RwPlace}

theorem holdsRead_of_opening : ∀ a, opening a = true → holdsRead a = true := by
  intro a ha
  cases a <;> simp_all [opening, holdsRead]

theorem holdsRead_of_closing : ∀ a, closing a = true → holdsRead a = true := by
  intro a ha
  cases a <;> simp_all [closing, holdsRead]

theorem counted_of_opening : ∀ a, opening a = true → counted a = true := by
  intro a ha
  cases a <;> simp_all [opening, counted]

theorem holdsRead_of_loaded {v : Nat} (h : loaded a = some v) : holdsRead a = true := by
  cases a <;> simp_all [loaded, holdsRead]

/-- It gets a mutex. -/
theorem Here.effect_acquire {m : Nat} (hready : lock.Ready) (h : lock.Here x a)
    (hk : lock.call a = some (.acquire m)) (hfree : x.locked m = false) :
    lock.Effect x a { x with locked := Function.update x.locked m true } (next a) := by
  have hne := hready.apart
  have hopens := h.opens
  cases a <;> simp [call, uacpiAcquireNativeMutex, uacpiReleaseNativeMutex, hready.read,
    hready.write] at hk <;> subst hk <;>
    constructor <;> simp_all [next, holdsRead, holdsWrite, counted, opening, closing, loaded,
      Ne.symm hne, Nat.add_comm]

/-- It gives one back. -/
theorem Here.effect_release {m : Nat} (hready : lock.Ready) (h : lock.Here x a)
    (hk : lock.call a = some (.release m)) :
    lock.Effect x a { x with locked := Function.update x.locked m false } (next a) := by
  have hne := hready.apart
  have hread := h.read
  have hwrite := h.write
  cases a with
  | readRelease success =>
    cases success <;> simp [call] at hk <;> subst hk <;>
      constructor <;> simp_all [next, holdsRead, holdsWrite, counted, opening, closing, loaded,
        Ne.symm hne]
  | _ =>
    simp [call, uacpiAcquireNativeMutex, uacpiReleaseNativeMutex, hready.write] at hk <;>
      subst hk <;> constructor <;> simp_all [next, holdsRead, holdsWrite, counted, opening, closing,
        loaded, Ne.symm hne, Nat.add_comm]

/-- A reader counts itself. -/
theorem effect_readStore : lock.Effect x (readStore x.data) { x with data := x.data + 1 }
    (if x.data = 0 then readAcquireWrite else readRelease true) := by
  by_cases hzero : x.data = 0
  · constructor <;> simp [hzero, holdsRead, holdsWrite, counted, opening, closing, loaded,
      Nat.add_comm]
  · constructor <;> simp [hzero, holdsRead, holdsWrite, counted, opening, closing, loaded]

/-- It counts itself out. -/
theorem effect_unreadStore {v : Nat} (hv : x.data = v + 1) :
    lock.Effect x (unreadStore (v + 1)) { x with data := v }
      (if v = 0 then unreadReleaseWrite else unreadRelease) := by
  by_cases hzero : v = 0
  · constructor <;> simp [hv, hzero, holdsRead, holdsWrite, counted, opening, closing, loaded]
  · constructor <;> simp [hv, hzero, holdsRead, holdsWrite, counted, opening, closing, loaded]

/-- It changes `num_readers`, or nothing. -/
theorem Here.effect_act {d : Nat} (hready : lock.Ready) (h : lock.Here x a)
    (hact : (d, b) ∈ lock.act x.data a) : lock.Effect x a { x with data := d } b := by
  cases a with
  | readStore v =>
    obtain rfl := h.fresh v rfl
    have hmod : (x.data + 1) % 2 ^ 64 = x.data + 1 := Nat.mod_eq_of_lt (h.more rfl)
    rw [act, List.mem_singleton, Prod.mk.injEq, hmod] at hact
    obtain ⟨rfl, rfl⟩ := hact
    exact effect_readStore
  | unreadStore v =>
    obtain rfl := h.fresh v rfl
    obtain ⟨v, hv⟩ := Nat.exists_eq_succ_of_ne_zero (Nat.ne_of_gt (h.readers rfl))
    have hlt : x.data < 2 ^ 64 := h.bound
    have hmod : (x.data + 2 ^ 64 - 1) % 2 ^ 64 = v := by omega
    rw [act, List.mem_singleton, Prod.mk.injEq, hmod] at hact
    obtain ⟨rfl, rfl⟩ := hact
    rw [hv]
    simpa using effect_unreadStore hv
  | _ =>
    have hopens := h.opens
    have hcloses := h.closes
    simp [act, hready.read, hready.write] at hact <;> obtain ⟨rfl, rfl⟩ := hact <;>
      constructor <;> simp_all [holdsRead, holdsWrite, counted, opening, closing, loaded,
        Nat.add_comm]

theorem Here.effect (hready : lock.Ready) (h : lock.Here x a) (hstep : lock.code.Atomic x a x' b) :
    lock.Effect x a x' b := by
  rcases atomic_cases hstep with ⟨m, hk, hfree, rfl, rfl⟩ | ⟨m, hk, rfl, rfl⟩ | ⟨d, hact, rfl⟩
  · exact h.effect_acquire hready hk hfree
  · exact h.effect_release hready hk
  · exact h.effect_act hready hact

theorem call_release {m : Nat} (h : lock.code.call a = some (.release m)) :
    m = lock.readMutex ∧ holdsRead a = true ∨
      m = lock.writeMutex ∧ (closing a = true ∨ holdsWrite a = true) := by
  cases a <;> simp_all [code, call, uacpiAcquireNativeMutex, uacpiReleaseNativeMutex, holdsRead,
    closing, holdsWrite]

theorem call_acquire {m : Nat} (h : lock.code.call a = some (.acquire m)) :
    m = lock.readMutex ∧ holdsRead (next a) = true ∨
      m = lock.writeMutex ∧ (next a = readRelease true ∨ next a = writing) := by
  cases a <;> simp_all [code, call, next, uacpiAcquireNativeMutex, uacpiReleaseNativeMutex,
    holdsRead]

/-- How far a context is from being out. -/
def rank : RwPlace → Nat
  | idle => 0
  | readAcquire => 12
  | readLoad => 11
  | readStore _ => 10
  | readAcquireWrite => 9
  | readReset => 8
  | readRelease _ => 7
  | reading => 6
  | unreadAcquire => 5
  | unreadLoad => 4
  | unreadStore _ => 3
  | unreadReleaseWrite => 2
  | unreadRelease => 1
  | writeAcquire => 3
  | writing => 2
  | writeRelease => 1

/-- It waits for a mutex that is locked. -/
inductive Waits (lock : UacpiRwLock) (x : Interlocked Nat) : RwPlace → Prop where
  | readAcquire (h : x.locked lock.readMutex = true) : Waits lock x readAcquire
  | readAcquireWrite (h : x.locked lock.writeMutex = true) : Waits lock x readAcquireWrite
  | unreadAcquire (h : x.locked lock.readMutex = true) : Waits lock x unreadAcquire
  | writeAcquire (h : x.locked lock.writeMutex = true) : Waits lock x writeAcquire

theorem eq_idle_of_rank (h : rank a = 0) : a = idle := by
  cases a <;> simp_all [rank]

theorem rank_next (a : RwPlace) (k : MutexCall) (h : lock.code.call a = some k) :
    rank (lock.code.next a) < rank a := by
  cases a with
  | readRelease success => cases success <;> simp [code, next, rank]
  | _ => simp_all [code, next, rank, call]

namespace Waits

theorem locked (h : lock.Waits x a) :
    x.locked lock.readMutex = true ∨ x.locked lock.writeMutex = true := by
  cases h with
  | readAcquire h | unreadAcquire h => exact .inl h
  | readAcquireWrite h | writeAcquire h => exact .inr h

theorem opening (h : lock.Waits x a) (ha : holdsRead a = true) :
    UacpiRwLock.opening a = true := by
  cases h <;> simp_all [holdsRead, UacpiRwLock.opening]

theorem locked_read (h : lock.Waits x a) (ha : counted a = true)
    (hin : UacpiRwLock.opening a = false) : x.locked lock.readMutex = true := by
  cases h <;> simp_all [counted, UacpiRwLock.opening]

theorem locked_write (h : lock.Waits x a) (ha : holdsRead a = true) :
    x.locked lock.writeMutex = true := by
  cases h <;> simp_all [holdsRead]

theorem holds_nothing (h : lock.Waits x a) : holdsWrite a = false ∧ closing a = false := by
  cases h <;> exact ⟨rfl, rfl⟩

end Waits

theorem enabled_of_act {d : Nat} (hk : lock.call a = none) (hact : (d, b) ∈ lock.act x.data a)
    (hlt : rank b < rank a) : lock.code.Enabled rank x a :=
  .inr (.inr ⟨hk, d, b, hact, hlt⟩)

theorem idle_or_waits (hready : lock.Ready) (h : ¬ lock.code.Enabled rank x a) :
    a = idle ∨ lock.Waits x a := by
  have hread : uacpiAcquireNativeMutex lock.readMutex = some (.acquire lock.readMutex) :=
    if_neg hready.read
  have hwrite : uacpiAcquireNativeMutex lock.writeMutex = some (.acquire lock.writeMutex) :=
    if_neg hready.write
  have hrelease : uacpiReleaseNativeMutex lock.writeMutex = some (.release lock.writeMutex) :=
    if_neg hready.write
  have hlocked {m : Nat} (hk : lock.call a = some (.acquire m)) : x.locked m = true := by
    by_contra hfree
    exact h (.inl ⟨m, hk, by simpa using hfree⟩)
  cases a with
  | idle => exact .inl rfl
  | readAcquire => exact .inr (.readAcquire (hlocked hread))
  | readAcquireWrite => exact .inr (.readAcquireWrite (hlocked hwrite))
  | unreadAcquire => exact .inr (.unreadAcquire (hlocked hread))
  | writeAcquire => exact .inr (.writeAcquire (hlocked hwrite))
  | readRelease success => exact absurd (.inr (.inl ⟨_, rfl⟩)) h
  | unreadRelease => exact absurd (.inr (.inl ⟨_, rfl⟩)) h
  | unreadReleaseWrite => exact absurd (.inr (.inl ⟨_, hrelease⟩)) h
  | writeRelease => exact absurd (.inr (.inl ⟨_, hrelease⟩)) h
  | readStore v =>
    refine absurd (enabled_of_act rfl (List.mem_singleton.2 rfl) ?_) h
    split <;> simp [rank]
  | unreadStore v =>
    refine absurd (enabled_of_act rfl (List.mem_singleton.2 rfl) ?_) h
    split <;> simp [rank]
  | _ =>
    refine absurd (enabled_of_act rfl (List.mem_singleton.2 rfl) ?_) h
    simp [rank]

namespace Inv

theorem read_le (h : lock.Inv t) : t.census holdsRead ≤ 1 := by
  rw [h.read]
  exact Bool.toNat_le _

theorem locked_read (h : lock.Inv t) (hi : holdsRead (t.loc i) = true) :
    t.shared.locked lock.readMutex = true := by
  classical
  have hpos : 1 ≤ t.census holdsRead := census_pos hi
  rw [h.read] at hpos
  cases hl : t.shared.locked lock.readMutex with
  | true => rfl
  | false => simp [hl] at hpos

theorem locked_write (h : lock.Inv t) (hpos : 1 ≤ t.census holdsWrite + t.census closing) :
    t.shared.locked lock.writeMutex = true := by
  have hopening : t.census opening ≤ 1 := (census_mono holdsRead_of_opening).trans h.read_le
  have hwrite := h.write
  have hopens := h.opens
  cases hl : t.shared.locked lock.writeMutex with
  | true => rfl
  | false =>
    rw [hl, Bool.toNat_false] at hwrite
    split at hwrite <;> omega

theorem here (h : lock.Inv t) (hcard : Fintype.card ι < 2 ^ 64) (i : ι) :
    lock.Here t.shared (t.loc i) := by
  classical
  have hreaders := h.readers
  have hle : t.census counted ≤ Fintype.card ι := census_le_card
  refine ⟨h.locked_read, fun hw => h.locked_write ?_, fun hc => ?_, by omega, fun hc => ?_,
    fun ho => h.opens (census_pos ho), fun hc => h.closes (census_pos hc), h.fresh i⟩
  · rcases hw with hw | hc
    · have hpos : 1 ≤ t.census holdsWrite := census_pos hw
      omega
    · have hpos : 1 ≤ t.census closing := census_pos hc
      omega
  · rw [← hreaders]
    exact census_pos hc
  · have hlt : t.census counted < Fintype.card ι := census_lt_card hc
    omega

/-- **One step.** -/
theorem step (h : lock.Inv t) (hready : lock.Ready) (hcard : Fintype.card ι < 2 ^ 64)
    (hstep : Contexts.Step lock.code.Atomic i t t') : lock.Inv t' := by
  classical
  have he := (h.here hcard i).effect hready hstep.own
  have hread := hstep.census holdsRead
  have hcounted := hstep.census counted
  have hopening := hstep.census opening
  have hclosing := hstep.census closing
  have hholds := hstep.census holdsWrite
  have heread := he.read
  have hereaders := he.readers
  have hewrite := he.write
  have hread₀ := h.read
  have hreaders₀ := h.readers
  have hwrite₀ := h.write
  -- what the others hold of the read mutex, where this one holds it
  have hinside : holdsRead (t.loc i) = true → t.census opening = (opening (t.loc i)).toNat ∧
      t.census closing = (closing (t.loc i)).toNat := fun hi =>
    ⟨census_of_alone h.read_le hi holdsRead_of_opening,
      census_of_alone h.read_le hi holdsRead_of_closing⟩
  refine ⟨by omega, by omega, fun hpos => ?_, fun hpos => ?_, by omega, fun j v hv => ?_⟩
  · rcases he.guarded with hi | ⟨hdata, ho, -⟩
    · have hzero := (hinside hi).1
      refine he.opens ?_
      by_contra hno
      rw [Bool.not_eq_true] at hno
      rw [hno, Bool.toNat_false] at hopening
      omega
    · rw [hdata]
      rw [ho, Bool.toNat_false] at hopening
      exact h.opens (by omega)
  · rcases he.guarded with hi | ⟨hdata, -, hc⟩
    · have hzero := (hinside hi).2
      refine he.closes ?_
      by_contra hno
      rw [Bool.not_eq_true] at hno
      rw [hno, Bool.toNat_false] at hclosing
      omega
    · rw [hdata]
      rw [hc, Bool.toNat_false] at hclosing
      exact h.closes (by omega)
  · by_cases hj : j = i
    · rw [hj] at hv
      exact he.fresh v hv
    · rw [hstep.others j hj] at hv
      rw [h.fresh j v hv]
      rcases he.guarded with hi | ⟨hdata, -⟩
      · exact absurd (census_two hj (holdsRead_of_loaded hv) hi) (by have := h.read_le; omega)
      · exact hdata.symm

/-! ## What it excludes -/

theorem opening_le (h : lock.Inv t) : t.census opening ≤ 1 :=
  (census_mono holdsRead_of_opening).trans h.read_le

/-- A reader that has been let in keeps writers out. -/
theorem write_of_reader (h : lock.Inv t) (hj : counted (t.loc j) = true)
    (hin : opening (t.loc j) = false) : t.census holdsWrite = 0 := by
  classical
  have hpos : 1 ≤ t.census counted := census_pos hj
  have hnone : t.census opening = 0 := by
    refine Nat.eq_zero_of_not_pos fun hopen => ?_
    obtain ⟨k, hk⟩ := exists_of_census_pos hopen
    have hne : k ≠ j := by
      rintro rfl
      simp [hk] at hin
    have htwo : 2 ≤ t.census counted := census_two hne (counted_of_opening _ hk) hj
    have hone := h.opens hopen
    have hreaders := h.readers
    omega
  have hwrite := h.write
  have hreaders := h.readers
  have hle := Bool.toNat_le (t.shared.locked lock.writeMutex)
  rw [if_neg (by omega)] at hwrite
  omega

/-- A writer is alone, but for a reader that waits for it. -/
theorem alone (h : lock.Inv t) (hne : i ≠ j) (hi : holdsWrite (t.loc i) = true) :
    holdsWrite (t.loc j) = false ∧ (counted (t.loc j) = true → opening (t.loc j) = true) := by
  classical
  have hpos : 1 ≤ t.census holdsWrite := census_pos hi
  constructor
  · by_contra hj
    have htwo : 2 ≤ t.census holdsWrite := census_two hne hi (by simpa using hj)
    have hwrite := h.write
    have hle := Bool.toNat_le (t.shared.locked lock.writeMutex)
    have hopening := h.opening_le
    have hopens := h.opens
    split at hwrite <;> omega
  · intro hj
    by_contra hin
    have hzero := h.write_of_reader hj (by simpa using hin)
    omega

/-- The last reader keeps writers out too. -/
theorem write_of_closing (h : lock.Inv t) (hi : closing (t.loc i) = true) :
    t.census holdsWrite = 0 := by
  classical
  have hpos : 1 ≤ t.census closing := census_pos hi
  have hwrite := h.write
  have hcloses := h.closes hpos
  have hopens := h.opens
  have hle := Bool.toNat_le (t.shared.locked lock.writeMutex)
  rw [if_pos hcloses] at hwrite
  omega

theorem not_both_read (h : lock.Inv t) (hne : i ≠ j) (hi : holdsRead (t.loc i) = true)
    (hj : holdsRead (t.loc j) = true) : False := by
  classical
  have htwo : 2 ≤ t.census holdsRead := census_two hne hi hj
  have hle := h.read_le
  omega

theorem disciplined (h : lock.Inv t) (hready : lock.Ready) : lock.code.Disciplined t := by
  classical
  intro i j m a hne hrelease hacquire hj
  rcases call_release hrelease with ⟨hm, hi⟩ | ⟨hm, hi⟩ <;>
    rcases call_acquire hacquire with ⟨hm', hnext⟩ | ⟨hm', hnext⟩
  · exact h.not_both_read hne hi (hj ▸ hnext)
  · exact hready.apart (hm.symm.trans hm')
  · exact hready.apart (hm'.symm.trans hm)
  · replace hj : t.loc j = readRelease true ∨ t.loc j = writing := by
      rw [hj]
      exact hnext
    rcases hi with hclosing | hholds
    · rcases hj with hj | hj
      · exact h.not_both_read hne (holdsRead_of_closing _ hclosing) (by rw [hj]; rfl)
      · have hzero := h.write_of_closing hclosing
        have hpos : 1 ≤ t.census holdsWrite := census_pos (i := j) (by rw [hj]; rfl)
        omega
    · obtain ⟨hout, hin⟩ := h.alone hne hholds
      rcases hj with hj | hj
      · rw [hj] at hin
        exact absurd (hin rfl) (by decide)
      · rw [hj] at hout
        cases hout

/-! ## Waiting -/

/-- **Somebody can go on.** -/
theorem progress (h : lock.Inv t) (hready : lock.Ready) (hleft : ∃ i, rank (t.loc i) ≠ 0) :
    ∃ i, lock.code.Enabled rank t.shared (t.loc i) := by
  classical
  by_contra hnone
  have hwaits (i : ι) : t.loc i = idle ∨ lock.Waits t.shared (t.loc i) :=
    idle_or_waits hready fun he => hnone ⟨i, he⟩
  -- whoever waits for the read mutex waits for the first reader
  have hread : t.shared.locked lock.readMutex = true → 1 ≤ t.census opening := by
    intro hl
    have hpos : 0 < t.census holdsRead := by
      rw [h.read, hl]
      decide
    obtain ⟨k, hk⟩ := exists_of_census_pos hpos
    refine census_pos (i := k) ?_
    rcases hwaits k with hidle | hw
    · rw [hidle] at hk
      cases hk
    · exact hw.opening hk
  have hzero {p : RwPlace → Bool} (hidle : p idle = false)
      (hp : ∀ a, lock.Waits t.shared a → p a = false) : t.census p = 0 := by
    refine Nat.eq_zero_of_not_pos fun hpos => ?_
    obtain ⟨k, hk⟩ := exists_of_census_pos hpos
    rcases hwaits k with hout | hw
    · rw [hout, hidle] at hk
      cases hk
    · rw [hp _ hw] at hk
      cases hk
  have hholds : t.census holdsWrite = 0 := hzero rfl fun _ hw => hw.holds_nothing.1
  have hclosing : t.census closing = 0 := hzero rfl fun _ hw => hw.holds_nothing.2
  have hl : t.shared.locked lock.writeMutex = true := by
    obtain ⟨i, hi⟩ := hleft
    rcases hwaits i with hidle | hw
    · rw [hidle] at hi
      exact absurd rfl hi
    · rcases hw.locked with hl | hl
      · obtain ⟨k, hk⟩ := exists_of_census_pos (hread hl)
        rcases hwaits k with hidle | hw
        · rw [hidle] at hk
          cases hk
        · exact hw.locked_write (holdsRead_of_opening _ hk)
      · exact hl
  have hwrite := h.write
  have hreaders := h.readers
  rw [hl, hholds, hclosing, Bool.toNat_true] at hwrite
  have hnone : t.census opening = 0 ∧ 0 < t.census counted := by
    split at hwrite <;> omega
  obtain ⟨k, hk⟩ := exists_of_census_pos hnone.2
  rcases hwaits k with hidle | hw
  · rw [hidle] at hk
    cases hk
  · have hin : opening (t.loc k) = false := by
      by_contra hopen
      have hpos : 1 ≤ t.census opening := census_pos (by simpa using hopen)
      omega
    have hpos := hread (hw.locked_read hk hin)
    omega

end Inv

/-! ## Runs -/

variable (lock) in
theorem start_inv (locked : Nat → Bool) : lock.Inv (lock.start ι locked 0) := by
  have hzero {p : RwPlace → Bool} (hidle : p idle = false) :
      (lock.start ι locked 0).census p = 0 := census_start hidle fun _ => rfl
  have hread : (lock.start ι locked 0).shared.locked lock.readMutex = false := by
    simp [start, Function.update_apply]
  have hwrite : (lock.start ι locked 0).shared.locked lock.writeMutex = false := by
    simp [start]
  have hdata : (lock.start ι locked 0).shared.data = 0 := rfl
  constructor
  · rw [hzero rfl, hread]
    rfl
  · rw [hzero rfl, hdata]
  · intro hpos
    rw [hzero rfl] at hpos
    cases hpos
  · intro _
    exact hdata
  · rw [hzero rfl, hzero rfl, hzero rfl, hwrite, hdata]
    rfl
  · rintro i v ⟨⟩

theorem inv_of_reaches (hready : lock.Ready) (hcard : Fintype.card ι < 2 ^ 64)
    {locked : Nat → Bool}
    (h : Reaches lock.code.Atomic (fun _ _ _ => True) (lock.start ι locked 0) t) : lock.Inv t :=
  h.rule (lock.start_inv locked) fun _ _ _ hinv _ hstep => hinv.step hready hcard hstep

theorem ready_of_init {created created' numReaders : Nat} (hne : created ≠ created')
    (h : uacpiRwLockInit created created' = some (lock, numReaders)) :
    lock.Ready ∧ numReaders = 0 := by
  unfold uacpiRwLockInit at h
  split at h
  · cases h
  · split at h
    · cases h
    · obtain ⟨rfl, rfl⟩ := Prod.mk.inj (Option.some.inj h)
      exact ⟨⟨‹_›, ‹_›, hne⟩, rfl⟩

end UacpiRwLock

open UacpiRwLock

/-- **A writer is alone, and all contexts can always get out again**: in every run of any number
of them that read, write, or wait to, where none is disturbed between the read and the write of a
mutex. -/
theorem rw_lock_excludes {ι : Type} [Fintype ι] {created created' numReaders : Nat}
    {lock : UacpiRwLock} (hinit : uacpiRwLockInit created created' = some (lock, numReaders))
    (hne : created ≠ created') (hcard : Fintype.card ι < 2 ^ 64) (locked : Nat → Bool)
    (s : Contexts ι (Interlocked Nat) (Caller RwPlace))
    (h : Reaches lock.code.Move Undisturbed (settled (lock.start ι locked numReaders)) s) :
    (∀ i j, i ≠ j → s.loc i = .own .writing →
      s.loc j ≠ .own .writing ∧ s.loc j ≠ .own .reading) ∧
    ∃ s', Reaches lock.code.Move Undisturbed s s' ∧ ∀ i, s'.loc i = .own .idle := by
  obtain ⟨hready, rfl⟩ := ready_of_init hne hinit
  have hinv (t : Contexts ι (Interlocked Nat) RwPlace)
      (ht : Reaches lock.code.Atomic (fun _ _ _ => True) (lock.start ι locked 0) t) : lock.Inv t :=
    inv_of_reaches hready hcard ht
  have hdisciplined := fun t ht => (hinv t ht).disciplined hready
  constructor
  · intro i j hij hi
    obtain ⟨t, ht, hR⟩ := reaches_atomic h hdisciplined
    have hi' : t.loc i = .writing := by
      rw [hR.loc, hi]
      rfl
    obtain ⟨hout, hin⟩ := (hinv t ht).alone hij (by rw [hi']; rfl)
    rw [hR.loc j] at hout hin
    constructor <;> intro hj <;> rw [hj] at hout hin
    · cases hout
    · cases hin rfl
  · obtain ⟨s', hreach, hs'⟩ := reaches_settled h hdisciplined rank_next
      fun t ht hleft => (hinv t ht).progress hready hleft
    refine ⟨s', hreach, fun i => ?_⟩
    obtain ⟨a, ha, hrank⟩ := hs' i
    rw [ha, eq_idle_of_rank hrank]

/-- A context that writes while another one has not called. -/
theorem rw_lock_excludes_writer :
    ∃ s : Contexts Bool (Interlocked Nat) (Caller RwPlace), s.loc true = .own .writing ∧
      (∀ i j, i ≠ j → s.loc i = .own .writing →
        s.loc j ≠ .own .writing ∧ s.loc j ≠ .own .reading) ∧
      ∃ s', Reaches (UacpiRwLock.mk 8 16).code.Move Undisturbed s s' ∧
        ∀ i, s'.loc i = .own .idle := by
  have hstart : Reaches (UacpiRwLock.mk 8 16).code.Atomic (fun _ _ _ => True)
      ((UacpiRwLock.mk 8 16).start Bool (fun _ => false) 0) _ := .refl
  have hcall := hstart.next (i := true) (.act (d := 0) (b := .writeAcquire) (by decide))
  have hwrite := hcall.next (i := true) (.acquire (m := 16) rfl rfl)
  have hinit : uacpiRwLockInit 8 16 = some (⟨8, 16⟩, 0) := rfl
  exact ⟨_, rfl, rw_lock_excludes hinit (by decide) (by decide) (fun _ => false) _
    (reaches_of_atomic hwrite)⟩

end HelixKernel
