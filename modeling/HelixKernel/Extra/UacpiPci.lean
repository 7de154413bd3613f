import HelixKernel.Lib.Heap
import HelixKernel.Pcie.Legacy

/-!
# PCI for uACPI (`kernel/src/extra/uacpi/uacpi_kernel_wrapper.cpp`)

A device handle points to bus, device and function.  The writes pass the offset where
`pci_write` takes the data and the value where it takes the offset; the reads all go through
the 16-bit reader of `pci_read`.

    uacpi_pci_write   a write is right exactly if offset and value are equal, or both
                      registers happen to hold what must be there after it
    uacpi_pci_read    16-bit reads are right; 8-bit ones at even offsets or where the byte
                      below is the same; 32-bit ones agree with them where the dword is x, x, 0, 0 -/

namespace HelixKernel

/-- `uacpi_pci_address`; `uacpi_pci_device_open` does not read the segment. -/
structure UacpiPciAddress where
  segment : Nat
  bus : Nat
  device : Nat
  function : Nat
deriving DecidableEq, Repr

/-- `uacpi_pci_dev` -/
structure UacpiPciDev where
  b : Nat
  d : Nat
  f : Nat
deriving DecidableEq, Repr

structure UacpiPci where
  devices : Heap UacpiPciDev
  bus : PciBus

namespace UacpiPci

/-- `uacpi_kernel_pci_device_open`, `p` being what `malloc` returns. -/
def uacpiKernelPciDeviceOpen (s : UacpiPci) (address : UacpiPciAddress) (p : Nat) :
    Except HeapFault UacpiPci :=
  if p = 0 then .error (.access 0)
  else .ok { s with devices := s.devices.set p (some ⟨address.bus, address.device, address.function⟩) }

/-- The reads, of `bytes` bytes: `*value` and the ports. -/
def pciReadWrapper (bytes : Nat) (s : UacpiPci) (device offset : Nat) :
    Except HeapFault (Nat × UacpiPci) := do
  let dev ← s.devices.load device
  let (val, bus) := pciRead s.bus dev.b dev.d dev.f (offset % 2 ^ 8)
  .ok (val % 256 ^ bytes, { s with bus := bus })

def uacpiKernelPciRead8 := pciReadWrapper 1

def uacpiKernelPciRead16 := pciReadWrapper 2

def uacpiKernelPciRead32 := pciReadWrapper 4

/-- The writes, of `bytes` bytes: `pci_write(b, d, f, offset, bytes, value)`, whose fourth
argument is the data and whose sixth is the offset. -/
def pciWriteWrapper (bytes : Nat) (s : UacpiPci) (device offset value : Nat) :
    Except HeapFault UacpiPci := do
  let dev ← s.devices.load device
  .ok { s with bus := pciWrite s.bus dev.b dev.d dev.f (offset % 2 ^ 32) bytes (value % 2 ^ 8) }

def uacpiKernelPciWrite8 := pciWriteWrapper 1

def uacpiKernelPciWrite16 := pciWriteWrapper 2

def uacpiKernelPciWrite32 := pciWriteWrapper 4

/-- The handle is that of an opened device. -/
structure Opened (s : UacpiPci) (handle : Nat) (fn : PciFunction) : Prop where
  block : s.devices.block handle = some ⟨fn.bus, fn.device, fn.function⟩
  bus : fn.bus < 256
  device : fn.device < 32
  function : fn.function < 8

variable {s : UacpiPci} {handle : Nat} {fn : PciFunction} {w : Nat}

theorem opened {address : UacpiPciAddress} {p : Nat} (hp : p ≠ 0) (hb : address.bus < 256)
    (hd : address.device < 32) (hf : address.function < 8) :
    ∃ s', s.uacpiKernelPciDeviceOpen address p = .ok s' ∧ s'.bus = s.bus ∧
      s'.Opened p ⟨address.bus, address.device, address.function⟩ :=
  ⟨_, if_neg hp, rfl, Heap.set_block_self _ _ _, hb, hd, hf⟩

/-! ## Writes -/

/-- The `w` bytes of `value` are at `offset` of `fn`, and nothing else has changed. -/
structure Stores (s s' : UacpiPci) (fn : PciFunction) (offset w value : Nat) : Prop where
  stored : ∀ i < w, (s'.bus.space fn (offset + i) : Nat) = value / 256 ^ i % 256
  same : ∀ fn' r, ¬ (fn' = fn ∧ offset ≤ r ∧ r < offset + w) →
    s'.bus.space fn' r = s.bus.space fn' r

theorem pciWriteWrapper_spec (h : s.Opened handle fn) (hw : w = 1 ∨ w = 2 ∨ w = 4)
    (offset value : Nat) : ∃ s', pciWriteWrapper w s handle offset value = .ok s' ∧
      s'.bus.space = Function.update s.bus.space fn
        (writeBytes (s.bus.space fn) (value % 2 ^ 8 / w * w) w (offset % 2 ^ 32)) := by
  refine ⟨{ s with
    bus := pciWrite s.bus fn.bus fn.device fn.function (offset % 2 ^ 32) w (value % 2 ^ 8) }, ?_,
    pciWrite_space s.bus hw h.bus h.device h.function (Nat.mod_lt _ (by decide)) _⟩
  simp only [pciWriteWrapper, Heap.load_of_block h.block, ok_bind]

/-- Where bytes written at `a` are those asked for at `offset`. -/
theorem stores_iff {s' : UacpiPci} {a offset data value : Nat}
    (hs' : s'.bus.space = Function.update s.bus.space fn (writeBytes (s.bus.space fn) a w data))
    (hapart : a = offset ∨ a + w ≤ offset ∨ offset + w ≤ a) (hdata : data < 256 ^ w)
    (hvalue : value < 256 ^ w) :
    Stores s s' fn offset w value ↔ a = offset ∧ data = value ∨
      readBytes (s.bus.space fn) a w = data ∧ readBytes (s.bus.space fn) offset w = value := by
  have hself (r : Nat) : s'.bus.space fn r = writeBytes (s.bus.space fn) a w data r := by
    rw [hs', Function.update_self]
  constructor
  · intro h
    rcases hapart with rfl | hapart
    · -- the bytes at `offset` are those of `data`
      refine .inl ⟨rfl, ?_⟩
      have hread := (readBytes_eq_iff hvalue).mpr h.stored
      have hwritten : readBytes (s'.bus.space fn) a w = data :=
        (readBytes_eq_iff hdata).mpr fun i hi => by rw [hself, writeBytes_mem _ _ hi]
      exact hwritten.symm.trans hread
    · -- those at `a` must not change, and those at `offset` do not
      refine .inr ⟨(readBytes_eq_iff hdata).mpr fun i hi => ?_,
        (readBytes_eq_iff hvalue).mpr fun i hi => ?_⟩
      · rw [← h.same fn (a + i) (by omega), hself, writeBytes_mem _ _ hi]
      · rw [← h.stored i hi, hself, writeBytes_ne _ _ (by omega)]
  · rintro (⟨rfl, rfl⟩ | ⟨ha, hoffset⟩)
    · refine ⟨fun i hi => by rw [hself, writeBytes_mem _ _ hi], fun fn' r hr => ?_⟩
      by_cases hfn : fn' = fn
      · subst hfn
        have hout : ¬ (a ≤ r ∧ r < a + w) := fun hin => hr ⟨rfl, hin⟩
        rw [hself, writeBytes_ne _ _ (by omega)]
      · rw [hs', Function.update_of_ne hfn]
    · have hsame : s'.bus.space = s.bus.space := by
        rw [hs', writeBytes_eq_self hdata ha, Function.update_eq_self]
      refine ⟨fun i hi => ?_, fun fn' r _ => by rw [hsame]⟩
      rw [hsame, (readBytes_eq_iff hvalue).mp hoffset i hi]

/-- **A write** of any value at any aligned offset of an opened device: right exactly if
offset and value are equal, or the register `value` names reads the offset and the one at
the offset already reads the value. -/
theorem uacpi_pci_write (h : s.Opened handle fn) (hw : w = 1 ∨ w = 2 ∨ w = 4) {offset value : Nat}
    (hoffset : offset < 256) (hal : offset % w = 0) (hvalue : value < 256 ^ w) :
    ∃ s', pciWriteWrapper w s handle offset value = .ok s' ∧
      (Stores s s' fn offset w value ↔ offset = value ∨
        readBytes (s.bus.space fn) (value % 256 / w * w) w = offset ∧
          readBytes (s.bus.space fn) offset w = value) := by
  obtain ⟨s', hcall, hs'⟩ := pciWriteWrapper_spec h hw offset value
  refine ⟨s', hcall, ?_⟩
  have hdata : offset < 256 ^ w := by rcases hw with rfl | rfl | rfl <;> omega
  rw [Nat.mod_eq_of_lt (show offset < 2 ^ 32 by omega)] at hs'
  rw [stores_iff hs' (by rcases hw with rfl | rfl | rfl <;> omega) hdata hvalue]
  refine or_congr ⟨fun heq => heq.2, fun heq => ⟨?_, heq⟩⟩ Iff.rfl
  subst heq
  rcases hw with rfl | rfl | rfl <;> omega

/-- Device 3 on bus 0, opened at 8; register `r` of every function holds `r`. -/
def openedDevice : UacpiPci := ⟨.set .empty 8 (some ⟨0, 3, 0⟩), ⟨0, fun _ r => toByte r⟩⟩

theorem openedDevice_opened : openedDevice.Opened 8 ⟨0, 3, 0⟩ :=
  ⟨Heap.set_block_self _ _ _, by decide, by decide, by decide⟩

/-- **Offset and value exchanged**: writing 5 to register 0x3C puts 0x3C into register 5. -/
theorem pci_write_exchanged : ∃ s', openedDevice.uacpiKernelPciWrite8 8 0x3C 5 = .ok s' ∧
    s'.bus.space ⟨0, 3, 0⟩ 5 = 0x3C ∧ s'.bus.space ⟨0, 3, 0⟩ 0x3C = 0x3C ∧
    ¬ Stores openedDevice s' ⟨0, 3, 0⟩ 0x3C 1 5 := by
  obtain ⟨s', hcall, hs'⟩ := pciWriteWrapper_spec openedDevice_opened (.inl rfl) 0x3C 5
  have hself (r : Nat) : s'.bus.space ⟨0, 3, 0⟩ r =
      writeBytes (openedDevice.bus.space ⟨0, 3, 0⟩) (5 % 2 ^ 8 / 1 * 1) 1 (0x3C % 2 ^ 32) r := by
    rw [hs', Function.update_self]
  have hkept : s'.bus.space ⟨0, 3, 0⟩ 0x3C = 0x3C := by
    rw [hself]
    decide
  refine ⟨s', hcall, by rw [hself]; decide, hkept, fun hstores => ?_⟩
  have hstored := hstores.stored 0 (by decide)
  rw [Nat.add_zero, hkept] at hstored
  exact absurd hstored (by decide)

/-- Offset and value the same. -/
theorem uacpi_pci_write_same : ∃ s', openedDevice.uacpiKernelPciWrite8 8 0x3C 0x3C = .ok s' ∧
    Stores openedDevice s' ⟨0, 3, 0⟩ 0x3C 1 0x3C := by
  obtain ⟨s', hcall, hiff⟩ := uacpi_pci_write openedDevice_opened (.inl rfl)
    (show 0x3C < 256 by decide) (by decide) (show 0x3C < 256 ^ 1 by decide)
  exact ⟨s', hcall, hiff.mpr (.inl rfl)⟩

/-! ## Reads -/

/-- What a read stores in `*value`. -/
def readOut (bytes : Nat) (s : UacpiPci) (device offset : Nat) : Except HeapFault Nat := do
  let r ← pciReadWrapper bytes s device offset
  .ok r.1

/-- The `w` bytes at `offset` are read, and if these are a dword then as the narrower reads of
it have them. -/
structure ReadsRight (s : UacpiPci) (handle : Nat) (fn : PciFunction) (offset w : Nat) : Prop where
  value : readOut w s handle offset = .ok (readBytes (s.bus.space fn) offset w)
  agrees : w = 4 → ∀ v, readOut 4 s handle offset = .ok v →
    (∀ b0 b1 b2 b3, readOut 1 s handle offset = .ok b0 → readOut 1 s handle (offset + 1) = .ok b1 →
      readOut 1 s handle (offset + 2) = .ok b2 → readOut 1 s handle (offset + 3) = .ok b3 →
      v = b0 + 256 * b1 + 256 ^ 2 * b2 + 256 ^ 3 * b3) ∧
    ∀ h0 h1, readOut 2 s handle offset = .ok h0 → readOut 2 s handle (offset + 2) = .ok h1 →
      v = h0 + 256 ^ 2 * h1

/-- A read stores what is left of the 16-bit reader's value, and changes no register. -/
theorem pciReadWrapper_spec (h : s.Opened handle fn) {offset : Nat} (hoffset : offset < 256)
    (w : Nat) : ∃ s', pciReadWrapper w s handle offset =
        .ok (readBytes (s.bus.space fn) (offset / 2 * 2) 2 % 256 ^ w, s') ∧
      s'.bus.space = s.bus.space ∧ s'.devices = s.devices := by
  have ho : offset % 2 ^ 8 = offset := Nat.mod_eq_of_lt hoffset
  refine ⟨{ s with bus := (pciRead s.bus fn.bus fn.device fn.function offset).2 }, ?_,
    pciRead_space s.bus h.bus h.device h.function hoffset, rfl⟩
  simp only [pciReadWrapper, Heap.load_of_block h.block, ok_bind, ho,
    pciRead_value s.bus h.bus h.device h.function hoffset]

theorem readOut_eq (h : s.Opened handle fn) {offset : Nat} (hoffset : offset < 256) (w : Nat) :
    readOut w s handle offset = .ok (readBytes (s.bus.space fn) (offset / 2 * 2) 2 % 256 ^ w) := by
  obtain ⟨s', hcall, -⟩ := pciReadWrapper_spec h hoffset w
  rw [readOut, hcall]
  rfl

theorem readBytes_one (m : Nat → Fin 256) (r : Nat) : readBytes m r 1 = m r := by
  simp [readBytes]

theorem readBytes_two (m : Nat → Fin 256) (r : Nat) : readBytes m r 2 = m r + 256 * m (r + 1) := by
  simp [readBytes]

theorem readBytes_four (m : Nat → Fin 256) (r : Nat) : readBytes m r 4 =
    m r + 256 * m (r + 1) + 65536 * m (r + 2) + 16777216 * m (r + 3) := by
  simp [readBytes]

/-- The 8-bit read of an even offset or of the odd one above. -/
theorem readOut_byte (h : s.Opened handle fn) {offset : Nat} (hoffset : offset < 256) :
    readOut 1 s handle offset = .ok (s.bus.space fn (offset / 2 * 2) : Nat) := by
  have hlt := (s.bus.space fn (offset / 2 * 2)).isLt
  rw [readOut_eq h hoffset, readBytes_two]
  congr 1
  omega

theorem readOut_wide (h : s.Opened handle fn) {offset : Nat} (hoffset : offset < 256)
    (hal : offset % 2 = 0) (hw : 2 ≤ w) :
    readOut w s handle offset = .ok (readBytes (s.bus.space fn) offset 2) := by
  have hlt : readBytes (s.bus.space fn) offset 2 < 256 ^ w :=
    Nat.lt_of_lt_of_le (readBytes_lt _ _ 2) (Nat.pow_le_pow_right (by decide) hw)
  rw [readOut_eq h hoffset, show offset / 2 * 2 = offset by omega, Nat.mod_eq_of_lt hlt]

/-- The 8-bit reads. -/
theorem readsRight_one (h : s.Opened handle fn) {offset : Nat} (hoffset : offset < 256) :
    ReadsRight s handle fn offset 1 ↔
      offset % 2 = 0 ∨ s.bus.space fn (offset - 1) = s.bus.space fn offset := by
  have hread := readOut_byte h hoffset
  have hiff : ReadsRight s handle fn offset 1 ↔
      s.bus.space fn (offset / 2 * 2) = s.bus.space fn offset := by
    constructor
    · intro hr
      have hv := hr.value
      rw [hread, readBytes_one] at hv
      injection hv with hv
      exact Fin.ext hv
    · intro heq
      refine ⟨?_, fun h4 => absurd h4 (by decide)⟩
      rw [hread, readBytes_one, heq]
  rw [hiff]
  by_cases heven : offset % 2 = 0
  · rw [show offset / 2 * 2 = offset by omega]
    exact ⟨fun _ => .inl heven, fun _ => rfl⟩
  · rw [show offset / 2 * 2 = offset - 1 by omega]
    exact ⟨.inr, fun hr => hr.resolve_left heven⟩

/-- The 32-bit reads. -/
theorem readsRight_four (h : s.Opened handle fn) {offset : Nat} (hoffset : offset < 256)
    (hal : offset % 4 = 0) : ReadsRight s handle fn offset 4 ↔
      s.bus.space fn (offset + 1) = s.bus.space fn offset ∧ s.bus.space fn (offset + 2) = 0 ∧
        s.bus.space fn (offset + 3) = 0 := by
  have hlong := readOut_wide (w := 4) h hoffset (by omega) (by decide)
  have hb0 := readOut_byte h hoffset
  have hb1 := readOut_byte h (show offset + 1 < 256 by omega)
  have hb2 := readOut_byte h (show offset + 2 < 256 by omega)
  have hb3 := readOut_byte h (show offset + 3 < 256 by omega)
  have hh0 := readOut_wide (w := 2) h hoffset (by omega) (by decide)
  have hh1 := readOut_wide (w := 2) h (show offset + 2 < 256 by omega) (by omega) (by decide)
  rw [show offset / 2 * 2 = offset by omega] at hb0
  rw [show (offset + 1) / 2 * 2 = offset by omega] at hb1
  rw [show (offset + 2) / 2 * 2 = offset + 2 by omega] at hb2
  rw [show (offset + 3) / 2 * 2 = offset + 2 by omega] at hb3
  rw [readBytes_two] at hlong hh0 hh1
  have h0 := (s.bus.space fn offset).isLt
  have h1 := (s.bus.space fn (offset + 1)).isLt
  have h2 := (s.bus.space fn (offset + 2)).isLt
  have h3 := (s.bus.space fn (offset + 3)).isLt
  simp only [Fin.ext_iff, Fin.val_zero]
  constructor
  · intro hr
    have hvalue := hr.value
    rw [hlong, readBytes_four] at hvalue
    injection hvalue with hvalue
    have hbytes := (hr.agrees rfl _ hlong).1 _ _ _ _ hb0 hb1 hb2 hb3
    omega
  · rintro ⟨hx, hz2, hz3⟩
    refine ⟨?_, fun _ v hv => ⟨fun b0 b1 b2 b3 e0 e1 e2 e3 => ?_, fun w0 w1 e0 e1 => ?_⟩⟩
    · rw [hlong, readBytes_four]
      congr 1
      omega
    · rw [hlong] at hv
      rw [hb0] at e0
      rw [hb1] at e1
      rw [hb2] at e2
      rw [hb3] at e3
      injection hv with hv
      injection e0 with e0
      injection e1 with e1
      injection e2 with e2
      injection e3 with e3
      omega
    · rw [hlong] at hv
      rw [hh0] at e0
      rw [hh1] at e1
      injection hv with hv
      injection e0 with e0
      injection e1 with e1
      rw [show offset + 2 + 1 = offset + 3 from rfl] at e1
      omega

/-- **A read** at any aligned offset of an opened device is right exactly if it is a 16-bit
one, an 8-bit one at an even offset or where the byte below is the same, or a 32-bit one of a
dword whose bytes are x, x, 0, 0. -/
theorem uacpi_pci_read (h : s.Opened handle fn) (hw : w = 1 ∨ w = 2 ∨ w = 4) {offset : Nat}
    (hoffset : offset < 256) (hal : offset % w = 0) :
    ReadsRight s handle fn offset w ↔ w = 2 ∨
      w = 1 ∧ (offset % 2 = 0 ∨ s.bus.space fn (offset - 1) = s.bus.space fn offset) ∨
      w = 4 ∧ s.bus.space fn (offset + 1) = s.bus.space fn offset ∧
        s.bus.space fn (offset + 2) = 0 ∧ s.bus.space fn (offset + 3) = 0 := by
  rcases hw with rfl | rfl | rfl
  · simpa using readsRight_one h hoffset
  · have hright : ReadsRight s handle fn offset 2 :=
      ⟨readOut_wide h hoffset hal (by decide), fun h4 => absurd h4 (by decide)⟩
    simpa using hright
  · simpa using readsRight_four h hoffset hal

/-- **The upper half dropped**: the dword 3, 2, 1, 0 is read as 1, 0. -/
theorem pci_read_truncated :
    (∃ s', openedDevice.uacpiKernelPciRead32 8 0 = .ok (0x0100, s')) ∧
    readBytes (openedDevice.bus.space ⟨0, 3, 0⟩) 0 4 = 0x03020100 ∧
    ¬ ReadsRight openedDevice 8 ⟨0, 3, 0⟩ 0 4 := by
  obtain ⟨s', hcall, -⟩ := pciReadWrapper_spec openedDevice_opened (show 0 < 256 by decide) 4
  refine ⟨⟨s', hcall⟩, by decide, fun hright => ?_⟩
  have hbytes := (readsRight_four openedDevice_opened (show 0 < 256 by decide) (by decide)).mp hright
  exact absurd hbytes.1 (by decide)

/-- A 16-bit read of register 2. -/
theorem uacpi_pci_read_half : ReadsRight openedDevice 8 ⟨0, 3, 0⟩ 2 2 :=
  (uacpi_pci_read openedDevice_opened (.inr (.inl rfl)) (by decide) (by decide)).mpr (.inl rfl)

end UacpiPci

end HelixKernel
