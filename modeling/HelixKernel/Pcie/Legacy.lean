import HelixKernel.Machine.Bytes

/-!
# PCI configuration space (`kernel/src/pcie/pcie.cpp`)

Configuration mechanism 1: a long written to port 0xCF8 selects bus, device, function and
dword, and ports 0xCFC to 0xCFF are the bytes of that dword.

    pciWrite_space   `pci_write` stores the bytes of `data` at the register, rounded down to
                     the width
    pciRead_value    `pci_read` returns the two bytes at the register, rounded down to even -/

namespace HelixKernel

structure PciFunction where
  bus : Nat
  device : Nat
  function : Nat
deriving DecidableEq, Repr

/-- The bytes of every function. -/
abbrev ConfigSpace := PciFunction → Nat → Fin 256

/-! ## Little-endian bytes -/

/-- `(uint8_t)n` -/
def toByte (n : Nat) : Fin 256 := ⟨n % 256, Nat.mod_lt n (by decide)⟩

/-- The `w` bytes of `v` at `r`. -/
def writeBytes (m : Nat → Fin 256) (r w v : Nat) : Nat → Fin 256 :=
  fun x => if r ≤ x ∧ x < r + w then toByte (v / 256 ^ (x - r)) else m x

/-- The number in the `w` bytes at `r`. -/
def readBytes (m : Nat → Fin 256) (r : Nat) : Nat → Nat
  | 0 => 0
  | w + 1 => readBytes m r w + 256 ^ w * m (r + w)

theorem readBytes_lt (m : Nat → Fin 256) (r w : Nat) : readBytes m r w < 256 ^ w := by
  induction w with
  | zero => exact Nat.zero_lt_one
  | succ w ih =>
    have hb : 256 ^ w * ((m (r + w) : Nat) + 1) ≤ 256 ^ w * 256 := Nat.mul_le_mul_left _ (m (r + w)).isLt
    rw [Nat.mul_add_one] at hb
    rw [readBytes, Nat.pow_succ]
    omega

/-- A number below the bound is read exactly if its bytes are there. -/
theorem readBytes_eq_mod_iff (m : Nat → Fin 256) (r w v : Nat) :
    readBytes m r w = v % 256 ^ w ↔ ∀ i < w, (m (r + i) : Nat) = v / 256 ^ i % 256 := by
  induction w with
  | zero => simp [readBytes, Nat.mod_one]
  | succ w ih =>
    have hpos : 0 < 256 ^ w := Nat.pow_pos (by decide)
    have hlt := readBytes_lt m r w
    have hmod : v % 256 ^ w < 256 ^ w := Nat.mod_lt _ hpos
    rw [readBytes, Nat.mod_pow_succ]
    constructor
    · intro h i hi
      have hlow : readBytes m r w = v % 256 ^ w := by
        have := congrArg (· % 256 ^ w) h
        simpa [Nat.add_mul_mod_self_left, Nat.mod_eq_of_lt hlt] using this
      by_cases hiw : i = w
      · subst hiw
        rw [hlow, Nat.add_left_cancel_iff] at h
        exact Nat.eq_of_mul_eq_mul_left hpos h
      · exact ih.mp hlow i (by omega)
    · intro h
      rw [ih.mpr fun i hi => h i (by omega), h w (by omega)]

theorem readBytes_eq_iff {m : Nat → Fin 256} {r w v : Nat} (hv : v < 256 ^ w) :
    readBytes m r w = v ↔ ∀ i < w, (m (r + i) : Nat) = v / 256 ^ i % 256 := by
  have h := readBytes_eq_mod_iff m r w v
  rwa [Nat.mod_eq_of_lt hv] at h

theorem writeBytes_mem (m : Nat → Fin 256) {r w i : Nat} (v : Nat) (hi : i < w) :
    (writeBytes m r w v (r + i) : Nat) = v / 256 ^ i % 256 := by
  unfold writeBytes
  rw [if_pos ⟨by omega, by omega⟩, Nat.add_sub_cancel_left]
  rfl

/-- **Frame.**  The other bytes are as they were. -/
theorem writeBytes_ne (m : Nat → Fin 256) {r w x : Nat} (v : Nat) (hx : x < r ∨ r + w ≤ x) :
    writeBytes m r w v x = m x := by
  unfold writeBytes
  rw [if_neg (by omega)]

/-- Bytes that are there already. -/
theorem writeBytes_eq_self {m : Nat → Fin 256} {r w v : Nat} (hv : v < 256 ^ w)
    (hm : readBytes m r w = v) : writeBytes m r w v = m := by
  ext x
  by_cases hx : x < r ∨ r + w ≤ x
  · rw [writeBytes_ne m v hx]
  · obtain ⟨i, rfl⟩ : ∃ i, x = r + i := ⟨x - r, by omega⟩
    have hi : i < w := by omega
    rw [writeBytes_mem m v hi, (readBytes_eq_iff hv).mp hm i hi]

/-! ## The ports -/

/-- The long latched at 0xCF8 and what it selects from. -/
structure PciBus where
  address : Nat
  space : ConfigSpace

namespace PciBus

def enabled (p : PciBus) : Bool := p.address / 2 ^ 31 % 2 = 1

def selected (p : PciBus) : PciFunction :=
  ⟨p.address / 2 ^ 16 % 256, p.address / 2 ^ 11 % 32, p.address / 2 ^ 8 % 8⟩

/-- The first register of the selected dword. -/
def dword (p : PciBus) : Nat := p.address / 4 % 64 * 4

/-- `width` bytes of the selected dword, from byte `lane` on. -/
def store (p : PciBus) (lane width value : Nat) : ConfigSpace :=
  Function.update p.space p.selected (writeBytes (p.space p.selected) (p.dword + lane) width value)

/-- `width` bytes written to `port`. -/
def out (p : PciBus) (width port value : Nat) : PciBus :=
  if port = 0xCF8 ∧ width = 4 then { p with address := value }
  else if p.enabled ∧ 0xCFC ≤ port ∧ port + width ≤ 0xD00 then
    { p with space := p.store (port - 0xCFC) width value }
  else p

def outb (p : PciBus) (port value : Nat) : PciBus := p.out 1 port (value % 2 ^ 8)

def outw (p : PciBus) (port value : Nat) : PciBus := p.out 2 port (value % 2 ^ 16)

def outl (p : PciBus) (port value : Nat) : PciBus := p.out 4 port (value % 2 ^ 32)

/-- A long read from `port`; all ones where nothing answers. -/
def inl (p : PciBus) (port : Nat) : Nat :=
  if p.enabled ∧ port = 0xCFC then readBytes (p.space p.selected) p.dword 4 else 0xFFFFFFFF

end PciBus

/-! ## `pcie::legacy` -/

/-- What goes to 0xCF8. -/
def pciAddress (b d f offset : Nat) : Nat :=
  1 <<< 31 ||| b <<< 16 ||| d <<< 11 ||| f <<< 8 ||| (offset &&& 0xFC)

/-- `pci_read`, and the ports after it. -/
def pciRead (p : PciBus) (b d f offset : Nat) : Nat × PciBus :=
  let p := p.outl 0xCF8 (pciAddress b d f offset)
  ((p.inl 0xCFC >>> ((offset &&& 2) * 8)) &&& 0xFFFF, p)

/-- `pci_write` -/
def pciWrite (p : PciBus) (b d f data bytes offset : Nat) : PciBus :=
  let p := p.outl 0xCF8 (pciAddress b d f offset)
  match bytes with
  | 1 => p.outb (0xCFC + (offset &&& 3)) data
  | 2 => p.outw (0xCFC + (offset &&& 2)) data
  | 4 => p.outl 0xCFC data
  | _ => p

/-! ## What they select -/

theorem mask_offset {o : Nat} (h : o < 256) :
    o &&& 0xFC = o / 4 * 4 ∧ o &&& 3 = o % 4 ∧ o &&& 2 = o % 4 / 2 * 2 := by
  revert o
  decide +kernel

/-- The fields lie side by side. -/
theorem pciAddress_eq {b d f o : Nat} (hb : b < 256) (hd : d < 32) (hf : f < 8) (ho : o < 256) :
    pciAddress b d f o = 2 ^ 31 * 1 + (2 ^ 16 * b + (2 ^ 11 * d + (2 ^ 8 * f + o / 4 * 4))) := by
  have h0 : o / 4 * 4 < 2 ^ 8 := by omega
  have h1 : 2 ^ 8 * f + o / 4 * 4 < 2 ^ 11 := by omega
  have h2 : 2 ^ 11 * d + (2 ^ 8 * f + o / 4 * 4) < 2 ^ 16 := by omega
  have h3 : 2 ^ 16 * b + (2 ^ 11 * d + (2 ^ 8 * f + o / 4 * 4)) < 2 ^ 31 := by omega
  rw [Nat.two_pow_add_eq_or_of_lt h3, Nat.two_pow_add_eq_or_of_lt h2,
    Nat.two_pow_add_eq_or_of_lt h1, Nat.two_pow_add_eq_or_of_lt h0]
  simp only [pciAddress, (mask_offset ho).1, Nat.shiftLeft_eq, Nat.or_assoc, Nat.mul_comm, Nat.one_mul]

variable (p : PciBus) {b d f o : Nat}

/-- The first `outl` of both routines. -/
theorem outl_address (hb : b < 256) (hd : d < 32) (hf : f < 8) (ho : o < 256) :
    ∃ a, p.outl 0xCF8 (pciAddress b d f o) = ⟨a, p.space⟩ ∧
      (PciBus.mk a p.space).enabled = true ∧ (PciBus.mk a p.space).selected = ⟨b, d, f⟩ ∧
      (PciBus.mk a p.space).dword = o / 4 * 4 := by
  have heq := pciAddress_eq hb hd hf ho
  refine ⟨pciAddress b d f o % 2 ^ 32, by simp [PciBus.outl, PciBus.out], ?_, ?_, ?_⟩
  · simp only [PciBus.enabled, decide_eq_true_eq]
    omega
  · simp only [PciBus.selected, PciFunction.mk.injEq]
    omega
  · simp only [PciBus.dword]
    omega

/-- A write to the lanes of an enabled dword. -/
theorem out_data {p : PciBus} {width lane value : Nat} (he : p.enabled = true)
    (hl : lane + width ≤ 4) :
    (p.out width (0xCFC + lane) value).space = p.store lane width value := by
  have hne : ¬ (0xCFC + lane = 0xCF8 ∧ width = 4) := by omega
  have hin : p.enabled = true ∧ 0xCFC ≤ 0xCFC + lane ∧ 0xCFC + lane + width ≤ 0xD00 :=
    ⟨he, by omega, by omega⟩
  simp only [PciBus.out, if_neg hne, if_pos hin, Nat.add_sub_cancel_left]

theorem writeBytes_mod (m : Nat → Fin 256) (r w v : Nat) :
    writeBytes m r w (v % 256 ^ w) = writeBytes m r w v := by
  funext x
  unfold writeBytes
  by_cases hx : r ≤ x ∧ x < r + w
  · rw [if_pos hx, if_pos hx]
    exact Fin.ext (digit256_mod (by omega))
  · rw [if_neg hx, if_neg hx]

/-- **A write** stores the bytes of `data` at the register, rounded down to the width. -/
theorem pciWrite_space {w : Nat} (hw : w = 1 ∨ w = 2 ∨ w = 4) (hb : b < 256) (hd : d < 32)
    (hf : f < 8) (ho : o < 256) (data : Nat) :
    (pciWrite p b d f data w o).space = Function.update p.space ⟨b, d, f⟩
      (writeBytes (p.space ⟨b, d, f⟩) (o / w * w) w data) := by
  obtain ⟨a, hout, he, hsel, hdword⟩ := outl_address p hb hd hf ho
  obtain ⟨-, h3, h2⟩ := mask_offset ho
  rcases hw with rfl | rfl | rfl
  · simp only [pciWrite, hout, h3, PciBus.outb]
    rw [out_data he (by omega), PciBus.store, hsel, hdword, show 2 ^ 8 = 256 ^ 1 from rfl,
      writeBytes_mod, show o / 4 * 4 + o % 4 = o / 1 * 1 by omega]
  · simp only [pciWrite, hout, h2, PciBus.outw]
    rw [out_data he (by omega), PciBus.store, hsel, hdword, show 2 ^ 16 = 256 ^ 2 from rfl,
      writeBytes_mod, show o / 4 * 4 + o % 4 / 2 * 2 = o / 2 * 2 by omega]
  · simp only [pciWrite, hout]
    rw [PciBus.outl, show 0xCFC = 0xCFC + 0 from rfl, out_data he (by omega), PciBus.store, hsel, hdword,
      show 2 ^ 32 = 256 ^ 4 from rfl, writeBytes_mod, Nat.add_zero]

/-- The half of a dword that the shift and the mask leave. -/
theorem readBytes_half (m : Nat → Fin 256) (o : Nat) :
    readBytes m (o / 4 * 4) 4 / 2 ^ (o % 4 / 2 * 2 * 8) % 2 ^ 16 = readBytes m (o / 2 * 2) 2 := by
  have h0 := (m (o / 4 * 4)).isLt
  have h1 := (m (o / 4 * 4 + 1)).isLt
  have h2 := (m (o / 4 * 4 + 2)).isLt
  have h3 := (m (o / 4 * 4 + 3)).isLt
  by_cases hlow : o % 4 / 2 = 0
  · have hr : o / 2 * 2 = o / 4 * 4 := by omega
    simp only [hlow, hr, readBytes, Nat.add_zero]
    omega
  · have hr : o / 2 * 2 = o / 4 * 4 + 2 := by omega
    have hshift : o % 4 / 2 = 1 := by omega
    simp only [hshift, hr, readBytes, Nat.add_assoc, Nat.add_zero, Nat.reduceAdd]
    omega

/-- **A read** returns the two bytes at the register, rounded down to even. -/
theorem pciRead_value (hb : b < 256) (hd : d < 32) (hf : f < 8) (ho : o < 256) :
    (pciRead p b d f o).1 = readBytes (p.space ⟨b, d, f⟩) (o / 2 * 2) 2 := by
  obtain ⟨a, hout, he, hsel, hdword⟩ := outl_address p hb hd hf ho
  have h2 := (mask_offset ho).2.2
  simp only [pciRead, hout, PciBus.inl, he, hsel, hdword, h2, true_and, if_true]
  rw [show 0xFFFF = 2 ^ 16 - 1 from rfl, Nat.and_two_pow_sub_one_eq_mod, Nat.shiftRight_eq_div_pow]
  exact readBytes_half _ o

theorem pciRead_space (hb : b < 256) (hd : d < 32) (hf : f < 8) (ho : o < 256) :
    (pciRead p b d f o).2.space = p.space := by
  obtain ⟨a, hout, -⟩ := outl_address p hb hd hf ho
  simp only [pciRead, hout]

end HelixKernel
