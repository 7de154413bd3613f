import HelixKernel.Mm.Pmm
import HelixKernel.Machine.Paging

/-!
# Virtual memory as written (`kernel/src/mm/vmm.cpp`)

Page tables live in the memory the physical allocator manages; the code reaches
them through pointers into the direct map, `pa_to_va(pa)`.  `phys` is what such a
pointer refers to.  The state holds the globals `current_cr3` and `kernel_cr3`;
`invlpg` and the load of CR3 change no memory and are left out. -/

namespace HelixKernel

/-! ## Addresses -/

/-- Where the direct map begins. -/
def directMap : Nat := 0xFFFF800000000000

/-- `va_to_pa` -/
def vaToPa (va : Nat) : Nat := if va ≤ 0x800000000000 then va else sub64 va directMap

/-- `pa_to_va` -/
def paToVa (pa : Nat) : Nat := if pa ≥ directMap then pa else wrap64 (pa + directMap)

/-- The physical address behind a kernel pointer: the direct map, and low memory mapped one
to one. -/
def phys (ptr : Nat) : Nat := if directMap ≤ ptr then ptr - directMap else ptr

/-- `&table[idx]` -/
def entryPtr (table idx : Nat) : Nat := wrap64 (table + 8 * idx)

/-- `PML4_IDX(va)` -/
def pml4Idx (va : Nat) : Nat := va >>> 39 &&& 0x1FF

/-- `PDPT_IDX(va)` -/
def pdptIdx (va : Nat) : Nat := va >>> 30 &&& 0x1FF

/-- `PD_IDX(va)` -/
def pdIdx (va : Nat) : Nat := va >>> 21 &&& 0x1FF

/-- `PT_IDX(va)` -/
def ptIdx (va : Nat) : Nat := va >>> 12 &&& 0x1FF

/-! ## Pointers into the direct map -/

theorem paToVa_of_lt {t : Nat} (ht : t < 2 ^ 47) : paToVa t = t + directMap := by
  unfold paToVa
  rw [if_neg (by unfold directMap; omega), wrap64_of_lt (by unfold directMap; omega)]

theorem phys_paToVa {t : Nat} (ht : t < 2 ^ 47) : phys (paToVa t) = t := by
  rw [paToVa_of_lt ht, phys, if_pos (Nat.le_add_left _ _), Nat.add_sub_cancel]

theorem phys_entry {t : Nat} (ha : t % 4096 = 0) (ht : t < 2 ^ 47) {i : Nat} (hi : i < 512) :
    phys (entryPtr (paToVa t) i) = t + 8 * i := by
  rw [paToVa_of_lt ht, entryPtr, wrap64_of_lt (by unfold directMap; omega), phys,
    if_pos (by omega)]
  omega

theorem paToVa_ne_zero {t : Nat} (ht : t < 2 ^ 47) : paToVa t ≠ 0 := by
  rw [paToVa_of_lt ht]
  unfold directMap
  omega

theorem vaToPa_paToVa {q : Nat} (hq : q < 2 ^ 47) : vaToPa (paToVa q) = q := by
  rw [paToVa_of_lt hq, vaToPa, if_neg (by unfold directMap; omega),
    sub64_of_le (Nat.le_add_left _ _) (by unfold directMap; omega), Nat.add_sub_cancel]

/-- The globals of `vmm.cpp`, over the physical allocator. -/
structure Vmm where
  pmm : Pmm
  currentCr3 : Nat
  kernelCr3 : Nat

namespace Vmm

/-- `mm::vmm::initialise()`, with the CR3 it reads. -/
def initialise (pmm : Pmm) (cr3 : Nat) : Vmm where
  pmm := pmm
  currentCr3 := cr3
  kernelCr3 := cr3

/-- `mm::vmm::alloc(n)` -/
def alloc (s : Vmm) (n : Nat) : Except Fault (Vmm × Nat) := do
  let (pmm, p) ← s.pmm.alloc n
  .ok ({ s with pmm }, paToVa p)

/-- `mm::vmm::free(p, n)` -/
def free (s : Vmm) (p n : Nat) : Except Fault Vmm := do
  let pmm ← s.pmm.free (vaToPa p) n
  .ok { s with pmm }

end Vmm

/-! ## `mm::vmm::mmap` -/

/-- `get_or_create_table(parent, idx, flags)` -/
def getOrCreateTable (s : Pmm) (parent idx flags : Nat) : Except Fault (Pmm × Nat) :=
  let slot := phys (entryPtr parent idx)
  if s.mem.word slot &&& pagePresent = 0 then do
    let (s, page) ← s.alloc 1
    if page = 0 then .ok (s, 0)
    else
      let mem := s.mem.clear .table (phys (paToVa page)) pageSize
      let mem := mem.store .table slot (page ||| pagePresent ||| pageWrite ||| (flags &&& pageUser))
      .ok ({ s with mem }, paToVa (mem.word slot &&& pageAddrMask))
  else .ok (s, paToVa (s.mem.word slot &&& pageAddrMask))

/-- The three calls in the loop of `mmap`: the page table of `va`, or null. -/
def pageTableFor (s : Pmm) (currentCr3 va flags : Nat) : Except Fault (Pmm × Nat) := do
  let (s, pdpt) ← getOrCreateTable s (paToVa currentCr3) (pml4Idx va) flags
  if pdpt = 0 then .ok (s, 0)
  else
    let (s, pd) ← getOrCreateTable s pdpt (pdptIdx va) flags
    if pd = 0 then .ok (s, 0)
    else getOrCreateTable s pd (pdIdx va) flags

/-- `for (i < n; i++, va += PAGE_SIZE, pa += PAGE_SIZE)`: whether it ran to its end. -/
def mmapLoop (currentCr3 flags : Nat) : Nat → Pmm → Nat → Nat → Except Fault (Pmm × Bool)
  | 0, s, _, _ => .ok (s, true)
  | n + 1, s, va, pa => do
    let (s, pt) ← pageTableFor s currentCr3 va flags
    if pt = 0 then .ok (s, false)
    else
      let mem := s.mem.store .table (phys (entryPtr pt (ptIdx va))) (pa ||| flags ||| pagePresent)
      mmapLoop currentCr3 flags n { s with mem } (wrap64 (va + pageSize)) (wrap64 (pa + pageSize))

/-- The flags `mmap` works with: addresses below the canonical boundary are user mappings. -/
def mmapFlags (vaddr flags : Nat) : Nat :=
  if vaddr < 0x800000000000 then flags ||| pageUser else flags

/-- `mm::vmm::mmap(paddr, vaddr, n, flags)` -/
def Vmm.mmap (s : Vmm) (paddr vaddr n flags : Nat) : Except Fault (Vmm × Nat) := do
  let (pmm, done) ← mmapLoop s.currentCr3 (mmapFlags vaddr flags) n s.pmm vaddr paddr
  .ok ({ s with pmm }, if done then vaddr else 0)

/-! ## `mm::vmm::munmap` -/

/-- The loop body of `munmap`, up to `va += PAGE_SIZE`. -/
def munmapBody (currentCr3 : Nat) (m : Mem) (va : Nat) : Mem :=
  let pml4e := m.word (phys (entryPtr (paToVa currentCr3) (pml4Idx va)))
  if pml4e &&& pagePresent = 0 then m
  else
    let pdpte := m.word (phys (entryPtr (paToVa (pml4e &&& pageAddrMask)) (pdptIdx va)))
    if pdpte &&& pagePresent = 0 then m
    else
      let pde := m.word (phys (entryPtr (paToVa (pdpte &&& pageAddrMask)) (pdIdx va)))
      if pde &&& pagePresent = 0 then m
      else m.store .table (phys (entryPtr (paToVa (pde &&& pageAddrMask)) (ptIdx va))) 0

/-- Memory and `va` after at most the given number of rounds of `while (va < end)`. -/
def munmapRun (currentCr3 stop : Nat) : Nat → Mem → Nat → Mem × Nat
  | 0, m, va => (m, va)
  | k + 1, m, va =>
    if va < stop then
      munmapRun currentCr3 stop k (munmapBody currentCr3 m va) (wrap64 (va + pageSize))
    else (m, va)

/-- After `2 ^ 52` rounds `va` is where it was: a loop still running then never ends. -/
def munmapRounds : Nat := 2 ^ 52

namespace Vmm

/-- The state after at most `k` rounds of the loop of `munmap(vaddr, n)`. -/
def munmapFor (k : Nat) (s : Vmm) (vaddr n : Nat) : Vmm :=
  { s with pmm := { s.pmm with
    mem := (munmapRun s.currentCr3 (wrap64 (vaddr + n)) k s.pmm.mem vaddr).1 } }

/-- `mm::vmm::munmap(vaddr, n)` -/
def munmap (s : Vmm) (vaddr n : Nat) : Except Fault Vmm :=
  if (munmapRun s.currentCr3 (wrap64 (vaddr + n)) munmapRounds s.pmm.mem vaddr).2 <
      wrap64 (vaddr + n) then .error .diverges
  else .ok (s.munmapFor munmapRounds vaddr n)

/-- `mm::vmm::get_cr3()` -/
def getCr3 (s : Vmm) : Nat := s.kernelCr3

/-- `mm::vmm::switch_to_new_table(cr3)` -/
def switchToNewTable (s : Vmm) (cr3 : Nat) : Vmm :=
  { s with currentCr3 := if cr3 = 0 then s.kernelCr3 else cr3 }

end Vmm

end HelixKernel
