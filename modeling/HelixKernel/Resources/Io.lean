import HelixKernel.Klibc.VectorList

/-!
# Port ranges and their handles (`kernel/src/resources/io.cpp`)

The registered ranges are the elements of one vector; the handle of a range is the address
of its element.  `IoGood s out`: the ranges in the vector are those of `out`, in some order,
each where its handle points.

    io_handles    the handles are good in every run with at most four ranges at a time of
                  which the last registered goes first, and the next call keeps them good
                  exactly if it is of this kind
    io_wrong_port after the first of three ranges is unmapped, the second handle reaches
                  the ports of the third range -/

namespace HelixKernel

/-- `io_mapping`; the owner is a pointer. -/
structure IoMapping where
  basePort : Nat
  lenPorts : Nat
  owner : Nat
deriving DecidableEq, Repr

/-- Two 16-bit numbers and, aligned, a pointer. -/
def ioType : ElemType IoMapping := ⟨16, ⟨0, 0, 0⟩, by decide⟩

/-- The global `io_mappings`, over the heap. -/
structure Io where
  mem : BlockHeap IoMapping
  mappings : Vec

namespace Io

def init (m : BlockHeap IoMapping) : Io := ⟨m, .empty⟩

/-- `push_back` and `&io_mappings.at(io_mappings.size() - 1)`; `at` loops for ever on a bad
index. -/
def mapIo (s : Io) (base len owner : Nat) : Except HeapFault (Io × Nat) := do
  let (mem, v) ← s.mappings.pushBack ioType s.mem ⟨base, len, owner⟩
  let index := sub64 v.size 1
  if index ≥ v.size then .error .diverges
  else .ok (⟨mem, v⟩, v.iter ioType index)

/-- The loop of `unmap_io` from index `i` on, with `todo` rounds left. -/
def unmapLoop (s : Io) (h : Nat) : Nat → Nat → Except HeapFault Io
  | _, 0 => .ok s
  | i, todo + 1 =>
    if s.mappings.iter ioType i = h then do
      let (mem, v, _) ← s.mappings.erase ioType s.mem (s.mappings.iter ioType i)
      .ok ⟨mem, v⟩
    else unmapLoop s h (i + 1) todo

def unmapIo (s : Io) (h : Nat) : Except HeapFault Io := s.unmapLoop h 0 s.mappings.size

/-- Reading `*h`, a range in the vector's block. -/
def load (s : Io) (h : Nat) : Except HeapFault IoMapping :=
  if s.mappings.iter ioType (s.mappings.index ioType h) = h then
    s.mem.readElem s.mappings.data (s.mappings.index ioType h)
  else .error (.access h)

/-- The port that `uacpi_kernel_io_read*` and `write*` use: `range->base_port + offset`, as
a 16-bit number. -/
def port (s : Io) (h offset : Nat) : Except HeapFault Nat := do
  let range ← s.load h
  .ok ((range.basePort + offset) % 2 ^ 16)

end Io

inductive IoCall where
  | map (base len owner : Nat)
  | unmap (h : Nat)
deriving DecidableEq, Repr

namespace IoCall

/-- The call, and the handle it returns. -/
def run (s : Io) : IoCall → Except HeapFault (Io × Nat)
  | map base len owner => s.mapIo base len owner
  | unmap h => do
    let s ← s.unmapIo h
    .ok (s, 0)

/-- The ranges outstanding after a call that has returned `r`, the last mapped at the end. -/
def apply (out : List (Nat × IoMapping)) (r : Nat) : IoCall → List (Nat × IoMapping)
  | map base len owner => out ++ [(r, ⟨base, len, owner⟩)]
  | unmap h => out.filter fun hr => hr.1 ≠ h

/-- A handle is outstanding; the block `malloc` has for the next growth does not overlap the
one in use. -/
def Valid (s : Io) (out : List (Nat × IoMapping)) : IoCall → Prop
  | map .. => ∀ p ∈ s.mem.supply.head?,
    p + ioType.size * (2 * s.mappings.capacity) ≤ s.mappings.data ∨
      s.mappings.data + ioType.size * s.mappings.capacity ≤ p
  | unmap h => ∃ r, (h, r) ∈ out

/-- At most four ranges are registered, and the last registered goes first. -/
def Stacked (out : List (Nat × IoMapping)) : IoCall → Prop
  | map .. => out.length < 4
  | unmap h => ∃ rest r, out = rest ++ [(h, r)]

end IoCall

/-- **Every handle is bound to its range.** -/
def IoGood (s : Io) (out : List (Nat × IoMapping)) : Prop :=
  ∃ order : List (Nat × IoMapping), order.Perm out ∧
    Owns ioType s.mem s.mappings (order.map Prod.snd) ∧
    ∀ i h r, order[i]? = some (h, r) → h = s.mappings.iter ioType i

/-- Runs of calls that meet `C`. -/
inductive IoReach (C : List (Nat × IoMapping) → IoCall → Prop) :
    Io → List (Nat × IoMapping) → Prop
  | init (m : BlockHeap IoMapping) : IoReach C (.init m) []
  | call {s s' : Io} {out : List (Nat × IoMapping)} {r : Nat} (c : IoCall) (h : IoReach C s out)
      (hv : c.Valid s out) (hc : C out c) (hrun : c.run s = .ok (s', r)) :
      IoReach C s' (c.apply out r)

section

variable {s s' : Io} {out : List (Nat × IoMapping)} {xs : List IoMapping}

/-- The addresses of different elements differ. -/
theorem Owns.iter_inj {α : Type} {t : ElemType α} {m : BlockHeap α} {v : Vec} {ys : List α}
    (h : Owns t m v ys) {i j : Nat} (hi : i ≤ ys.length) (hj : j ≤ ys.length)
    (heq : v.iter t i = v.iter t j) : i = j := by
  rw [← h.index_iter hi, ← h.index_iter hj, heq]

/-- **A good handle** reaches its range and its ports. -/
theorem IoGood.port (h : IoGood s out) {p : Nat} {r : IoMapping} (hp : (p, r) ∈ out)
    (offset : Nat) : s.load p = .ok r ∧ s.port p offset = .ok ((r.basePort + offset) % 2 ^ 16) := by
  obtain ⟨order, hperm, ho, hat⟩ := h
  obtain ⟨i, hi⟩ := List.getElem?_of_mem (hperm.mem_iff.mpr hp)
  have hlt : i < (order.map Prod.snd).length := by
    rw [List.length_map]
    exact (List.getElem?_eq_some_iff.mp hi).1
  have hidx := ho.index_iter (Nat.le_of_lt hlt)
  rw [← hat i p r hi] at hidx
  have hload : s.load p = .ok r := by
    unfold Io.load
    rw [hidx, if_pos (hat i p r hi).symm]
    have hle := ho.length_le
    obtain ⟨b, hb, hcells⟩ := ho.storage
    apply BlockHeap.readElem_of_block (hb.block (hb.data_ne (i := i) (by omega)))
    · rw [hb.length]
      omega
    · rw [hcells i hlt, List.getElem?_map, hi]
      rfl
  exact ⟨hload, by simp [Io.port, hload]⟩

/-- The loop of `unmap_io` erases the element the handle points at. -/
theorem unmapLoop_spec (ho : Owns ioType s.mem s.mappings xs) {k : Nat} (hk : k < xs.length)
    {i todo : Nat} (hi : i ≤ k) (htodo : i + todo = xs.length) :
    s.unmapLoop (s.mappings.iter ioType k) i todo =
      (s.mappings.erase ioType s.mem (s.mappings.iter ioType k) >>= fun r => .ok ⟨r.1, r.2.1⟩) := by
  induction todo generalizing i with
  | zero => omega
  | succ todo ih =>
    rw [Io.unmapLoop]
    by_cases hik : i = k
    · subst hik
      rw [if_pos rfl]
    · have hne : s.mappings.iter ioType i ≠ s.mappings.iter ioType k := fun heq =>
        hik (ho.iter_inj (by omega) (by omega) heq)
      rw [if_neg hne]
      exact ih (by omega) (by omega)

/-- What `unmap_io` leaves. -/
theorem unmapIo_spec (ho : Owns ioType s.mem s.mappings xs) {k : Nat} (hk : k < xs.length) :
    Runs (fun s' => Owns ioType s'.mem s'.mappings (xs.take k ++ xs.drop (k + 1)) ∧
      s'.mappings.data = s.mappings.data ∧ s'.mappings.capacity = s.mappings.capacity)
      (s.unmapIo (s.mappings.iter ioType k)) := by
  rw [Io.unmapIo, ho.size, unmapLoop_spec ho hk (by omega) (by omega)]
  have herase := ho.eraseRange (show k ≤ k + 1 by omega) hk
  rw [← ho.erase_eq hk] at herase
  refine Runs.bind (herase.and_ok fun r hr => Owns.erase_ok hr) fun r hr => ?_
  exact ⟨hr.1.1.1, hr.2⟩

/-- What `map_io` leaves. -/
theorem mapIo_spec (ho : Owns ioType s.mem s.mappings xs)
    (hfit : ioType.size * (xs.length + 1) < 2 ^ 64) (base len owner : Nat) :
    Runs (fun r => Owns ioType r.1.mem r.1.mappings (xs ++ [⟨base, len, owner⟩]) ∧
      r.2 = r.1.mappings.iter ioType xs.length ∧
      s.mappings.pushBack ioType s.mem ⟨base, len, owner⟩ = .ok (r.1.mem, r.1.mappings))
      (s.mapIo base len owner) := by
  have hlt := lt_of_fits ioType hfit
  unfold Io.mapIo
  refine Runs.bind ((ho.pushBack hfit ⟨base, len, owner⟩).and_ok fun r hr => hr) ?_
  rintro ⟨mem, v⟩ ⟨⟨hv, -⟩, hpush⟩
  have hsize : v.size = xs.length + 1 := by
    rw [hv.size, List.length_append, List.length_singleton]
  have hindex : sub64 v.size 1 = xs.length := by
    rw [sub64_of_le (by omega) (by omega)]
    omega
  simp only [hindex]
  rw [if_neg (by omega)]
  exact ⟨hv, rfl, hpush⟩

/-- **The invariant of the good runs**: the ranges are in the order in which they were
registered, in a block of four that was allocated with the first. -/
structure IoInv (s : Io) (out : List (Nat × IoMapping)) : Prop where
  owns : Owns ioType s.mem s.mappings (out.map Prod.snd)
  handle : ∀ i h r, out[i]? = some (h, r) → h = s.mappings.iter ioType i
  capacity : s.mappings.capacity = 0 ∨ s.mappings.capacity = 4

theorem iter_congr {v v' : Vec} (hdata : v'.data = v.data) (i : Nat) :
    v'.iter ioType i = v.iter ioType i := by
  rw [Vec.iter, Vec.iter, hdata]

/-- A handle that is good after the block has stayed where it was. -/
theorem IoGood.lt_size (h : IoGood s' out) (ho : Owns ioType s.mem s.mappings xs)
    (hdata : s'.mappings.data = s.mappings.data) (hlen : out.length ≤ xs.length) {k : Nat}
    (hk : k ≤ xs.length) {r : IoMapping} (hmem : (s.mappings.iter ioType k, r) ∈ out) :
    k < out.length := by
  obtain ⟨order, hperm, -, hat⟩ := h
  obtain ⟨i, hi⟩ := List.getElem?_of_mem (hperm.mem_iff.mpr hmem)
  have hlt : i < out.length := by
    rw [← hperm.length_eq]
    exact (List.getElem?_eq_some_iff.mp hi).1
  have heq := hat i _ r hi
  rw [iter_congr hdata] at heq
  rwa [ho.iter_inj hk (by omega) heq]

namespace IoInv

theorem good (h : IoInv s out) : IoGood s out := ⟨out, .refl out, h.owns, h.handle⟩

theorem length_le (h : IoInv s out) : out.length ≤ s.mappings.capacity := by
  have := h.owns.length_le
  rwa [List.length_map] at this

theorem init (m : BlockHeap IoMapping) : IoInv (.init m) [] := by
  refine ⟨owns_empty ioType m, fun i h r hi => ?_, .inl rfl⟩
  rw [List.getElem?_nil] at hi
  cases hi

/-- The handles are different, so that those of a list of ranges stand for its positions. -/
theorem mem_at (h : IoInv s out) {p : Nat} {r : IoMapping} (hp : (p, r) ∈ out) :
    ∃ k, k < out.length ∧ out[k]? = some (p, r) ∧ p = s.mappings.iter ioType k := by
  obtain ⟨k, hk⟩ := List.getElem?_of_mem hp
  exact ⟨k, (List.getElem?_eq_some_iff.mp hk).1, hk, h.handle k p r hk⟩

theorem inj (h : IoInv s out) {i j : Nat} (hi : i < out.length) (hj : j < out.length)
    (heq : s.mappings.iter ioType i = s.mappings.iter ioType j) : i = j := by
  apply h.owns.iter_inj _ _ heq
  · rw [List.length_map]
    omega
  · rw [List.length_map]
    omega

/-- One more range, where there is room for it or no block yet. -/
theorem map (h : IoInv s out) (hroom : out.length < 4) {base len owner : Nat} {r : Nat}
    (ho : Owns ioType s'.mem s'.mappings (out.map Prod.snd ++ [⟨base, len, owner⟩]))
    (hr : r = s'.mappings.iter ioType out.length)
    (hpush : s.mappings.pushBack ioType s.mem ⟨base, len, owner⟩ = .ok (s'.mem, s'.mappings)) :
    IoInv s' (out ++ [(r, ⟨base, len, owner⟩)]) := by
  have hsize : s.mappings.size = out.length := by
    rw [h.owns.size, List.length_map]
  have hle := h.length_le
  have hkeep : (∀ i < out.length, s'.mappings.iter ioType i = s.mappings.iter ioType i) ∧
      s'.mappings.capacity = 4 := by
    rcases h.capacity with hcap | hcap
    · obtain ⟨-, twice, htwice, hcap'⟩ := Owns.pushBack_of_full hpush (by omega)
      rw [if_neg (by omega)] at htwice
      rw [hsize, wrap64_of_lt (by omega), if_neg (by omega)] at hcap'
      exact ⟨fun i hi => by omega, by rw [hcap', htwice]⟩
    · obtain ⟨hdata, hcap'⟩ := Owns.pushBack_of_room hpush (by omega)
      exact ⟨fun i _ => iter_congr hdata i, hcap'.trans hcap⟩
  refine ⟨?_, fun i p q hi => ?_, .inr hkeep.2⟩
  · rw [List.map_append]
    exact ho
  · by_cases hlt : i < out.length
    · rw [List.getElem?_append_left hlt] at hi
      rw [hkeep.1 i hlt]
      exact h.handle i p q hi
    · have hbound := (List.getElem?_eq_some_iff.mp hi).1
      rw [List.length_append, List.length_singleton] at hbound
      obtain rfl : i = out.length := by omega
      rw [List.getElem?_append_right (Nat.le_refl _), Nat.sub_self, List.getElem?_cons_zero,
        Option.some.injEq, Prod.mk.injEq] at hi
      rw [← hi.1, hr]

/-- The fifth range moves the elements to another block, and the handles stay behind. -/
theorem not_good_of_full (h : IoInv s out) (hfull : ¬ out.length < 4) {base len owner : Nat}
    {r : Nat} (hv : (IoCall.map base len owner).Valid s out)
    (hpush : s.mappings.pushBack ioType s.mem ⟨base, len, owner⟩ = .ok (s'.mem, s'.mappings)) :
    ¬ IoGood s' (out ++ [(r, ⟨base, len, owner⟩)]) := by
  have hle := h.length_le
  have hcap : s.mappings.capacity = 4 := by
    rcases h.capacity with hcap | hcap <;> omega
  have hsize : s.mappings.size = out.length := by
    rw [h.owns.size, List.length_map]
  obtain ⟨⟨rest, hsupply⟩, twice, htwice, hcap'⟩ := Owns.pushBack_of_full hpush (by omega)
  rw [if_pos (by omega), hcap, wrap64_of_lt (by omega)] at htwice
  rw [hsize, wrap64_of_lt (by omega), if_neg (by omega), htwice] at hcap'
  change s'.mappings.capacity = 4 * 2 at hcap'
  have hapart := hv s'.mappings.data (by rw [hsupply]; rfl)
  rw [hcap] at hapart
  rintro ⟨order, hperm, ho, hat⟩
  -- the handle of the first range is the old block's address
  obtain ⟨⟨p, q⟩, hp⟩ : ∃ x, out[0]? = some x := ⟨_, List.getElem?_eq_getElem (by omega)⟩
  obtain ⟨b, hb, -⟩ := h.owns.storage
  have hold : p = s.mappings.data := by
    rw [h.handle 0 p q hp, hb.iter_eq (Nat.zero_le _), Nat.mul_zero, Nat.add_zero]
  have hmem : (p, q) ∈ order :=
    hperm.mem_iff.mpr (List.mem_append_left _ (List.mem_of_getElem? hp))
  obtain ⟨i, hi⟩ := List.getElem?_of_mem hmem
  have hlt : i < out.length + 1 := by
    have hbound := (List.getElem?_eq_some_iff.mp hi).1
    rwa [hperm.length_eq, List.length_append, List.length_singleton] at hbound
  obtain ⟨b', hb', -⟩ := ho.storage
  have hnew := hat i p q hi
  rw [hb'.iter_eq (by omega), hold] at hnew
  simp only [ioType] at hapart hnew
  omega

/-- The last range goes; the others stay where they are. -/
theorem unmap_last {rest : List (Nat × IoMapping)} {p : Nat} {r : IoMapping}
    (h : IoInv s (rest ++ [(p, r)]))
    (ho : Owns ioType s'.mem s'.mappings (((rest ++ [(p, r)]).map Prod.snd).take rest.length ++
      ((rest ++ [(p, r)]).map Prod.snd).drop (rest.length + 1)))
    (hdata : s'.mappings.data = s.mappings.data)
    (hcap : s'.mappings.capacity = s.mappings.capacity) :
    IoInv s' ((IoCall.unmap p).apply (rest ++ [(p, r)]) 0) := by
  have hlast := h.handle rest.length p r (by simp)
  have hfilter : (IoCall.unmap p).apply (rest ++ [(p, r)]) 0 = rest := by
    have hne : ∀ x ∈ rest, x.1 ≠ p := by
      rintro ⟨q, r'⟩ hx heq
      obtain ⟨i, hi⟩ := List.getElem?_of_mem hx
      have hlt := (List.getElem?_eq_some_iff.mp hi).1
      have hi' := h.handle i q r' (by rw [List.getElem?_append_left hlt, hi])
      have := h.inj (by simp; omega) (by simp) (hi'.symm.trans (heq.trans hlast))
      omega
    simpa [IoCall.apply] using hne
  rw [List.drop_eq_nil_of_le (by simp), List.append_nil] at ho
  rw [hfilter]
  refine ⟨by simpa using ho, fun i q r' hi => ?_, by rw [hcap]; exact h.capacity⟩
  rw [iter_congr hdata]
  exact h.handle i q r' (by rw [List.getElem?_append_left (List.getElem?_eq_some_iff.mp hi).1, hi])

/-- A range below another: the others move up, and the last handle is left without one. -/
theorem not_good_of_below (h : IoInv s out) {k : Nat} {p : Nat} (hk : k + 1 < out.length)
    (hp : p = s.mappings.iter ioType k) (hdata : s'.mappings.data = s.mappings.data) :
    ¬ IoGood s' ((IoCall.unmap p).apply out 0) := by
  intro hgood
  obtain ⟨⟨q, r⟩, hq⟩ : ∃ x, out[out.length - 1]? = some x :=
    ⟨_, List.getElem?_eq_getElem (by omega)⟩
  have hat := h.handle _ q r hq
  have hmem : (q, r) ∈ (IoCall.unmap p).apply out 0 := by
    refine List.mem_filter.mpr ⟨List.mem_of_getElem? hq, ?_⟩
    have hne : q ≠ p := by
      intro heq
      have := h.inj (by omega) (by omega) (hat.symm.trans (heq.trans hp))
      omega
    simpa using hne
  have hshort : ((IoCall.unmap p).apply out 0).length < out.length := by
    obtain ⟨⟨q', r'⟩, hq'⟩ : ∃ x, out[k]? = some x := ⟨_, List.getElem?_eq_getElem (by omega)⟩
    refine List.length_filter_lt_length_iff_exists.mpr ⟨_, List.mem_of_getElem? hq', ?_⟩
    simpa [hp] using h.handle k q' r' hq'
  rw [hat] at hmem
  have hlen : (out.map Prod.snd).length = out.length := List.length_map _
  have := hgood.lt_size h.owns hdata (by omega) (by omega) hmem
  omega

/-- **One call**: the invariant is kept exactly by the calls that go by the stack. -/
theorem step (h : IoInv s out) {c : IoCall} (hv : c.Valid s out) :
    Runs (fun r => (c.Stacked out → IoInv r.1 (c.apply out r.2)) ∧
      (¬ c.Stacked out → ¬ IoGood r.1 (c.apply out r.2))) (c.run s) := by
  have hle := h.length_le
  have hcap : s.mappings.capacity ≤ 4 := by
    rcases h.capacity with hcap | hcap <;> omega
  cases c with
  | map base len owner =>
    refine (mapIo_spec h.owns ?_ base len owner).mono ?_
    · rw [List.length_map, ioType]
      simp only
      omega
    · rintro ⟨s', r⟩ ⟨ho, hr, hpush⟩
      rw [List.length_map] at hr
      exact ⟨fun hroom => h.map hroom ho hr hpush, fun hfull => h.not_good_of_full hfull hv hpush⟩
  | unmap p =>
    obtain ⟨q, hq⟩ := hv
    obtain ⟨k, hk, hget, rfl⟩ := h.mem_at hq
    refine Runs.bind (unmapIo_spec (k := k) h.owns (by rwa [List.length_map])) ?_
    rintro s' ⟨ho, hdata, hcap'⟩
    refine ⟨?_, fun hbelow => h.not_good_of_below ?_ rfl hdata⟩
    · rintro ⟨rest, r, rfl⟩
      have hlast := h.handle rest.length (s.mappings.iter ioType k) r (by simp)
      obtain rfl : k = rest.length := h.inj hk (by simp) hlast
      exact h.unmap_last ho hdata hcap'
    · by_contra hend
      obtain ⟨hlt, hget⟩ := List.getElem?_eq_some_iff.mp hget
      have hsplit := List.take_append_drop k out
      rw [List.drop_eq_getElem_cons hlt, hget, List.drop_eq_nil_of_le (by omega)] at hsplit
      exact hbelow ⟨out.take k, q, hsplit.symm⟩

end IoInv

theorem IoReach.inv (h : IoReach IoCall.Stacked s out) : IoInv s out := by
  induction h with
  | init m => exact .init m
  | call c h hv hc hrun ih => exact ((ih.step hv).of_ok hrun).1 hc

/-- **Port range handles.**  As long as no more than four ranges are registered and they are
unmapped in the reverse order, the handles denote their ranges.  From there a call keeps
this exactly if it goes on so, and no call faults or loops. -/
theorem io_handles (h : IoReach IoCall.Stacked s out) :
    IoGood s out ∧
      (∀ p r, (p, r) ∈ out → ∀ offset,
        s.load p = .ok r ∧ s.port p offset = .ok ((r.basePort + offset) % 2 ^ 16)) ∧
      ∀ c : IoCall, c.Valid s out →
        Runs (fun r => IoGood r.1 (c.apply out r.2) ↔ c.Stacked out) (c.run s) := by
  have hinv := h.inv
  refine ⟨hinv.good, fun p r hp offset => hinv.good.port hp offset, fun c hv => ?_⟩
  refine (hinv.step hv).mono fun r hr => ⟨fun hgood => ?_, fun hc => (hr.1 hc).good⟩
  by_contra hc
  exact hr.2 hc hgood

end

/-- `malloc` has one block, at `0x1000`: the keyboard's ports stay reachable while those of the
serial line come and go. -/
theorem io_handles_keyboard : ∃ s out, IoReach IoCall.Stacked s out ∧
    (0x1000, ⟨0x60, 5, 0⟩) ∈ out ∧ out.length = 1 ∧ s.port 0x1000 4 = .ok 0x64 := by
  have h1 : IoReach IoCall.Stacked _ _ := .call (.map 0x60 5 0) (.init ⟨.empty, [0x1000]⟩)
    (fun p hp => .inr (by simp [Io.init, Vec.empty])) (Nat.zero_lt_succ 3) rfl
  have h2 : IoReach IoCall.Stacked _ _ := .call (.map 0x3F8 8 0) h1
    (fun p hp => by cases hp) (Nat.one_lt_succ_succ 2) rfl
  have h3 : IoReach IoCall.Stacked _ _ := .call (.unmap 0x1010) h2
    ⟨⟨0x3F8, 8, 0⟩, by decide⟩ ⟨[_], _, rfl⟩ rfl
  exact ⟨_, _, h3, by decide, by decide, ((io_handles h3).2.1 0x1000 ⟨0x60, 5, 0⟩ (by decide) 4).2⟩

/-- **The wrong ports.**  Once the first of three ranges is unmapped, the handle of the
second reaches the third. -/
theorem io_wrong_port : ∃ s out, IoReach (fun _ _ => True) s out ∧
    (0x1010, ⟨0x70, 2, 0⟩) ∈ out ∧ s.port 0x1010 0 = .ok 0x3F8 := by
  have h1 : IoReach (fun _ _ => True) _ _ := .call (.map 0x60 5 0) (.init ⟨.empty, [0x1000]⟩)
    (fun p hp => .inr (by simp [Io.init, Vec.empty])) trivial rfl
  have h2 : IoReach (fun _ _ => True) _ _ := .call (.map 0x70 2 0) h1
    (fun p hp => by cases hp) trivial rfl
  have h3 : IoReach (fun _ _ => True) _ _ := .call (.map 0x3F8 8 0) h2
    (fun p hp => by cases hp) trivial rfl
  have h4 : IoReach (fun _ _ => True) _ _ := .call (.unmap 0x1000) h3
    ⟨⟨0x60, 5, 0⟩, by decide⟩ trivial rfl
  exact ⟨_, _, h4, by decide, rfl⟩

end HelixKernel
