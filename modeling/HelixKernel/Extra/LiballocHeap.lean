import HelixKernel.Extra.Arenas
import Mathlib.Data.Finset.Insert
import Mathlib.Data.List.Chain
import Mathlib.Data.List.Perm.Basic

/-!
# The invariant of the heap

`LiballocInv a As bins S out`: the arenas `As` are apart, each filled by its tags, with no two free ones
side by side, and each free one on the list of its size; `l_completePages` counts the arenas that are one free tag, at most five for each list;
the page provider has been given back exactly what is no longer held; and the blocks `out` are those
of the used tags, except that those in `S` are nobody's.

`malloc` and `free` are sequences of a few steps, each of which keeps it:

    detach    a free tag leaves its list
    adopt     a tag of nobody becomes a block
    split     a used tag is cut in two
    stretch   two used neighbours become one tag
    attach    a tag of nobody, between used ones, is put on a list
    open      the page provider gives an arena
    release   it gets one back -/

namespace HelixKernel

/-- A tag of one of the arenas. -/
def Live (As : List Arena) (t : Nat) : Prop := ∃ A ∈ As, t ∈ A.tags

/-- The arena is one tag, and this is on list `i`. -/
def Arena.whole (a : TagHeap) (i : Nat) (A : Arena) : Bool :=
  A.tags.length == 1 && A.tags.all fun t => a.field t .index == i

/-- After these calls of the page provider, each made with what it had given, these are held. -/
inductive HeldPages : List PageCall → List (Nat × Nat) → Prop
  | nil : HeldPages [] []
  | alloc {calls : List PageCall} {held : List (Nat × Nat)} (h : HeldPages calls held) (p n : Nat) :
      HeldPages (.alloc p n :: calls) ((p, n) :: held)
  | free {calls : List PageCall} {held : List (Nat × Nat)} {p n : Nat} (h : HeldPages calls held)
      (hp : (p, n) ∈ held) : HeldPages (.free p n :: calls) (held.erase (p, n))

/-- The blocks that clients have: those of the used tags outside `S`. -/
structure Blocks (a : TagHeap) (As : List Arena) (S : List Nat) (out : Finset (Nat × Nat)) : Prop where
  mem : ∀ p n, (p, n) ∈ out ↔ ∃ t, Live As t ∧ a.field t .index = noIndex ∧ t ∉ S ∧
    p = t + tagSize ∧ n = a.field t .size
  fits : ∀ t, Live As t → a.field t .index = noIndex → t ∉ S →
    a.field t .size + tagSize ≤ a.field t .realSize

def Arena.Separate (A B : Arena) : Prop := A.stop ≤ B.start ∨ B.stop ≤ A.start

structure LiballocInv (a : TagHeap) (As : List Arena) (bins : Nat → List Nat) (S : List Nat)
    (out : Finset (Nat × Nat)) : Prop where
  ok : ∀ A ∈ As, A.Ok a
  pages : ∀ A ∈ As, lPageCount ≤ A.pages
  below : ∀ A ∈ As, A.stop < 2 ^ 32
  apart : As.Pairwise Arena.Separate
  melted : ∀ A ∈ As, A.Melted a
  magic : ∀ t, Live As t → a.field t .magic = liballocMagic
  binned : Binned a (Live As) bins
  sorted : ∀ t, Live As t → a.field t .index ≠ noIndex →
    a.field t .index = listIndex (a.field t .realSize - tagSize)
  count : ∀ i < maxExp, a.completePages i = (As.countP (Arena.whole a i) : Nat)
  kept : ∀ i < maxExp, a.completePages i ≤ maxComplete
  held : ∃ held, HeldPages a.calls held ∧ held.Perm (As.map fun A => (A.start, A.pages))
  blocks : Blocks a As S out

namespace TagHeap

variable (a : TagHeap) (A : Arena) (t i : Nat)

/-- `remove_tag`, and an arena less is kept if the tag is all of `A`. -/
def detach : TagHeap :=
  if A.tags.length = 1 then (a.remove t).addComplete (a.field t .index) (-1) else a.remove t

/-- `insert_tag`, and an arena more is kept if the tag is all of `A`. -/
def attach : TagHeap :=
  if A.tags.length = 1 then (a.addComplete i 1).insert t i else a.insert t i

theorem field_detach : (a.detach A t).field = (a.remove t).field := by
  unfold detach
  split <;> rfl

theorem completePages_detach : (a.detach A t).completePages = if A.tags.length = 1
    then Function.update a.completePages (a.field t .index) (a.completePages (a.field t .index) + -1)
    else a.completePages := by
  unfold detach
  split
  · simp [addComplete]
  · simp

theorem calls_detach : (a.detach A t).calls = a.calls := by
  unfold detach
  split
  · simp [addComplete]
  · simp

theorem freePages_detach : (a.detach A t).freePages = (a.remove t).freePages := by
  unfold detach
  split <;> rfl

theorem field_attach : (a.attach A t i).field = (a.insert t i).field := by
  unfold attach insert addComplete
  split
  · dsimp only
    split <;> rfl
  · rfl

theorem completePages_attach : (a.attach A t i).completePages = if A.tags.length = 1
    then Function.update a.completePages i (a.completePages i + 1) else a.completePages := by
  unfold attach
  split <;> simp [addComplete]

theorem calls_attach : (a.attach A t i).calls = a.calls := by
  unfold attach
  split <;> simp [addComplete]

theorem freePages_attach : (a.attach A t i).freePages = (a.insert t i).freePages := by
  unfold attach
  split <;> simp [freePages_insert, addComplete]

end TagHeap

/-- Whether an arena is one tag of a list depends on the index of its tags only. -/
theorem whole_congr {a a' : TagHeap} {A : Arena}
    (h : ∀ t ∈ A.tags, a'.field t .index = a.field t .index) (i : Nat) :
    A.whole a' i = A.whole a i := by
  rw [Bool.eq_iff_iff]
  simp only [Arena.whole, Bool.and_eq_true, List.all_eq_true]
  refine and_congr_right fun _ => forall₂_congr fun t ht => ?_
  rw [h t ht]

theorem whole_single {A : Arena} {t : Nat} (h : A.tags = [t]) (a : TagHeap) (i : Nat) :
    A.whole a i = (a.field t .index == i) := by
  simp [Arena.whole, h]

theorem not_whole_of_used {a : TagHeap} {A : Arena} {t i : Nat} (ht : t ∈ A.tags)
    (hn : a.field t .index = noIndex) (hi : i < maxExp) : A.whole a i = false := by
  refine Bool.eq_false_iff.mpr fun hw => ?_
  simp only [Arena.whole, Bool.and_eq_true, List.all_eq_true, beq_iff_eq] at hw
  exact ne_noIndex hi ((hw.2 t ht).symm.trans hn)

theorem not_whole {A : Arena} (h : A.tags.length ≠ 1) (a : TagHeap) (i : Nat) :
    A.whole a i = false := by
  simp [Arena.whole, h]

theorem live_cons {A : Arena} {rest : List Arena} {t : Nat} :
    Live (A :: rest) t ↔ t ∈ A.tags ∨ Live rest t := by
  simp [Live]

theorem live_perm {As As' : List Arena} (h : As.Perm As') (t : Nat) : Live As t ↔ Live As' t := by
  simp only [Live, h.mem_iff]

theorem Arena.Separate.symm {A B : Arena} (h : A.Separate B) : B.Separate A := Or.symm h

namespace LiballocInv

variable {a a' : TagHeap} {As rest : List Arena} {A B : Arena} {bins : Nat → List Nat}
  {S : List Nat} {out : Finset (Nat × Nat)} {t u i n start pages : Nat} {l1 l2 : List Nat}

/-- The order of the arenas does not matter. -/
theorem perm {As' : List Arena} (h : LiballocInv a As bins S out) (hp : As.Perm As') :
    LiballocInv a As' bins S out where
  ok A hA := h.ok A (hp.mem_iff.mpr hA)
  pages A hA := h.pages A (hp.mem_iff.mpr hA)
  below A hA := h.below A (hp.mem_iff.mpr hA)
  apart := hp.pairwise h.apart Arena.Separate.symm
  melted A hA := h.melted A (hp.mem_iff.mpr hA)
  magic t ht := h.magic t ((live_perm hp t).mpr ht)
  binned := by
    rw [show Live As' = Live As from funext fun t => propext (live_perm hp t).symm]
    exact h.binned
  sorted t ht := h.sorted t ((live_perm hp t).mpr ht)
  count i hi := by rw [h.count i hi, hp.countP_eq]
  kept := h.kept
  held := by
    obtain ⟨held, hheld, hperm⟩ := h.held
    exact ⟨held, hheld, hperm.trans (hp.map _)⟩
  blocks := ⟨fun p n => by simp only [h.blocks.mem, live_perm hp],
    fun t ht => h.blocks.fits t ((live_perm hp t).mpr ht)⟩

theorem head_live (ht : t ∈ A.tags) : Live (A :: rest) t := ⟨A, List.mem_cons_self, ht⟩

theorem tag_bounds (h : LiballocInv a As bins S out) (hA : A ∈ As) (ht : t ∈ A.tags) :
    A.start ≤ t ∧ t + a.field t .realSize ≤ A.stop ∧ tagSize ≤ a.field t .realSize :=
  ⟨((h.ok A hA).tiles.mem ht).1, ((h.ok A hA).tiles.mem ht).2.2, (h.ok A hA).roomy t ht⟩

/-- A tag is in one arena only. -/
theorem not_mem_rest (h : LiballocInv a (A :: rest) bins S out) (ht : t ∈ A.tags) :
    ¬ Live rest t := by
  rintro ⟨B, hB, htB⟩
  have hA := h.tag_bounds List.mem_cons_self ht
  have hB' := h.tag_bounds (.tail A hB) htB
  have hsep := (List.pairwise_cons.mp h.apart).1 B hB
  unfold Arena.Separate at hsep
  unfold tagSize at hA
  omega

/-- Two tags are one, or each lies wholly before or behind the other. -/
theorem tags_apart (h : LiballocInv a As bins S out) (ht : Live As t) (hu : Live As u) :
    t = u ∨ t + a.field t .realSize ≤ u ∨ u + a.field u .realSize ≤ t := by
  obtain ⟨A, hA, htA⟩ := ht
  obtain ⟨B, hB, huB⟩ := hu
  by_cases hAB : A = B
  · subst hAB
    exact (h.ok A hA).tiles.apart htA huB
  · have hB' : B ∈ As.erase A := (List.mem_erase_of_ne (Ne.symm hAB)).mpr hB
    have hsep := (List.pairwise_cons.mp (h.perm (List.perm_cons_erase hA)).apart).1 B hB'
    have hbt := h.tag_bounds hA htA
    have hbu := h.tag_bounds hB huB
    unfold Arena.Separate at hsep
    omega

/-- **Frame.**  Of the live tags at most the sizes change. -/
theorem congr {S' : List Nat} {out' : Finset (Nat × Nat)} (h : LiballocInv a As bins S out)
    (he : ∀ t, Live As t → ∀ g, g ≠ .size → a'.field t g = a.field t g)
    (hh : a'.freePages = a.freePages) (hc : a'.completePages = a.completePages)
    (hl : a'.calls = a.calls) (hb : Blocks a' As S' out') : LiballocInv a' As bins S' out' where
  ok A hA := (h.ok A hA).congr fun t ht g hg => he t ⟨A, hA, ht⟩ g (by
    rintro rfl
    cases hg)
  pages := h.pages
  below := h.below
  apart := h.apart
  melted A hA := (h.melted A hA).imp_of_mem_imp fun t u ht hu htu => by
    rwa [he t ⟨A, hA, ht⟩ _ (by decide), he u ⟨A, hA, hu⟩ _ (by decide)]
  magic t ht := (he t ht _ (by decide)).trans (h.magic t ht)
  binned := h.binned.congr hh
    (fun t ht _ => ⟨ht, fun g hg => he t ht g (by
      rintro rfl
      cases hg)⟩)
    (fun t ht _ => ⟨ht, (he t ht _ (by decide)).symm⟩) fun t ht hn => by
      rw [he t ht _ (by decide), he t ht _ (by decide)]
      exact h.binned.used t ht ((he t ht _ (by decide)).symm.trans hn)
  sorted t ht := by
    rw [he t ht _ (by decide), he t ht _ (by decide)]
    exact h.sorted t ht
  count i hi := by
    rw [hc, h.count i hi]
    congr 1
    refine List.countP_congr fun A hA => ?_
    rw [whole_congr fun t ht => he t ⟨A, hA, ht⟩ .index (by decide)]
  kept i hi := hc ▸ h.kept i hi
  held := hl ▸ h.held
  blocks := hb

/-- The tags in `S` that are gone or on a list again need not be named. -/
theorem settle (h : LiballocInv a As bins S out)
    (hS : ∀ t ∈ S, Live As t → a.field t .index ≠ noIndex) : LiballocInv a As bins [] out :=
  { h with
    blocks := ⟨fun p n => by
        rw [h.blocks.mem]
        refine exists_congr fun t => and_congr_right fun ht => and_congr_right fun hn => ?_
        have htS : t ∉ S := fun hm => hS t hm ht hn
        simp [htS],
      fun t ht hn _ => h.blocks.fits t ht hn fun hm => hS t hm ht hn⟩ }

/-! ## Blocks -/

/-- A used tag's block is nobody's any more. -/
theorem disown (h : LiballocInv a As bins [] out) (ht : Live As t) (hn : a.field t .index = noIndex) :
    LiballocInv a As bins [t] (out.erase (t + tagSize, a.field t .size)) :=
  { h with
    blocks := by
      refine ⟨fun p n => ?_, fun u hu hnu hS => h.blocks.fits u hu hnu List.not_mem_nil⟩
      rw [Finset.mem_erase, h.blocks.mem]
      constructor
      · rintro ⟨hne, u, hu, hnu, -, rfl, rfl⟩
        refine ⟨u, hu, hnu, ?_, rfl, rfl⟩
        rintro hut
        obtain rfl := List.mem_singleton.mp hut
        exact hne rfl
      · rintro ⟨u, hu, hnu, hS, rfl, rfl⟩
        refine ⟨fun he => hS ?_, u, hu, hnu, List.not_mem_nil, rfl, rfl⟩
        have hut := congrArg Prod.fst he
        simp only [Nat.add_right_cancel_iff] at hut
        exact List.mem_singleton.mpr hut }

/-- `tag->size = n` -/
theorem adopt (h : LiballocInv a As bins (t :: S) out) (ht : Live As t) (htS : t ∉ S)
    (hn : a.field t .index = noIndex) (hfits : n + tagSize ≤ a.field t .realSize) :
    LiballocInv (a.set t .size n) As bins S (insert (t + tagSize, n) out) := by
  have hother : ∀ {g : TagField} (u : Nat), g ≠ .size → (a.set t .size n).field u g = a.field u g :=
    fun u hg => a.field_set_field hg t n u
  refine h.congr (fun u _ g hg => hother u hg) rfl rfl rfl ⟨fun p m => ?_, fun u hu hnu hS => ?_⟩
  · rw [Finset.mem_insert, h.blocks.mem]
    constructor
    · rintro (he | ⟨u, hu, hnu, hS, rfl, rfl⟩)
      · obtain ⟨rfl, rfl⟩ := Prod.mk.inj he
        exact ⟨t, ht, (hother t (by decide)).trans hn, htS, rfl, by simp⟩
      · have hut : u ≠ t := fun hut => hS (hut ▸ List.mem_cons_self)
        exact ⟨u, hu, (hother u (by decide)).trans hnu, fun hm => hS (.tail t hm), rfl,
          (a.field_set_tag hut _ _ _).symm⟩
    · rintro ⟨u, hu, hnu, hS, rfl, rfl⟩
      rw [hother u (by decide)] at hnu
      by_cases hut : u = t
      · subst hut
        exact .inl (by simp)
      · refine .inr ⟨u, hu, hnu, fun hm => ?_, rfl, a.field_set_tag hut _ _ _⟩
        cases hm with
        | head => exact hut rfl
        | tail _ hm => exact hS hm
  · rw [hother u (by decide)] at hnu
    rw [hother (g := .realSize) u (by decide)]
    by_cases hut : u = t
    · subst hut
      simpa using hfits
    · rw [a.field_set_tag hut]
      refine h.blocks.fits u hu hnu fun hm => ?_
      cases hm with
      | head => exact hut rfl
      | tail _ hm => exact hS hm

/-! ## Lists -/

theorem detach (h : LiballocInv a (A :: rest) bins S out) (ht : t ∈ A.tags) (hidx : a.field t .index = i)
    (hi : i < maxExp) :
    ∃ bins', LiballocInv (a.detach A t) (A :: rest) bins' (t :: S) out := by
  obtain ⟨l1, l2, hb⟩ := h.binned.split (head_live ht) hi hidx
  have hindex : ∀ u, (a.detach A t).field u .index = if u = t then noIndex else a.field u .index := by
    intro u
    rw [a.field_detach, a.index_remove]
  have hother : ∀ u {g : TagField}, g.inList = false →
      (a.detach A t).field u g = a.field u g := by
    intro u g hg
    rw [a.field_detach, a.field_remove t u hg]
  have hrest : ∀ B ∈ rest, ∀ j, B.whole (a.detach A t) j = B.whole a j := by
    intro B hB j
    refine whole_congr (fun u hu => ?_) j
    have hut : u ≠ t := by
      rintro rfl
      exact h.not_mem_rest ht ⟨B, hB, hu⟩
    rw [hindex, if_neg hut]
  have hcount : ∀ j < maxExp, rest.countP (Arena.whole (a.detach A t) j) = rest.countP (Arena.whole a j) :=
    fun j _ => List.countP_congr fun B hB => by rw [hrest B hB j]
  refine ⟨Function.update bins i (l1 ++ l2), ?_, h.pages, h.below, h.apart, ?_, ?_, ?_, ?_, ?_, ?_, ?_,
    ?_⟩
  · exact fun B hB => (h.ok B hB).congr fun u _ g hg =>
      hother u (TagField.not_inList_of_inArena hg)
  · refine fun B hB => (h.melted B hB).imp fun u v huv => ?_
    rw [hindex, hindex]
    by_cases hut : u = t
    · exact .inl (if_pos hut)
    · by_cases hvt : v = t
      · exact .inr (if_pos hvt)
      · rwa [if_neg hut, if_neg hvt]
  · exact fun u hu => (hother u (by decide)).trans (h.magic u hu)
  · have hbin := h.binned.remove hi hb
    refine hbin.congr (a.freePages_detach A t) (fun u hu _ => ⟨hu, fun g _ => by rw [a.field_detach]⟩)
      (fun u hu _ => ⟨hu, by rw [a.field_detach]⟩) fun u hu hn => ?_
    rw [a.field_detach] at hn ⊢
    exact hbin.used u hu hn
  · intro u hu hn
    rw [hindex] at hn ⊢
    split at hn
    · exact absurd rfl hn
    · rename_i hut
      rw [if_neg hut, hother u (by decide)]
      exact h.sorted u hu hn
  · intro j hj
    have hold := h.count j hj
    rw [List.countP_cons] at hold ⊢
    rw [hcount j hj]
    by_cases hone : A.tags.length = 1
    · obtain ⟨t', ht'⟩ := List.length_eq_one_iff.mp hone
      obtain rfl : t = t' := by simpa [ht'] using ht
      rw [whole_single ht'] at hold ⊢
      rw [hindex, if_pos rfl, a.completePages_detach, if_pos hone, hidx]
      have hj' := ne_noIndex hj
      by_cases hji : j = i
      · subst hji
        rw [Function.update_self, hold, hidx]
        simp [hj'.symm]
      · rw [Function.update_of_ne hji, hold, hidx]
        simp [hj'.symm, Ne.symm hji]
    · rw [not_whole hone] at hold ⊢
      rw [a.completePages_detach, if_neg hone, hold]
  · intro j hj
    rw [a.completePages_detach]
    have hle := h.kept j hj
    split
    · by_cases hji : j = a.field t .index
      · rw [← hji, Function.update_self]
        omega
      · rwa [Function.update_of_ne hji]
    · exact hle
  · rw [a.calls_detach]
    exact h.held
  · refine ⟨fun p m => ?_, fun u hu hn hS => ?_⟩
    · rw [h.blocks.mem]
      refine exists_congr fun u => and_congr_right fun hu => ?_
      rw [hindex, hother u (by decide)]
      have hti : a.field t .index ≠ noIndex := hidx ▸ ne_noIndex hi
      by_cases hut : u = t
      · subst hut
        simp [hti]
      · rw [if_neg hut]
        simp [hut]
    · have hut : u ≠ t := fun hut => hS (hut ▸ List.mem_cons_self)
      rw [hindex, if_neg hut] at hn
      rw [hother u (by decide), hother u (by decide)]
      exact h.blocks.fits u hu hn fun hm => hS (.tail t hm)

/-- A used tag is put on a list. -/
theorem attach (h : LiballocInv a (A :: rest) bins S out) (hA : A.tags = l1 ++ t :: l2)
    (hn : a.field t .index = noIndex) (htS : t ∈ S) (hi : i < maxExp)
    (hsize : i = listIndex (a.field t .realSize - tagSize))
    (hl : ∀ p ∈ l1.getLast?, a.field p .index = noIndex)
    (hr : ∀ p ∈ l2.head?, a.field p .index = noIndex)
    (hkept : A.tags.length = 1 → a.completePages i < maxComplete) :
    ∃ bins', LiballocInv (a.attach A t i) (A :: rest) bins' S out := by
  have ht : t ∈ A.tags := by simp [hA]
  have hindex : ∀ u, (a.attach A t i).field u .index = if u = t then i else a.field u .index := by
    intro u
    rw [a.field_attach, a.index_insert]
  have hother : ∀ u {g : TagField}, g.inList = false →
      (a.attach A t i).field u g = a.field u g := by
    intro u g hg
    rw [a.field_attach, a.field_insert hg]
  have hrest : ∀ B ∈ rest, ∀ j, B.whole (a.attach A t i) j = B.whole a j := by
    intro B hB j
    refine whole_congr (fun u hu => ?_) j
    have hut : u ≠ t := by
      rintro rfl
      exact h.not_mem_rest ht ⟨B, hB, hu⟩
    rw [hindex, if_neg hut]
  have ht0 : t ≠ 0 := (h.ok A List.mem_cons_self).linked.ne_null t ht
  refine ⟨Function.update bins i (t :: bins i), ?_, h.pages, h.below, h.apart, ?_, ?_, ?_, ?_, ?_, ?_,
    ?_, ?_⟩
  · exact fun B hB => (h.ok B hB).congr fun u _ g hg =>
      hother u (TagField.not_inList_of_inArena hg)
  · intro B hB
    cases hB with
    | head =>
      have hmelted := h.melted A List.mem_cons_self
      have hnd := (h.ok A List.mem_cons_self).linked.nodup
      unfold Arena.Melted at hmelted ⊢
      rw [hA] at hmelted hnd ⊢
      have hsame : ∀ v, v ≠ t → (a.attach A t i).field v .index = a.field v .index :=
        fun v hv => (hindex v).trans (if_neg hv)
      have hnd1 : ∀ v ∈ l1, v ≠ t := fun v hv => (List.nodup_append.mp hnd).2.2 v hv t List.mem_cons_self
      have hnd2 : ∀ v ∈ l2, v ≠ t := fun v hv =>
        ne_of_mem_of_not_mem hv (List.nodup_cons.mp (List.nodup_append.mp hnd).2.1).1
      rw [List.isChain_append, List.isChain_cons] at hmelted ⊢
      obtain ⟨hm1, ⟨-, hm2⟩, -⟩ := hmelted
      refine ⟨hm1.imp_of_mem_imp fun u v hu hv huv => ?_, ⟨fun v hv => .inr ?_,
        hm2.imp_of_mem_imp fun u v hu hv huv => ?_⟩, fun u hu v _ => .inl ?_⟩
      · rwa [hsame u (hnd1 u hu), hsame v (hnd1 v hv)]
      · rw [hsame v (hnd2 v (List.mem_of_head? hv)), hr v hv]
      · rwa [hsame u (hnd2 u hu), hsame v (hnd2 v hv)]
      · rw [hsame u (hnd1 u (List.mem_of_getLast? hu)), hl u hu]
    | tail _ hB =>
      refine (h.melted B (.tail A hB)).imp_of_mem_imp fun u v hu hv huv => ?_
      have hne : ∀ w ∈ B.tags, w ≠ t := by
        rintro w hw rfl
        exact h.not_mem_rest ht ⟨B, hB, hw⟩
      rwa [hindex, hindex, if_neg (hne u hu), if_neg (hne v hv)]
  · exact fun u hu => (hother u (by decide)).trans (h.magic u hu)
  · have hbin := h.binned.insert (head_live ht) ht0 hn hi
    refine hbin.congr (a.freePages_attach A t i) (fun u hu _ => ⟨hu, fun g _ => by rw [a.field_attach]⟩)
      (fun u hu _ => ⟨hu, by rw [a.field_attach]⟩) fun u hu hn => ?_
    rw [a.field_attach] at hn ⊢
    exact hbin.used u hu hn
  · intro u hu hnu
    rw [hindex] at hnu ⊢
    rw [hother u (by decide)]
    split at hnu
    · rename_i hut
      rw [if_pos hut, hut]
      exact hsize
    · rename_i hut
      rw [if_neg hut]
      exact h.sorted u hu hnu
  · intro j hj
    have hold := h.count j hj
    rw [List.countP_cons, not_whole_of_used ht hn hj] at hold
    rw [List.countP_cons, List.countP_congr fun B hB => by rw [hrest B hB j], a.completePages_attach]
    by_cases hone : A.tags.length = 1
    · obtain ⟨t', ht'⟩ := List.length_eq_one_iff.mp hone
      obtain rfl : t = t' := by simpa [ht'] using ht
      rw [whole_single ht', hindex, if_pos rfl, if_pos hone]
      by_cases hji : j = i
      · subst hji
        rw [Function.update_self, hold]
        simp
      · rw [Function.update_of_ne hji, hold]
        simp [Ne.symm hji]
    · rw [not_whole hone, if_neg hone, hold]
  · intro j hj
    have hle := h.kept j hj
    rw [a.completePages_attach]
    by_cases hone : A.tags.length = 1
    · rw [if_pos hone]
      have hlt := hkept hone
      by_cases hji : j = i
      · subst hji
        rw [Function.update_self]
        omega
      · rwa [Function.update_of_ne hji]
    · rwa [if_neg hone]
  · rw [a.calls_attach]
    exact h.held
  · refine ⟨fun p m => ?_, fun u hu hnu hS => ?_⟩
    · rw [h.blocks.mem]
      refine exists_congr fun u => and_congr_right fun hu => ?_
      rw [hindex, hother u (by decide)]
      by_cases hut : u = t
      · subst hut
        simp [htS]
      · rw [if_neg hut]
    · have hut : u ≠ t := fun hut => hS (hut ▸ htS)
      rw [hindex, if_neg hut] at hnu
      rw [hother u (by decide), hother u (by decide)]
      exact h.blocks.fits u hu hnu hS

/-! ## Arenas -/

/-- The first arena is filled by other tags; one that is used is in it before and after. -/
theorem retag {ts ts' S' : List Nat} (h : LiballocInv a (⟨start, pages, ts⟩ :: rest) bins S out)
    (ht : t ∈ ts) (ht' : t ∈ ts') (hn : a.field t .index = noIndex)
    (hn' : a'.field t .index = noIndex) (hok : Arena.Ok a' ⟨start, pages, ts'⟩)
    (hmelted : Arena.Melted a' ⟨start, pages, ts'⟩)
    (hrest : ∀ v, Live rest v → ∀ g, a'.field v g = a.field v g)
    (hc : a'.completePages = a.completePages) (hl : a'.calls = a.calls)
    (hmagic : ∀ v ∈ ts', a'.field v .magic = liballocMagic)
    (hbin : Binned a' (Live (⟨start, pages, ts'⟩ :: rest)) bins)
    (hsorted : ∀ v ∈ ts', a'.field v .index ≠ noIndex →
      a'.field v .index = listIndex (a'.field v .realSize - tagSize))
    (hblocks : Blocks a' (⟨start, pages, ts'⟩ :: rest) S' out) :
    LiballocInv a' (⟨start, pages, ts'⟩ :: rest) bins S' out := by
  refine ⟨fun B hB => ?_, fun B hB => ?_, fun B hB => ?_, ?_, fun B hB => ?_, fun v hv => ?_, hbin,
    fun v hv => ?_, fun i hi => ?_, fun i hi => hc ▸ h.kept i hi, hl ▸ h.held, hblocks⟩
  · cases hB with
    | head => exact hok
    | tail _ hB => exact (h.ok B (.tail _ hB)).congr fun v hv g _ => hrest v ⟨B, hB, hv⟩ g
  · cases hB with
    | head => exact h.pages ⟨start, pages, ts⟩ List.mem_cons_self
    | tail _ hB => exact h.pages B (.tail _ hB)
  · cases hB with
    | head => exact h.below ⟨start, pages, ts⟩ List.mem_cons_self
    | tail _ hB => exact h.below B (.tail _ hB)
  · have hapart := List.pairwise_cons.mp h.apart
    exact List.pairwise_cons.mpr ⟨hapart.1, hapart.2⟩
  · cases hB with
    | head => exact hmelted
    | tail _ hB =>
      refine (h.melted B (.tail _ hB)).imp_of_mem_imp fun u v hu hv huv => ?_
      rwa [hrest u ⟨B, hB, hu⟩, hrest v ⟨B, hB, hv⟩]
  · obtain hv | hv := live_cons.mp hv
    · exact hmagic v hv
    · exact (hrest v hv _).trans (h.magic v (live_cons.mpr (.inr hv)))
  · obtain hv | hv := live_cons.mp hv
    · exact hsorted v hv
    · rw [hrest v hv, hrest v hv]
      exact h.sorted v (live_cons.mpr (.inr hv))
  · have hold := h.count i hi
    rw [List.countP_cons, not_whole_of_used ht hn hi] at hold
    rw [hc, hold, List.countP_cons, not_whole_of_used ht' hn' hi]
    congr 2
    exact List.countP_congr fun B hB => by rw [whole_congr fun v hv => hrest v ⟨B, hB, hv⟩ .index]

/-- Two used neighbours become one tag. -/
theorem stretch (h : LiballocInv a (⟨start, pages, l1 ++ t :: u :: l2⟩ :: rest) bins S out)
    (ht : a.field t .index = noIndex) (hu : a.field u .index = noIndex) (htS : t ∈ S) (huS : u ∈ S) :
    LiballocInv (a.stretch t (a.field t .realSize + a.field u .realSize) (a.field u .splitRight))
      (⟨start, pages, l1 ++ t :: l2⟩ :: rest) bins S out := by
  have hok := h.ok _ List.mem_cons_self
  have hsub : ∀ v, v ∈ l1 ++ t :: l2 → v ∈ l1 ++ t :: u :: l2 := by
    intro v hv
    simp only [List.mem_append, List.mem_cons] at hv ⊢
    tauto
  have htag : t ∈ l1 ++ t :: u :: l2 := by simp
  have hright : a.field u .splitRight = 0 ∨ a.field u .splitRight ∈ l1 ++ t :: u :: l2 := by
    have hnext : a.field u .splitRight = l2.headD 0 :=
      (show Arena.Ok a ⟨start, pages, (l1 ++ [t]) ++ u :: l2⟩ by simpa using hok).splitRight_eq
    rw [hnext]
    cases l2 <;> simp
  have hkeep : ∀ v {g : TagField}, g.inArena = false →
      (a.stretch t (a.field t .realSize + a.field u .realSize) (a.field u .splitRight)).field v g =
        a.field v g := fun v g hg => a.field_stretch hg
  have hlive : ∀ v, Live (⟨start, pages, l1 ++ t :: l2⟩ :: rest) v →
      Live (⟨start, pages, l1 ++ t :: u :: l2⟩ :: rest) v :=
    fun v hv => live_cons.mpr ((live_cons.mp hv).imp_left (hsub v))
  have hlive' : ∀ v, Live (⟨start, pages, l1 ++ t :: u :: l2⟩ :: rest) v → v ≠ u →
      Live (⟨start, pages, l1 ++ t :: l2⟩ :: rest) v := by
    intro v hv hvu
    refine live_cons.mpr ((live_cons.mp hv).imp_left fun hm => ?_)
    simp only [List.mem_append, List.mem_cons] at hm ⊢
    tauto
  refine h.retag htag (t := t) (by simp) ht ((hkeep t rfl).trans ht) hok.stretch ?_ ?_
    a.completePages_stretch a.calls_stretch ?_ ?_ ?_ ?_
  · have hmelted := h.melted _ List.mem_cons_self
    unfold Arena.Melted at hmelted ⊢
    simp only [hkeep _ (show TagField.inArena .index = false from rfl)]
    rw [List.isChain_append, List.isChain_cons_cons, List.isChain_cons] at hmelted
    obtain ⟨hm1, ⟨-, -, hm2⟩, hmid⟩ := hmelted
    rw [List.isChain_append, List.isChain_cons]
    exact ⟨hm1, ⟨fun v _ => .inl ht, hm2⟩, fun v hv w hw => hmid v hv w hw⟩
  · intro v hv g
    refine a.field_stretch_ne ?_ ?_
    · rintro rfl
      exact h.not_mem_rest htag hv
    · rintro rfl
      obtain h0 | hmem := hright
      · obtain ⟨B, hB, hvB⟩ := hv
        exact (h.ok B (.tail _ hB)).linked.ne_null _ hvB h0
      · exact h.not_mem_rest hmem hv
  · exact fun v hv => (hkeep v rfl).trans (h.magic v (head_live (hsub v hv)))
  · refine h.binned.congr a.freePages_stretch (fun v hv hn => ⟨hlive' v hv ?_, fun g hg =>
      hkeep v (TagField.not_inArena_of_inList hg)⟩) (fun v hv _ => ⟨hlive v hv, (hkeep v rfl).symm⟩)
      fun v hv hn => ?_
    · rintro rfl
      exact hn hu
    · rw [hkeep v rfl] at hn
      rw [hkeep v rfl, hkeep v rfl]
      exact h.binned.used v (hlive v hv) hn
  · intro v hv hn
    rw [hkeep v rfl] at hn ⊢
    have hvt : v ≠ t := by
      rintro rfl
      exact hn ht
    rw [a.realSize_stretch, if_neg hvt]
    exact h.sorted v (head_live (hsub v hv)) hn
  · refine ⟨fun p n => ?_, fun v hv hn hS => ?_⟩
    · rw [h.blocks.mem]
      refine exists_congr fun v => ?_
      rw [hkeep v rfl, hkeep v rfl]
      exact ⟨fun ⟨hv, hrest⟩ => ⟨hlive' v hv fun hvu => hrest.2.1 (hvu ▸ huS), hrest⟩,
        fun ⟨hv, hrest⟩ => ⟨hlive v hv, hrest⟩⟩
    · have hvt : v ≠ t := fun hvt => hS (hvt ▸ htS)
      rw [hkeep v rfl] at hn
      rw [hkeep v rfl, a.realSize_stretch, if_neg hvt]
      exact h.blocks.fits v (hlive v hv) hn hS

/-- A used tag is cut in two, and the part behind its block is nobody's. -/
theorem split (h : LiballocInv a (⟨start, pages, l1 ++ t :: l2⟩ :: rest) bins S out)
    (ht : a.field t .index = noIndex) (hu : u = t + tagSize + a.field t .size)
    (hroom : 2 * tagSize + a.field t .size ≤ a.field t .realSize) :
    LiballocInv ((a.split t u).set u .index noIndex) (⟨start, pages, l1 ++ t :: u :: l2⟩ :: rest) bins
      (u :: S) out := by
  have hok := h.ok _ List.mem_cons_self
  have htag : t ∈ l1 ++ t :: l2 := by simp
  have hnew : ¬ Live (⟨start, pages, l1 ++ t :: l2⟩ :: rest) u := by
    intro hlive
    have hapart := h.tags_apart (head_live htag) hlive
    obtain ⟨A, hA, huA⟩ := hlive
    have hbounds := h.tag_bounds hA huA
    unfold tagSize at hu hroom hbounds
    omega
  have htu : t ≠ u := by
    rintro rfl
    exact hnew (head_live htag)
  have hkeep : ∀ v, v ≠ u → ∀ {g : TagField}, g.inArena = false →
      ((a.split t u).set u .index noIndex).field v g = a.field v g := fun v hv g hg =>
    (TagHeap.field_set_tag _ hv _ _ _).trans (a.field_split hg hv)
  obtain ⟨hmagicu, hnextu, hprevu⟩ := a.field_split_new (t := t) (u := u)
  have hlive : ∀ v, Live (⟨start, pages, l1 ++ t :: l2⟩ :: rest) v →
      Live (⟨start, pages, l1 ++ t :: u :: l2⟩ :: rest) v := by
    intro v hv
    refine live_cons.mpr ((live_cons.mp hv).imp_left fun hm => ?_)
    simp only [List.mem_append, List.mem_cons] at hm ⊢
    tauto
  have hlive' : ∀ v, Live (⟨start, pages, l1 ++ t :: u :: l2⟩ :: rest) v → v ≠ u →
      Live (⟨start, pages, l1 ++ t :: l2⟩ :: rest) v := by
    intro v hv hvu
    refine live_cons.mpr ((live_cons.mp hv).imp_left fun hm => ?_)
    simp only [List.mem_append, List.mem_cons] at hm ⊢
    tauto
  have hne : ∀ v, Live (⟨start, pages, l1 ++ t :: l2⟩ :: rest) v → v ≠ u := by
    rintro v hv rfl
    exact hnew hv
  refine h.retag htag (t := t) (by simp) ht ((hkeep t htu rfl).trans ht) ?_ ?_ ?_
    a.completePages_split a.calls_split ?_ ?_ ?_ ?_
  · refine (hok.split hu (fun hm => hnew (head_live hm)) hroom).congr fun v _ g hg => ?_
    exact TagHeap.field_set_field _ (TagField.ne_of_not_inList (TagField.not_inList_of_inArena hg)).2.2 _ _ _
  · have hmelted := h.melted _ List.mem_cons_self
    unfold Arena.Melted at hmelted ⊢
    rw [List.isChain_append, List.isChain_cons] at hmelted
    obtain ⟨hm1, ⟨-, hm2⟩, hmid⟩ := hmelted
    have hsame : ∀ v ∈ l1 ++ t :: l2, ((a.split t u).set u .index noIndex).field v .index =
        a.field v .index := fun v hv => hkeep v (hne v (head_live hv)) rfl
    rw [List.isChain_append, List.isChain_cons_cons, List.isChain_cons]
    refine ⟨hm1.imp_of_mem_imp fun v w hv hw hvw => ?_, ⟨.inl ((hsame t htag).trans ht),
      fun v _ => .inl (by simp), hm2.imp_of_mem_imp fun v w hv hw hvw => ?_⟩, fun v hv w hw => .inr ?_⟩
    · rwa [hsame v (by simp [hv]), hsame w (by simp [hw])]
    · rwa [hsame v (by simp [hv]), hsame w (by simp [hw])]
    · obtain rfl : t = w := by simpa using hw
      exact (hsame t htag).trans ht
  · intro v hv g
    rw [TagHeap.field_set_tag _ (hne v (live_cons.mpr (.inr hv)))]
    refine a.field_split_ne ?_ (hne v (live_cons.mpr (.inr hv))) ?_
    · rintro rfl
      exact h.not_mem_rest htag hv
    · rintro rfl
      obtain ⟨B, hB, hvB⟩ := hv
      have hv0 := (h.ok B (.tail _ hB)).linked.ne_null _ hvB
      rw [hok.splitRight_eq] at hv0 hvB
      cases hl2 : l2 with
      | nil =>
        rw [hl2] at hv0
        exact hv0 rfl
      | cons w l2 =>
        rw [hl2] at hvB
        refine h.not_mem_rest (t := w) ?_ ⟨B, hB, hvB⟩
        simp [hl2]
  · intro v hv
    by_cases hvu : v = u
    · subst hvu
      rw [TagHeap.field_set_field _ (by decide)]
      exact hmagicu
    · exact (hkeep v hvu rfl).trans (h.magic v (hlive' v (head_live hv) hvu))
  · refine h.binned.congr a.freePages_split (fun v hv _ => ⟨hlive v hv, fun g hg =>
      hkeep v (hne v hv) (TagField.not_inArena_of_inList hg)⟩) (fun v hv hn => ?_) fun v hv hn => ?_
    · have hvu : v ≠ u := by
        rintro rfl
        exact hn (by simp)
      exact ⟨hlive' v hv hvu, (hkeep v hvu rfl).symm⟩
    · by_cases hvu : v = u
      · subst hvu
        rw [TagHeap.field_set_field _ (by decide), TagHeap.field_set_field _ (by decide)]
        exact ⟨hnextu, hprevu⟩
      · rw [hkeep v hvu rfl] at hn
        rw [hkeep v hvu rfl, hkeep v hvu rfl]
        exact h.binned.used v (hlive' v hv hvu) hn
  · intro v hv hn
    have hvu : v ≠ u := by
      rintro rfl
      exact hn (by simp)
    rw [hkeep v hvu rfl] at hn ⊢
    have hvt : v ≠ t := by
      rintro rfl
      exact hn ht
    rw [TagHeap.field_set_tag _ hvu, a.realSize_split htu, if_neg hvt, if_neg hvu]
    exact h.sorted v (hlive' v (head_live hv) hvu) hn
  · refine ⟨fun p n => ?_, fun v hv hn hS => ?_⟩
    · rw [h.blocks.mem]
      refine exists_congr fun v => ?_
      constructor
      · rintro ⟨hv, hn, hS, rfl, rfl⟩
        have hvu := hne v hv
        rw [hkeep v hvu rfl, hkeep v hvu rfl]
        exact ⟨hlive v hv, hn, by simp [hvu, hS], rfl, rfl⟩
      · rintro ⟨hv, hn, hS, rfl, rfl⟩
        have hvu : v ≠ u := fun hvu => hS (hvu ▸ List.mem_cons_self)
        rw [hkeep v hvu rfl] at hn ⊢
        exact ⟨hlive' v hv hvu, hn, fun hm => hS (.tail u hm), rfl, rfl⟩
    · have hvu : v ≠ u := fun hvu => hS (hvu ▸ List.mem_cons_self)
      rw [hkeep v hvu rfl] at hn
      rw [hkeep v hvu rfl, TagHeap.field_set_tag _ hvu, a.realSize_split htu]
      by_cases hvt : v = t
      · subst hvt
        rw [if_pos rfl]
        unfold tagSize at hroom ⊢
        omega
      · rw [if_neg hvt, if_neg hvu]
        exact h.blocks.fits v (hlive' v hv hvu) hn fun hm => hS (.tail u hm)

/-- The page provider has given `pages` pages at `t`. -/
theorem allocate (h : LiballocInv a rest bins S out) (ht : t ≠ 0) (hpages : lPageCount ≤ pages)
    (hbelow : t + pages * lPageSize < 2 ^ 32)
    (hapart : ∀ B ∈ rest, Arena.Separate ⟨t, pages, [t]⟩ B)
    (he : ∀ v, v ≠ t → ∀ g, a'.field v g = a.field v g) (hh : a'.freePages = a.freePages)
    (hc : a'.completePages = a.completePages) (hl : a'.calls = .alloc t pages :: a.calls)
    (hmagic : a'.field t .magic = liballocMagic) (hindex : a'.field t .index = noIndex)
    (hnext : a'.field t .next = 0) (hprev : a'.field t .prev = 0)
    (hleft : a'.field t .splitLeft = 0) (hright : a'.field t .splitRight = 0)
    (hreal : a'.field t .realSize = pages * lPageSize) :
    LiballocInv a' (⟨t, pages, [t]⟩ :: rest) bins (t :: S) out := by
  have hsize : tagSize ≤ pages * lPageSize := by
    unfold lPageCount at hpages
    unfold tagSize lPageSize
    omega
  have hne : ∀ v, Live rest v → v ≠ t := by
    rintro v ⟨B, hB, hv⟩ rfl
    have hbounds := h.tag_bounds hB hv
    have hsep := hapart B hB
    unfold Arena.Separate at hsep
    simp only [Arena.stop] at hsep hbounds
    unfold tagSize at hsize hbounds
    omega
  have hold : ∀ v, Live (⟨t, pages, [t]⟩ :: rest) v → v ≠ t → Live rest v := fun v hv hvt =>
    (live_cons.mp hv).resolve_left fun hm => hvt (List.mem_singleton.mp hm)
  refine ⟨fun B hB => ?_, fun B hB => ?_, fun B hB => ?_, List.pairwise_cons.mpr ⟨hapart, h.apart⟩,
    fun B hB => ?_, fun v hv => ?_, ?_, fun v hv hn => ?_, fun i hi => ?_,
    fun i hi => hc ▸ h.kept i hi, ?_, ?_⟩
  · cases hB with
    | head =>
      refine ⟨⟨⟨rfl, ht, hright⟩, ⟨rfl, ht, hleft⟩⟩, ⟨rfl, ?_, ?_⟩, fun v hv => ?_⟩
      · show 0 < a'.field t .realSize
        rw [hreal]
        unfold tagSize at hsize
        omega
      · show t + a'.field t .realSize = _
        rw [hreal]
        rfl
      · obtain rfl := List.mem_singleton.mp hv
        rw [hreal]
        exact hsize
    | tail _ hB => exact (h.ok B hB).congr fun v hv g _ => he v (hne v ⟨B, hB, hv⟩) g
  · cases hB with
    | head => exact hpages
    | tail _ hB => exact h.pages B hB
  · cases hB with
    | head => exact hbelow
    | tail _ hB => exact h.below B hB
  · cases hB with
    | head => exact .singleton t
    | tail _ hB =>
      refine (h.melted B hB).imp_of_mem_imp fun u v hu hv huv => ?_
      rwa [he u (hne u ⟨B, hB, hu⟩), he v (hne v ⟨B, hB, hv⟩)]
  · by_cases hvt : v = t
    · exact hvt ▸ hmagic
    · exact (he v hvt _).trans (h.magic v (hold v hv hvt))
  · refine h.binned.congr hh (fun v hv _ => ⟨live_cons.mpr (.inr hv), fun g _ => he v (hne v hv) g⟩)
      (fun v hv hn => ?_) fun v hv hn => ?_
    · have hvt : v ≠ t := by
        rintro rfl
        exact hn hindex
      exact ⟨hold v hv hvt, (he v hvt _).symm⟩
    · by_cases hvt : v = t
      · exact hvt ▸ ⟨hnext, hprev⟩
      · rw [he v hvt] at hn
        rw [he v hvt, he v hvt]
        exact h.binned.used v (hold v hv hvt) hn
  · have hvt : v ≠ t := by
      rintro rfl
      exact hn hindex
    rw [he v hvt] at hn ⊢
    rw [he v hvt]
    exact h.sorted v (hold v hv hvt) hn
  · rw [hc, h.count i hi, List.countP_cons,
      not_whole_of_used (t := t) (List.mem_singleton.mpr rfl) hindex hi]
    congr 1
    exact List.countP_congr fun B hB => by
      rw [whole_congr fun v hv => he v (hne v ⟨B, hB, hv⟩) .index]
  · obtain ⟨held, hheld, hperm⟩ := h.held
    rw [hl]
    exact ⟨(t, pages) :: held, hheld.alloc t pages, hperm.cons _⟩
  · refine ⟨fun p n => ?_, fun v hv hn hS => ?_⟩
    · rw [h.blocks.mem]
      refine exists_congr fun v => ?_
      constructor
      · rintro ⟨hv, hn, hS, hp, hsz⟩
        have hvt := hne v hv
        rw [he v hvt, he v hvt]
        exact ⟨live_cons.mpr (.inr hv), hn, by simp [hvt, hS], hp, hsz⟩
      · rintro ⟨hv, hn, hS, hp, hsz⟩
        have hvt : v ≠ t := fun hvt => hS (hvt ▸ List.mem_cons_self)
        rw [he v hvt] at hn hsz
        exact ⟨hold v hv hvt, hn, fun hm => hS (.tail t hm), hp, hsz⟩
    · have hvt : v ≠ t := fun hvt => hS (hvt ▸ List.mem_cons_self)
      rw [he v hvt] at hn
      rw [he v hvt, he v hvt]
      exact h.blocks.fits v (hold v hv hvt) hn fun hm => hS (.tail t hm)

/-- The page provider gets an arena back that is one tag, and used. -/
theorem release (h : LiballocInv a (⟨start, pages, [t]⟩ :: rest) bins S out)
    (ht : a.field t .index = noIndex) (htS : t ∈ S) :
    LiballocInv { a with calls := .free start pages :: a.calls } rest bins S out := by
  have hmem : t ∈ (⟨start, pages, [t]⟩ : Arena).tags := List.mem_singleton.mpr rfl
  have hlive : ∀ v, Live rest v → Live (⟨start, pages, [t]⟩ :: rest) v := fun v hv =>
    live_cons.mpr (.inr hv)
  have hold : ∀ v, Live (⟨start, pages, [t]⟩ :: rest) v → v ≠ t → Live rest v := fun v hv hvt =>
    (live_cons.mp hv).resolve_left fun hm => hvt (List.mem_singleton.mp hm)
  refine ⟨fun B hB => (h.ok B (.tail _ hB)).congr fun _ _ _ _ => rfl,
    fun B hB => h.pages B (.tail _ hB), fun B hB => h.below B (.tail _ hB),
    (List.pairwise_cons.mp h.apart).2, fun B hB => h.melted B (.tail _ hB),
    fun v hv => h.magic v (hlive v hv), ?_, fun v hv => h.sorted v (hlive v hv), fun i hi => ?_, h.kept,
    ?_, ?_⟩
  · refine h.binned.congr rfl (fun v hv hn => ⟨hold v hv ?_, fun _ _ => rfl⟩)
      (fun v hv _ => ⟨hlive v hv, rfl⟩) fun v hv hn => h.binned.used v (hlive v hv) hn
    rintro rfl
    exact hn ht
  · have hcount := h.count i hi
    rw [List.countP_cons, not_whole_of_used hmem ht hi] at hcount
    exact hcount
  · obtain ⟨held, hheld, hperm⟩ := h.held
    have hp : (start, pages) ∈ held := hperm.mem_iff.mpr List.mem_cons_self
    refine ⟨held.erase (start, pages), hheld.free hp, ?_⟩
    have herase := hperm.erase (start, pages)
    rwa [List.map_cons, List.erase_cons_head] at herase
  · refine ⟨fun p n => ?_, fun v hv hn hS => h.blocks.fits v (hlive v hv) hn hS⟩
    rw [h.blocks.mem]
    exact exists_congr fun v => ⟨fun ⟨hv, hrest⟩ =>
      ⟨hold v hv fun hvt => hrest.2.1 (hvt ▸ htS), hrest⟩, fun ⟨hv, hrest⟩ => ⟨hlive v hv, hrest⟩⟩

end LiballocInv

end HelixKernel
