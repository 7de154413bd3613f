import HelixKernel.Extra.LiballocHeap

/-!
# `malloc` and `free` on a heap in order

`HeapState s out`: the heap of `s` is in order and has given out the blocks `out`.  With a page
provider that gives pages below 4 GiB which nobody has (`PageProvider.Honest`), `malloc` and `free`
return and keep it, and leave the bytes of all other blocks alone (`malloc_spec`, `free_spec`).

No two free tags are neighbours, so each of the two loops of `free` merges at most once. -/

namespace HelixKernel

/-- All tags of the arenas. -/
def allTags (As : List Arena) : List Nat := As.flatMap Arena.tags

theorem mem_allTags {As : List Arena} {t : Nat} : t ∈ allTags As ↔ Live As t := by
  simp [allTags, Live]

/-- Pages come from where no bytes were, below 4 GiB, and they alone go away again. -/
structure PageProvider.Honest (P : PageProvider) : Prop where
  alloc : ∀ m n, (P.alloc m n = (m, 0)) ∨ ((P.alloc m n).2 ≠ 0 ∧
    m.Fresh (P.alloc m n) (n * lPageSize) ∧ (P.alloc m n).2 + n * lPageSize < 2 ^ 32)
  free : ∀ m p n x, (P.free m p n).byte x =
    if p ≤ x ∧ x < p + n * lPageSize then none else m.byte x

def HeapState (s : Liballoc) (out : Finset (Nat × Nat)) : Prop :=
  ∃ a As bins, HoldsTags s.mem (allTags As) a s ∧ LiballocInv a As bins [] out ∧
    ∀ A ∈ As, s.mem.Mapped A.start (A.pages * lPageSize)

/-- The bytes of the blocks `out` are the same. -/
def SameBlocks (out : Finset (Nat × Nat)) (m m' : ByteMem) : Prop :=
  ∀ p n, (p, n) ∈ out → ∀ x, p ≤ x → x < p + n → m'.byte x = m.byte x

/-- The bytes that are there are the same. -/
def SameMapped (m m' : ByteMem) : Prop := ∀ x, (m'.byte x).isSome = (m.byte x).isSome

/-! ## Pointers that lead to tags -/

namespace Arena.Ok

variable {a : TagHeap} {A : Arena} {t : Nat}

theorem splitRight_mem (h : A.Ok a) (ht : t ∈ A.tags) (h0 : a.field t .splitRight ≠ 0) :
    a.field t .splitRight ∈ A.tags :=
  (h.linked.forth.next_mem ht).resolve_left h0

/-- A tag with nothing on either side is all of its arena. -/
theorem alone_iff (h : A.Ok a) (ht : t ∈ A.tags) :
    a.field t .splitLeft = 0 ∧ a.field t .splitRight = 0 ↔ A.tags.length = 1 := by
  obtain ⟨start, pages, ts⟩ := A
  obtain ⟨l1, l2, rfl⟩ := List.append_of_mem ht
  have hne := h.linked.ne_null
  rw [h.splitLeft_eq, h.splitRight_eq]
  constructor
  · rintro ⟨hl, hr⟩
    have hl1 : l1 = [] := by
      cases l1 using List.reverseRecOn with
      | nil => rfl
      | append_singleton l1 y => exact absurd (by simpa using hl) (hne y (by simp))
    have hl2 : l2 = [] := by
      cases l2 with
      | nil => rfl
      | cons y l2 => exact absurd (by simpa using hr) (hne y (by simp))
    simp [hl1, hl2]
  · intro hlen
    have hlen' : l1.length = 0 ∧ l2.length = 0 := by
      simp only [List.length_append, List.length_cons] at hlen
      omega
    rw [List.length_eq_zero_iff.mp hlen'.1, List.length_eq_zero_iff.mp hlen'.2]
    exact ⟨rfl, rfl⟩

end Arena.Ok

namespace Binned

variable {a : TagHeap} {live : Nat → Prop} {bins : Nat → List Nat} {t i : Nat}

theorem head_live (h : Binned a live bins) (hi : i < maxExp) (h0 : a.freePages i ≠ 0) :
    live (a.freePages i) := by
  have hmem : a.freePages i ∈ bins i := by
    rw [h.head i hi] at h0 ⊢
    cases hb : bins i with
    | nil => exact absurd (by rw [hb]; rfl) h0
    | cons x l => exact List.mem_cons_self
  exact ((h.mem i hi _).mp hmem).1

theorem next_live (h : Binned a live bins) (ht : live t) (hi : a.field t .index < maxExp)
    (h0 : a.field t .next ≠ 0) : live (a.field t .next) := by
  have hmem := (h.mem _ hi t).mpr ⟨ht, rfl⟩
  exact ((h.mem _ hi _).mp (((h.linked _ hi).forth.next_mem hmem).resolve_left h0)).1

theorem prev_live (h : Binned a live bins) (ht : live t) (hi : a.field t .index < maxExp)
    (h0 : a.field t .prev ≠ 0) : live (a.field t .prev) := by
  have hmem := (h.mem _ hi t).mpr ⟨ht, rfl⟩
  have hprev := ((h.linked _ hi).back.next_mem (List.mem_reverse.mpr hmem)).resolve_left h0
  exact ((h.mem _ hi _).mp (List.mem_reverse.mp hprev)).1

/-- No free tag is its own neighbour. -/
theorem prev_ne (h : Binned a live bins) (ht : live t) (ht0 : t ≠ 0) (hi : a.field t .index < maxExp) :
    a.field t .prev ≠ t := by
  obtain ⟨l1, l2, hb⟩ := h.split ht hi rfl
  have hlink := h.linked _ hi
  rw [hb] at hlink
  have hnd := hlink.nodup
  rw [hlink.prev_eq]
  cases l1 using List.reverseRecOn with
  | nil => exact ht0.symm
  | append_singleton l1 y =>
    rintro hy
    obtain rfl : y = t := by simpa using hy
    simp [List.nodup_append] at hnd

end Binned

/-! ## Steps of the code -/

namespace LiballocInv

variable {m₀ : ByteMem} {T : List Nat} {s : Liballoc} {a : TagHeap} {As rest : List Arena} {A : Arena}
  {bins : Nat → List Nat} {S : List Nat} {out : Finset (Nat × Nat)} {t u i n start pages : Nat}
  {l1 l2 : List Nat}

theorem ne_zero (h : LiballocInv a As bins S out) (ht : Live As t) : t ≠ 0 := by
  obtain ⟨A, hA, htA⟩ := ht
  exact (h.ok A hA).linked.ne_null t htA

theorem tag_lt (h : LiballocInv a As bins S out) (ht : Live As t) :
    t + a.field t .realSize < 2 ^ 32 ∧ tagSize ≤ a.field t .realSize := by
  obtain ⟨A, hA, htA⟩ := ht
  have hbounds := h.tag_bounds hA htA
  have hbelow := h.below A hA
  omega

theorem removeTag_spec (h : LiballocInv a As bins S out) (hs : HoldsTags m₀ T a s)
    (hT : ∀ t, Live As t → t ∈ T) (ht : Live As t) (hi : a.field t .index < maxExp) :
    Returns (HoldsTags m₀ T (a.remove t)) (s.removeTag t) :=
  hs.removeTag (hT t ht) hi (fun h0 => hT _ (h.binned.next_live ht hi h0))
    (fun h0 => hT _ (h.binned.prev_live ht hi h0)) (h.binned.prev_ne ht (h.ne_zero ht) hi)

/-- One tag less in an arena. -/
theorem live_without (h : LiballocInv a (⟨start, pages, l1 ++ t :: l2⟩ :: rest) bins S out)
    (hu : Live (⟨start, pages, l1 ++ l2⟩ :: rest) u) :
    Live (⟨start, pages, l1 ++ t :: l2⟩ :: rest) u ∧ u ≠ t := by
  have hnd : (l1 ++ t :: l2).Nodup := (h.ok _ List.mem_cons_self).linked.nodup
  rcases live_cons.mp hu with hu | hu
  · refine ⟨head_live ?_, ?_⟩
    · simp only [List.mem_append, List.mem_cons] at hu ⊢
      tauto
    · rintro rfl
      simp only [List.nodup_append, List.nodup_cons, List.mem_append, List.mem_cons] at hnd hu
      grind
  · refine ⟨live_cons.mpr (.inr hu), ?_⟩
    rintro rfl
    exact h.not_mem_rest (by simp) hu

end LiballocInv

theorem getexpLoop_le (size todo shift : Nat) : getexpLoop size todo shift ≤ shift + todo := by
  induction todo generalizing shift with
  | zero => exact Nat.le_refl shift
  | succ todo ih =>
    rw [getexpLoop]
    split
    · omega
    · exact (ih (shift + 1)).trans (by omega)

theorem listIndex_lt (size : Nat) : listIndex size < maxExp := by
  have hle := getexpLoop_le size (maxExp - minExp) minExp
  unfold listIndex getexp
  unfold maxExp minExp at *
  split
  · decide
  · split at * <;> omega

/-! ## Merging -/

namespace TagHeap

/-- Taking a tag off its list and resizing tags do not meet. -/
theorem remove_stretch (a : TagHeap) (t v r l : Nat) :
    (a.stretch t v r).remove l = (a.remove l).stretch t v r := by
  have hkeep : ∀ u {g : TagField}, g.inList = true → (a.stretch t v r).field u g = a.field u g :=
    fun u _ hg => a.field_stretch (TagField.not_inArena_of_inList hg)
  refine TagHeap.ext (funext fun u => funext fun g => ?_) ?_ (by simp) (by simp)
  · cases g with
    | magic => rw [field_remove _ _ _ rfl, field_stretch _ rfl, field_stretch _ rfl, field_remove _ _ _ rfl]
    | size => rw [field_remove _ _ _ rfl, field_stretch _ rfl, field_stretch _ rfl, field_remove _ _ _ rfl]
    | realSize => rw [field_remove _ _ _ rfl, realSize_stretch, realSize_stretch, field_remove _ _ _ rfl]
    | splitLeft => rw [field_remove _ _ _ rfl, splitLeft_stretch, splitLeft_stretch, field_remove _ _ _ rfl]
    | splitRight =>
      rw [field_remove _ _ _ rfl, splitRight_stretch, splitRight_stretch, field_remove _ _ _ rfl]
    | index => rw [index_remove, hkeep u rfl, field_stretch _ rfl, index_remove]
    | next => rw [next_remove, hkeep l rfl, hkeep l rfl, hkeep u rfl, field_stretch _ rfl, next_remove]
    | prev => rw [prev_remove, hkeep l rfl, hkeep l rfl, hkeep u rfl, field_stretch _ rfl, prev_remove]
  · rw [freePages_remove, hkeep l rfl, hkeep l rfl, freePages_stretch, freePages_stretch,
      freePages_remove]

end TagHeap

/-- `free` has come so far that the tag `t`, between `l1` and `l2`, is used and nobody's. -/
structure Growing (m₀ : ByteMem) (T : List Nat) (start pages : Nat) (rest : List Arena)
    (out : Finset (Nat × Nat)) (l1 : List Nat) (t : Nat) (l2 : List Nat) (s : Liballoc) (a : TagHeap)
    (bins : Nat → List Nat) (S : List Nat) : Prop where
  holds : HoldsTags m₀ T a s
  inv : LiballocInv a (⟨start, pages, l1 ++ t :: l2⟩ :: rest) bins S out
  tags : ∀ u, Live (⟨start, pages, l1 ++ t :: l2⟩ :: rest) u → u ∈ T
  used : a.field t .index = noIndex
  mem : t ∈ S
  only : ∀ u ∈ S, Live (⟨start, pages, l1 ++ t :: l2⟩ :: rest) u → u = t

namespace Growing

variable {m₀ : ByteMem} {T : List Nat} {start pages t : Nat} {rest : List Arena}
  {out : Finset (Nat × Nat)} {l1 l2 : List Nat} {s : Liballoc} {a : TagHeap}
  {bins : Nat → List Nat} {S : List Nat}

theorem live_mem (_ : Growing m₀ T start pages rest out l1 t l2 s a bins S) {u : Nat}
    (hu : u ∈ l1 ++ t :: l2) : Live (⟨start, pages, l1 ++ t :: l2⟩ :: rest) u :=
  LiballocInv.head_live hu

theorem live (h : Growing m₀ T start pages rest out l1 t l2 s a bins S) :
    Live (⟨start, pages, l1 ++ t :: l2⟩ :: rest) t := h.live_mem (by simp)

theorem ok (h : Growing m₀ T start pages rest out l1 t l2 s a bins S) :
    Arena.Ok a ⟨start, pages, l1 ++ t :: l2⟩ := h.inv.ok _ List.mem_cons_self

theorem meltLeftLoop_stop (h : Growing m₀ T start pages rest out l1 t l2 s a bins S)
    (hl : ∀ p ∈ l1.getLast?, a.field p .index = noIndex) (fuel : Nat) :
    s.meltLeftLoop (fuel + 1) t = .ok (s, t) := by
  rw [Liballoc.meltLeftLoop, h.holds.get (h.tags t h.live), ok_bind, h.ok.splitLeft_eq]
  cases l1 using List.reverseRecOn with
  | nil => rfl
  | append_singleton l1 l =>
    have hlive := h.live_mem (u := l) (by simp)
    have hidx : a.field l .index = noIndex := hl l (by simp)
    rw [List.getLastD_concat, if_neg (h.inv.ne_zero hlive), h.holds.get (h.tags l hlive), ok_bind, hidx]
    rfl

theorem absorbRightLoop_stop (h : Growing m₀ T start pages rest out l1 t l2 s a bins S)
    (hr : ∀ p ∈ l2.head?, a.field p .index = noIndex) (fuel : Nat) :
    s.absorbRightLoop t (fuel + 1) = .ok s := by
  rw [Liballoc.absorbRightLoop, h.holds.get (h.tags t h.live), ok_bind, h.ok.splitRight_eq]
  cases l2 with
  | nil => rfl
  | cons r l2 =>
    have hlive := h.live_mem (u := r) (by simp)
    have hidx : a.field r .index = noIndex := hr r rfl
    rw [List.headD_cons, if_neg (h.inv.ne_zero hlive), h.holds.get (h.tags r hlive), ok_bind, hidx]
    rfl

/-- Two neighbours are no longer than their arena. -/
theorem sum_lt {u : Nat} {l1 l2 : List Nat} {A : Arena} {As : List Arena}
    (h : LiballocInv a As bins S out) (hA : A ∈ As) (htags : A.tags = l1 ++ t :: u :: l2) :
    a.field t .realSize + a.field u .realSize < 2 ^ 32 := by
  have hbelow := h.below A hA
  have htiles := (h.ok A hA).tiles
  rw [htags] at htiles
  have hu := htiles.mem (t := u) (by simp)
  have hnext := htiles.next
  omega

/-- The free tag on the left takes the place of `t`. -/
theorem melt {l : Nat} (h : Growing m₀ T start pages rest out (l1 ++ [l]) t l2 s a bins S)
    (hl : a.field l .index < maxExp) :
    Returns (fun r => r.2 = l ∧ Returns (fun s' => ∃ a' bins' S',
      Growing m₀ T start pages rest out l1 l l2 s' a' bins' S' ∧
      ∀ u, u ≠ l → a'.field u .index = a.field u .index) (r.1.removeTag l)) (s.meltLeft t) := by
  have hlt : l ∈ (l1 ++ [l]) ++ t :: l2 := by simp
  have hsplit : a.field t .splitLeft = l := by
    rw [h.ok.splitLeft_eq, List.getLastD_concat]
  have hnd := h.ok.linked.nodup
  have hne : l ≠ t := by
    rintro rfl
    simp [List.nodup_append] at hnd
  have hTl := h.tags l (h.live_mem hlt)
  have hTt := h.tags t h.live
  have hshape : (l1 ++ [l]) ++ t :: l2 = l1 ++ l :: t :: l2 := by simp
  have hsum := sum_lt h.inv List.mem_cons_self hshape
  have hright : TagOrNull T (a.field t .splitRight) := fun h0 =>
    h.tags _ (h.live_mem (h.ok.splitRight_mem (by simp) h0))
  have hmelt : a.melt t = a.stretch l (a.field l .realSize + a.field t .realSize)
      (a.field t .splitRight) := by
    rw [TagHeap.melt, hsplit]
  have hkeep : ∀ u {g : TagField}, g.inList = true → (a.melt t).field u g = a.field u g :=
    fun u g hg => by rw [hmelt, a.field_stretch (TagField.not_inArena_of_inList hg)]
  have hlive := h.live_mem hlt
  have hlen : ((l1 ++ [l]) ++ t :: l2).length ≠ 1 := by
    simp only [List.length_append, List.length_cons, List.length_nil]
    omega
  obtain ⟨bins', hinv⟩ := h.inv.detach hlt rfl hl
  rw [TagHeap.detach, if_neg hlen, hshape] at hinv
  have hidx : ∀ u, (a.remove l).field u .index = if u = l then noIndex else a.field u .index :=
    fun u => a.index_remove
  have hinv := hinv.stretch ((hidx l).trans (if_pos rfl))
    ((hidx t).trans ((if_neg hne.symm).trans h.used)) List.mem_cons_self (.tail l h.mem)
  rw [a.field_remove l _ rfl, a.field_remove l _ rfl, a.field_remove l _ rfl, ← a.remove_stretch,
    ← hmelt] at hinv
  have hidx' : ∀ u, ((a.melt t).remove l).field u .index =
      if u = l then noIndex else a.field u .index := fun u => by
    rw [TagHeap.index_remove, hkeep u rfl]
  refine (h.holds.meltLeft hTt (hsplit.symm ▸ hTl) (hsplit.symm ▸ hne) hright
    (hsplit.symm ▸ hsum)).mono ?_
  rintro ⟨s, tag⟩ ⟨hs, htag⟩
  refine ⟨htag.trans hsplit, ?_⟩
  have hremoved : Returns (HoldsTags m₀ T ((a.melt t).remove l)) (s.removeTag l) := by
    refine hs.removeTag hTl (by rwa [hkeep l rfl]) ?_ ?_ ?_
    · rw [hkeep l rfl]
      exact fun h0 => h.tags _ (h.inv.binned.next_live hlive hl h0)
    · rw [hkeep l rfl]
      exact fun h0 => h.tags _ (h.inv.binned.prev_live hlive hl h0)
    · rw [hkeep l rfl]
      exact h.inv.binned.prev_ne hlive (h.inv.ne_zero hlive) hl
  have hsub : ∀ u, Live (⟨start, pages, l1 ++ l :: l2⟩ :: rest) u →
      Live (⟨start, pages, (l1 ++ [l]) ++ t :: l2⟩ :: rest) u ∧ u ≠ t := by
    intro u hu
    refine h.inv.live_without ?_
    rwa [List.append_assoc, List.singleton_append]
  refine hremoved.mono fun s' hs' => ⟨_, bins', l :: S, ⟨hs', hinv, fun u hu => h.tags u (hsub u hu).1,
    (hidx' l).trans (if_pos rfl), List.mem_cons_self, fun u hu hlu => ?_⟩, fun u hu =>
    (hidx' u).trans (if_neg hu)⟩
  cases hu with
  | head => rfl
  | tail _ hu => exact absurd (h.only u hu (hsub u hlu).1) (hsub u hlu).2

/-- The free tag on the right becomes part of `t`. -/
theorem absorb {r : Nat} (h : Growing m₀ T start pages rest out l1 t (r :: l2) s a bins S)
    (hr : a.field r .index < maxExp) :
    Returns (fun s' => ∃ a' bins' S', Growing m₀ T start pages rest out l1 t l2 s' a' bins' S' ∧
      ∀ u, u ≠ r → a'.field u .index = a.field u .index) (s.absorbRight t) := by
  have hrt : r ∈ l1 ++ t :: r :: l2 := by simp
  have hsplit : a.field t .splitRight = r := h.ok.splitRight_eq
  have hnd := h.ok.linked.nodup
  have hne : r ≠ t := by
    rintro rfl
    simp [List.nodup_append] at hnd
  have hTr := h.tags r (h.live_mem hrt)
  have hTt := h.tags t h.live
  have hlive := h.live_mem hrt
  have hsum := sum_lt h.inv List.mem_cons_self rfl
  have hlen : (l1 ++ t :: r :: l2).length ≠ 1 := by
    simp only [List.length_append, List.length_cons]
    omega
  have hidx : ∀ u, (a.remove r).field u .index = if u = r then noIndex else a.field u .index :=
    fun u => a.index_remove
  have hidx' : ∀ u, (a.absorb t).field u .index = if u = r then noIndex else a.field u .index := by
    intro u
    rw [TagHeap.absorb, hsplit, TagHeap.field_stretch _ rfl, hidx]
  obtain ⟨bins', hinv⟩ := h.inv.detach hrt rfl hr
  rw [TagHeap.detach, if_neg hlen] at hinv
  have hinv := hinv.stretch ((hidx t).trans ((if_neg hne.symm).trans h.used))
    ((hidx r).trans (if_pos rfl)) (.tail r h.mem) List.mem_cons_self
  have hholds : Returns (HoldsTags m₀ T (a.absorb t)) (s.absorbRight t) := by
    refine h.holds.absorbRight hTt hsplit hTr hne hr ?_ ?_ ?_ ?_ hsum
    · exact fun h0 => h.tags _ (h.inv.binned.next_live hlive hr h0)
    · exact fun h0 => h.tags _ (h.inv.binned.prev_live hlive hr h0)
    · exact h.inv.binned.prev_ne hlive (h.inv.ne_zero hlive) hr
    · exact fun h0 => h.tags _ (h.live_mem (h.ok.splitRight_mem hrt h0))
  have hsub : ∀ u, Live (⟨start, pages, l1 ++ t :: l2⟩ :: rest) u →
      Live (⟨start, pages, l1 ++ t :: r :: l2⟩ :: rest) u ∧ u ≠ r := by
    intro u hu
    have hinv : LiballocInv a (⟨start, pages, (l1 ++ [t]) ++ r :: l2⟩ :: rest) bins S out := by
      simpa using h.inv
    have hwithout := hinv.live_without (u := u) (by simpa using hu)
    simpa using hwithout
  refine hholds.mono fun s' hs' => ⟨a.absorb t, bins', r :: S, ⟨hs', ?_, fun u hu => h.tags u (hsub u hu).1,
    (hidx' t).trans ((if_neg hne.symm).trans h.used), .tail r h.mem, fun u hu hlu => ?_⟩, fun u hu =>
    (hidx' u).trans (if_neg hu)⟩
  · rw [TagHeap.absorb, hsplit]
    exact hinv
  · cases hu with
    | head => exact absurd rfl (hsub r hlu).2
    | tail _ hu => exact h.only u hu (hsub u hlu).1

theorem walkFuel_eq : ∃ k, walkFuel = k + 1 + 1 := ⟨2 ^ 64 - 2, by decide⟩

/-- No free tag is left on the left: if there was one, the next was used. -/
theorem meltLeftLoop (h : Growing m₀ T start pages rest out l1 t l2 s a bins S) :
    Returns (fun r => ∃ a' bins' S' l1', Growing m₀ T start pages rest out l1' r.2 l2 r.1 a' bins' S' ∧
      ∀ p ∈ l1'.getLast?, a'.field p .index = noIndex) (s.meltLeftLoop walkFuel t) := by
  obtain ⟨k, hk⟩ := walkFuel_eq
  rw [hk]
  by_cases hl : ∀ p ∈ l1.getLast?, a.field p .index = noIndex
  · rw [h.meltLeftLoop_stop hl]
    exact .ok ⟨a, bins, S, l1, h, hl⟩
  · cases l1 using List.reverseRecOn with
    | nil => exact absurd (by simp) hl
    | append_singleton l1 l =>
      have hlive := h.live_mem (u := l) (by simp)
      have hidx : a.field l .index < maxExp := by
        refine (h.inv.binned.index l hlive).resolve_left fun hn => hl fun p hp => ?_
        obtain rfl : l = p := by simpa using hp
        exact hn
      have hfree : a.field l .index < 2 ^ 31 := by
        unfold maxExp at hidx
        omega
      -- Two free neighbours would not have been left.
      have hbefore : ∀ p ∈ l1.getLast?, a.field p .index = noIndex := by
        intro p hp
        have hmelted := h.inv.melted _ List.mem_cons_self
        unfold Arena.Melted at hmelted
        rw [List.append_assoc, List.singleton_append, List.isChain_append] at hmelted
        refine (hmelted.2.2 p hp l rfl).resolve_right (ne_noIndex hidx)
      have hne : ∀ p ∈ l1.getLast?, p ≠ l := by
        rintro p hp rfl
        exact ne_noIndex hidx (hbefore p hp)
      rw [Liballoc.meltLeftLoop, h.holds.get (h.tags t h.live), ok_bind, h.ok.splitLeft_eq,
        List.getLastD_concat, if_neg (h.inv.ne_zero hlive), h.holds.get (h.tags l hlive), ok_bind,
        if_pos hfree]
      refine (h.melt hidx).bind ?_
      rintro ⟨s, tag⟩ ⟨rfl, hrem⟩
      refine hrem.bind ?_
      rintro s ⟨a', bins', S', h', hsame⟩
      have hbefore' : ∀ p ∈ l1.getLast?, a'.field p .index = noIndex := fun p hp =>
        (hsame p (hne p hp)).trans (hbefore p hp)
      rw [h'.meltLeftLoop_stop hbefore']
      exact .ok ⟨a', bins', S', l1, h', hbefore'⟩

theorem absorbRightLoop (h : Growing m₀ T start pages rest out l1 t l2 s a bins S)
    (hl : ∀ p ∈ l1.getLast?, a.field p .index = noIndex) :
    Returns (fun s' => ∃ a' bins' S' l2', Growing m₀ T start pages rest out l1 t l2' s' a' bins' S' ∧
      (∀ p ∈ l1.getLast?, a'.field p .index = noIndex) ∧
      ∀ p ∈ l2'.head?, a'.field p .index = noIndex) (s.absorbRightLoop t walkFuel) := by
  obtain ⟨k, hk⟩ := walkFuel_eq
  rw [hk]
  by_cases hr : ∀ p ∈ l2.head?, a.field p .index = noIndex
  · rw [h.absorbRightLoop_stop hr]
    exact .ok ⟨a, bins, S, l2, h, hl, hr⟩
  · cases l2 with
    | nil => exact absurd (by simp) hr
    | cons r l2 =>
      have hlive := h.live_mem (u := r) (by simp)
      have hidx : a.field r .index < maxExp := by
        refine (h.inv.binned.index r hlive).resolve_left fun hn => hr fun p hp => ?_
        obtain rfl : r = p := by simpa using hp
        exact hn
      have hfree : a.field r .index < 2 ^ 31 := by
        unfold maxExp at hidx
        omega
      have hbehind : ∀ p ∈ l2.head?, a.field p .index = noIndex := by
        intro p hp
        have hmelted := h.inv.melted _ List.mem_cons_self
        unfold Arena.Melted at hmelted
        rw [List.isChain_append, List.isChain_cons_cons, List.isChain_cons] at hmelted
        exact (hmelted.2.1.2.1 p hp).resolve_left (ne_noIndex hidx)
      have hne : ∀ p, a.field p .index = noIndex → p ≠ r := by
        rintro p hp rfl
        exact ne_noIndex hidx hp
      rw [Liballoc.absorbRightLoop, h.holds.get (h.tags t h.live), ok_bind, h.ok.splitRight_eq,
        List.headD_cons, if_neg (h.inv.ne_zero hlive), h.holds.get (h.tags r hlive), ok_bind,
        if_pos hfree]
      refine (h.absorb hidx).bind ?_
      rintro s ⟨a', bins', S', h', hsame⟩
      have hsame' : ∀ p, a.field p .index = noIndex → a'.field p .index = noIndex := fun p hp =>
        (hsame p (hne p hp)).trans hp
      rw [h'.absorbRightLoop_stop fun p hp => hsame' p (hbehind p hp)]
      exact .ok ⟨a', bins', S', l2, h', fun p hp => hsame' p (hl p hp), fun p hp => hsame' p (hbehind p hp)⟩

/-- Whoever is left of the tags in `S` is the tag itself, and this is on a list again. -/
theorem settled {i : Nat} {A : Arena} (h : Growing m₀ T start pages rest out l1 t l2 s a bins S)
    (hi : i < maxExp) {bins' : Nat → List Nat}
    (hinv : LiballocInv (a.attach A t i) (⟨start, pages, l1 ++ t :: l2⟩ :: rest) bins' S out) :
    LiballocInv (a.attach A t i) (⟨start, pages, l1 ++ t :: l2⟩ :: rest) bins' [] out := by
  refine hinv.settle fun u hu hlive => ?_
  rw [h.only u hu hlive, a.field_attach, a.index_insert, if_pos rfl]
  exact ne_noIndex hi

/-- What has been put in order, with the bytes there as before. -/
theorem heapState {a' : TagHeap} {As : List Arena} {bins' : Nat → List Nat} {s' : Liballoc}
    (hs : HoldsTags m₀ T a' s') (hinv : LiballocInv a' As bins' [] out) (hT : ∀ u, Live As u → u ∈ T)
    (hmap : ∀ A ∈ As, m₀.Mapped A.start (A.pages * lPageSize)) : HeapState s' out :=
  ⟨a', As, bins', hs.rebase fun u hu => hT u (mem_allTags.mp hu), hinv, fun A hA =>
    (hmap A hA).of_there hs.there⟩

/-- An arena that is one tag is as long as this. -/
theorem alone (h : Growing m₀ T start pages rest out [] t [] s a bins S) :
    start = t ∧ a.field t .realSize = pages * lPageSize := by
  obtain ⟨hst, -, hreal⟩ := h.ok.tiles
  have hst : start = t := hst
  have hreal : t + a.field t .realSize = start + pages * lPageSize := hreal
  exact ⟨hst, by omega⟩

/-- The pages that `free` returns are those that it has got. -/
theorem pages_of_size (h : lPageCount ≤ pages) :
    (if (if pages * lPageSize % lPageSize ≠ 0 then pages * lPageSize / lPageSize + 1
        else pages * lPageSize / lPageSize) < lPageCount then lPageCount
      else if pages * lPageSize % lPageSize ≠ 0 then pages * lPageSize / lPageSize + 1
        else pages * lPageSize / lPageSize) = pages := by
  rw [Nat.mul_mod_left, Nat.mul_div_cancel pages (by decide), if_neg (not_not.mpr rfl),
    if_neg (Nat.not_lt.mpr h)]

/-- The arena goes back to the page provider. -/
theorem giveBack {P : PageProvider} (h : Growing m₀ T start pages rest out [] t [] s a bins S)
    (hP : P.Honest)
    (hmap : ∀ A ∈ (⟨start, pages, [t]⟩ :: rest : List Arena),
      m₀.Mapped A.start (A.pages * lPageSize)) :
    HeapState { s with mem := P.free s.mem start pages, calls := .free start pages :: s.calls } out ∧
      ∀ x, (∀ w ∈ T, x < w ∨ w + tagSize ≤ x) →
        (([] : List Nat) = [] → ([] : List Nat) = [] → x < start ∨ start + pages * lPageSize ≤ x) →
        (P.free s.mem start pages).byte x = m₀.byte x := by
  have hinv := (h.inv.release h.used h.mem).settle fun u hu hlive =>
    absurd (h.only u hu (live_cons.mpr (.inr hlive))) fun hut =>
      h.inv.not_mem_rest (t := t) (by simp) (hut ▸ hlive)
  have houtside : ∀ B ∈ rest, ∀ x, B.start ≤ x → x < B.stop →
      (P.free s.mem start pages).byte x = s.mem.byte x := by
    intro B hB x hx hx'
    have hsep := (List.pairwise_cons.mp h.inv.apart).1 B hB
    unfold Arena.Separate at hsep
    simp only [Arena.stop] at hsep hx'
    rw [hP.free, if_neg (by omega)]
  refine ⟨⟨_, rest, bins, h.holds.remem (fun u hu => h.tags u (live_cons.mpr
    (.inr (mem_allTags.mp hu)))) (fun u hu x hx hx' => ?_) _, ?_, fun B hB i hi => ?_⟩, fun x hx hx' => ?_⟩
  · obtain ⟨B, hB, huB⟩ := mem_allTags.mp hu
    have hbounds := h.inv.tag_bounds (.tail _ hB) huB
    exact houtside B hB x (by omega) (by omega)
  · rw [h.holds.log]
    exact hinv
  · obtain ⟨c, hc⟩ := ((hmap B (.tail _ hB)).of_there h.holds.there) i hi
    exact ⟨c, (houtside B hB _ (by omega) (by simp only [Arena.stop]; omega)).trans hc⟩
  · have hsplit := hx' rfl rfl
    rw [hP.free, if_neg (by omega), h.holds.frame x hx]

/-- The tag has grown as far as it can: back on a list with it, or its arena is given back. -/
theorem returnTag {P : PageProvider} (h : Growing m₀ T start pages rest out l1 t l2 s a bins S)
    (hP : P.Honest) (hl : ∀ p ∈ l1.getLast?, a.field p .index = noIndex)
    (hr : ∀ p ∈ l2.head?, a.field p .index = noIndex)
    (hmap : ∀ A ∈ (⟨start, pages, l1 ++ t :: l2⟩ :: rest : List Arena),
      m₀.Mapped A.start (A.pages * lPageSize)) :
    Returns (fun s' => HeapState s' out ∧ ∀ x, (∀ w ∈ T, x < w ∨ w + tagSize ≤ x) →
      (l1 = [] → l2 = [] → x < start ∨ start + pages * lPageSize ≤ x) → s'.mem.byte x = m₀.byte x)
      (s.returnTag P t) := by
  have hTt := h.tags t h.live
  obtain ⟨i, hi⟩ : ∃ i, i = listIndex (wrap32 (sub64 (a.field t .realSize) tagSize)) := ⟨_, rfl⟩
  have hlist : i < maxExp := hi ▸ listIndex_lt _
  have hsize : i = listIndex (a.field t .realSize - tagSize) := by
    have hlt := h.inv.tag_lt h.live
    rw [hi, sub64_of_le hlt.2 (by omega), wrap32, Nat.mod_eq_of_lt (by omega)]
  -- Both branches that keep the tag end like this.
  have hkeep : ∀ {n : Nat} {s₁ : Liballoc}, (l1 ++ t :: l2).length = n → (n = 1 → a.completePages i < maxComplete) →
      HoldsTags m₀ T (if n = 1 then a.addComplete i 1 else a) s₁ →
      Returns (fun s' => HeapState s' out ∧ ∀ x, (∀ w ∈ T, x < w ∨ w + tagSize ≤ x) →
        (l1 = [] → l2 = [] → x < start ∨ start + pages * lPageSize ≤ x) → s'.mem.byte x = m₀.byte x)
        (s₁.insertTag t (some i)) := by
    intro n s₁ hn hlt hs₁
    obtain ⟨bins', hinv⟩ := h.inv.attach rfl h.used h.mem hlist hsize hl hr fun hone => hlt (hn ▸ hone)
    have hfirst : TagOrNull T (a.freePages i) := fun h0 => h.tags _ (h.inv.binned.head_live hlist h0)
    have hdone : Returns (HoldsTags m₀ T (a.attach ⟨start, pages, l1 ++ t :: l2⟩ t i))
        (s₁.insertTag t (some i)) := by
      rw [TagHeap.attach, hn]
      split at hs₁
      · rename_i hone
        rw [if_pos hone]
        exact hs₁.insertTag hTt hlist hfirst
      · rename_i hone
        rw [if_neg hone]
        exact hs₁.insertTag hTt hlist hfirst
    refine hdone.mono fun s' hs' => ⟨heapState hs' (h.settled hlist hinv) h.tags hmap, fun x hx _ => ?_⟩
    exact hs'.frame x hx
  refine .bind_ok (h.holds.get hTt .realSize) (.bind_ok (h.holds.get hTt .splitLeft)
    (.bind_ok (h.holds.get hTt .splitRight) ?_))
  rw [← hi]
  by_cases hone : (l1 ++ t :: l2).length = 1
  · rw [if_pos ((h.ok.alone_iff (by simp)).mpr hone)]
    refine .bind_ok (h.holds.completePages_eq hlist) ?_
    by_cases hfull : a.completePages i = maxComplete
    · rw [if_pos hfull]
      have hlen : l1.length = 0 ∧ l2.length = 0 := by
        simp only [List.length_append, List.length_cons] at hone
        omega
      obtain rfl := List.length_eq_zero_iff.mp hlen.1
      obtain rfl := List.length_eq_zero_iff.mp hlen.2
      have htiles : start = t ∧ a.field t .realSize = pages * lPageSize := h.alone
      dsimp only
      rw [htiles.2, pages_of_size (h.inv.pages _ List.mem_cons_self), ← htiles.1]
      exact .ok (h.giveBack hP hmap)
    · rw [if_neg hfull]
      refine (h.holds.addComplete hlist 1).bind fun s₁ hs₁ => hkeep hone (fun _ => ?_) (by rwa [if_pos rfl])
      exact lt_of_le_of_ne (h.inv.kept i hlist) hfull
  · rw [if_neg fun h0 => hone ((h.ok.alone_iff (by simp)).mp h0)]
    exact hkeep rfl (fun h1 => absurd h1 hone) (by rw [if_neg hone]; exact h.holds)

/-- Other blocks are not in the arena that is one tag of nobody. -/
theorem block_outside {p n x : Nat} (h : Growing m₀ T start pages rest out [] t [] s a bins S)
    (hp : (p, n) ∈ out) (hx : p ≤ x ∧ x < p + n) : x < start ∨ start + pages * lPageSize ≤ x := by
  obtain ⟨v, hv, hn, hvS, rfl, rfl⟩ := (h.inv.blocks.mem p n).mp hp
  have hfits := h.inv.blocks.fits v hv hn hvS
  obtain hvt | ⟨B, hB, hvB⟩ := live_cons.mp hv
  · exact absurd (List.mem_singleton.mp hvt ▸ h.mem) hvS
  · have hbounds := h.inv.tag_bounds (.tail _ hB) hvB
    have hsep := (List.pairwise_cons.mp h.inv.apart).1 B hB
    unfold Arena.Separate at hsep
    simp only [Arena.stop] at hsep hbounds
    omega

end Growing

namespace LiballocInv

variable {a : TagHeap} {As : List Arena} {bins : Nat → List Nat} {S : List Nat}
  {out : Finset (Nat × Nat)} {t p n x : Nat}

/-- No byte of a block is in a tag. -/
theorem block_not_in_tag (h : LiballocInv a As bins S out) (hp : (p, n) ∈ out) (hx : p ≤ x ∧ x < p + n)
    (ht : Live As t) : x < t ∨ t + tagSize ≤ x := by
  obtain ⟨v, hv, hn, hvS, rfl, rfl⟩ := (h.blocks.mem p n).mp hp
  have hfits := h.blocks.fits v hv hn hvS
  have hroomy := (h.tag_lt ht).2
  have hapart := h.tags_apart hv ht
  obtain rfl | hapart := hapart <;> omega

/-- No byte of a block is in what a tag of nobody has. -/
theorem block_outside (h : LiballocInv a As bins S out) (hp : (p, n) ∈ out) (hx : p ≤ x ∧ x < p + n)
    (ht : Live As t) (htS : t ∈ S) : x < t ∨ t + a.field t .realSize ≤ x := by
  obtain ⟨v, hv, hn, hvS, rfl, rfl⟩ := (h.blocks.mem p n).mp hp
  have hfits := h.blocks.fits v hv hn hvS
  obtain rfl | hapart := h.tags_apart hv ht
  · exact absurd htS hvS
  · omega

/-- A tag of nobody is not the tag of a block. -/
theorem not_block (h : LiballocInv a As bins S out) (htS : t ∈ S) (m : Nat) : (t + tagSize, m) ∉ out := by
  intro hp
  obtain ⟨v, -, -, hvS, hvt, -⟩ := (h.blocks.mem _ m).mp hp
  exact hvS (Nat.add_right_cancel hvt ▸ htS)

/-- An arena, opened at one of its tags. -/
theorem at_tag (h : LiballocInv a As bins S out) (ht : Live As t) :
    ∃ start pages l1 l2 rest, As.Perm (⟨start, pages, l1 ++ t :: l2⟩ :: rest) ∧
      LiballocInv a (⟨start, pages, l1 ++ t :: l2⟩ :: rest) bins S out := by
  obtain ⟨⟨start, pages, ts⟩, hA, htA⟩ := ht
  obtain ⟨l1, l2, rfl⟩ := List.append_of_mem htA
  have hperm := List.perm_cons_erase hA
  exact ⟨start, pages, l1, l2, _, hperm, h.perm hperm⟩

end LiballocInv

/-! ## `free` -/

theorem HeapState.free_spec {P : PageProvider} {s : Liballoc} {out : Finset (Nat × Nat)} {p n : Nat}
    (h : HeapState s out) (hP : P.Honest) (hp : (p, n) ∈ out) :
    Returns (fun s' => HeapState s' (out.erase (p, n)) ∧ SameBlocks (out.erase (p, n)) s.mem s'.mem)
      (s.free P p) := by
  obtain ⟨a, As, bins, hs, hinv, hmap⟩ := h
  obtain ⟨t, ht, hn, -, rfl, rfl⟩ := (hinv.blocks.mem p n).mp hp
  have hlt := hinv.tag_lt ht
  have htag : sub64 (wrap32 (t + tagSize)) tagSize = t := by
    rw [wrap32, Nat.mod_eq_of_lt (by omega), sub64_of_le (by omega) (by omega), Nat.add_sub_cancel]
  have hTt := mem_allTags.mpr ht
  have houtside : ∀ {q m x : Nat}, (q, m) ∈ out.erase (t + tagSize, a.field t .size) →
      q ≤ x → x < q + m → ∀ w ∈ allTags As, x < w ∨ w + tagSize ≤ x := fun hq hx hx' w hw =>
    hinv.block_not_in_tag (Finset.mem_of_mem_erase hq) ⟨hx, hx'⟩ (mem_allTags.mp hw)
  obtain ⟨start, pages, l1, l2, rest, hperm, hinv'⟩ := (hinv.disown ht hn).at_tag ht
  have hgrow : Growing s.mem (allTags As) start pages rest (out.erase (t + tagSize, a.field t .size))
      l1 t l2 s a bins [t] :=
    ⟨hs, hinv', fun u hu => mem_allTags.mpr ((live_perm hperm u).mpr hu), hn, List.mem_singleton.mpr rfl,
      fun u hu _ => List.mem_singleton.mp hu⟩
  rw [Liballoc.free, if_neg (by unfold tagSize; omega)]
  dsimp only
  rw [htag]
  refine .bind_ok (hs.get hTt .magic) ?_
  rw [if_neg (not_not.mpr (hinv.magic t ht))]
  refine hgrow.meltLeftLoop.bind ?_
  rintro ⟨s₁, t₁⟩ ⟨a₁, bins₁, S₁, k1, h₁, hl₁⟩
  refine (h₁.absorbRightLoop hl₁).bind ?_
  rintro s₂ ⟨a₂, bins₂, S₂, k2, h₂, hl₂, hr₂⟩
  refine (h₂.returnTag hP hl₂ hr₂ fun A hA => ?_).mono ?_
  · cases hA with
    | head => exact hmap ⟨start, pages, l1 ++ t :: l2⟩ (hperm.mem_iff.mpr List.mem_cons_self)
    | tail _ hA => exact hmap A (hperm.mem_iff.mpr (.tail _ hA))
  · rintro s' ⟨hstate, hbytes⟩
    refine ⟨hstate, fun q m hq x hx hx' => hbytes x (houtside hq hx hx') ?_⟩
    rintro rfl rfl
    exact h₂.block_outside hq ⟨hx, hx'⟩

/-! ## `malloc` -/

namespace LiballocInv

variable {m₀ : ByteMem} {T : List Nat} {s : Liballoc} {a : TagHeap} {As rest : List Arena}
  {bins : Nat → List Nat} {S : List Nat} {out : Finset (Nat × Nat)} {t u i n start pages : Nat}
  {l1 l2 : List Nat}

/-- The walk along a list ends at a tag with room enough, or at its end. -/
theorem findTag_spec (h : LiballocInv a As bins S out) (hs : HoldsTags m₀ T a s)
    (hT : ∀ t, Live As t → t ∈ T) (hi : i < maxExp) (hn : n + tagSize < 2 ^ 32) {k1 k2 : List Nat}
    (hb : bins i = k1 ++ k2) {fuel : Nat} (hfuel : k2.length < fuel) :
    Returns (fun t => t = 0 ∨ t ∈ bins i ∧ n + 2 * tagSize ≤ a.field t .realSize)
      (s.findTag n fuel (k2.headD 0)) := by
  induction k2 generalizing k1 fuel with
  | nil =>
    cases fuel with
    | zero => cases hfuel
    | succ fuel => exact .ok (.inl rfl)
  | cons t k2 ih =>
    cases fuel with
    | zero => cases hfuel
    | succ fuel =>
      have hmem : t ∈ bins i := by simp [hb]
      have hlive := ((h.binned.mem i hi t).mp hmem).1
      have hlink := h.binned.linked i hi
      rw [hb] at hlink
      have hroomy := h.tag_lt hlive
      unfold tagSize at hn hroomy
      rw [List.headD_cons, Liballoc.findTag, if_neg (h.ne_zero hlive), hs.get (hT t hlive), ok_bind]
      by_cases hfit : sub64 (a.field t .realSize) tagSize ≥ wrap64 (n + tagSize)
      · rw [if_pos hfit]
        unfold tagSize at hfit
        rw [sub64_of_le hroomy.2 (by omega), wrap64_of_lt (by omega)] at hfit
        unfold tagSize
        exact .ok (.inr ⟨hmem, by omega⟩)
      · rw [if_neg hfit, hs.get (hT t hlive), ok_bind, hlink.next_eq]
        exact ih (show bins i = (k1 ++ [t]) ++ k2 by simpa using hb) (by simpa using hfuel)

/-- No list is as long as there are addresses. -/
theorem bin_length (h : LiballocInv a As bins S out) (hi : i < maxExp) : (bins i).length < walkFuel := by
  have hle := (h.binned.linked i hi).forth.length_le (n := 2 ^ 32) fun t ht => by
    have hlt := h.tag_lt ((h.binned.mem i hi t).mp ht).1
    omega
  unfold walkFuel
  omega

end LiballocInv

/-- A remainder that counts as positive is one: the others wrap around to negative numbers. -/
theorem room_of_remainder {real n : Nat} (hfits : n + tagSize ≤ real) (hreal : real < 2 ^ 32)
    (h : wrap32 (sub64 (sub64 real n) (tagSize * 2)) < 2 ^ 31) : 2 * tagSize + n ≤ real := by
  unfold tagSize at *
  have hrest : sub64 real n = real - n := sub64_of_le (by omega) (by omega)
  rw [hrest] at h
  by_contra hlt
  unfold sub64 wrap64 wrap32 at h
  omega

theorem TagHeap.insert_set_index (a : TagHeap) (t v i : Nat) :
    (a.set t .index v).insert t i = a.insert t i := by
  have hset : (a.set t .index v).set t .index i = a.set t .index i := by
    refine TagHeap.ext (funext fun u => funext fun g => ?_) rfl rfl rfl
    simp only [field_set]
    split <;> rfl
  rw [insert, insert, hset]
  rfl

/-- The blocks depend on the tags there are. -/
theorem Blocks.congr {a a' : TagHeap} {As : List Arena} {S : List Nat} {out : Finset (Nat × Nat)}
    (h : Blocks a As S out) (he : ∀ t, Live As t → a'.field t = a.field t) : Blocks a' As S out := by
  refine ⟨fun p n => ?_, fun t ht hn hS => ?_⟩
  · rw [h.mem]
    exact exists_congr fun t => and_congr_right fun ht => by rw [he t ht]
  · rw [he t ht] at hn ⊢
    exact h.fits t ht hn hS

section Taking

variable {m₀ : ByteMem} {T : List Nat} {s : Liballoc} {a : TagHeap} {rest : List Arena}
  {bins : Nat → List Nat} {out : Finset (Nat × Nat)} {t n start pages : Nat} {l1 l2 : List Nat}

/-- The new tag lies inside the block that is cut. -/
theorem new_tag_apart (h : LiballocInv a (⟨start, pages, l1 ++ t :: l2⟩ :: rest) bins [] out)
    (hroom : 2 * tagSize + a.field t .size ≤ a.field t .realSize) {w : Nat}
    (hw : Live (⟨start, pages, l1 ++ t :: l2⟩ :: rest) w) :
    w + tagSize ≤ t + tagSize + a.field t .size ∨ t + tagSize + a.field t .size + tagSize ≤ w := by
  have hapart := h.tags_apart (LiballocInv.head_live (t := t) (by simp)) hw
  have hroomy := (h.tag_lt hw).2
  unfold tagSize at *
  obtain rfl | hapart := hapart <;> omega

/-- What a tag has too much becomes a free tag. -/
theorem splitTag_spec (hs : HoldsTags m₀ T a s)
    (h : LiballocInv a (⟨start, pages, l1 ++ t :: l2⟩ :: rest) bins [] out)
    (hT : ∀ u, u ∈ T ↔ Live (⟨start, pages, l1 ++ t :: l2⟩ :: rest) u)
    (ht : a.field t .index = noIndex) (hr : ∀ p ∈ l2.head?, a.field p .index = noIndex)
    (hroom : 2 * tagSize + a.field t .size ≤ a.field t .realSize) (hmap : ∀ A ∈
      (⟨start, pages, l1 ++ t :: l2⟩ :: rest : List Arena), m₀.Mapped A.start (A.pages * lPageSize)) :
    Returns (fun s' => HeapState s' out ∧ SameMapped m₀ s'.mem ∧
      ∀ x, (∀ w ∈ T, x < w ∨ w + tagSize ≤ x) → (x < t ∨ t + a.field t .realSize ≤ x) →
        s'.mem.byte x = m₀.byte x) (s.splitTag t) := by
  have hlive : Live (⟨start, pages, l1 ++ t :: l2⟩ :: rest) t := LiballocInv.head_live (by simp)
  have hlt := h.tag_lt hlive
  have hin := h.tag_bounds List.mem_cons_self (t := t) (by simp)
  simp only [Arena.stop] at hin
  obtain ⟨u, hu⟩ : ∃ u, u = t + tagSize + a.field t .size := ⟨_, rfl⟩
  have hnear : ∀ w, Live (⟨start, pages, l1 ++ t :: l2⟩ :: rest) w →
      w + tagSize ≤ u ∨ u + tagSize ≤ w := fun w hw => hu ▸ new_tag_apart h hroom hw
  have hne : ∀ w, Live (⟨start, pages, l1 ++ t :: l2⟩ :: rest) w → w ≠ u := by
    rintro w hw rfl
    have hww := hnear w hw
    unfold tagSize at hww
    omega
  have humap : s.mem.Mapped u tagSize := by
    have harena : s.mem.Mapped start (pages * lPageSize) :=
      (hmap _ List.mem_cons_self).of_there hs.there
    unfold tagSize at *
    exact harena.mono (by omega) (by omega)
  have hs := hs.grow humap fun w hw => .inr (hnear w ((hT w).mp hw))
  obtain ⟨b, hb⟩ : ∃ b, b = a.reread u s.mem := ⟨_, rfl⟩
  have hbfield : ∀ w, Live (⟨start, pages, l1 ++ t :: l2⟩ :: rest) w → b.field w = a.field w :=
    fun w hw => hb ▸ HoldsTags.field_reread (hne w hw) s.mem
  rw [← hb] at hs
  have h : LiballocInv b (⟨start, pages, l1 ++ t :: l2⟩ :: rest) bins [] out :=
    h.congr (fun w hw g _ => congrFun (hbfield w hw) g) (by rw [hb]; rfl) (by rw [hb]; rfl)
      (by rw [hb]; rfl) (h.blocks.congr hbfield)
  rw [← hbfield t hlive] at hu hroom ht
  obtain ⟨i, hi⟩ : ∃ i, i = listIndex (b.field t .realSize - 2 * tagSize - b.field t .size) := ⟨_, rfl⟩
  have hlist : i < maxExp := hi ▸ listIndex_lt _
  have hindex : ∀ w, w ≠ u → ((b.split t u).set u .index noIndex).field w .index = b.field w .index :=
    fun w hw => (TagHeap.field_set_tag _ hw _ _ _).trans (b.field_split rfl hw)
  have htu : t ≠ u := hne t hlive
  have hsize : i = listIndex (((b.split t u).set u .index noIndex).field u .realSize - tagSize) := by
    rw [TagHeap.field_set_field _ (by decide), b.realSize_split htu, if_neg htu.symm, if_pos rfl, hi]
    congr 1
    omega
  obtain ⟨bins', hinv⟩ := (h.split ht hu hroom).attach
    (show l1 ++ t :: u :: l2 = (l1 ++ [t]) ++ u :: l2 by simp) (by simp) List.mem_cons_self hlist hsize (fun p hp => by
      obtain rfl : t = p := by simpa using hp
      rw [hindex t (hne t hlive), ht]) (fun p hp => by
      have hp' : Live (⟨start, pages, l1 ++ t :: l2⟩ :: rest) p :=
        LiballocInv.head_live (by simp [List.mem_of_head? hp])
      rw [hindex p (hne p hp'), hbfield p hp', hr p hp])
    fun hone => by
      simp only [List.length_append, List.length_cons] at hone
      omega
  have hlen : (l1 ++ t :: u :: l2).length ≠ 1 := by
    simp only [List.length_append, List.length_cons]
    omega
  rw [TagHeap.attach, if_neg hlen, TagHeap.insert_set_index] at hinv
  have hinv := hinv.settle fun w hw _ => by
    obtain rfl := List.mem_singleton.mp hw
    rw [TagHeap.index_insert, if_pos rfl]
    exact ne_noIndex hlist
  have hdone : Returns (HoldsTags m₀ (u :: T) ((b.split t u).insert u i)) (s.splitTag t) := by
    refine hs.splitTag (.tail u ((hT t).mpr hlive)) List.mem_cons_self hu (by omega) hroom (fun h0 => ?_)
      hlist hi.symm fun h0 => .tail u ((hT _).mpr (h.binned.head_live hlist h0))
    exact .tail u ((hT _).mpr (LiballocInv.head_live
      ((h.ok _ List.mem_cons_self).splitRight_mem (by simp) h0)))
  refine hdone.mono fun s' hs' => ⟨Growing.heapState hs' hinv (fun w hw => ?_) fun A hA => ?_,
    hs'.there, fun x hx hx' => hs'.frame x fun w hw => ?_⟩
  · by_cases hwu : w = u
    · exact hwu ▸ List.mem_cons_self
    · refine .tail u ((hT w).mpr (live_cons.mpr ((live_cons.mp hw).imp_left fun hm => ?_)))
      simp only [List.mem_append, List.mem_cons] at hm ⊢
      exact hm.imp_right fun hm => hm.imp_right fun hm => hm.resolve_left hwu
  · cases hA with
    | head => exact hmap ⟨start, pages, l1 ++ t :: l2⟩ List.mem_cons_self
    | tail _ hA => exact hmap A (.tail _ hA)
  · cases hw with
    | head =>
      rw [hbfield t hlive] at hu hroom
      unfold tagSize at *
      omega
    | tail _ hw => exact hx w hw

/-- A tag of nobody becomes a block of `n` bytes. -/
theorem takeTag_spec (hs : HoldsTags m₀ T a s)
    (h : LiballocInv a (⟨start, pages, l1 ++ t :: l2⟩ :: rest) bins [t] out)
    (hT : ∀ u, u ∈ T ↔ Live (⟨start, pages, l1 ++ t :: l2⟩ :: rest) u)
    (ht : a.field t .index = noIndex) (hr : ∀ p ∈ l2.head?, a.field p .index = noIndex)
    (hfits : n + tagSize ≤ a.field t .realSize) (hmap : ∀ A ∈
      (⟨start, pages, l1 ++ t :: l2⟩ :: rest : List Arena), m₀.Mapped A.start (A.pages * lPageSize)) :
    Returns (fun r => r.2 = t + tagSize ∧ HeapState r.1 (insert (t + tagSize, n) out) ∧
      SameMapped m₀ r.1.mem ∧ ∀ x, (∀ w ∈ T, x < w ∨ w + tagSize ≤ x) → (x < t ∨ t + a.field t .realSize ≤ x) →
        r.1.mem.byte x = m₀.byte x) (s.takeTag t n) := by
  have hlive : Live (⟨start, pages, l1 ++ t :: l2⟩ :: rest) t := LiballocInv.head_live (by simp)
  have hTt := (hT t).mpr hlive
  have hlt := h.tag_lt hlive
  have hwrap : wrap32 t = t := Nat.mod_eq_of_lt (by omega)
  have hadopt := h.adopt hlive List.not_mem_nil ht hfits
  have hother : ∀ u {g : TagField}, g ≠ .size → (a.set t .size n).field u g = a.field u g :=
    fun u _ hg => a.field_set_field hg t n u
  rw [Liballoc.takeTag]
  refine (hs.put hTt .size (show n < 256 ^ 4 by omega)).bind fun s₁ hs₁ => ?_
  refine .bind_ok (hs₁.get hTt .realSize) ?_
  rw [hother t (by decide), hwrap]
  dsimp only
  split
  · rename_i hcut
    have hroom := room_of_remainder hfits (by omega) hcut.2.1
    refine (splitTag_spec hs₁ hadopt hT ((hother t (by decide)).trans ht) (fun p hp =>
      (hother p (by decide)).trans (hr p hp)) ?_ hmap).bind fun s₂ h₂ => .ok ⟨rfl, h₂.1, h₂.2.1,
      fun x hx hx' => h₂.2.2 x hx (by rwa [hother t (by decide)])⟩
    rw [hother (g := .realSize) t (by decide)]
    simpa using hroom
  · exact .ok ⟨rfl, Growing.heapState hs₁ hadopt (fun u hu => (hT u).mpr hu) hmap, hs₁.there,
      fun x hx _ => hs₁.frame x hx⟩

end Taking

section Allocating

variable {P : PageProvider} {T : List Nat} {s : Liballoc} {a : TagHeap} {As : List Arena}
  {bins : Nat → List Nat} {out : Finset (Nat × Nat)} {n : Nat}

/-- Pages enough for a tag and `n` bytes. -/
theorem le_pagesFor (hn : n + tagSize < 2 ^ 32) :
    n + tagSize ≤ Liballoc.pagesFor n * lPageSize ∧ lPageCount ≤ Liballoc.pagesFor n := by
  have hwrap : wrap32 (n + tagSize) = n + tagSize := Nat.mod_eq_of_lt hn
  unfold Liballoc.pagesFor lPageSize lPageCount
  rw [hwrap]
  dsimp only
  split <;> split <;> omega

/-- Where there were no bytes there was no arena. -/
theorem fresh_separate {m : ByteMem} {r : ByteMem × Nat} {pages : Nat} {B : Arena}
    (hfresh : m.Fresh r (pages * lPageSize)) (hpages : lPageCount ≤ pages)
    (hB : lPageCount ≤ B.pages) (hmap : m.Mapped B.start (B.pages * lPageSize)) :
    Arena.Separate ⟨r.2, pages, [r.2]⟩ B := by
  unfold Arena.Separate Arena.stop
  dsimp only
  unfold lPageCount at hpages hB
  unfold lPageSize at *
  by_contra hmeet
  -- The later of the two starts is in both.
  by_cases hle : r.2 ≤ B.start
  · obtain ⟨c, hc⟩ := hmap 0 (by omega)
    have hout := hfresh.outside hc
    omega
  · obtain ⟨c, hc⟩ := hmap (r.2 - B.start) (by omega)
    have hout := hfresh.outside hc
    omega

/-- A new arena is one used tag, or there are no pages. -/
theorem allocateNewTag_spec (hP : P.Honest) (hs : HoldsTags s.mem (allTags As) a s)
    (h : LiballocInv a As bins [] out) (hmap : ∀ A ∈ As, s.mem.Mapped A.start (A.pages * lPageSize))
    (hn : n + tagSize < 2 ^ 32) :
    Returns (fun r => r = (s, 0) ∧ (P.alloc s.mem (Liballoc.pagesFor n)).2 = 0 ∨ ∃ m b, r.2 ≠ 0 ∧
      P.alloc s.mem (Liballoc.pagesFor n) = (m, r.2) ∧
      s.mem.Fresh (m, r.2) (Liballoc.pagesFor n * lPageSize) ∧ HoldsTags m (r.2 :: allTags As) b r.1 ∧
      LiballocInv b (⟨r.2, Liballoc.pagesFor n, [r.2]⟩ :: As) bins [r.2] out ∧
      b.field r.2 .index = noIndex ∧ b.field r.2 .realSize = Liballoc.pagesFor n * lPageSize)
      (Liballoc.allocateNewTag P s n) := by
  obtain ⟨m, t, hprovider⟩ : ∃ m t, P.alloc s.mem (Liballoc.pagesFor n) = (m, t) := ⟨_, _, rfl⟩
  have hhonest := hP.alloc s.mem (Liballoc.pagesFor n)
  rw [hprovider] at hhonest
  simp only [Liballoc.allocateNewTag, hprovider]
  obtain hnull | ⟨ht0, hfresh, hbelow⟩ := hhonest
  · obtain ⟨rfl, rfl⟩ := Prod.mk.inj hnull
    rw [if_pos rfl]
    exact .ok (.inl ⟨rfl, rfl⟩)
  · rw [if_neg ht0]
    obtain ⟨hpages, hcount⟩ := le_pagesFor hn
    have hreal : wrap32 (Liballoc.pagesFor n * lPageSize) = Liballoc.pagesFor n * lPageSize :=
      Nat.mod_eq_of_lt (by omega)
    have hreal4 : wrap32 (Liballoc.pagesFor n * lPageSize) < 256 ^ 4 := Nat.mod_lt _ (by decide)
    -- No tag is where there were no bytes.
    have hnear : ∀ w, Live As w → w + tagSize ≤ t ∨ t + Liballoc.pagesFor n * lPageSize ≤ w := by
      intro w hw
      have hmapped := hs.mapped w (mem_allTags.mpr hw)
      obtain ⟨c, hc⟩ := hmapped 0 (by decide)
      have hout := hfresh.outside hc
      by_contra hmeet
      obtain ⟨c', hc'⟩ := hmapped (t - w) (by omega)
      have hout' := hfresh.outside hc'
      dsimp only at hout hout' hmeet
      omega
    have hroom : tagSize ≤ Liballoc.pagesFor n * lPageSize := by omega
    have hsame : ∀ w ∈ allTags As, ∀ x, w ≤ x → x < w + tagSize → m.byte x = s.mem.byte x := by
      intro w hw x hx hx'
      refine hfresh.frame x ?_
      have hwt := hnear w (mem_allTags.mp hw)
      dsimp only
      omega
    have hs₁ := (hs.remem (List.Subset.refl _) hsame (.alloc t (Liballoc.pagesFor n) :: s.calls)).grow
      (hfresh.mapped.mono (Nat.le_refl t) (Nat.add_le_add_left hroom t)) fun w hw => .inr (by
        have hwt := hnear w (mem_allTags.mp hw)
        omega)
    obtain ⟨b, hb⟩ : ∃ b, b = ({ a with calls := .alloc t (Liballoc.pagesFor n) :: s.calls } : TagHeap).reread
      t m := ⟨_, rfl⟩
    have hne : ∀ w, Live As w → w ≠ t := by
      rintro w hw rfl
      have hww := hnear w hw
      unfold tagSize at hww hroom
      omega
    have htt : t ∈ t :: allTags As := List.mem_cons_self
    have hinv : LiballocInv (b.fresh t n (wrap32 (Liballoc.pagesFor n * lPageSize)))
        (⟨t, Liballoc.pagesFor n, [t]⟩ :: As) bins [t] out := by
      refine h.allocate ht0 hcount hbelow (fun B hB => fresh_separate hfresh hcount (h.pages B hB)
        (hmap B hB)) (fun w hw g => ?_) (by rw [hb]; rfl) (by rw [hb]; rfl) ?_ ?_ ?_ ?_ ?_ ?_ ?_ ?_
      · rw [TagHeap.field_fresh_ne _ hw, hb]
        exact congrFun (HoldsTags.field_reread hw m) g
      · rw [hb, ← hs.log]
        rfl
      all_goals simp [TagHeap.fresh, hreal]
    rw [← hb] at hs₁
    refine (hs₁.put htt .magic (by decide)).bind fun _ hs₁ =>
      (hs₁.put htt .size (show n < 256 ^ 4 by omega)).bind fun _ hs₁ =>
      (hs₁.put htt .realSize hreal4).bind fun _ hs₁ => (hs₁.put htt .index (by decide)).bind fun _ hs₁ =>
      (hs₁.put htt .next (by decide)).bind fun _ hs₁ => (hs₁.put htt .prev (by decide)).bind fun _ hs₁ =>
      (hs₁.put htt .splitLeft (by decide)).bind fun _ hs₁ =>
      (hs₁.put htt .splitRight (by decide)).bind fun _ hs₁ => .ok
        (.inr ⟨m, _, ht0, rfl, hfresh, hs₁, hinv, ?_, ?_⟩)
    · simp
    · simp [hreal]

theorem HeapState.malloc_spec (h : HeapState s out) (hP : P.Honest) (hn : n + tagSize < 2 ^ 32) :
    Returns (fun r => r = (s, 0) ∧ (P.alloc s.mem (Liballoc.pagesFor n)).2 = 0 ∨
      r.2 ≠ 0 ∧ (∀ m, (r.2, m) ∉ out) ∧ HeapState r.1 (insert (r.2, n) out) ∧
      SameBlocks out s.mem r.1.mem ∧ (SameMapped s.mem r.1.mem ∨
        SameMapped (P.alloc s.mem (Liballoc.pagesFor n)).1 r.1.mem)) (s.malloc P n) := by
  obtain ⟨a, As, bins, hs, hinv, hmap⟩ := h
  have hT : ∀ u, Live As u → u ∈ allTags As := fun u hu => mem_allTags.mpr hu
  have hsetUp : s.setUp = s := if_pos hs.ready
  have hwrap : wrap32 n = n := Nat.mod_eq_of_lt (by omega)
  obtain ⟨i, hi⟩ : ∃ i, i = listIndex n := ⟨_, rfl⟩
  have hlist : i < maxExp := hi ▸ listIndex_lt n
  rw [Liballoc.malloc, hsetUp, hwrap, ← hi]
  dsimp only
  refine .bind_ok (hs.head hlist) ?_
  rw [hinv.binned.head i hlist]
  refine (hinv.findTag_spec hs hT hlist hn (List.nil_append _).symm (hinv.bin_length hlist)).bind ?_
  rintro t (rfl | ⟨htb, hroom⟩)
  · rw [if_pos rfl]
    refine (allocateNewTag_spec hP hs hinv hmap hn).bind ?_
    rintro ⟨s₁, t⟩ (⟨hnull, hnone⟩ | ⟨m, b, ht0, hprovider, hfresh, hs₁, hinv₁, hused, hreal⟩)
    · obtain ⟨rfl, rfl⟩ := Prod.mk.inj hnull
      exact .ok (.inl ⟨rfl, hnone⟩)
    · dsimp only at ht0 hprovider hfresh hs₁ hinv₁ hused hreal ⊢
      rw [if_neg ht0]
      have hpages := le_pagesFor hn
      refine (takeTag_spec hs₁ (show LiballocInv b (⟨t, _, [] ++ t :: []⟩ :: As) bins [t] out from hinv₁) (fun u => ?_) hused (by simp)
        (by omega) fun A hA => ?_).mono ?_
      · rw [live_cons, List.mem_cons, mem_allTags]
        simp
      · cases hA with
        | head => exact hfresh.mapped
        | tail _ hA =>
          intro j hj
          obtain ⟨c, hc⟩ := hmap A hA j hj
          exact ⟨c, hfresh.keeps hc⟩
      · rintro ⟨s₂, p⟩ ⟨rfl, hstate, hmapped, hbytes⟩
        have hmem : t ∈ ([t] : List Nat) := List.mem_singleton.mpr rfl
        have hlive : Live (⟨t, Liballoc.pagesFor n, [t]⟩ :: As) t := LiballocInv.head_live hmem
        refine .inr ⟨by simp [tagSize], fun k => hinv₁.not_block hmem k, hstate, fun q k hq x hx hx' => ?_,
          .inr (by rwa [hprovider])⟩
        have hout := hinv₁.block_outside hq ⟨hx, hx'⟩ hlive hmem
        rw [hbytes x (fun w hw => hinv₁.block_not_in_tag hq ⟨hx, hx'⟩ ?_) hout]
        · refine hfresh.frame x ?_
          dsimp only
          omega
        · rcases List.mem_cons.mp hw with rfl | hw
          · exact hlive
          · exact live_cons.mpr (.inr (mem_allTags.mp hw))
  · obtain ⟨hlive, hidx⟩ := (hinv.binned.mem i hlist t).mp htb
    rw [if_neg (hinv.ne_zero hlive)]
    obtain ⟨start, pages, l1, l2, rest, hperm, hinv'⟩ := hinv.at_tag hlive
    have ht : t ∈ (⟨start, pages, l1 ++ t :: l2⟩ : Arena).tags := by simp
    obtain ⟨bins', hdet⟩ := hinv'.detach ht hidx hlist
    have hindex : ∀ u, (a.detach ⟨start, pages, l1 ++ t :: l2⟩ t).field u .index =
        if u = t then noIndex else a.field u .index := fun u => by rw [a.field_detach, a.index_remove]
    have hreal : (a.detach ⟨start, pages, l1 ++ t :: l2⟩ t).field t .realSize = a.field t .realSize := by
      rw [a.field_detach, a.field_remove _ _ rfl]
    refine (hinv.removeTag_spec hs hT hlive (hidx ▸ hlist)).bind fun s₁ hs₁ => ?_
    have hleft := hs₁.get (hT t hlive) .splitLeft
    have hright := hs₁.get (hT t hlive) .splitRight
    rw [a.field_remove _ _ rfl] at hleft hright
    refine .bind_ok hleft (.bind_ok hright ?_)
    refine Returns.bind (P := HoldsTags s.mem (allTags As) (a.detach ⟨start, pages, l1 ++ t :: l2⟩ t)) ?_
      fun s₂ hs₂ => ?_
    · have halone := (hinv'.ok _ List.mem_cons_self).alone_iff ht
      rw [TagHeap.detach]
      by_cases hone : (l1 ++ t :: l2).length = 1
      · rw [if_pos (halone.mpr hone), if_pos hone, hidx]
        exact hs₁.addComplete hlist (-1)
      · rw [if_neg fun h0 => hone (halone.mp h0), if_neg hone]
        exact .ok hs₁
    · have hafter : ∀ p ∈ l2.head?, a.field p .index = noIndex := by
        intro p hp
        have hmelted := hinv'.melted _ List.mem_cons_self
        unfold Arena.Melted at hmelted
        rw [List.isChain_append, List.isChain_cons] at hmelted
        exact (hmelted.2.1.1 p hp).resolve_left (hidx ▸ ne_noIndex hlist)
      have hmem : t ∈ ([t] : List Nat) := List.mem_singleton.mpr rfl
      refine (takeTag_spec hs₂ hdet (fun u => ?_) ((hindex t).trans (if_pos rfl)) (fun p hp => ?_) ?_
        fun A hA => hmap A (hperm.mem_iff.mpr hA)).mono ?_
      · rw [mem_allTags, live_perm hperm]
      · rw [hindex]
        split
        · rfl
        · exact hafter p hp
      · rw [hreal]
        omega
      · rintro ⟨s₃, p⟩ ⟨rfl, hstate, hmapped, hbytes⟩
        refine .inr ⟨by simp [tagSize], fun k => hdet.not_block hmem k, hstate, fun q k hq x hx hx' => ?_,
          .inl hmapped⟩
        exact hbytes x (fun w hw => hinv.block_not_in_tag hq ⟨hx, hx'⟩ (mem_allTags.mp hw))
          (hdet.block_outside hq ⟨hx, hx'⟩ (LiballocInv.head_live ht) hmem)

end Allocating

end HelixKernel
