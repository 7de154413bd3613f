import HelixKernel.Lib.DoublyLinked
import HelixKernel.Lib.Tiling
import HelixKernel.Extra.TagRecords

/-!
# Arenas and lists of free tags

An arena is what one call of the page provider gave.  Its tags fill it, each with its `real_size`,
and are linked by `split_left` and `split_right` (`Arena.Ok`); no two free ones are neighbours
(`Arena.Melted`).  The free tags of all arenas are on 32 lists, by their `index` (`Binned`).

`remove_tag` and `insert_tag` move a tag between these lists; merging and splitting work on the
arena of a tag that is on none of them. -/

namespace HelixKernel

structure Arena where
  start : Nat
  pages : Nat
  tags : List Nat
deriving DecidableEq

def Arena.stop (A : Arena) : Nat := A.start + A.pages * lPageSize

structure Arena.Ok (a : TagHeap) (A : Arena) : Prop where
  linked : DLinked 0 (a.field · .splitRight) (a.field · .splitLeft) A.tags
  tiles : Tiles (a.field · .realSize) A.start A.stop A.tags
  roomy : ∀ t ∈ A.tags, tagSize ≤ a.field t .realSize

/-- No two neighbours are both free. -/
def Arena.Melted (a : TagHeap) (A : Arena) : Prop :=
  A.tags.IsChain fun t u => a.field t .index = noIndex ∨ a.field u .index = noIndex

/-- `live` are the tags there are, `bins i` those of list `i`. -/
structure Binned (a : TagHeap) (live : Nat → Prop) (bins : Nat → List Nat) : Prop where
  linked : ∀ i < maxExp, DLinked 0 (a.field · .next) (a.field · .prev) (bins i)
  head : ∀ i < maxExp, a.freePages i = (bins i).headD 0
  mem : ∀ i < maxExp, ∀ t, t ∈ bins i ↔ live t ∧ a.field t .index = i
  index : ∀ t, live t → a.field t .index = noIndex ∨ a.field t .index < maxExp
  used : ∀ t, live t → a.field t .index = noIndex → a.field t .next = 0 ∧ a.field t .prev = 0

theorem ne_noIndex {i : Nat} (hi : i < maxExp) : i ≠ noIndex := by
  unfold maxExp at hi
  unfold noIndex
  omega

/-! ## What the routines leave alone -/

namespace TagHeap

variable (a : TagHeap) {t u i v r : Nat} {g : TagField}

@[simp] theorem completePages_remove : (a.remove t).completePages = a.completePages := by
  unfold remove
  dsimp only
  split <;> split <;> split <;> rfl

@[simp] theorem calls_remove : (a.remove t).calls = a.calls := by
  unfold remove
  dsimp only
  split <;> split <;> split <;> rfl

@[simp] theorem completePages_insert : (a.insert t i).completePages = a.completePages := by
  unfold insert
  split <;> rfl

@[simp] theorem calls_insert : (a.insert t i).calls = a.calls := by
  unfold insert
  split <;> rfl

@[simp] theorem freePages_stretch : (a.stretch t v r).freePages = a.freePages := by
  unfold stretch
  split <;> rfl

@[simp] theorem completePages_stretch : (a.stretch t v r).completePages = a.completePages := by
  unfold stretch
  split <;> rfl

@[simp] theorem calls_stretch : (a.stretch t v r).calls = a.calls := by
  unfold stretch
  split <;> rfl

@[simp] theorem freePages_split : (a.split t u).freePages = a.freePages := by
  unfold split
  dsimp only
  split <;> rfl

@[simp] theorem completePages_split : (a.split t u).completePages = a.completePages := by
  unfold split
  dsimp only
  split <;> rfl

@[simp] theorem calls_split : (a.split t u).calls = a.calls := by
  unfold split
  dsimp only
  split <;> rfl

theorem field_insert (hg : g.inList = false) : (a.insert t i).field u g = a.field u g := by
  obtain ⟨hn, hp, hi⟩ := TagField.ne_of_not_inList hg
  unfold insert
  split
  · simp only [field_setHead, field_set_field _ hn, field_set_field _ hp, field_set_field _ hi]
  · simp only [field_setHead, field_set_field _ hi]

/-- Of the fields by which arenas are linked, two tags' change. -/
theorem field_stretch (hg : g.inArena = false) : (a.stretch t v r).field u g = a.field u g := by
  obtain ⟨hv, hl, hr⟩ := TagField.ne_of_not_inArena hg
  unfold stretch
  split
  · simp only [field_set_field _ hl, field_set_field _ hr, field_set_field _ hv]
  · simp only [field_set_field _ hr, field_set_field _ hv]

theorem field_stretch_ne (ht : u ≠ t) (hr : u ≠ r) : (a.stretch t v r).field u g = a.field u g := by
  unfold stretch
  split
  · simp only [field_set_tag _ hr, field_set_tag _ ht]
  · simp only [field_set_tag _ ht]

theorem realSize_stretch :
    (a.stretch t v r).field u .realSize = if u = t then v else a.field u .realSize := by
  unfold stretch
  split <;> simp

theorem splitRight_stretch :
    (a.stretch t v r).field u .splitRight = if u = t then r else a.field u .splitRight := by
  unfold stretch
  split <;> simp

theorem splitLeft_stretch : (a.stretch t v r).field u .splitLeft =
    if r ≠ 0 ∧ u = r then t else a.field u .splitLeft := by
  unfold stretch
  split
  · rename_i hr
    simp [hr]
  · rename_i hr
    simp [hr]

theorem next_remove : (a.remove t).field u .next = if u = t then 0
    else if a.field t .prev ≠ 0 ∧ u = a.field t .prev then a.field t .next else a.field u .next := by
  unfold remove
  dsimp only
  split <;> split <;> split <;> simp_all

theorem prev_remove : (a.remove t).field u .prev = if u = t then 0
    else if a.field t .next ≠ 0 ∧ u = a.field t .next then a.field t .prev else a.field u .prev := by
  unfold remove
  dsimp only
  split <;> split <;> split <;> simp_all

theorem index_remove :
    (a.remove t).field u .index = if u = t then noIndex else a.field u .index := by
  unfold remove
  dsimp only
  split <;> split <;> split <;> simp

theorem freePages_remove : (a.remove t).freePages = if a.freePages (a.field t .index) = t
    then Function.update a.freePages (a.field t .index) (a.field t .next) else a.freePages := by
  unfold remove
  dsimp only
  split <;> split <;> split <;> simp

theorem next_insert : (a.insert t i).field u .next =
    if u = t ∧ a.freePages i ≠ 0 then a.freePages i else a.field u .next := by
  unfold insert
  split <;> simp_all

theorem prev_insert : (a.insert t i).field u .prev =
    if a.freePages i ≠ 0 ∧ u = a.freePages i then t else a.field u .prev := by
  unfold insert
  split <;> simp_all

theorem index_insert : (a.insert t i).field u .index = if u = t then i else a.field u .index := by
  unfold insert
  split <;> simp

theorem freePages_insert : (a.insert t i).freePages = Function.update a.freePages i t := by
  unfold insert
  split <;> simp

theorem realSize_split (hu : t ≠ u) : (a.split t u).field v .realSize =
    if v = t then a.field t .realSize - (a.field t .realSize - tagSize - a.field t .size)
    else if v = u then a.field t .realSize - tagSize - a.field t .size else a.field v .realSize := by
  unfold split
  dsimp only
  split <;> simp [hu]

theorem splitRight_split : (a.split t u).field v .splitRight =
    if v = t then u else if v = u then a.field t .splitRight else a.field v .splitRight := by
  unfold split
  dsimp only
  split <;> simp

theorem splitLeft_split : (a.split t u).field v .splitLeft =
    if a.field t .splitRight ≠ 0 ∧ v = a.field t .splitRight then u
    else if v = u then t else a.field v .splitLeft := by
  unfold split
  dsimp only
  split
  · rename_i hr
    simp [hr]
  · rename_i hr
    simp [hr]

/-- Other fields than those are set in the new tag only. -/
theorem field_split (hg : g.inArena = false) (hv : v ≠ u) :
    (a.split t u).field v g = a.field v g := by
  obtain ⟨hs, hl, hr⟩ := TagField.ne_of_not_inArena hg
  unfold split
  dsimp only
  split <;> simp only [field_set_field _ hs, field_set_field _ hl, field_set_field _ hr,
    field_set_tag _ hv]

theorem field_split_new : (a.split t u).field u .magic = liballocMagic ∧
    (a.split t u).field u .next = 0 ∧ (a.split t u).field u .prev = 0 := by
  unfold split
  dsimp only
  split <;> simp

theorem field_split_ne (ht : v ≠ t) (hu : v ≠ u) (hr : v ≠ a.field t .splitRight) :
    (a.split t u).field v g = a.field v g := by
  unfold split
  dsimp only
  split <;> simp only [field_set_tag _ ht, field_set_tag _ hu, field_set_tag _ hr]

end TagHeap

/-! ## Arenas -/

namespace Arena.Ok

variable {a a' : TagHeap} {start pages t u r : Nat} {ts l1 l2 : List Nat} {A : Arena}

/-- **Frame.** -/
theorem congr (h : A.Ok a)
    (he : ∀ t ∈ A.tags, ∀ g : TagField, g.inArena = true → a'.field t g = a.field t g) : A.Ok a' where
  linked := h.linked.congr (fun t ht => he t ht _ rfl) fun t ht => he t ht _ rfl
  tiles := h.tiles.congr fun t ht => he t ht _ rfl
  roomy t ht := (h.roomy t ht).trans_eq (he t ht _ rfl).symm

theorem splitRight_eq (h : Arena.Ok a ⟨start, pages, l1 ++ t :: l2⟩) :
    a.field t .splitRight = l2.headD 0 := h.linked.next_eq

theorem splitLeft_eq (h : Arena.Ok a ⟨start, pages, l1 ++ t :: l2⟩) :
    a.field t .splitLeft = l1.getLastD 0 := h.linked.prev_eq

/-- Two neighbours become one tag, the left one's. -/
theorem stretch (h : Arena.Ok a ⟨start, pages, l1 ++ t :: u :: l2⟩) :
    Arena.Ok (a.stretch t (a.field t .realSize + a.field u .realSize) (a.field u .splitRight))
      ⟨start, pages, l1 ++ t :: l2⟩ := by
  have hnd : (l1 ++ t :: u :: l2).Nodup := h.linked.nodup
  have hne := h.linked.ne_null
  have hnext : a.field u .splitRight = l2.headD 0 :=
    (show Arena.Ok a ⟨start, pages, (l1 ++ [t]) ++ u :: l2⟩ by simpa using h).splitRight_eq
  have hprev : a.field u .splitLeft = t := by
    simpa using (show Arena.Ok a ⟨start, pages, (l1 ++ [t]) ++ u :: l2⟩ by simpa using h).splitLeft_eq
  simp only [List.nodup_append, List.nodup_cons, List.mem_cons, not_or] at hnd
  constructor
  · have hlink : DLinked 0 (a.field · .splitRight) (a.field · .splitLeft) ((l1 ++ [t]) ++ u :: l2) := by
      simpa using h.linked
    obtain ⟨b, hb⟩ : ∃ b, b = a.stretch t (a.field t .realSize + a.field u .realSize)
      (a.field u .splitRight) := ⟨_, rfl⟩
    suffices hrest : DLinked 0 (b.field · .splitRight) (b.field · .splitLeft) ((l1 ++ [t]) ++ l2) by
      rw [hb] at hrest
      simpa using hrest
    rw [hb]
    refine hlink.remove ?_ ?_ ?_ ?_
    · intro p hp
      obtain rfl : t = p := by simpa using hp
      simp [TagHeap.splitRight_stretch]
    · intro v _ hv
      have hvt : v ≠ t := fun hvt => hv (by simp [hvt])
      simp [TagHeap.splitRight_stretch, hvt]
    · intro p hp
      have hpr : a.field u .splitRight = p := by
        rw [hnext, List.headD_eq_head?_getD, hp, Option.getD_some]
      have hp0 : p ≠ 0 := hne p (by simp [List.mem_of_head? hp])
      simp [TagHeap.splitLeft_stretch, hpr, hp0, hprev]
    · intro v _ hv
      have hvr : ¬ (a.field u .splitRight ≠ 0 ∧ v = a.field u .splitRight) := by
        rintro ⟨h0, rfl⟩
        rw [hnext] at h0 hv
        cases l2 with
        | nil => exact h0 rfl
        | cons w l2 => exact hv rfl
      simp only [TagHeap.splitLeft_stretch, if_neg hvr]
  · refine h.tiles.merge ?_ fun v hv => ?_
    · simp [TagHeap.realSize_stretch]
    · have hvt : v ≠ t := by
        rintro rfl
        grind
      simp [TagHeap.realSize_stretch, hvt]
  · intro v hv
    rw [TagHeap.realSize_stretch]
    split
    · exact (h.roomy t (by simp)).trans (Nat.le_add_right _ _)
    · refine h.roomy v ?_
      simp only [List.mem_append, List.mem_cons] at hv ⊢
      tauto

/-- A tag is cut in two behind its `size` bytes. -/
theorem split (h : Arena.Ok a ⟨start, pages, l1 ++ t :: l2⟩) (hu : u = t + tagSize + a.field t .size)
    (hnew : u ∉ l1 ++ t :: l2) (hroom : 2 * tagSize + a.field t .size ≤ a.field t .realSize) :
    Arena.Ok (a.split t u) ⟨start, pages, l1 ++ t :: u :: l2⟩ := by
  have hnd : (l1 ++ t :: l2).Nodup := h.linked.nodup
  have hne := h.linked.ne_null
  have hnext := h.splitRight_eq
  have htu : t ≠ u := by
    unfold tagSize at hu
    omega
  unfold tagSize at hu hroom
  simp only [List.nodup_append, List.nodup_cons, List.mem_append, List.mem_cons, not_or] at hnd hnew
  have hsizes := fun v => TagHeap.realSize_split a (v := v) htu
  unfold tagSize at hsizes
  constructor
  · have hlink : DLinked 0 (a.field · .splitRight) (a.field · .splitLeft) ((l1 ++ [t]) ++ l2) := by
      simpa using h.linked
    suffices hrest : DLinked 0 ((a.split t u).field · .splitRight) ((a.split t u).field · .splitLeft)
        ((l1 ++ [t]) ++ u :: l2) by
      simpa using hrest
    refine hlink.insert (by omega) ?_ ?_ ?_ ?_ ?_ ?_
    · intro p hp
      obtain rfl : t = p := by simpa using hp
      simp [TagHeap.splitRight_split]
    · simp only [TagHeap.splitRight_split, if_neg htu.symm, if_true]
      exact hnext
    · intro v hv hlast
      have hvt : v ≠ t := fun hvt => hlast (by simp [hvt])
      have hvu : v ≠ u := by
        rintro rfl
        simp [hnew] at hv
      simp only [TagHeap.splitRight_split, if_neg hvt, if_neg hvu]
    · intro p hp
      have hpr : a.field t .splitRight = p := by
        rw [hnext, List.headD_eq_head?_getD, hp, Option.getD_some]
      have hp0 : p ≠ 0 := hne p (by simp [List.mem_of_head? hp])
      simp [TagHeap.splitLeft_split, hpr, hp0]
    · have hur : ¬ (a.field t .splitRight ≠ 0 ∧ u = a.field t .splitRight) := by
        rintro ⟨h0, rfl⟩
        rw [hnext] at h0 hnew
        cases l2 with
        | nil => exact h0 rfl
        | cons w l2 => exact hnew.2.2 List.mem_cons_self
      simp only [TagHeap.splitLeft_split, if_neg hur, if_true]
      simp
    · intro v hv hhead
      have hvr : ¬ (a.field t .splitRight ≠ 0 ∧ v = a.field t .splitRight) := by
        rintro ⟨h0, rfl⟩
        rw [hnext] at h0 hhead
        cases l2 with
        | nil => exact h0 rfl
        | cons w l2 => exact hhead rfl
      have hvu : v ≠ u := by
        rintro rfl
        simp [hnew] at hv
      simp only [TagHeap.splitLeft_split, if_neg hvr, if_neg hvu]
  · refine h.tiles.cut ?_ ?_ ?_ ?_ fun v hv => ?_
    · simp only [hsizes, if_true]
      omega
    · simp only [hsizes, if_true]
      omega
    · simp only [hsizes, if_neg htu.symm, if_true]
      omega
    · simp only [hsizes, if_neg htu.symm, if_true]
      omega
    · have hvt : v ≠ t := by
        rintro rfl
        grind
      have hvu : v ≠ u := by
        rintro rfl
        simp [hnew] at hv
      simp only [hsizes, if_neg hvt, if_neg hvu]
  · intro v hv
    have hroomy := h.roomy v
    simp only [List.mem_append, List.mem_cons] at hv hroomy
    unfold tagSize at hroomy ⊢
    rw [hsizes]
    split
    · omega
    · split
      · omega
      · exact hroomy (by tauto)

end Arena.Ok

/-! ## Lists of free tags -/

namespace Binned

variable {a a' : TagHeap} {live live' : Nat → Prop} {bins : Nat → List Nat} {t i : Nat}

/-- **Frame.**  Tags that are on no list may come and go. -/
theorem congr (h : Binned a live bins) (hh : a'.freePages = a.freePages)
    (he : ∀ t, live t → a.field t .index ≠ noIndex → live' t ∧
      ∀ g : TagField, g.inList = true → a'.field t g = a.field t g)
    (hu : ∀ t, live' t → a'.field t .index ≠ noIndex → live t ∧
      a.field t .index = a'.field t .index)
    (hused : ∀ t, live' t → a'.field t .index = noIndex →
      a'.field t .next = 0 ∧ a'.field t .prev = 0) : Binned a' live' bins := by
  have hbin : ∀ i < maxExp, ∀ t ∈ bins i, live t ∧ a.field t .index ≠ noIndex := by
    intro i hi t ht
    obtain ⟨hl, rfl⟩ := (h.mem i hi t).mp ht
    exact ⟨hl, ne_noIndex hi⟩
  refine ⟨fun i hi => (h.linked i hi).congr (fun t ht => ?_) fun t ht => ?_,
    fun i hi => hh ▸ h.head i hi, fun i hi t => ?_, fun t ht => ?_, hused⟩
  · exact (he t (hbin i hi t ht).1 (hbin i hi t ht).2).2 _ rfl
  · exact (he t (hbin i hi t ht).1 (hbin i hi t ht).2).2 _ rfl
  · rw [h.mem i hi t]
    constructor
    · rintro ⟨hl, hti⟩
      obtain ⟨hl', hg⟩ := he t hl (hti ▸ ne_noIndex hi)
      exact ⟨hl', (hg _ rfl).trans hti⟩
    · rintro ⟨hl, hti⟩
      obtain ⟨hl', hg⟩ := hu t hl (hti ▸ ne_noIndex hi)
      exact ⟨hl', hg.trans hti⟩
  · by_cases hn : a'.field t .index = noIndex
    · exact .inl hn
    · obtain ⟨hl, hg⟩ := hu t ht hn
      obtain hidx | hidx := h.index t hl
      · exact absurd (hg.symm.trans hidx) hn
      · exact .inr (hg ▸ hidx)

/-- The list of a free tag, cut at it. -/
theorem split (h : Binned a live bins) (ht : live t) (hi : i < maxExp) (hidx : a.field t .index = i) :
    ∃ l1 l2, bins i = l1 ++ t :: l2 :=
  List.append_of_mem ((h.mem i hi t).mpr ⟨ht, hidx⟩)

theorem ne_of_ne_index {u v j : Nat} (h : Binned a live bins) (hi : i < maxExp) (hj : j < maxExp)
    (hu : u ∈ bins i) (hv : v ∈ bins j) (hij : j ≠ i) : v ≠ u := by
  rintro rfl
  exact hij (((h.mem j hj v).mp hv).2.symm.trans ((h.mem i hi v).mp hu).2)

/-- The tag and its neighbours on the list have nothing to do with other lists. -/
theorem remove {l1 l2 : List Nat} (h : Binned a live bins) (hi : i < maxExp)
    (hb : bins i = l1 ++ t :: l2) :
    Binned (a.remove t) live (Function.update bins i (l1 ++ l2)) := by
  have hlink := h.linked i hi
  rw [hb] at hlink
  have hnd := hlink.nodup
  have hne := hlink.ne_null
  have hnext : a.field t .next = l2.headD 0 := hlink.next_eq
  have hprev : a.field t .prev = l1.getLastD 0 := hlink.prev_eq
  obtain ⟨hlive, hidx⟩ := (h.mem i hi t).mp (by rw [hb]; simp)
  have hnextmem : a.field t .next ≠ 0 → a.field t .next ∈ bins i := by
    rw [hnext, hb]
    cases l2 <;> simp
  have hprevmem : a.field t .prev ≠ 0 → a.field t .prev ∈ bins i := by
    rw [hprev, hb]
    cases l1 using List.reverseRecOn <;> simp
  have htl : t ∉ l1 ++ l2 := by
    simp only [List.nodup_append, List.nodup_cons, List.mem_cons, List.mem_append, not_or] at hnd ⊢
    grind
  have hi' := ne_noIndex hi
  refine ⟨fun j hj => ?_, fun j hj => ?_, fun j hj u => ?_, fun u hu => ?_, fun u hu hn => ?_⟩
  · by_cases hji : j = i
    · subst hji
      rw [Function.update_self]
      refine hlink.remove (fun p hp => ?_) (fun v hv hlast => ?_) (fun p hp => ?_) fun v hv hhead => ?_
      · have hp' : a.field t .prev = p := by
          rw [hprev, List.getLastD_eq_getLast?, hp, Option.getD_some]
        have hp0 : p ≠ 0 := hne p (by simp [List.mem_of_getLast? hp])
        have hpt : p ≠ t := ne_of_mem_of_not_mem (List.mem_append_left l2 (List.mem_of_getLast? hp)) htl
        simp [TagHeap.next_remove, hp', hp0, hpt]
      · have hvt : v ≠ t := ne_of_mem_of_not_mem hv htl
        have hvp : ¬ (a.field t .prev ≠ 0 ∧ v = a.field t .prev) := by
          rintro ⟨h0, rfl⟩
          rw [hprev] at h0 hlast
          cases l1 using List.reverseRecOn with
          | nil => exact h0 rfl
          | append_singleton l1 y => exact hlast (by simp)
        simp only [TagHeap.next_remove, if_neg hvt, if_neg hvp]
      · have hp' : a.field t .next = p := by
          rw [hnext, List.headD_eq_head?_getD, hp, Option.getD_some]
        have hp0 : p ≠ 0 := hne p (by simp [List.mem_of_head? hp])
        have hpt : p ≠ t := ne_of_mem_of_not_mem (List.mem_append_right l1 (List.mem_of_head? hp)) htl
        simp [TagHeap.prev_remove, hp', hp0, hpt]
      · have hvt : v ≠ t := ne_of_mem_of_not_mem hv htl
        have hvn : ¬ (a.field t .next ≠ 0 ∧ v = a.field t .next) := by
          rintro ⟨h0, rfl⟩
          rw [hnext] at h0 hhead
          cases l2 with
          | nil => exact h0 rfl
          | cons w l2 => exact hhead rfl
        simp only [TagHeap.prev_remove, if_neg hvt, if_neg hvn]
    · rw [Function.update_of_ne hji]
      have htmem : t ∈ bins i := by simp [hb]
      refine (h.linked j hj).congr (fun v hv => ?_) fun v hv => ?_
      · have hvt : v ≠ t := h.ne_of_ne_index hi hj htmem hv hji
        have hvp : ¬ (a.field t .prev ≠ 0 ∧ v = a.field t .prev) := fun hvp =>
          h.ne_of_ne_index hi hj (hprevmem hvp.1) hv hji hvp.2
        simp only [TagHeap.next_remove, if_neg hvt, if_neg hvp]
      · have hvt : v ≠ t := h.ne_of_ne_index hi hj htmem hv hji
        have hvn : ¬ (a.field t .next ≠ 0 ∧ v = a.field t .next) := fun hvn =>
          h.ne_of_ne_index hi hj (hnextmem hvn.1) hv hji hvn.2
        simp only [TagHeap.prev_remove, if_neg hvt, if_neg hvn]
  · rw [TagHeap.freePages_remove, hidx]
    have hhead := h.head i hi
    rw [hb] at hhead
    by_cases hji : j = i
    · subst hji
      rw [Function.update_self]
      cases l1 with
      | nil =>
        rw [if_pos (show a.freePages j = t from hhead), Function.update_self, hnext]
        rfl
      | cons y l1 =>
        have hyt : a.freePages j ≠ t := by
          rw [hhead]
          exact ne_of_mem_of_not_mem (List.mem_cons_self) htl
        rw [if_neg hyt, hhead]
        rfl
    · rw [Function.update_of_ne hji, ← h.head j hj]
      split
      · rw [Function.update_of_ne hji]
      · rfl
  · rw [TagHeap.index_remove]
    by_cases hut : u = t
    · subst hut
      rw [if_pos rfl]
      refine iff_of_false (fun hu => ?_) fun hu => ne_noIndex hj hu.2.symm
      by_cases hji : j = i
      · subst hji
        rw [Function.update_self] at hu
        exact htl hu
      · rw [Function.update_of_ne hji] at hu
        exact hji (((h.mem j hj u).mp hu).2.symm.trans hidx)
    · rw [if_neg hut, ← h.mem j hj u]
      by_cases hji : j = i
      · subst hji
        rw [Function.update_self, hb]
        simp [hut]
      · rw [Function.update_of_ne hji]
  · rw [TagHeap.index_remove]
    split
    · exact .inl rfl
    · exact h.index u hu
  · rw [TagHeap.index_remove] at hn
    rw [TagHeap.next_remove, TagHeap.prev_remove]
    by_cases hut : u = t
    · rw [if_pos hut, if_pos hut]
      exact ⟨rfl, rfl⟩
    · rw [if_neg hut] at hn
      have hbin : u ∉ bins i := fun hui => hi' (((h.mem i hi u).mp hui).2.symm.trans hn)
      have hup : ¬ (a.field t .prev ≠ 0 ∧ u = a.field t .prev) := fun hp =>
        hbin (hp.2 ▸ hprevmem hp.1)
      have hun : ¬ (a.field t .next ≠ 0 ∧ u = a.field t .next) := fun hp =>
        hbin (hp.2 ▸ hnextmem hp.1)
      rw [if_neg hut, if_neg hut, if_neg hup, if_neg hun]
      exact h.used u hu hn

/-- A tag that is on no list. -/
theorem insert (h : Binned a live bins) (ht : live t) (ht0 : t ≠ 0) (hn : a.field t .index = noIndex)
    (hi : i < maxExp) : Binned (a.insert t i) live (Function.update bins i (t :: bins i)) := by
  have hlink := h.linked i hi
  have hhead := h.head i hi
  obtain ⟨hnext, hprev⟩ := h.used t ht hn
  have hnot : ∀ j < maxExp, ∀ u ∈ bins j, u ≠ t := by
    rintro j hj u hu rfl
    exact ne_noIndex hj (((h.mem j hj u).mp hu).2.symm.trans hn)
  have hfirst : a.freePages i ≠ 0 → a.freePages i ∈ bins i := by
    rw [hhead]
    cases bins i <;> simp
  refine ⟨fun j hj => ?_, fun j hj => ?_, fun j hj u => ?_, fun u hu => ?_, fun u hu hnu => ?_⟩
  · by_cases hji : j = i
    · subst hji
      rw [Function.update_self]
      refine DLinked.insert (show DLinked 0 _ _ ([] ++ bins j) from hlink) ht0 (by simp) ?_ (fun v hv _ => ?_) (fun p hp => ?_) ?_
        fun v hv hvh => ?_
      · simp only [TagHeap.next_insert, hhead, true_and]
        split
        · rfl
        · rename_i h0
          rw [hnext]
          exact (not_not.mp h0).symm
      · simp only [TagHeap.next_insert]
        rw [if_neg fun hv' => hnot j hj v hv hv'.1]
      · have hp' : a.freePages j = p := by
          rw [hhead, List.headD_eq_head?_getD, hp, Option.getD_some]
        have hp0 : p ≠ 0 := hlink.ne_null p (List.mem_of_head? hp)
        simp [TagHeap.prev_insert, hp', hp0]
      · simp only [TagHeap.prev_insert]
        rw [if_neg fun hv' : a.freePages j ≠ 0 ∧ t = a.freePages j =>
          hnot j hj t (hv'.2 ▸ hfirst hv'.1) rfl]
        exact hprev
      · simp only [TagHeap.prev_insert]
        rw [if_neg]
        rintro ⟨h0, rfl⟩
        rw [hhead] at h0 hvh
        cases hbj : bins j with
        | nil => simp [hbj] at h0
        | cons w l => simp [hbj] at hvh
    · rw [Function.update_of_ne hji]
      refine (h.linked j hj).congr (fun v hv => ?_) fun v hv => ?_
      · simp only [TagHeap.next_insert]
        rw [if_neg fun hv' => hnot j hj v hv hv'.1]
      · simp only [TagHeap.prev_insert]
        rw [if_neg fun hv' => h.ne_of_ne_index hi hj (hfirst hv'.1) hv hji hv'.2]
  · rw [TagHeap.freePages_insert]
    by_cases hji : j = i
    · subst hji
      rw [Function.update_self, Function.update_self]
      rfl
    · rw [Function.update_of_ne hji, Function.update_of_ne hji, h.head j hj]
  · rw [TagHeap.index_insert]
    by_cases hut : u = t
    · subst hut
      rw [if_pos rfl]
      by_cases hji : j = i
      · subst hji
        rw [Function.update_self]
        simp [ht]
      · rw [Function.update_of_ne hji]
        refine iff_of_false (fun hu => ?_) fun hu => hji hu.2.symm
        exact hnot j hj u hu rfl
    · rw [if_neg hut, ← h.mem j hj u]
      by_cases hji : j = i
      · subst hji
        rw [Function.update_self]
        simp [hut]
      · rw [Function.update_of_ne hji]
  · rw [TagHeap.index_insert]
    split
    · exact .inr hi
    · exact h.index u hu
  · rw [TagHeap.index_insert] at hnu
    rw [TagHeap.next_insert, TagHeap.prev_insert]
    by_cases hut : u = t
    · rw [if_pos hut] at hnu
      exact absurd hnu (ne_noIndex hi)
    · rw [if_neg hut] at hnu
      rw [if_neg fun hu' => hut hu'.1, if_neg]
      · exact h.used u hu hnu
      · rintro ⟨h0, rfl⟩
        exact ne_noIndex hi (((h.mem i hi _).mp (hfirst h0)).2.symm.trans hnu)

end Binned

end HelixKernel
