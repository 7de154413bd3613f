import HelixKernel.Extra.BoundaryTags

/-!
# Tags as records

`HoldsTags m₀ T a s`: the tags at `T` are apart and in memory, their fields are those of `a`, and so are
the globals; every byte outside of them is as it was in `m₀`.  Each routine of `liballoc.c` that works
on tags keeps `HoldsTags`, and takes `a` to what `TagHeap` says under the routine's name. -/

namespace HelixKernel

namespace TagField

/-- The fields by which the free tags are on lists. -/
def inList : TagField → Bool
  | next | prev | index => true
  | _ => false

/-- The fields by which the tags fill an arena. -/
def inArena : TagField → Bool
  | realSize | splitLeft | splitRight => true
  | _ => false

theorem ne_of_not_inList {g : TagField} (h : g.inList = false) : g ≠ next ∧ g ≠ prev ∧ g ≠ index := by
  refine ⟨?_, ?_, ?_⟩ <;> rintro rfl <;> cases h

theorem ne_of_not_inArena {g : TagField} (h : g.inArena = false) :
    g ≠ realSize ∧ g ≠ splitLeft ∧ g ≠ splitRight := by
  refine ⟨?_, ?_, ?_⟩ <;> rintro rfl <;> cases h

theorem not_inList_of_inArena {g : TagField} (h : g.inArena = true) : g.inList = false := by
  cases g <;> simp_all [inArena, inList]

theorem not_inArena_of_inList {g : TagField} (h : g.inList = true) : g.inArena = false := by
  cases g <;> simp_all [inArena, inList]

end TagField

/-- The fields of the tags, and the globals. -/
@[ext]
structure TagHeap where
  field : Nat → TagField → Nat
  freePages : Nat → Nat
  completePages : Nat → Int
  calls : List PageCall

namespace TagHeap

variable (a : TagHeap)

def set (t : Nat) (f : TagField) (v : Nat) : TagHeap :=
  { a with field := fun u g => if u = t ∧ g = f then v else a.field u g }

def setHead (i t : Nat) : TagHeap := { a with freePages := Function.update a.freePages i t }

def addComplete (i : Nat) (n : Int) : TagHeap :=
  { a with completePages := Function.update a.completePages i (a.completePages i + n) }

/-- `insert_tag(t, i)` -/
def insert (t i : Nat) : TagHeap :=
  let a' := a.set t .index i
  (if a.freePages i ≠ 0 then (a'.set (a.freePages i) .prev t).set t .next (a.freePages i)
    else a').setHead i t

/-- `remove_tag(t)` -/
def remove (t : Nat) : TagHeap :=
  let i := a.field t .index
  let n := a.field t .next
  let p := a.field t .prev
  let a := if a.freePages i = t then a.setHead i n else a
  let a := if p ≠ 0 then a.set p .next n else a
  let a := if n ≠ 0 then a.set n .prev p else a
  ((a.set t .next 0).set t .prev 0).set t .index noIndex

/-- `t`, whose size is `v`, is followed by `r`. -/
def stretch (t v r : Nat) : TagHeap :=
  let a := (a.set t .realSize v).set t .splitRight r
  if r ≠ 0 then a.set r .splitLeft t else a

/-- `melt_left(t)` -/
def melt (t : Nat) : TagHeap :=
  let l := a.field t .splitLeft
  a.stretch l (a.field l .realSize + a.field t .realSize) (a.field t .splitRight)

/-- `absorb_right(t)` -/
def absorb (t : Nat) : TagHeap :=
  let r := a.field t .splitRight
  let a := a.remove r
  a.stretch t (a.field t .realSize + a.field r .realSize) (a.field r .splitRight)

/-- The fields of a new tag, before `insert_tag`, and those of the tags about it. -/
def split (t u : Nat) : TagHeap :=
  let rest := a.field t .realSize - tagSize - a.field t .size
  let r := a.field t .splitRight
  let a := ((a.set u .magic liballocMagic).set u .realSize rest).set u .next 0
  let a := ((a.set u .prev 0).set u .splitLeft t).set u .splitRight r
  let a := if r ≠ 0 then a.set r .splitLeft u else a
  (a.set t .splitRight u).set t .realSize (a.field t .realSize - rest)

/-- The fields that `allocate_new_tag(size)` gives the tag at `t`. -/
def fresh (t size realSize : Nat) : TagHeap :=
  let a := ((a.set t .magic liballocMagic).set t .size size).set t .realSize realSize
  let a := ((a.set t .index noIndex).set t .next 0).set t .prev 0
  (a.set t .splitLeft 0).set t .splitRight 0

/-- The fields of the tag at `u` are what is there. -/
def reread (u : Nat) (m : ByteMem) : TagHeap :=
  { a with field := fun t f => if t = u then m.word (u + f.offset) f.bytes else a.field t f }

@[simp] theorem field_set (t : Nat) (f : TagField) (v u : Nat) (g : TagField) :
    (a.set t f v).field u g = if u = t ∧ g = f then v else a.field u g := rfl

theorem field_set_tag {t u : Nat} (h : u ≠ t) (f : TagField) (v : Nat) (g : TagField) :
    (a.set t f v).field u g = a.field u g :=
  if_neg fun hu => h hu.1

theorem field_set_field {f g : TagField} (h : g ≠ f) (t v u : Nat) :
    (a.set t f v).field u g = a.field u g :=
  if_neg fun hu => h hu.2

@[simp] theorem freePages_set (t : Nat) (f : TagField) (v : Nat) :
    (a.set t f v).freePages = a.freePages := rfl

@[simp] theorem completePages_set (t : Nat) (f : TagField) (v : Nat) :
    (a.set t f v).completePages = a.completePages := rfl

@[simp] theorem calls_set (t : Nat) (f : TagField) (v : Nat) : (a.set t f v).calls = a.calls := rfl

@[simp] theorem field_setHead (i t : Nat) : (a.setHead i t).field = a.field := rfl

@[simp] theorem freePages_setHead (i t : Nat) :
    (a.setHead i t).freePages = Function.update a.freePages i t := rfl

@[simp] theorem completePages_setHead (i t : Nat) :
    (a.setHead i t).completePages = a.completePages := rfl

@[simp] theorem calls_setHead (i t : Nat) : (a.setHead i t).calls = a.calls := rfl

theorem field_fresh_ne {t u : Nat} (h : u ≠ t) (n r : Nat) (g : TagField) :
    (a.fresh t n r).field u g = a.field u g := by
  simp only [fresh, field_set_tag _ h]

/-- `remove_tag` works on three fields. -/
theorem field_remove (t u : Nat) {g : TagField} (hg : g.inList = false) :
    (a.remove t).field u g = a.field u g := by
  obtain ⟨hn, hp, hi⟩ := TagField.ne_of_not_inList hg
  simp only [remove, field_set_field _ hi, field_set_field _ hp, field_set_field _ hn]
  split <;> split <;> split <;>
    simp only [field_set_field _ hp, field_set_field _ hn, field_setHead]

end TagHeap

/-- `t` and `u` are one tag, or two that are apart. -/
def Apart (t u : Nat) : Prop := t = u ∨ t + tagSize ≤ u ∨ u + tagSize ≤ t

/-- A pointer that is null or leads to a tag. -/
def TagOrNull (T : List Nat) (p : Nat) : Prop := p ≠ 0 → p ∈ T

structure HoldsTags (m₀ : ByteMem) (T : List Nat) (a : TagHeap) (s : Liballoc) : Prop where
  apart : ∀ t ∈ T, ∀ u ∈ T, Apart t u
  mapped : ∀ t ∈ T, s.mem.Mapped t tagSize
  field : ∀ t ∈ T, ∀ f : TagField, s.mem.word (t + f.offset) f.bytes = a.field t f
  frame : ∀ x, (∀ t ∈ T, x < t ∨ t + tagSize ≤ x) → s.mem.byte x = m₀.byte x
  there : ∀ x, (s.mem.byte x).isSome = (m₀.byte x).isSome
  heads : s.freePages = a.freePages
  complete : s.completePages = a.completePages
  log : s.calls = a.calls
  ready : s.initialized = true

/-! ## Fields -/

theorem TagField.offset_add_bytes_le (f : TagField) : f.offset + f.bytes ≤ tagSize := by
  cases f <;> decide

/-- Two fields of a tag do not overlap. -/
theorem TagField.apart {f g : TagField} (h : g ≠ f) :
    g.offset + g.bytes ≤ f.offset ∨ f.offset + f.bytes ≤ g.offset := by
  cases f <;> cases g <;> first | exact absurd rfl h | decide

namespace HoldsTags

variable {m₀ : ByteMem} {T : List Nat} {a : TagHeap} {s : Liballoc} {t i v : Nat} {f : TagField}

theorem mapped_field (h : HoldsTags m₀ T a s) (ht : t ∈ T) (f : TagField) :
    s.mem.Mapped (t + f.offset) f.bytes := by
  have hle := f.offset_add_bytes_le
  exact (h.mapped t ht).mono (Nat.le_add_right t f.offset) (by omega)

theorem lt (h : HoldsTags m₀ T a s) (ht : t ∈ T) : t + tagSize ≤ 2 ^ 64 :=
  (h.mapped t ht).lt (by decide)

theorem get (h : HoldsTags m₀ T a s) (ht : t ∈ T) (f : TagField) : s.get t f = .ok (a.field t f) := by
  rw [Liballoc.get, ByteMem.loadWord_eq (h.mapped_field ht f), h.field t ht f]

theorem field_lt (h : HoldsTags m₀ T a s) (ht : t ∈ T) (f : TagField) :
    a.field t f < 256 ^ f.bytes := by
  rw [← h.field t ht f]
  exact ByteMem.word_lt s.mem (t + f.offset) f.bytes

theorem put (h : HoldsTags m₀ T a s) (ht : t ∈ T) (f : TagField) (hv : v < 256 ^ f.bytes) :
    Returns (HoldsTags m₀ T (a.set t f v)) (s.put t f v) := by
  have hle := f.offset_add_bytes_le
  refine (ByteMem.storeWord_spec (h.mapped_field ht f) v).bind ?_
  rintro m ⟨hw, hword⟩
  refine .ok ⟨h.apart, fun u hu => hw.mapped (h.mapped u hu), fun u hu g => ?_, fun x hx => ?_,
    fun x => (hw.there x).trans (h.there x), h.heads, h.complete, h.log, h.ready⟩
  · have hg := g.offset_add_bytes_le
    by_cases hutf : u = t ∧ g = f
    · obtain ⟨rfl, rfl⟩ := hutf
      simpa using hword.trans (Nat.mod_eq_of_lt hv)
    · have hsep : u + g.offset + g.bytes ≤ t + f.offset ∨ t + f.offset + f.bytes ≤ u + g.offset := by
        by_cases hut : u = t
        · have hfields := TagField.apart fun hgf => hutf ⟨hut, hgf⟩
          omega
        · obtain rfl | hapart := h.apart u hu t ht
          · exact absurd rfl hut
          · omega
      rw [TagHeap.field_set, if_neg hutf, ← h.field u hu g]
      exact hw.word_eq hsep
  · have houtside := hx t ht
    rw [hw.frame x (by omega), h.frame x hx]

theorem head (h : HoldsTags m₀ T a s) (hi : i < maxExp) : s.head i = .ok (a.freePages i) := by
  rw [Liballoc.head, if_pos hi, h.heads]

theorem setHead (h : HoldsTags m₀ T a s) (hi : i < maxExp) (t : Nat) :
    Returns (HoldsTags m₀ T (a.setHead i t)) (s.setHead i t) := by
  rw [Liballoc.setHead, if_pos hi]
  exact .ok ⟨h.apart, h.mapped, h.field, h.frame, h.there,
    congrArg (Function.update · i t) h.heads, h.complete, h.log, h.ready⟩

theorem completePages_eq (h : HoldsTags m₀ T a s) (hi : i < maxExp) :
    s.complete i = .ok (a.completePages i) := by
  rw [Liballoc.complete, if_pos hi, h.complete]

theorem addComplete (h : HoldsTags m₀ T a s) (hi : i < maxExp) (n : Int) :
    Returns (HoldsTags m₀ T (a.addComplete i n)) (s.addComplete i n) := by
  rw [Liballoc.addComplete, if_pos hi]
  refine .ok ⟨h.apart, h.mapped, h.field, h.frame, h.there, h.heads, ?_, h.log, h.ready⟩
  show Function.update s.completePages i (s.completePages i + n) = _
  rw [h.complete]
  rfl

/-- Fewer tags, as the memory is now. -/
theorem rebase (h : HoldsTags m₀ T a s) {T' : List Nat} (hT : T' ⊆ T) : HoldsTags s.mem T' a s :=
  ⟨fun t ht u hu => h.apart t (hT ht) u (hT hu), fun t ht => h.mapped t (hT ht),
    fun t ht => h.field t (hT ht), fun _ _ => rfl, fun _ => rfl, h.heads, h.complete, h.log, h.ready⟩

/-- A memory in which the bytes of these tags are the same. -/
theorem remem (h : HoldsTags m₀ T a s) {T' : List Nat} (hT : T' ⊆ T) {m : ByteMem}
    (hm : ∀ t ∈ T', ∀ x, t ≤ x → x < t + tagSize → m.byte x = s.mem.byte x) (calls : List PageCall) :
    HoldsTags m T' { a with calls } { s with mem := m, calls } := by
  refine ⟨fun t ht u hu => h.apart t (hT ht) u (hT hu), fun t ht i hi => ?_, fun t ht f => ?_,
    fun _ _ => rfl, fun _ => rfl, h.heads, h.complete, rfl, h.ready⟩
  · obtain ⟨c, hc⟩ := h.mapped t (hT ht) i hi
    exact ⟨c, (hm t ht (t + i) (by omega) (by omega)).trans hc⟩
  · have hle := f.offset_add_bytes_le
    rw [← h.field t (hT ht) f]
    exact ByteMem.word_congr fun x hx hx' => hm t ht x (by omega) (by omega)

/-! ## Routines on tags -/

/-- A store through a pointer that may be null. -/
theorem put_orNull {p : Nat} (h : HoldsTags m₀ T a s) (hp : TagOrNull T p) (f : TagField)
    (hv : v < 256 ^ f.bytes) :
    Returns (HoldsTags m₀ T (if p ≠ 0 then a.set p f v else a))
      (if p ≠ 0 then s.put p f v else .ok s) := by
  by_cases hp0 : p = 0
  · rw [if_neg (not_not.mpr hp0), if_neg (not_not.mpr hp0)]
    exact .ok h
  · rw [if_pos hp0, if_pos hp0]
    exact h.put (hp hp0) f hv

theorem addr_lt (h : HoldsTags m₀ T a s) (ht : t ∈ T) : t < 256 ^ 8 := by
  have hlt := h.lt ht
  unfold tagSize at hlt
  omega

theorem insertTag (h : HoldsTags m₀ T a s) (ht : t ∈ T) (hi : i < maxExp)
    (hfirst : TagOrNull T (a.freePages i)) :
    Returns (HoldsTags m₀ T (a.insert t i)) (s.insertTag t (some i)) := by
  have hi32 : i < 256 ^ 4 := by
    unfold maxExp at hi
    omega
  refine (h.put ht .index hi32).bind fun s h => ?_
  refine .bind_ok (h.head hi) ?_
  rw [TagHeap.freePages_set, TagHeap.insert]
  by_cases h0 : a.freePages i = 0
  · rw [if_neg (not_not.mpr h0), if_neg (not_not.mpr h0)]
    exact h.setHead hi t
  · rw [if_pos h0, if_pos h0]
    have hfirst := hfirst h0
    refine Returns.bind (P := HoldsTags m₀ T (((a.set t .index i).set (a.freePages i) .prev t).set t
      .next (a.freePages i))) ?_ fun s h => h.setHead hi t
    exact (h.put hfirst .prev (h.addr_lt ht)).bind fun s h => h.put ht .next (h.addr_lt hfirst)

/-- The list that the real size gives. -/
theorem insertTag_none (h : HoldsTags m₀ T a s) (ht : t ∈ T)
    (hi : listIndex (wrap32 (sub64 (a.field t .realSize) tagSize)) = i) :
    s.insertTag t none = s.insertTag t (some i) := by
  rw [Liballoc.insertTag, h.get ht, ok_bind, ok_bind, hi]
  rfl

theorem removeTag (h : HoldsTags m₀ T a s) (ht : t ∈ T) (hi : a.field t .index < maxExp)
    (hnext : TagOrNull T (a.field t .next)) (hprev : TagOrNull T (a.field t .prev))
    (hne : a.field t .prev ≠ t) : Returns (HoldsTags m₀ T (a.remove t)) (s.removeTag t) := by
  have hn := h.field_lt ht .next
  have hp := h.field_lt ht .prev
  rw [TagHeap.remove]
  refine .bind_ok (h.get ht .index) (.bind_ok (h.head hi) ?_)
  -- The head of the list.
  obtain ⟨a₁, ha₁⟩ : ∃ a₁, a₁ = if a.freePages (a.field t .index) = t
    then a.setHead (a.field t .index) (a.field t .next) else a := ⟨_, rfl⟩
  have hf₁ : a₁.field = a.field := by
    rw [ha₁]
    split <;> rfl
  refine Returns.bind (P := HoldsTags m₀ T a₁) ?_ fun s h => ?_
  · rw [ha₁]
    split
    · exact .bind_ok (h.get ht .next) (h.setHead hi _)
    · exact .ok h
  -- The neighbour before it.
  obtain ⟨a₂, ha₂⟩ : ∃ a₂, a₂ = if a.field t .prev ≠ 0
    then a₁.set (a.field t .prev) .next (a.field t .next) else a₁ := ⟨_, rfl⟩
  have hf₂ : a₂.field t = a.field t := by
    rw [ha₂]
    split
    · funext g
      rw [TagHeap.field_set_tag a₁ hne.symm, hf₁]
    · rw [hf₁]
  rw [← ha₁, ← ha₂]
  refine .bind_ok (h.get ht .prev) (Returns.bind (P := HoldsTags m₀ T a₂) ?_ fun s h => ?_)
  · rw [ha₂, h.get ht .next, hf₁]
    exact h.put_orNull hprev .next hn
  -- The neighbour behind it.
  refine .bind_ok (h.get ht .next) ?_
  rw [hf₂, h.get ht .prev, hf₂]
  refine (h.put_orNull hnext .prev hp).bind fun s h => ?_
  exact (h.put ht .next (by decide)).bind fun s h =>
    (h.put ht .prev (by decide)).bind fun s h => h.put ht .index (by decide)

theorem meltLeft (h : HoldsTags m₀ T a s) (ht : t ∈ T) (hl : a.field t .splitLeft ∈ T)
    (hlt : a.field t .splitLeft ≠ t) (hr : TagOrNull T (a.field t .splitRight))
    (hv : a.field (a.field t .splitLeft) .realSize + a.field t .realSize < 2 ^ 32) :
    Returns (fun r => HoldsTags m₀ T (a.melt t) r.1 ∧ r.2 = a.field t .splitLeft) (s.meltLeft t) := by
  have hr8 := h.field_lt ht .splitRight
  refine .bind_ok (h.get ht .splitLeft) (.bind_ok (h.get hl .realSize)
    (.bind_ok (h.get ht .realSize) ?_))
  rw [wrap32, Nat.mod_eq_of_lt hv]
  refine (h.put hl .realSize hv).bind fun s h => ?_
  have hright := h.get ht .splitRight
  rw [TagHeap.field_set_tag a hlt.symm] at hright
  refine .bind_ok hright ((h.put hl .splitRight hr8).bind fun s h => ?_)
  have hright := h.get ht .splitRight
  rw [TagHeap.field_set_tag _ hlt.symm, TagHeap.field_set_tag a hlt.symm] at hright
  refine .bind_ok hright ?_
  exact (h.put_orNull hr .splitLeft (h.addr_lt hl)).bind fun s h => .ok ⟨h, rfl⟩

theorem absorbRight {r : Nat} (h : HoldsTags m₀ T a s) (ht : t ∈ T) (hr : a.field t .splitRight = r)
    (hrT : r ∈ T) (hrt : r ≠ t) (hi : a.field r .index < maxExp)
    (hnext : TagOrNull T (a.field r .next)) (hprev : TagOrNull T (a.field r .prev))
    (hne : a.field r .prev ≠ r) (hrr : TagOrNull T (a.field r .splitRight))
    (hv : a.field t .realSize + a.field r .realSize < 2 ^ 32) :
    Returns (HoldsTags m₀ T (a.absorb t)) (s.absorbRight t) := by
  have hr8 := h.field_lt hrT .splitRight
  have hkeep : ∀ u {g : TagField}, g.inList = false →
      (a.remove r).field u g = a.field u g := a.field_remove r
  rw [TagHeap.absorb, hr, hkeep t (by decide), hkeep r (by decide), hkeep r (by decide)]
  refine .bind_ok (h.get ht .splitRight) ?_
  rw [hr]
  refine (h.removeTag hrT hi hnext hprev hne).bind fun s h => ?_
  refine .bind_ok (h.get ht .realSize) (.bind_ok (h.get hrT .realSize) ?_)
  rw [hkeep t (by decide), hkeep r (by decide), wrap32, Nat.mod_eq_of_lt hv]
  refine (h.put ht .realSize hv).bind fun s h => ?_
  have hright := h.get hrT .splitRight
  rw [TagHeap.field_set_tag _ hrt, hkeep r (by decide)] at hright
  refine .bind_ok hright ((h.put ht .splitRight hr8).bind fun s h => ?_)
  have hright := h.get hrT .splitRight
  rw [TagHeap.field_set_tag _ hrt, TagHeap.field_set_tag _ hrt, hkeep r (by decide)] at hright
  refine .bind_ok hright ?_
  exact h.put_orNull hrr .splitLeft (h.addr_lt ht)

/-- One tag more. -/
theorem grow {u : Nat} (h : HoldsTags m₀ T a s) (hu : s.mem.Mapped u tagSize)
    (hapart : ∀ t ∈ T, Apart t u) : HoldsTags m₀ (u :: T) (a.reread u s.mem) s := by
  refine ⟨?_, ?_, ?_, ?_, h.there, h.heads, h.complete, h.log, h.ready⟩
  · intro t ht v hv
    cases ht with
    | head =>
      cases hv with
      | head => exact .inl rfl
      | tail _ hv =>
        have huv := hapart v hv
        unfold Apart at huv ⊢
        omega
    | tail _ ht =>
      cases hv with
      | head => exact hapart t ht
      | tail _ hv => exact h.apart t ht v hv
  · intro t ht
    cases ht with
    | head => exact hu
    | tail _ ht => exact h.mapped t ht
  · intro t ht f
    by_cases htu : t = u
    · subst htu
      exact (if_pos rfl).symm
    · exact (h.field t (List.mem_of_ne_of_mem htu ht) f).trans (if_neg htu).symm
  · exact fun x hx => h.frame x fun t ht => hx t (.tail u ht)

/-- A new tag is one of no others. -/
theorem field_reread {u : Nat} (ht : t ≠ u) (m : ByteMem) : (a.reread u m).field t = a.field t :=
  funext fun _ => if_neg ht

/-- `split_tag`, where `u` is where the new tag goes. -/
theorem splitTag {u : Nat} (h : HoldsTags m₀ T a s) (ht : t ∈ T) (hu : u ∈ T)
    (hut : u = t + tagSize + a.field t .size) (ht32 : t < 2 ^ 32)
    (hroom : 2 * tagSize + a.field t .size ≤ a.field t .realSize)
    (hr : TagOrNull T (a.field t .splitRight)) (hi : i < maxExp)
    (hlist : listIndex (a.field t .realSize - 2 * tagSize - a.field t .size) = i)
    (hfirst : TagOrNull T (a.freePages i)) :
    Returns (HoldsTags m₀ T ((a.split t u).insert u i)) (s.splitTag t) := by
  have hreal := h.field_lt ht .realSize
  have hreal4 : a.field t .realSize < 2 ^ 32 := hreal
  have hsize := h.field_lt ht .size
  have hr8 := h.field_lt ht .splitRight
  have hne : t ≠ u := by
    unfold tagSize at hut
    omega
  obtain ⟨rest, hrest⟩ : ∃ rest, rest = a.field t .realSize - tagSize - a.field t .size := ⟨_, rfl⟩
  have hrest4 : rest < 256 ^ 4 := by omega
  have hremainder : wrap32 (sub64 (sub64 (a.field t .realSize) tagSize) (a.field t .size)) = rest := by
    rw [sub64_of_le (x := a.field t .realSize) (by omega) (by omega),
      sub64_of_le (by omega) (by omega), ← hrest]
    exact Nat.mod_eq_of_lt hrest4
  have hnew : wrap32 t + tagSize + a.field t .size = u := by
    rw [wrap32, Nat.mod_eq_of_lt ht32, hut]
  rw [TagHeap.split, ← hrest]
  refine .bind_ok (h.get ht .realSize) (.bind_ok (h.get ht .size) ?_)
  dsimp only
  rw [hremainder, hnew]
  refine (h.put hu .magic (by decide)).bind fun s h => (h.put hu .realSize hrest4).bind fun s h =>
    (h.put hu .next (by decide)).bind fun s h => (h.put hu .prev (by decide)).bind fun s h =>
    (h.put hu .splitLeft (h.addr_lt ht)).bind fun s h => ?_
  have hright := h.get ht .splitRight
  simp only [TagHeap.field_set_tag _ hne] at hright
  refine .bind_ok hright ((h.put hu .splitRight hr8).bind fun s h => ?_)
  have hright := h.get hu .splitRight
  simp only [TagHeap.field_set, and_self, if_true] at hright
  refine .bind_ok hright ((h.put_orNull hr .splitLeft (h.addr_lt hu)).bind fun s h => ?_)
  -- Both real sizes are read again, and nothing has changed them.
  obtain ⟨b, hb⟩ : ∃ b : TagHeap, b = if a.field t .splitRight ≠ 0
    then ((((((a.set u .magic liballocMagic).set u .realSize rest).set u .next 0).set u .prev 0).set u
      .splitLeft t).set u .splitRight (a.field t .splitRight)).set (a.field t .splitRight) .splitLeft u
    else (((((a.set u .magic liballocMagic).set u .realSize rest).set u .next 0).set u .prev 0).set u
      .splitLeft t).set u .splitRight (a.field t .splitRight) := ⟨_, rfl⟩
  have hsizes : b.field t .realSize = a.field t .realSize ∧ b.field u .realSize = rest ∧
      b.freePages = a.freePages := by
    rw [hb]
    split <;> simp [hne]
  rw [← hb] at h ⊢
  obtain ⟨hbt, hbu, hheads⟩ := hsizes
  refine (h.put ht .splitRight (h.addr_lt hu)).bind fun s h => ?_
  refine .bind_ok (h.get ht .realSize) (.bind_ok (h.get hu .realSize) ?_)
  rw [TagHeap.field_set_field b (by decide), TagHeap.field_set_field b (by decide), hbt, hbu]
  have hkept : wrap32 (a.field t .realSize + 2 ^ 32 - rest) = a.field t .realSize - rest := by
    unfold wrap32
    omega
  rw [hkept]
  refine (h.put ht .realSize (by omega)).bind fun s h => ?_
  have hlist' : listIndex (wrap32 (sub64 rest tagSize)) = i := by
    rw [sub64_of_le (by omega) (by omega), wrap32, Nat.mod_eq_of_lt (by omega), ← hlist]
    congr 1
    omega
  rw [h.insertTag_none hu (i := i) (by
    rw [TagHeap.field_set_tag _ hne.symm, TagHeap.field_set_tag _ hne.symm, hbu, hlist'])]
  refine h.insertTag hu hi ?_
  rw [TagHeap.freePages_set, TagHeap.freePages_set, hheads]
  exact hfirst

end HoldsTags

end HelixKernel
