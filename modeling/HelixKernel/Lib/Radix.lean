import Mathlib.Data.List.Infix
import Mathlib.Tactic.Common

/-!
Radix trees stored in a heap, such as page tables.

A node `n` has an entry `get n i` for every index `i`; what an entry means depends
on its depth (`RadixFormat`): it leads to a child node, it ends the walk (`leaf`),
or it is empty.  Nothing here assumes that the nodes are distinct: that each is
reached by one path only is `IsTree`.

* `follow p`: the node that the path `p` leads to.
* `walk p`: the entries met on `p` down to a leaf, as hardware walks it.
* `passed p`: those of them that lead to a child, also where `p` ends in an empty entry.

A store to one entry of one node is one of two things, and keeps a tree a tree:

    link      an empty entry becomes a new, empty child: no walk changes
    set_leaf  an entry without a child is replaced: only walks through it change

Neither touches an entry that leads to a child, and only `link` makes one (`Grown`). -/

namespace HelixKernel

structure RadixFormat (N E : Type) where
  child : Nat → E → Option N
  leaf : Nat → E → Bool
  leaf_child : ∀ d e, leaf d e = true → child d e = none

namespace RadixFormat

variable {N I E : Type} (R : RadixFormat N E) (get : N → I → E)

def follow : Nat → N → List I → Option N
  | _, n, [] => some n
  | d, n, i :: p => (R.child d (get n i)).bind fun c => follow (d + 1) c p

def walk : Nat → N → List I → Option (List E)
  | _, _, [] => none
  | d, n, i :: p =>
    match R.child d (get n i) with
    | some c => (walk (d + 1) c p).map (get n i :: ·)
    | none => if R.leaf d (get n i) then some [get n i] else none

def passed : Nat → N → List I → List E
  | _, _, [] => []
  | d, n, i :: p =>
    match R.child d (get n i) with
    | some c => get n i :: passed (d + 1) c p
    | none => []

/-- No node is reached on two paths. -/
def IsTree (root : N) : Prop :=
  ∀ p q n, R.follow get 0 root p = some n → R.follow get 0 root q = some n → p = q

/-- All leaves are at depth `D`. -/
def LeavesAt (D : Nat) (root : N) : Prop :=
  ∀ p n i, R.follow get 0 root p = some n → R.leaf p.length (get n i) = true → p.length = D

variable {R get} {get' : N → I → E} {root t c : N} {p : List I} {i : I}

theorem follow_append (p q : List I) : ∀ (d : Nat) (n : N), R.follow get d n (p ++ q) =
    (R.follow get d n p).bind fun t => R.follow get (d + p.length) t q := by
  induction p with
  | nil => intro d n; rfl
  | cons i p ih =>
    intro d n
    rw [List.cons_append, follow, follow, Option.bind_assoc]
    congr 1
    funext c
    rw [ih, List.length_cons, Nat.add_right_comm, Nat.add_assoc]

/-- One step further than a node. -/
theorem follow_snoc {r : List I} {n : N} (hr : R.follow get 0 root r = some n) (j : I) :
    R.follow get 0 root (r ++ [j]) = R.child r.length (get n j) := by
  rw [follow_append, hr, Option.bind_some, Nat.zero_add, follow]
  cases R.child r.length (get n j) <;> rfl

/-- The walk from a node on the way. -/
theorem walk_append (p : List I) : ∀ (d : Nat) (n : N), R.follow get d n p = some t →
    ∃ es : List E, es.length = p.length ∧
      ∀ q, R.walk get d n (p ++ q) = (R.walk get (d + p.length) t q).map (es ++ ·) := by
  induction p with
  | nil =>
    intro d n hp
    obtain rfl : n = t := Option.some.inj hp
    exact ⟨[], rfl, fun q => by simp⟩
  | cons i p ih =>
    intro d n hp
    obtain ⟨c, hc, hp⟩ := Option.bind_eq_some_iff.mp (show (R.child d (get n i)).bind _ = some t from hp)
    obtain ⟨es, hlen, hwalk⟩ := ih (d + 1) c hp
    refine ⟨get n i :: es, by rw [List.length_cons, List.length_cons, hlen], fun q => ?_⟩
    rw [List.cons_append, walk, hc]
    dsimp only
    rw [hwalk, Option.map_map, List.length_cons, Nat.add_right_comm, Nat.add_assoc]
    rfl

/-- A leaf ends the walk. -/
theorem walk_of_leaf (hp : R.follow get 0 root p = some t) (hleaf : R.leaf p.length (get t i) = true)
    (q : List I) : ∃ es, R.walk get 0 root (p ++ i :: q) = some es ∧ es.length = p.length + 1 := by
  obtain ⟨es, hlen, hes⟩ := walk_append p 0 root hp
  refine ⟨es ++ [get t i], ?_, by rw [List.length_append, hlen, List.length_singleton]⟩
  rw [hes, Nat.zero_add, walk, R.leaf_child _ _ hleaf]
  dsimp only
  rw [if_pos hleaf]
  rfl

/-- An empty entry ends the search. -/
theorem walk_of_empty (hp : R.follow get 0 root p = some t) (hnone : R.child p.length (get t i) = none)
    (hleaf : R.leaf p.length (get t i) = false) (q : List I) :
    R.walk get 0 root (p ++ i :: q) = none := by
  obtain ⟨es, -, hes⟩ := walk_append p 0 root hp
  rw [hes, Nat.zero_add, walk, hnone]
  dsimp only
  rw [hleaf]
  rfl

/-- The first entry of a walk leads on, or it is the leaf. -/
theorem walk_cons_inv {d : Nat} {n : N} {es : List E} (h : R.walk get d n (i :: p) = some es) :
    (∃ c es', R.child d (get n i) = some c ∧ R.walk get (d + 1) c p = some es' ∧
      es = get n i :: es') ∨
    (R.child d (get n i) = none ∧ R.leaf d (get n i) = true ∧ es = [get n i]) := by
  rw [walk] at h
  cases hc : R.child d (get n i) with
  | some c =>
    rw [hc] at h
    obtain ⟨es', hes', rfl⟩ := Option.map_eq_some_iff.mp h
    exact .inl ⟨c, es', rfl, hes', rfl⟩
  | none =>
    rw [hc] at h
    dsimp only at h
    split at h
    · next hleaf =>
      cases h
      exact .inr ⟨rfl, hleaf, rfl⟩
    · cases h

/-- Where all leaves are at depth `D`, every walk has `D + 1` entries. -/
theorem LeavesAt.walk_length {D : Nat} (hl : R.LeavesAt get D root) : ∀ (q r : List I) (n : N)
    (es : List E), R.follow get 0 root r = some n → R.walk get r.length n q = some es →
    r.length + es.length = D + 1 := by
  intro q
  induction q with
  | nil => intro r n es _ hw; cases hw
  | cons j q ih =>
    intro r n es hr hw
    rw [walk] at hw
    cases hc : R.child r.length (get n j) with
    | none =>
      rw [hc] at hw
      dsimp only at hw
      split at hw
      · next hleaf =>
        cases hw
        have := hl r n j hr hleaf
        rw [List.length_singleton]
        omega
      · cases hw
    | some c =>
      rw [hc] at hw
      obtain ⟨es', hw', rfl⟩ := Option.map_eq_some_iff.mp hw
      have hlen : (r ++ [j]).length = r.length + 1 := by
        rw [List.length_append, List.length_singleton]
      have := ih (r ++ [j]) c es' ((follow_snoc hr j).trans hc) (hlen ▸ hw')
      rw [List.length_cons]
      omega

/-- **Frame.**  Paths that avoid the changed entries lead where they led. -/
theorem congr_along (bad : List I → Prop)
    (hget : ∀ r n j, R.follow get 0 root r = some n → ¬ bad (r ++ [j]) → get' n j = get n j) :
    ∀ (q r : List I) (n : N), R.follow get 0 root r = some n →
      (∀ l, l ≠ [] → l <+: q → ¬ bad (r ++ l)) →
      R.follow get' r.length n q = R.follow get r.length n q ∧
        R.walk get' r.length n q = R.walk get r.length n q := by
  intro q
  induction q with
  | nil => intro r n _ _; exact ⟨rfl, rfl⟩
  | cons j q ih =>
    intro r n hr hq
    have he : get' n j = get n j :=
      hget r n j hr (hq [j] (by simp) ⟨q, rfl⟩)
    unfold follow walk
    rw [he]
    cases hc : R.child r.length (get n j) with
    | none => exact ⟨rfl, rfl⟩
    | some c =>
      have hnext := ih (r ++ [j]) c ((follow_snoc hr j).trans hc) fun l hl hlq => by
        rw [List.append_assoc]
        exact hq (j :: l) (by simp) (List.cons_prefix_cons.mpr ⟨rfl, hlq⟩)
      rw [List.length_append, List.length_singleton] at hnext
      exact ⟨hnext.1, by simp only [hnext.2]⟩

/-- Nothing changes where no entry of a reached node does. -/
theorem congr_reached
    (hget : ∀ r n j, R.follow get 0 root r = some n → get' n j = get n j) (q : List I) :
    R.follow get' 0 root q = R.follow get 0 root q ∧ R.walk get' 0 root q = R.walk get 0 root q :=
  congr_along (fun _ => False) (fun r n j hr _ => hget r n j hr) q [] root rfl fun _ _ _ => id

section store

variable (htree : R.IsTree get root) (hp : R.follow get 0 root p = some t)
  (hget : ∀ r n j, R.follow get 0 root r = some n → ¬ (n = t ∧ j = i) → get' n j = get n j)

include htree hp hget

/-- A store to entry `i` of the node at `p` concerns the paths through `p ++ [i]`. -/
theorem off_path {q : List I} (hq : ¬ (p ++ [i]) <+: q) :
    R.follow get' 0 root q = R.follow get 0 root q ∧ R.walk get' 0 root q = R.walk get 0 root q := by
  refine congr_along (fun l => l = p ++ [i]) (fun r n j hr hbad => ?_) q [] root rfl ?_
  · refine hget r n j hr ?_
    rintro ⟨rfl, rfl⟩
    exact hbad (by rw [htree r p _ hr hp])
  · rintro l - hl rfl
    exact hq hl

theorem follow_node : R.follow get' 0 root p = some t := by
  rw [(off_path htree hp hget fun h => ?_).1, hp]
  have hlen := h.length_le
  rw [List.length_append, List.length_singleton] at hlen
  omega

/-- **A new child.** -/
theorem link (hnone : R.child p.length (get t i) = none) (hleaf : R.leaf p.length (get t i) = false)
    (hc : R.child p.length (get' t i) = some c)
    (hempty : ∀ j, R.child (p.length + 1) (get' c j) = none ∧ R.leaf (p.length + 1) (get' c j) = false) :
    R.follow get' 0 root (p ++ [i]) = some c ∧
    (∀ q, q ≠ p ++ [i] → R.follow get' 0 root q = R.follow get 0 root q) ∧
    ∀ q, R.walk get' 0 root q = R.walk get 0 root q := by
  have hp' := follow_node htree hp hget
  have hic := (follow_snoc hp' i).trans hc
  refine ⟨hic, fun q hq => ?_, fun q => ?_⟩
  · by_cases hpre : (p ++ [i]) <+: q
    · obtain ⟨l, rfl⟩ := hpre
      obtain ⟨j, l, rfl⟩ := List.exists_cons_of_ne_nil (l := l) (by rintro rfl; simp at hq)
      rw [follow_append (p ++ [i]), follow_append (p ++ [i]), hic, follow_snoc hp i, hnone,
        Option.bind_some, Option.bind_none]
      show (R.child (0 + (p ++ [i]).length) (get' c j)).bind _ = none
      rw [List.length_append, List.length_singleton, Nat.zero_add, (hempty j).1]
      rfl
    · exact (off_path htree hp hget hpre).1
  · by_cases hpre : (p ++ [i]) <+: q
    · obtain ⟨l, rfl⟩ := hpre
      obtain ⟨es', -, hes'⟩ := walk_append _ 0 root hic
      have hold : R.walk get 0 root (p ++ [i] ++ l) = none := by
        rw [List.append_assoc]
        exact walk_of_empty hp hnone hleaf l
      rw [hold, hes', List.length_append, List.length_singleton, Nat.zero_add]
      cases l with
      | nil => rfl
      | cons j l =>
        rw [walk, (hempty j).1]
        dsimp only
        rw [(hempty j).2]
        rfl
    · exact (off_path htree hp hget hpre).2

/-- **Another leaf** (or none) in an entry that has no child. -/
theorem set_leaf (hnone : R.child p.length (get t i) = none)
    (hnone' : R.child p.length (get' t i) = none) :
    (∀ q, R.follow get' 0 root q = R.follow get 0 root q) ∧
    (∀ q, ¬ (p ++ [i]) <+: q → R.walk get' 0 root q = R.walk get 0 root q) ∧
    ∃ es : List E, es.length = p.length ∧ R.walk get' 0 root (p ++ [i]) =
      if R.leaf p.length (get' t i) then some (es ++ [get' t i]) else none := by
  have hp' := follow_node htree hp hget
  refine ⟨fun q => ?_, fun q hq => (off_path htree hp hget hq).2, ?_⟩
  · by_cases hpre : (p ++ [i]) <+: q
    · obtain ⟨l, rfl⟩ := hpre
      rw [follow_append (p ++ [i]), follow_append (p ++ [i]), follow_snoc hp i, follow_snoc hp' i,
        hnone, hnone', Option.bind_none, Option.bind_none]
    · exact (off_path htree hp hget hpre).1
  · obtain ⟨es, hlen, hes⟩ := walk_append _ 0 root hp'
    refine ⟨es, hlen, ?_⟩
    rw [hes, Nat.zero_add, walk, hnone']
    dsimp only
    split <;> rfl

/-- The new child has no leaves. -/
theorem LeavesAt.link {D : Nat} (hl : R.LeavesAt get D root)
    (hc : R.child p.length (get' t i) = some c)
    (hempty : ∀ j, R.child (p.length + 1) (get' c j) = none ∧ R.leaf (p.length + 1) (get' c j) = false)
    (hnew : R.follow get' 0 root (p ++ [i]) = some c)
    (hold : ∀ q, q ≠ p ++ [i] → R.follow get' 0 root q = R.follow get 0 root q) :
    R.LeavesAt get' D root := by
  intro q n j hq hleaf
  by_cases hqi : q = p ++ [i]
  · subst hqi
    obtain rfl : c = n := Option.some.inj (hnew.symm.trans hq)
    rw [List.length_append, List.length_singleton, (hempty j).2] at hleaf
    cases hleaf
  · rw [hold q hqi] at hq
    by_cases hti : n = t ∧ j = i
    · obtain ⟨rfl, rfl⟩ := hti
      obtain rfl := htree q p n hq hp
      rw [R.leaf_child _ _ hleaf] at hc
      cases hc
    · rw [hget q n j hq hti] at hleaf
      exact hl q n j hq hleaf

/-- Leaves may be set where leaves belong. -/
theorem LeavesAt.set_leaf (hl : R.LeavesAt get p.length root)
    (hold : ∀ q, R.follow get' 0 root q = R.follow get 0 root q) : R.LeavesAt get' p.length root := by
  intro q n j hq hleaf
  rw [hold] at hq
  by_cases hti : n = t ∧ j = i
  · rw [htree q p n hq (hti.1 ▸ hp)]
  · rw [hget q n j hq hti] at hleaf
    exact hl q n j hq hleaf

end store

/-- A tree with a new child is a tree. -/
theorem IsTree.link (htree : R.IsTree get root) (hfresh : ∀ q, R.follow get 0 root q ≠ some c)
    (hnew : R.follow get' 0 root (p ++ [i]) = some c)
    (hold : ∀ q, q ≠ p ++ [i] → R.follow get' 0 root q = R.follow get 0 root q) :
    R.IsTree get' root := by
  intro q r n hq hr
  by_cases h1 : q = p ++ [i] <;> by_cases h2 : r = p ++ [i]
  · rw [h1, h2]
  · rw [h1, hnew] at hq
    rw [hold r h2] at hr
    exact absurd (hr.trans hq.symm) (hfresh r)
  · rw [h2, hnew] at hr
    rw [hold q h1] at hq
    exact absurd (hq.trans hr.symm) (hfresh q)
  · rw [hold q h1] at hq
    rw [hold r h2] at hr
    exact htree q r n hq hr

theorem IsTree.congr (htree : R.IsTree get root)
    (hold : ∀ q, R.follow get' 0 root q = R.follow get 0 root q) : R.IsTree get' root := by
  intro q r n hq hr
  rw [hold] at hq hr
  exact htree q r n hq hr

/-! ## Entries that lead to children -/

/-- A walk passes its entries but for the last, the leaf. -/
theorem walk_passed : ∀ (p : List I) (d : Nat) (n : N) (es : List E),
    R.walk get d n p = some es → ∃ e, es = R.passed get d n p ++ [e] := by
  intro p
  induction p with
  | nil => intro d n es h; cases h
  | cons i p ih =>
    intro d n es h
    unfold passed
    rcases walk_cons_inv h with ⟨c, es', hc, hes', rfl⟩ | ⟨hc, -, rfl⟩
    · obtain ⟨e, rfl⟩ := ih (d + 1) c es' hes'
      rw [hc]
      exact ⟨e, rfl⟩
    · rw [hc]
      exact ⟨get n i, rfl⟩

theorem mem_passed {e : E} : ∀ (p : List I) (d : Nat) (n : N), e ∈ R.passed get d n p ↔
    ∃ r i q t c, p = r ++ i :: q ∧ R.follow get d n r = some t ∧ get t i = e ∧
      R.child (d + r.length) e = some c := by
  intro p
  induction p with
  | nil =>
    intro d n
    constructor
    · intro h
      exact absurd h List.not_mem_nil
    · rintro ⟨r, i, q, t, c, hp, -⟩
      exact absurd hp (by simp)
  | cons j p ih =>
    intro d n
    unfold passed
    constructor
    · cases hc : R.child d (get n j) with
      | none => exact fun h => absurd h List.not_mem_nil
      | some c =>
        intro h
        rcases List.mem_cons.mp h with rfl | h
        · exact ⟨[], j, p, n, c, rfl, rfl, rfl, hc⟩
        · obtain ⟨r, i, q, t, c', rfl, hr, he, hc'⟩ := (ih (d + 1) c).mp h
          refine ⟨j :: r, i, q, t, c', rfl, ?_, he, ?_⟩
          · rw [follow, hc]
            exact hr
          · rwa [List.length_cons, Nat.add_comm r.length, ← Nat.add_assoc]
    · rintro ⟨r, i, q, t, c, hp, hr, he, hc⟩
      cases r with
      | nil =>
        obtain ⟨rfl, rfl⟩ := List.cons.inj hp
        obtain rfl : n = t := Option.some.inj hr
        rw [← he] at hc
        rw [show R.child d (get n j) = some c from hc]
        exact List.mem_cons.mpr (.inl he.symm)
      | cons j' r =>
        obtain ⟨rfl, rfl⟩ := List.cons.inj hp
        obtain ⟨c', hc', hr⟩ := Option.bind_eq_some_iff.mp
          (show (R.child d (get n j)).bind _ = some t from hr)
        rw [hc']
        refine List.mem_cons_of_mem _ ((ih (d + 1) c').mpr ⟨r, i, q, t, c, rfl, hr, he, ?_⟩)
        rwa [List.length_cons, Nat.add_comm r.length, ← Nat.add_assoc] at hc

/-- From `get` to `get'` the entries that lead to children have stayed, and those that are new
are `ok`. -/
structure Grown (R : RadixFormat N E) (ok : E → Prop) (get get' : N → I → E) (root : N) : Prop where
  keep : ∀ r n j c, R.follow get 0 root r = some n → R.child r.length (get n j) = some c →
    R.follow get' 0 root r = some n ∧ get' n j = get n j
  fresh : ∀ r n j c, R.follow get' 0 root r = some n → R.child r.length (get' n j) = some c →
    (R.follow get 0 root r = some n ∧ get' n j = get n j) ∨ ok (get' n j)

namespace Grown

variable {ok : E → Prop} {get'' : N → I → E}

theorem refl (get : N → I → E) (root : N) : R.Grown ok get get root :=
  ⟨fun _ _ _ _ hr _ => ⟨hr, rfl⟩, fun _ _ _ _ hr _ => .inl ⟨hr, rfl⟩⟩

theorem trans (h : R.Grown ok get get' root) (h' : R.Grown ok get' get'' root) :
    R.Grown ok get get'' root := by
  constructor
  · intro r n j c hr hc
    obtain ⟨hr', he⟩ := h.keep r n j c hr hc
    obtain ⟨hr'', he'⟩ := h'.keep r n j c hr' (he ▸ hc)
    exact ⟨hr'', he'.trans he⟩
  · intro r n j c hr hc
    rcases h'.fresh r n j c hr hc with ⟨hr', he'⟩ | hok
    · rcases h.fresh r n j c hr' (he' ▸ hc) with ⟨hr'', he⟩ | hok
      · exact .inl ⟨hr'', he'.trans he⟩
      · exact .inr (he' ▸ hok)
    · exact .inr hok

/-- What a path passes, before and after. -/
theorem passed (h : R.Grown ok get get' root) (p : List I) :
    (∀ e ∈ R.passed get 0 root p, e ∈ R.passed get' 0 root p) ∧
    ∀ e ∈ R.passed get' 0 root p, e ∈ R.passed get 0 root p ∨ ok e := by
  constructor
  · intro e he
    obtain ⟨r, i, q, t, c, hp, hr, rfl, hc⟩ := (mem_passed p 0 root).mp he
    obtain ⟨hr', he'⟩ := h.keep r t i c hr (by rwa [Nat.zero_add] at hc)
    exact (mem_passed p 0 root).mpr ⟨r, i, q, t, c, hp, hr', he', hc⟩
  · intro e he
    obtain ⟨r, i, q, t, c, hp, hr, rfl, hc⟩ := (mem_passed p 0 root).mp he
    rcases h.fresh r t i c hr (by rwa [Nat.zero_add] at hc) with ⟨hr', he'⟩ | hok
    · exact .inl ((mem_passed p 0 root).mpr ⟨r, i, q, t, c, hp, hr', he'.symm, hc⟩)
    · exact .inr hok

variable (htree : R.IsTree get root) (hp : R.follow get 0 root p = some t)
  (hget : ∀ r n j, R.follow get 0 root r = some n → ¬ (n = t ∧ j = i) → get' n j = get n j)
  (hnone : R.child p.length (get t i) = none)

include htree hp hnone in
theorem other_entry {r : List I} {n d : N} {j : I} (hr : R.follow get 0 root r = some n)
    (hc : R.child r.length (get n j) = some d) : ¬ (n = t ∧ j = i) := by
  rintro ⟨rfl, rfl⟩
  rw [htree r p n hr hp, hnone] at hc
  cases hc

include htree hp hget hnone

/-- A new child brings one new entry. -/
theorem link (hempty : ∀ j, R.child (p.length + 1) (get' c j) = none)
    (hnew : R.follow get' 0 root (p ++ [i]) = some c)
    (hold : ∀ q, q ≠ p ++ [i] → R.follow get' 0 root q = R.follow get 0 root q)
    (hok : ok (get' t i)) : R.Grown ok get get' root := by
  constructor
  · intro r n j d hr hc
    refine ⟨?_, hget r n j hr (other_entry htree hp hnone hr hc)⟩
    rw [hold r, hr]
    rintro rfl
    rw [follow_snoc hp i, hnone] at hr
    cases hr
  · intro r n j d hr hc
    by_cases hri : r = p ++ [i]
    · subst hri
      obtain rfl : c = n := Option.some.inj (hnew.symm.trans hr)
      rw [List.length_append, List.length_singleton, hempty j] at hc
      cases hc
    · rw [hold r hri] at hr
      by_cases hti : n = t ∧ j = i
      · exact .inr (by rwa [hti.1, hti.2])
      · exact .inl ⟨hr, hget r n j hr hti⟩

/-- Setting a leaf brings none. -/
theorem set_leaf (hnone' : R.child p.length (get' t i) = none)
    (hold : ∀ q, R.follow get' 0 root q = R.follow get 0 root q) : R.Grown ok get get' root := by
  constructor
  · intro r n j d hr hc
    exact ⟨(hold r).trans hr, hget r n j hr (other_entry htree hp hnone hr hc)⟩
  · intro r n j d hr hc
    rw [hold r] at hr
    refine .inl ⟨hr, hget r n j hr ?_⟩
    rintro ⟨rfl, rfl⟩
    rw [htree r p n hr hp, hnone'] at hc
    cases hc

end Grown

end RadixFormat

end HelixKernel
