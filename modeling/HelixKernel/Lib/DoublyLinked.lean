import HelixKernel.Lib.Chain

/-!
Null-terminated doubly linked lists.

`DLinked null next prev xs`: the cells `xs` are linked in this order by `next` and in the other one
by `prev`, which is `Chain` read both ways.  A cell is put in anywhere (`DLinked.insert`) or taken
out (`DLinked.remove`) by storing into its neighbours; what is stored is said once for both
directions, by `Chain.insert` and `Chain.remove`. -/

namespace HelixKernel

variable {α : Type} {null : α} {next next' prev prev' : α → α} {h u x : α} {xs l1 l2 : List α}

/-! ## One direction -/

theorem mem_getLast?_cons {y p : α} (hp : p ∈ xs.getLast?) : p ∈ (y :: xs).getLast? := by
  cases xs with
  | nil => cases hp
  | cons z xs => rwa [List.getLast?_cons_cons]

theorem not_mem_getLast?_cons {y a : α} (ha : a ∉ xs.getLast?) (hy : a ≠ y) :
    a ∉ (y :: xs).getLast? := by
  cases xs with
  | nil => simpa using Ne.symm hy
  | cons z xs => rwa [List.getLast?_cons_cons]

theorem not_mem_getLast?_of_not_mem {y : α} (ha : x ∉ y :: xs) : x ∉ (x :: y :: xs).getLast? := by
  rw [List.getLast?_cons_cons]
  exact fun h => ha (List.mem_of_getLast? h)

theorem Chain.head_eq (hc : Chain null next h xs) : h = xs.headD null := by
  cases xs with
  | nil => exact hc
  | cons x xs => exact hc.1

theorem Chain.next_eq (hc : Chain null next h (l1 ++ x :: l2)) : next x = l2.headD null :=
  hc.suffix.2.2.head_eq

/-- A cell between the last of `l1` and the first of `l2`. -/
theorem Chain.insert (hc : Chain null next h (l1 ++ l2)) (hu : u ≠ null)
    (hlast : ∀ p ∈ l1.getLast?, next' p = u) (hnext : next' u = l2.headD null)
    (he : ∀ a ∈ l1 ++ l2, a ∉ l1.getLast? → next' a = next a) :
    Chain null next' ((l1 ++ u :: l2).headD null) (l1 ++ u :: l2) := by
  induction l1 generalizing h with
  | nil =>
    have htail : Chain null next (l2.headD null) l2 := hc.head_eq ▸ hc
    refine ⟨rfl, hu, ?_⟩
    rw [hnext]
    exact htail.congr fun a ha => he a ha (by simp)
  | cons y l1 ih =>
    rw [List.cons_append] at hc
    have hnd := (List.nodup_cons.mp hc.nodup).1
    obtain ⟨rfl, hy, ht⟩ := hc
    refine ⟨rfl, hy, ?_⟩
    have hrest := ih ht (fun p hp => hlast p (mem_getLast?_cons hp)) fun a ha hna =>
      he a (.tail h ha) (not_mem_getLast?_cons hna (ne_of_mem_of_not_mem ha hnd))
    have hnext : next' h = (l1 ++ u :: l2).headD null := by
      cases l1 with
      | nil => exact hlast h (by simp)
      | cons z l1 =>
        rw [he h List.mem_cons_self (not_mem_getLast?_of_not_mem fun hh => hnd (List.mem_append_left l2 hh))]
        exact ht.head_eq
    rw [hnext]
    exact hrest

/-- The last of `l1` is linked past `x`. -/
theorem Chain.remove (hc : Chain null next h (l1 ++ x :: l2))
    (hlast : ∀ p ∈ l1.getLast?, next' p = next x)
    (he : ∀ a ∈ l1 ++ l2, a ∉ l1.getLast? → next' a = next a) :
    Chain null next' ((l1 ++ l2).headD null) (l1 ++ l2) := by
  have hx := hc.next_eq
  induction l1 generalizing h with
  | nil =>
    obtain ⟨-, -, ht⟩ := hc
    rw [hx] at ht
    exact ht.congr fun a ha => he a ha (by simp)
  | cons y l1 ih =>
    rw [List.cons_append] at hc
    have hnd : y ∉ l1 ++ l2 := by
      have hne := (List.nodup_cons.mp hc.nodup).1
      simp only [List.mem_append, List.mem_cons, not_or] at hne ⊢
      exact ⟨hne.1, hne.2.2⟩
    obtain ⟨rfl, hy, ht⟩ := hc
    refine ⟨rfl, hy, ?_⟩
    have hrest := ih ht (fun p hp => hlast p (mem_getLast?_cons hp)) fun a ha hna =>
      he a (.tail h ha) (not_mem_getLast?_cons hna (ne_of_mem_of_not_mem ha hnd))
    have hnext : next' h = (l1 ++ l2).headD null := by
      cases l1 with
      | nil => exact (hlast h (by simp)).trans hx
      | cons z l1 =>
        rw [he h List.mem_cons_self (not_mem_getLast?_of_not_mem fun hh => hnd (List.mem_append_left l2 hh))]
        exact ht.head_eq
    rw [hnext]
    exact hrest

/-! ## Both directions -/

/-- The cells `xs`, linked by `next` and back by `prev`. -/
structure DLinked (null : α) (next prev : α → α) (xs : List α) : Prop where
  forth : Chain null next (xs.headD null) xs
  back : Chain null prev (xs.reverse.headD null) xs.reverse

namespace DLinked

theorem nil (null : α) (next prev : α → α) : DLinked null next prev [] := ⟨rfl, rfl⟩

theorem nodup (h : DLinked null next prev xs) : xs.Nodup := h.forth.nodup

theorem ne_null (h : DLinked null next prev xs) : ∀ a ∈ xs, a ≠ null := h.forth.mem_ne_null

theorem next_eq (h : DLinked null next prev (l1 ++ x :: l2)) : next x = l2.headD null :=
  h.forth.next_eq

theorem prev_eq (h : DLinked null next prev (l1 ++ x :: l2)) : prev x = l1.getLastD null := by
  have hback := h.back
  rw [List.reverse_append, List.reverse_cons, List.append_assoc] at hback
  rw [hback.next_eq]
  cases l1 using List.reverseRecOn with
  | nil => rfl
  | append_singleton l1 y => simp

/-- **Frame.** -/
theorem congr (h : DLinked null next prev xs) (hn : ∀ a ∈ xs, next' a = next a)
    (hp : ∀ a ∈ xs, prev' a = prev a) : DLinked null next' prev' xs where
  forth := h.forth.congr hn
  back := h.back.congr fun a ha => hp a (List.mem_reverse.mp ha)

/-- A cell between the last of `l1` and the first of `l2`. -/
theorem insert (h : DLinked null next prev (l1 ++ l2)) (hu : u ≠ null)
    (hlast : ∀ p ∈ l1.getLast?, next' p = u) (hnext : next' u = l2.headD null)
    (hn : ∀ a ∈ l1 ++ l2, a ∉ l1.getLast? → next' a = next a)
    (hhead : ∀ p ∈ l2.head?, prev' p = u) (hprev : prev' u = l1.getLastD null)
    (hp : ∀ a ∈ l1 ++ l2, a ∉ l2.head? → prev' a = prev a) :
    DLinked null next' prev' (l1 ++ u :: l2) where
  forth := h.forth.insert hu hlast hnext hn
  back := by
    have hback := h.back
    rw [List.reverse_append] at hback
    rw [List.reverse_append, List.reverse_cons, List.append_assoc]
    refine hback.insert hu (fun p hp => hhead p (by simpa using hp)) ?_ fun a ha hna => ?_
    · rw [hprev]
      cases l1 using List.reverseRecOn with
      | nil => rfl
      | append_singleton l1 y => simp
    · exact hp a (by simpa [or_comm] using ha) (by simpa using hna)

/-- The neighbours of `x` are linked past it. -/
theorem remove (h : DLinked null next prev (l1 ++ x :: l2))
    (hlast : ∀ p ∈ l1.getLast?, next' p = next x)
    (hn : ∀ a ∈ l1 ++ l2, a ∉ l1.getLast? → next' a = next a)
    (hhead : ∀ p ∈ l2.head?, prev' p = prev x)
    (hp : ∀ a ∈ l1 ++ l2, a ∉ l2.head? → prev' a = prev a) :
    DLinked null next' prev' (l1 ++ l2) where
  forth := h.forth.remove hlast hn
  back := by
    have hback := h.back
    rw [List.reverse_append, List.reverse_cons, List.append_assoc] at hback
    rw [List.reverse_append]
    refine hback.remove (fun p hp => hhead p (by simpa using hp)) fun a ha hna => ?_
    exact hp a (by simpa [or_comm] using ha) (by simpa using hna)

end DLinked

end HelixKernel
