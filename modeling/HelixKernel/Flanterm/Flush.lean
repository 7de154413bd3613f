import HelixKernel.Flanterm.Queue

/-!
# What the framebuffer shows

Between flushes every cell shows the grid's character, but for the cell where the cursor was drawn
last (`Drawn`).  A flush draws the cursor, the cells in the queue and then the cursor's old cell;
after it every cell shows what it holds, the cursor's one with its colours exchanged:

    doubleBufferFlush_shows -/

namespace HelixKernel.Flanterm

/-- The pixels of a cell are those of the character. -/
def FbParams.Shows (g : FbParams) (px : Framebuffer) (x y : Nat) (c : FbChar) : Prop :=
  ∀ X Y, X < g.width → Y < g.height → g.InCell x y X Y → px (g.pixelIndex X Y) = g.cellPicture c x y X Y

/-- Beside the cells there is what lies behind them. -/
def FbParams.Backed (g : FbParams) (px : Framebuffer) : Prop :=
  ∀ X Y, X < g.width → Y < g.height → (∀ x y, x < g.cols → y < g.rows → ¬ g.InCell x y X Y) →
    px (g.pixelIndex X Y) = g.backdrop X Y

/-- The terminal's pixels apart, the framebuffer's words are the same. -/
def FbParams.SameOutside (g : FbParams) (px px' : Framebuffer) : Prop :=
  ∀ q, (∀ X Y, X < g.width → Y < g.height → q ≠ g.pixelIndex X Y) → px' q = px q

namespace FbParams.Painted

variable {g : FbParams} {px px' : Framebuffer} {x y x' y' : Nat} {c d : FbChar}

theorem shows (h : g.Painted px px' (g.InCell x y) (g.cellPicture c x y)) : g.Shows px' x y c := h.on

theorem shows_other (h : g.Painted px px' (g.InCell x y) (g.cellPicture c x y))
    (hne : ¬ (x' = x ∧ y' = y))
    (hd : g.Shows px x' y' d) : g.Shows px' x' y' d := by
  intro X Y hX hY hin
  rw [h.off X Y hX hY fun hother => hne (hin.unique hother)]
  exact hd X Y hX hY hin

theorem backed (h : g.Painted px px' (g.InCell x y) (g.cellPicture c x y))
    (hx : x < g.cols) (hy : y < g.rows)
    (hb : g.Backed px) : g.Backed px' := by
  intro X Y hX hY hout
  rw [h.off X Y hX hY (hout x y hx hy)]
  exact hb X Y hX hY hout

end FbParams.Painted

namespace FbContext

variable (g : FbParams)

/-- Between flushes. -/
structure Drawn (fb : FbContext) : Prop where
  shows : ∀ x y, x < g.cols → y < g.rows → ¬ (x = fb.oldCursorX ∧ y = fb.oldCursorY) →
    g.Shows fb.framebuffer x y (fb.grid (y * g.cols + x))
  backed : g.Backed fb.framebuffer

/-- Nothing waits, and the cursor is where it was drawn last. -/
structure Settled (fb : FbContext) : Prop where
  queue : fb.queueI = 0
  cursorX : fb.oldCursorX = fb.cursorX
  cursorY : fb.oldCursorY = fb.cursorY

/-- Before item `k` of the queue is flushed. -/
structure Flushing (ctx : FlantermContext) (v : Nat → FbChar) (fb₀ : FbContext) (k : Nat)
    (fb : FbContext) :
    Prop where
  loose : (fb.buffer g).Loose (cellsOf g)
  view : ∀ i < g.rows * g.cols, (fb.buffer g).view i = v i
  done : ∀ i < g.rows * g.cols, ∀ j, fb.map i = some j → k ≤ j
  items : ∀ k < fb.queueI, (fb.queue k).x < g.cols ∧ (fb.queue k).y < g.rows
  used : fb.queueI = fb₀.queueI
  room : fb.queueI ≤ g.rows * g.cols
  pen : fb.toPen = fb₀.toPen
  oldCursorX : fb.oldCursorX = fb₀.oldCursorX
  oldCursorY : fb.oldCursorY = fb₀.oldCursorY
  shows : ∀ x y, x < g.cols → y < g.rows → ¬ (x = fb₀.oldCursorX ∧ y = fb₀.oldCursorY) →
    ¬ (ctx.cursorEnabled = true ∧ x = fb₀.cursorX ∧ y = fb₀.cursorY) →
    g.Shows fb.framebuffer x y (fb.grid (y * g.cols + x))
  /-- the cursor has been drawn, and its cell has left the queue -/
  cursor : ctx.cursorEnabled = true → fb₀.cursorX < g.cols → fb₀.cursorY < g.rows →
    fb.map (fb₀.cursorY * g.cols + fb₀.cursorX) = none ∧
      g.Shows fb.framebuffer fb₀.cursorX fb₀.cursorY (swapped (v (fb₀.cursorY * g.cols + fb₀.cursorX)))
  backed : g.Backed fb.framebuffer
  outside : g.SameOutside fb₀.framebuffer fb.framebuffer

variable {g} {ctx : FlantermContext} {v : Nat → FbChar} {fb fb₀ : FbContext} {x y k : Nat}

/-- Cells have numbers of their own. -/
theorem cell_inj {x' y' : Nat} (hx : x < g.cols) (hx' : x' < g.cols)
    (h : y * g.cols + x = y' * g.cols + x') : x = x' ∧ y = y' := by
  have hy : y = y' := by
    refine Nat.le_antisymm ((row_le_cell hx').mp ?_) ((row_le_cell hx).mp ?_) <;> omega
  subst hy
  omega

theorem plot_painted (hg : g.Sane) (fb : FbContext) (c : FbChar) (hx : x < g.cols) (hy : y < g.rows) :
    Returns (fun fb' => ∃ px', fb' = { fb with framebuffer := px' } ∧
        g.Painted fb.framebuffer px' (g.InCell x y) (g.cellPicture c x y)) (fb.plot g c x y) :=
  (FbParams.plotChar_painted hg c hx hy fb.framebuffer).bind fun px' hpx => .ok ⟨px', rfl, hpx⟩

/-- Writing the grid and freeing the cell is a commit of the buffer. -/
theorem buffer_commit (fb : FbContext) (px : Framebuffer) {i : Nat} (hi : (fb.buffer g).place k = i)
    (hslot : fb.map i ≠ none) :
    buffer g { fb with
      framebuffer := px
      grid := Function.update fb.grid i (fb.queue k).c
      map := Function.update fb.map i none } = (fb.buffer g).commit k := by
  obtain ⟨j, hj⟩ := Option.ne_none_iff_exists'.mp hslot
  have hbuffer : (fb.buffer g).slot i = some j := hj
  unfold WriteBack.commit
  rw [hi, hbuffer]
  rfl

/-- What drawing the cursor does: nothing, a plot, or a plot of a character that leaves the queue
for the grid. -/
inductive CursorDrawn (g : FbParams) (ctx : FlantermContext) (fb : FbContext) : FbContext → Prop where
  | off (h : ctx.cursorEnabled = true → fb.cursorX < g.cols → fb.cursorY < g.rows → False) :
    CursorDrawn g ctx fb fb
  | plotted (c : FbChar) (px : Framebuffer) (hen : ctx.cursorEnabled = true)
    (hx : fb.cursorX < g.cols) (hy : fb.cursorY < g.rows)
    (hchar : fb.charAt g (fb.cursorY * g.cols + fb.cursorX) = .ok c)
    (hpainted : g.Painted fb.framebuffer px (g.InCell fb.cursorX fb.cursorY)
      (g.cellPicture (swapped c) fb.cursorX fb.cursorY))
    (hfree : fb.map (fb.cursorY * g.cols + fb.cursorX) = none) :
    CursorDrawn g ctx fb { fb with framebuffer := px }
  | taken (c : FbChar) (px : Framebuffer) (k : Nat) (hen : ctx.cursorEnabled = true)
    (hx : fb.cursorX < g.cols) (hy : fb.cursorY < g.rows)
    (hchar : fb.charAt g (fb.cursorY * g.cols + fb.cursorX) = .ok c)
    (hpainted : g.Painted fb.framebuffer px (g.InCell fb.cursorX fb.cursorY)
      (g.cellPicture (swapped c) fb.cursorX fb.cursorY))
    (hslot : fb.map (fb.cursorY * g.cols + fb.cursorX) = some k) :
    CursorDrawn g ctx fb { fb with
      framebuffer := px
      grid := Function.update fb.grid (fb.cursorY * g.cols + fb.cursorX) c
      map := Function.update fb.map (fb.cursorY * g.cols + fb.cursorX) none }

theorem drawEnabledCursor_drawn (hg : g.Sane)
    (hchar : ∀ i < g.rows * g.cols, Returns (fun _ => True) (fb.charAt g i)) (ctx : FlantermContext) :
    Returns (CursorDrawn g ctx fb) (fb.drawEnabledCursor g ctx) := by
  unfold drawEnabledCursor
  split
  · rename_i hen
    unfold drawCursor
    split
    · refine .ok (.off fun _ _ _ => ?_)
      omega
    · rename_i hin
      have hx : fb.cursorX < g.cols := by omega
      have hy : fb.cursorY < g.rows := by omega
      have hi := cell_lt hx hy
      obtain ⟨c, hc, _⟩ := hchar _ hi
      rw [Nat.add_comm fb.cursorX]
      refine Returns.bind_ok (mapAt_ok hi) (Returns.bind_ok hc ?_)
      refine (plot_painted hg fb _ hx hy).bind ?_
      rintro _ ⟨px, rfl, hpainted⟩
      cases hmap : fb.map (fb.cursorY * g.cols + fb.cursorX) with
      | none => exact .ok (.plotted c px hen hx hy hc hpainted hmap)
      | some k => exact .ok (.taken c px k hen hx hy hc hpainted hmap)
  · rename_i hoff
    exact .ok (.off fun hen _ _ => hoff hen)

/-- The first step of a flush. -/
theorem drawCursor_flushing (hg : g.Sane) (h : Holds g fb v) (hd : Drawn g fb) (ctx : FlantermContext) :
    Returns (Flushing g ctx v fb 0) (fb.drawEnabledCursor g ctx) := by
  refine (drawEnabledCursor_drawn hg h.charAt_returns ctx).mono fun fb' hdrawn => ?_
  cases hdrawn with
  | off hoff =>
    exact
      { loose := h.tracked.loose
        view := h.view
        done := fun _ _ _ _ => Nat.zero_le _
        items := h.items
        used := rfl
        room := h.room
        pen := rfl
        oldCursorX := rfl
        oldCursorY := rfl
        shows := fun x y hx hy hold _ => hd.shows x y hx hy hold
        cursor := fun hen hx hy => absurd (hoff hen hx hy) id
        backed := hd.backed
        outside := fun _ _ => rfl }
  | plotted c px hen hx hy hc hpainted hfree =>
    obtain rfl : v _ = c := Except.ok.inj ((h.charAt_ok (cell_lt hx hy)).symm.trans hc)
    exact
      { loose := h.tracked.loose
        view := h.view
        done := fun _ _ _ _ => Nat.zero_le _
        items := h.items
        used := rfl
        room := h.room
        pen := rfl
        oldCursorX := rfl
        oldCursorY := rfl
        shows := fun x y hx hy hold hcur =>
          hpainted.shows_other (fun heq => hcur ⟨hen, heq⟩) (hd.shows x y hx hy hold)
        cursor := fun _ _ _ => ⟨hfree, hpainted.shows⟩
        backed := hpainted.backed hx hy hd.backed
        outside := hpainted.outside }
  | taken c px k hen hx hy hc hpainted hslot =>
    have hi := cell_lt hx hy
    obtain rfl : v _ = c := Except.ok.inj ((h.charAt_ok hi).symm.trans hc)
    obtain ⟨hk, hplace⟩ := h.tracked.named _ (Finset.mem_range.mpr hi) k hslot
    have hvalue : (fb.queue k).c = v (fb.cursorY * g.cols + fb.cursorX) := h.value_eq hi hslot
    have hcommit := buffer_commit fb px hplace (by rw [hslot]; exact Option.some_ne_none k)
    rw [hvalue] at hcommit
    refine
      { loose := ?_
        view := fun i hi => ?_
        done := fun _ _ _ _ => Nat.zero_le _
        items := h.items
        used := rfl
        room := h.room
        pen := rfl
        oldCursorX := rfl
        oldCursorY := rfl
        shows := fun x y hx' hy' hold hcur => ?_
        cursor := fun _ _ _ => ⟨Function.update_self .., hpainted.shows⟩
        backed := hpainted.backed hx hy hd.backed
        outside := hpainted.outside }
    · rw [hcommit]
      exact h.tracked.loose.commit k
    · rw [hcommit, h.tracked.loose.view_commit hk]
      exact h.view i hi
    · have hne : y * g.cols + x ≠ fb.cursorY * g.cols + fb.cursorX := fun heq =>
        hcur ⟨hen, cell_inj hx' hx heq⟩
      have hgrid : Function.update fb.grid (fb.cursorY * g.cols + fb.cursorX)
          (v (fb.cursorY * g.cols + fb.cursorX)) (y * g.cols + x) = fb.grid (y * g.cols + x) :=
        Function.update_of_ne hne ..
      show g.Shows px x y (Function.update fb.grid _ _ _)
      rw [hgrid]
      exact hpainted.shows_other (fun heq => hcur ⟨hen, heq⟩) (hd.shows x y hx' hy' hold)

/-- One turn of the loop over the queue. -/
theorem flushItem_flushing (hg : g.Sane) (h : Flushing g ctx v fb₀ k fb) (hk : k < fb.queueI) :
    Returns (Flushing g ctx v fb₀ (k + 1)) (fb.flushItem g k) := by
  obtain ⟨hx, hy⟩ := h.items k hk
  have hi := cell_lt hx hy
  have hplace : (fb.buffer g).place k = (fb.queue k).y * g.cols + (fb.queue k).x := rfl
  unfold flushItem
  refine Returns.bind_ok (queueAt_ok (lt_of_lt_of_le hk h.room)) (Returns.bind_ok (mapAt_ok hi) ?_)
  cases hmap : fb.map ((fb.queue k).y * g.cols + (fb.queue k).x) with
  | none =>
    refine .ok { h with done := fun i hi j hj => ?_ }
    have hle := h.done i hi j hj
    refine Nat.lt_of_le_of_ne hle fun heq => ?_
    -- the item of a cell that has one is not the item `k`, whose cell has none
    subst heq
    have hown := (h.loose.named i (Finset.mem_range.mpr hi) k hj).2
    rw [← hown, hplace, hmap] at hj
    cases hj
  | some j =>
    refine (plot_painted hg fb _ hx hy).bind ?_
    rintro _ ⟨px', rfl, hpainted⟩
    have hcommit := buffer_commit fb px' hplace (by rw [hmap]; exact Option.some_ne_none j)
    have hupdate : ∀ x y, x < g.cols → ¬ (x = (fb.queue k).x ∧ y = (fb.queue k).y) →
        y * g.cols + x ≠ (fb.queue k).y * g.cols + (fb.queue k).x := fun x y hx' hne heq =>
      hne (cell_inj hx' hx heq)
    refine .ok
      { loose := ?_
        view := fun i hi => ?_
        done := fun i hi l hl => ?_
        items := h.items
        used := h.used
        room := h.room
        pen := h.pen
        oldCursorX := h.oldCursorX
        oldCursorY := h.oldCursorY
        shows := fun x y hx' hy' hold hcur => ?_
        cursor := fun hen hcx hcy => ?_
        backed := hpainted.backed hx hy h.backed
        outside := fun q hq => (hpainted.outside q hq).trans (h.outside q hq) }
    · rw [hcommit]
      exact h.loose.commit k
    · rw [hcommit, h.loose.view_commit hk]
      exact h.view i hi
    · change (Function.update fb.map _ none) i = some l at hl
      by_cases hik : i = (fb.queue k).y * g.cols + (fb.queue k).x
      · rw [hik, Function.update_self] at hl
        cases hl
      · rw [Function.update_of_ne hik] at hl
        refine Nat.lt_of_le_of_ne (h.done i hi l hl) fun heq => ?_
        subst heq
        exact hik (h.loose.named i (Finset.mem_range.mpr hi) k hl).2.symm
    · show g.Shows px' x y (Function.update fb.grid _ _ _)
      by_cases hxy : x = (fb.queue k).x ∧ y = (fb.queue k).y
      · rw [hxy.1, hxy.2, Function.update_self]
        exact hpainted.shows
      · rw [Function.update_of_ne (hupdate x y hx' hxy)]
        exact hpainted.shows_other hxy (h.shows x y hx' hy' hold hcur)
    · obtain ⟨hfree, hshown⟩ := h.cursor hen hcx hcy
      have hne : ¬ (fb₀.cursorX = (fb.queue k).x ∧ fb₀.cursorY = (fb.queue k).y) := by
        rintro ⟨hX, hY⟩
        rw [hX, hY, hmap] at hfree
        cases hfree
      refine ⟨?_, hpainted.shows_other hne hshown⟩
      show Function.update fb.map _ none _ = none
      rw [Function.update_of_ne (hupdate _ _ hcx hne)]
      exact hfree

/-- What a cell shows after a flush. -/
def shownChar (ctx : FlantermContext) (p : Pen) (v : Nat → FbChar) (x y : Nat) : FbChar :=
  if ctx.cursorEnabled = true ∧ x = p.cursorX ∧ y = p.cursorY then swapped (v (y * g.cols + x))
  else v (y * g.cols + x)

/-! ## The queue is done -/

namespace Flushing

theorem map_none (h : Flushing g ctx v fb₀ k fb) (hk : fb.queueI ≤ k) {i : Nat}
    (hi : i < g.rows * g.cols) : fb.map i = none := by
  cases hmap : fb.map i with
  | none => rfl
  | some j =>
    have hlt : j < fb.queueI := (h.loose.named i (Finset.mem_range.mpr hi) j hmap).1
    have hle := h.done i hi j hmap
    omega

/-- The grid has everything. -/
theorem grid_eq (h : Flushing g ctx v fb₀ k fb) (hk : fb.queueI ≤ k) {i : Nat}
    (hi : i < g.rows * g.cols) : fb.grid i = v i := by
  rw [← h.view i hi, WriteBack.view_none (w := fb.buffer g) (h.map_none hk hi)]
  rfl

/-- The empty queue holds what the queue held. -/
theorem holds (h : Flushing g ctx v fb₀ k fb) (hk : fb.queueI ≤ k) (px : Framebuffer) (X Y : Nat) :
    Holds g { fb with framebuffer := px, oldCursorX := X, oldCursorY := Y, queueI := 0 } v := by
  refine ⟨?_, fun l hl => absurd hl (Nat.not_lt_zero l), fun i hi => ?_⟩
  · exact WriteBack.tracked_of_clear rfl fun i hi => h.map_none hk (Finset.mem_range.mp hi)
  · rw [← h.grid_eq hk hi]
    exact WriteBack.view_none (h.map_none hk hi)

/-- Every cell is right, but for the one where the cursor was and is no longer. -/
theorem shown (h : Flushing g ctx v fb₀ k fb) (hk : fb.queueI ≤ k) (hx : x < g.cols) (hy : y < g.rows)
    (hold : x = fb₀.oldCursorX ∧ y = fb₀.oldCursorY →
      ctx.cursorEnabled = true ∧ x = fb₀.cursorX ∧ y = fb₀.cursorY) :
    g.Shows fb.framebuffer x y (shownChar (g := g) ctx fb₀.toPen v x y) := by
  unfold shownChar
  split
  · rename_i hcur
    obtain ⟨hen, rfl, rfl⟩ := hcur
    exact (h.cursor hen hx hy).2
  · rename_i hcur
    rw [← h.grid_eq hk (cell_lt hx hy)]
    exact h.shows x y hx hy (fun hwas => hcur (hold hwas)) hcur

end Flushing

/-- Plotting the old cell anew makes that one right too. -/
theorem replotOldCursor_shows (hg : g.Sane) (h : Flushing g ctx v fb₀ k fb) (hk : fb.queueI ≤ k) :
    Returns (fun fb' => ∃ px, fb' = { fb with framebuffer := px } ∧ g.Backed px ∧
        (∀ x y, x < g.cols → y < g.rows → g.Shows px x y (shownChar (g := g) ctx fb₀.toPen v x y)) ∧
        g.SameOutside fb₀.framebuffer px) (fb.replotOldCursor g ctx) := by
  unfold replotOldCursor
  split
  · rename_i hmoved
    rw [h.oldCursorX, h.oldCursorY, h.pen] at hmoved
    split
    · rename_i hin
      have hi := cell_lt hin.1 hin.2
      rw [Nat.add_comm fb.oldCursorX]
      refine Returns.bind_ok (gridAt_ok hi) ((plot_painted hg fb _ hin.1 hin.2).mono ?_)
      rintro _ ⟨px, rfl, hpainted⟩
      rw [h.oldCursorX, h.oldCursorY] at hpainted hin hi
      refine ⟨px, rfl, hpainted.backed hin.1 hin.2 h.backed, fun x y hx hy => ?_,
        fun q hq => (hpainted.outside q hq).trans (h.outside q hq)⟩
      by_cases hold : x = fb₀.oldCursorX ∧ y = fb₀.oldCursorY
      · have hchar : shownChar (g := g) ctx fb₀.toPen v x y =
            fb.grid (fb₀.oldCursorY * g.cols + fb₀.oldCursorX) := by
          rw [h.grid_eq hk hi, shownChar, if_neg, hold.1, hold.2]
          rintro ⟨hen, hX, hY⟩
          rw [hen, ← hX, ← hY, hold.1, hold.2] at hmoved
          simp at hmoved
        rw [hchar, hold.1, hold.2]
        exact hpainted.shows
      · exact hpainted.shows_other hold (h.shown hk hx hy fun hwas => absurd hwas hold)
    · rename_i hout
      rw [h.oldCursorX, h.oldCursorY] at hout
      refine .ok ⟨_, rfl, h.backed, fun x y hx hy => h.shown hk hx hy ?_, h.outside⟩
      rintro ⟨rfl, rfl⟩
      exact absurd ⟨hx, hy⟩ hout
  · rename_i hstays
    rw [h.oldCursorX, h.oldCursorY, h.pen] at hstays
    refine .ok ⟨_, rfl, h.backed, fun x y hx hy => h.shown hk hx hy fun hold => ?_, h.outside⟩
    -- the cursor has not moved, and is drawn
    have hen : ctx.cursorEnabled = true := by
      by_contra hoff
      exact hstays (.inr (by simpa using hoff))
    have hcx : fb₀.oldCursorX = fb₀.cursorX := by
      by_contra hne
      exact hstays (.inl (.inl hne))
    have hcy : fb₀.oldCursorY = fb₀.cursorY := by
      by_contra hne
      exact hstays (.inl (.inr hne))
    exact ⟨hen, hold.1.trans hcx, hold.2.trans hcy⟩

theorem doubleBufferFlush_shows (hg : g.Sane) (h : Holds g fb v) (hd : Drawn g fb)
    (ctx : FlantermContext) :
    Returns (fun fb' => Holds g fb' v ∧ Drawn g fb' ∧ Settled fb' ∧ fb'.toPen = fb.toPen ∧
        (∀ x y, x < g.cols → y < g.rows →
          g.Shows fb'.framebuffer x y (shownChar (g := g) ctx fb.toPen v x y)) ∧
        g.SameOutside fb.framebuffer fb'.framebuffer) (fb.doubleBufferFlush g ctx) := by
  refine (drawCursor_flushing hg h hd ctx).bind fun fb₁ h₁ => ?_
  refine (forUp_returns (Flushing g ctx v fb) (Nat.zero_le _) h₁ fun k fb' _ hk hI =>
    flushItem_flushing hg hI (by rw [hI.used, ← h₁.used]; exact hk)).bind fun fb₂ h₂ => ?_
  have hend : fb₂.queueI ≤ fb₁.queueI := by rw [h₂.used, h₁.used]
  refine (replotOldCursor_shows hg h₂ hend).bind ?_
  rintro _ ⟨px, rfl, hbacked, hall, hout⟩
  have hpen : fb₂.toPen = fb.toPen := h₂.pen
  refine .ok ⟨h₂.holds hend px _ _, ⟨fun x y hx hy hold => ?_, hbacked⟩, ⟨rfl, rfl, rfl⟩,
    hpen, hall, hout⟩
  have hchar := hall x y hx hy
  change ¬ (x = fb₂.toPen.cursorX ∧ y = fb₂.toPen.cursorY) at hold
  rw [hpen] at hold
  rw [shownChar, if_neg fun hcur => hold hcur.2, ← h₂.grid_eq hend (cell_lt hx hy)] at hchar
  exact hchar

end FbContext

end HelixKernel.Flanterm
