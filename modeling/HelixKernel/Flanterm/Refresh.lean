import HelixKernel.Flanterm.Mirror

/-!
# A full refresh

`flanterm_fb_full_refresh` paints everything anew from the grid and draws the cursor.  With
nothing in the queue, and the cursor where it was drawn last, this repairs a framebuffer in which
others have written, whatever is in it:

    fullRefresh_mirrors

With a character in the queue under the cursor, `draw_cursor` puts it into the grid and forgets its
item, but the item stays in the queue.  What is written to that cell next is lost: the flush finds
the old item first, and the new one is skipped.

    fullRefresh_loses -/

namespace HelixKernel.Flanterm

open FbContext

variable {g : FbParams} {fb : FbContext} {s : Screen} {ctx : FlantermContext}

/-- The first loops of a full refresh paint what lies behind the text. -/
theorem background_painted (hg : g.Sane) (px : Framebuffer) :
    Returns (fun px' => (∀ X Y, X < g.width → Y < g.height → px' (g.pixelIndex X Y) = g.backdrop X Y) ∧
        g.SameOutside px px')
      (forUp 0 g.height (fun y px => forUp 0 g.width (fun x px => do
        let colour ← g.behind g.canvas x y
        g.writePixel px (g.pixelIndex x y) colour) px) px) := by
  -- the lines above `y`, and of line `y` the pixels left of `x`
  let I (y x : Nat) (px' : Framebuffer) : Prop :=
    g.Painted px px' (fun X Y => Y < y ∨ Y = y ∧ X < x) g.backdrop
  have hstart : I 0 0 px := .none px fun X Y => by omega
  refine (forUp_returns (fun y => I y 0) (Nat.zero_le _) hstart fun y px' _ hy hI => ?_).mono
    fun px' hI => ⟨fun X Y hX hY => hI.on X Y hX hY (.inl hY), hI.outside⟩
  refine (forUp_returns (I y) (Nat.zero_le _) hI fun x px'' _ hx hI => ?_).mono fun px'' hI => ?_
  · refine Returns.bind_ok (FbParams.behind_ok hx hy) ?_
    refine (FbParams.writePixel_painted hg px'' hx hy g.backdrop).mono fun px' hpx =>
      hI.trans hpx fun X Y => ?_
    omega
  · refine ⟨fun X Y hX hY hmem => hI.on X Y hX hY ?_,
      fun X Y hX hY hmem => hI.off X Y hX hY ?_, hI.outside⟩
    · omega
    · omega

/-- The second loop of it paints every cell. -/
theorem cells_painted (hg : g.Sane) (fb : FbContext) (hbacked : g.Backed fb.framebuffer) :
    Returns (fun fb' => ∃ px, fb' = { fb with framebuffer := px } ∧ g.Backed px ∧
        (∀ x y, x < g.cols → y < g.rows → g.Shows px x y (fb.grid (y * g.cols + x))) ∧
        g.SameOutside fb.framebuffer px)
      (forUp 0 (g.rows * g.cols) (fun i fb => do
        let c ← fb.gridAt g i
        fb.plot g c (i % g.cols) (i / g.cols)) fb) := by
  let I (n : Nat) (fb' : FbContext) : Prop := ∃ px, fb' = { fb with framebuffer := px } ∧ g.Backed px ∧
    (∀ x y, x < g.cols → y < g.rows → y * g.cols + x < n → g.Shows px x y (fb.grid (y * g.cols + x))) ∧
    g.SameOutside fb.framebuffer px
  have hstart : I 0 fb := ⟨fb.framebuffer, rfl, hbacked, fun x y _ _ hn => by omega, fun _ _ => rfl⟩
  refine (forUp_returns I (Nat.zero_le _) hstart fun i fb' _ hi hI => ?_).mono ?_
  · obtain ⟨px, rfl, hback, hshows, hout⟩ := hI
    have hx := Nat.mod_lt i hg.cols_pos
    have hy : i / g.cols < g.rows := Nat.div_lt_of_lt_mul (by rwa [Nat.mul_comm])
    have hnumber := Nat.div_add_mod' i g.cols
    refine Returns.bind_ok (gridAt_ok hi) ((plot_painted hg _ _ hx hy).mono ?_)
    rintro _ ⟨px', rfl, hpainted⟩
    refine ⟨px', rfl, hpainted.backed hx hy hback, fun x y hx' hy' hn => ?_,
      fun q hq => (hpainted.outside q hq).trans (hout q hq)⟩
    by_cases hxy : x = i % g.cols ∧ y = i / g.cols
    · rw [hxy.1, hxy.2, hnumber]
      exact hpainted.shows
    · refine hpainted.shows_other hxy (hshows x y hx' hy' ?_)
      refine Nat.lt_of_le_of_ne (Nat.le_of_lt_succ hn) fun heq => hxy (cell_inj hx' hx ?_)
      rw [heq, hnumber]
  · rintro _ ⟨px, rfl, hback, hshows, hout⟩
    exact ⟨px, rfl, hback, fun x y hx hy => hshows x y hx hy (cell_lt hx hy), hout⟩

theorem fullRefresh_mirrors (hg : g.Sane) (h : Holds g fb (Screen.byNumber g s.cells))
    (hpen : fb.toPen = s.toPen) (hinside : s.toPen.Inside g) (hsettled : Settled fb)
    (ctx : FlantermContext) :
    Returns (fun fb' => Mirrors g fb.framebuffer fb' (s.flush g ctx)) (fb.fullRefresh g ctx) := by
  refine (background_painted hg fb.framebuffer).bind fun px₁ ⟨hback₁, hout₁⟩ => ?_
  refine (cells_painted hg { fb with framebuffer := px₁ } fun X Y hX hY _ => hback₁ X Y hX hY).bind ?_
  rintro _ ⟨px₂, rfl, hback₂, hshows₂, hout₂⟩
  have hholds : Holds g { fb with framebuffer := px₂ } (Screen.byNumber g s.cells) :=
    h.of_eq rfl rfl rfl rfl
  obtain ⟨fb', hrun, h'⟩ :=
    drawCursor_flushing hg hholds ⟨fun x y hx hy _ => hshows₂ x y hx hy, hback₂⟩ ctx
  have hend : fb'.queueI ≤ 0 := by
    rw [h'.used]
    exact Nat.le_of_eq hsettled.queue
  have hshown : ∀ x y, x < g.cols → y < g.rows → g.Shows fb'.framebuffer x y
      (shownChar (g := g) ctx s.toPen (Screen.byNumber g s.cells) x y) := by
    intro x y hx hy
    rw [← hpen]
    by_cases hen : ctx.cursorEnabled = true
    · exact h'.shown hend hx hy fun hold =>
        ⟨hen, hold.1.trans hsettled.cursorX, hold.2.trans hsettled.cursorY⟩
    · rw [shownChar, if_neg fun hcur => hen hcur.1, ← h'.grid_eq hend (cell_lt hx hy)]
      rw [drawEnabledCursor, if_neg hen] at hrun
      cases hrun
      exact hshows₂ x y hx hy
  have hcontent : Holds g fb' (Screen.byNumber g s.cells) :=
    (h'.holds hend fb'.framebuffer fb'.oldCursorX fb'.oldCursorY).of_eq rfl rfl (Nat.le_zero.mp hend) rfl
  refine ⟨fb', hrun, hcontent, ⟨fun x y hx hy hold => ?_, h'.backed⟩, h'.pen.trans hpen, hinside,
    fun X Y hX hY => ?_, fun q hq => ?_⟩
  · rw [h'.oldCursorX, h'.oldCursorY] at hold
    refine h'.shows x y hx hy hold fun hcur => hold ?_
    exact ⟨hcur.2.1.trans hsettled.cursorX.symm, hcur.2.2.trans hsettled.cursorY.symm⟩
  · exact Mirrors.picture_of_shows hg (fun x y hx _ => byNumber_cell s.cells hx) hshown h'.backed hX hY
  · exact (h'.outside q hq).trans ((hout₂ q hq).trans (hout₁ q hq))

/-! ## With a character under the cursor -/

namespace FbContext

/-- Cell `i` has forgotten item `k` of the queue.  The grid has the item's character `c`, and a
flush that has come to item `n` will put it there again, or has done so. -/
structure Forgotten (g : FbParams) (i k : Nat) (c : FbChar) (n : Nat) (fb : FbContext) : Prop where
  grid : fb.grid i = c
  place : (fb.queue k).y * g.cols + (fb.queue k).x = i
  value : (fb.queue k).c = c
  first : ∀ l < k, (fb.queue l).y * g.cols + (fb.queue l).x ≠ i
  waits : fb.map i = none ∨ n ≤ k
  used : k < fb.queueI
  room : fb.queueI ≤ g.rows * g.cols
  items : ∀ l < fb.queueI, (fb.queue l).x < g.cols ∧ (fb.queue l).y < g.rows
  named : ∀ j < g.rows * g.cols, ∀ l, fb.map j = some l → l < fb.queueI

variable {v : Nat → FbChar} {i k n x y : Nat} {c : FbChar}

theorem drawCursor_forgets (hg : g.Sane) (h : Holds g fb v) (hen : ctx.cursorEnabled = true)
    (hx : fb.cursorX < g.cols) (hy : fb.cursorY < g.rows)
    (hk : fb.map (fb.cursorY * g.cols + fb.cursorX) = some k) :
    Returns (fun fb' => Forgotten g (fb.cursorY * g.cols + fb.cursorX) k
          (v (fb.cursorY * g.cols + fb.cursorX)) 0 fb' ∧
        fb'.map (fb.cursorY * g.cols + fb.cursorX) = none ∧ fb'.toPen = fb.toPen)
      (fb.drawEnabledCursor g ctx) := by
  refine (drawEnabledCursor_drawn hg h.charAt_returns ctx).mono fun fb' hdrawn => ?_
  cases hdrawn with
  | off hoff => exact (hoff hen hx hy).elim
  | plotted c px hen hx hy hc hpainted hfree =>
    rw [hk] at hfree
    cases hfree
  | taken c px k' hen hx hy hc hpainted hslot =>
    have hi := cell_lt hx hy
    obtain rfl : v _ = c := Except.ok.inj ((h.charAt_ok hi).symm.trans hc)
    obtain ⟨hused, hplace⟩ := h.tracked.named _ (Finset.mem_range.mpr hi) k hk
    refine ⟨?_, Function.update_self .., rfl⟩
    refine
      { grid := Function.update_self ..
        place := hplace
        value := h.value_eq hi hk
        first := fun l hl heq => ?_
        waits := .inl (Function.update_self ..)
        used := hused
        room := h.room
        items := h.items
        named := fun j hj l hl => ?_ }
    · have hsame := h.tracked.place_inj (Nat.lt_trans hl hused) hused (heq.trans hplace.symm)
      omega
    · change Function.update fb.map _ none j = some l at hl
      by_cases hji : j = fb.cursorY * g.cols + fb.cursorX
      · rw [hji, Function.update_self] at hl
        cases hl
      · rw [Function.update_of_ne hji] at hl
        exact (h.tracked.named j (Finset.mem_range.mpr hj) l hl).1

theorem fullRefresh_forgets (hg : g.Sane) (h : Holds g fb v) (hen : ctx.cursorEnabled = true)
    (hx : fb.cursorX < g.cols) (hy : fb.cursorY < g.rows)
    (hk : fb.map (fb.cursorY * g.cols + fb.cursorX) = some k) :
    Returns (fun fb' => Forgotten g (fb.cursorY * g.cols + fb.cursorX) k
          (v (fb.cursorY * g.cols + fb.cursorX)) 0 fb' ∧
        fb'.map (fb.cursorY * g.cols + fb.cursorX) = none ∧ fb'.toPen = fb.toPen)
      (fb.fullRefresh g ctx) := by
  refine (background_painted hg fb.framebuffer).bind fun px₁ ⟨hback₁, _⟩ => ?_
  refine (cells_painted hg { fb with framebuffer := px₁ } fun X Y hX hY _ => hback₁ X Y hX hY).bind ?_
  rintro _ ⟨px₂, rfl, _, _, _⟩
  have hholds : Holds g { fb with framebuffer := px₂ } v := h.of_eq rfl rfl rfl rfl
  exact drawCursor_forgets hg hholds hen hx hy hk

namespace Forgotten

/-- A new item for the cell comes after the forgotten one. -/
theorem push (h : Forgotten g (y * g.cols + x) k c 0 fb) (hx : x < g.cols) (hy : y < g.rows)
    (hfree : fb.map (y * g.cols + x) = none) (d : FbChar) :
    Returns (fun fb' => Forgotten g (y * g.cols + x) k c 0 fb' ∧ fb'.toPen = fb.toPen)
      (fb.pushToQueue g d x y) := by
  have hi := cell_lt hx hy
  have hused := h.used
  have hroom := h.room
  rw [pushToQueue, if_neg (by omega)]
  refine Returns.bind_ok (mapAt_ok hi) ?_
  rw [hfree]
  refine Returns.bind_ok (gridAt_ok hi) ?_
  split
  · exact .ok ⟨h, rfl⟩
  · split
    · exact .ok ⟨h, rfl⟩
    · refine Returns.bind_ok (queueAt_ok (by omega)) (.ok ⟨?_, rfl⟩)
      have hkeep : ∀ l < fb.queueI,
          Function.update fb.queue fb.queueI { x := x, y := y, c := d } l = fb.queue l :=
        fun l hl => Function.update_of_ne (by omega) ..
      refine
        { grid := h.grid
          place := ?_
          value := ?_
          first := fun l hl => ?_
          waits := .inr (Nat.zero_le _)
          used := Nat.lt_succ_of_lt hused
          room := ?_
          items := fun l hl => ?_
          named := fun j hj l hl => ?_ }
      · simp only [hkeep k hused]
        exact h.place
      · simp only [hkeep k hused]
        exact h.value
      · simp only [hkeep l (by omega)]
        exact h.first l hl
      · show fb.queueI + 1 ≤ g.rows * g.cols
        omega
      · change l < fb.queueI + 1 at hl
        by_cases hlast : l = fb.queueI
        · simp only [hlast, Function.update_self]
          exact ⟨hx, hy⟩
        · simp only [hkeep l (by omega)]
          exact h.items l (by omega)
      · change Function.update fb.map _ _ j = some l at hl
        show l < fb.queueI + 1
        by_cases hji : j = y * g.cols + x
        · rw [hji, Function.update_self] at hl
          obtain rfl := Option.some.inj hl
          omega
        · rw [Function.update_of_ne hji] at hl
          have := h.named j hj l hl
          omega

theorem charAt_returns (h : Forgotten g i k c n fb) {j : Nat} (hj : j < g.rows * g.cols) :
    Returns (fun _ => True) (fb.charAt g j) := by
  refine Returns.bind_ok (mapAt_ok hj) ?_
  cases hmap : fb.map j with
  | none => exact ⟨_, gridAt_ok hj, trivial⟩
  | some l =>
    have hl := lt_of_lt_of_le (h.named j hj l hmap) h.room
    exact Returns.bind_ok (queueAt_ok hl) (.ok trivial)

/-- A cell is put into the grid, and freed. -/
theorem commit (h : Forgotten g i k c n fb) {j : Nat} {d : FbChar} (hd : j = i → d = c)
    (px : Framebuffer) :
    Forgotten g i k c n { fb with
      framebuffer := px
      grid := Function.update fb.grid j d
      map := Function.update fb.map j none } := by
  refine { h with grid := ?_, waits := ?_, named := fun l hl m hm => ?_ }
  · show Function.update fb.grid j d i = c
    rw [Function.update_apply]
    split
    · rename_i hij
      exact hd hij.symm
    · exact h.grid
  · show Function.update fb.map j none i = none ∨ n ≤ k
    rw [Function.update_apply]
    split
    · exact .inl rfl
    · exact h.waits
  · change Function.update fb.map j none l = some m at hm
    by_cases hlj : l = j
    · rw [hlj, Function.update_self] at hm
      cases hm
    · rw [Function.update_of_ne hlj] at hm
      exact h.named l hl m hm

theorem drawEnabledCursor (hg : g.Sane) (h : Forgotten g i k c n fb)
    (hother : fb.cursorX < g.cols → fb.cursorY * g.cols + fb.cursorX ≠ i) :
    Returns (fun fb' => Forgotten g i k c n fb' ∧ fb'.queueI = fb.queueI)
      (fb.drawEnabledCursor g ctx) := by
  refine (drawEnabledCursor_drawn hg (fun j hj => h.charAt_returns hj) ctx).mono fun fb' hdrawn => ?_
  cases hdrawn with
  | off _ => exact ⟨h, rfl⟩
  | plotted d px _ hx _ _ _ _ => exact ⟨{ h with }, rfl⟩
  | taken d px _ _ hx _ _ _ _ => exact ⟨h.commit (fun heq => absurd heq (hother hx)) px, rfl⟩

/-- One turn of the loop over the queue. -/
theorem flushItem (hg : g.Sane) (h : Forgotten g i k c n fb) (hn : n < fb.queueI) :
    Returns (fun fb' => Forgotten g i k c (n + 1) fb' ∧ fb'.queueI = fb.queueI)
      (fb.flushItem g n) := by
  obtain ⟨hx, hy⟩ := h.items n hn
  have hj := cell_lt hx hy
  unfold FbContext.flushItem
  refine Returns.bind_ok (queueAt_ok (lt_of_lt_of_le hn h.room)) (Returns.bind_ok (mapAt_ok hj) ?_)
  -- at item `k` itself the cell is done with
  have hnext : n ≠ k → fb.map i = none ∨ n + 1 ≤ k := fun hne =>
    h.waits.imp_right fun hle => Nat.lt_of_le_of_ne hle hne
  cases hmap : fb.map ((fb.queue n).y * g.cols + (fb.queue n).x) with
  | none =>
    refine .ok ⟨{ h with waits := ?_ }, rfl⟩
    by_cases hnk : n = k
    · rw [hnk, h.place] at hmap
      exact .inl hmap
    · exact hnext hnk
  | some l =>
    refine (plot_painted hg fb _ hx hy).bind ?_
    rintro _ ⟨px, rfl, _⟩
    by_cases hji : (fb.queue n).y * g.cols + (fb.queue n).x = i
    · have hnk : n = k := by
        rw [hji] at hmap
        have hle : n ≤ k := h.waits.resolve_left (by rw [hmap]; exact Option.some_ne_none l)
        by_contra hne
        exact h.first n (Nat.lt_of_le_of_ne hle hne) hji
      have hvalue : (fb.queue n).c = c := by rw [hnk, h.value]
      refine .ok ⟨{ h.commit (fun _ => hvalue) px with waits := .inl ?_ }, rfl⟩
      show Function.update fb.map _ none i = none
      rw [hji, Function.update_self]
    · have hnk : n ≠ k := by
        rintro rfl
        exact hji h.place
      have hlater : Forgotten g i k c (n + 1) fb := { h with waits := hnext hnk }
      exact .ok ⟨hlater.commit (fun heq => absurd heq hji) px, rfl⟩

theorem replotOldCursor (hg : g.Sane) (fb : FbContext) (ctx : FlantermContext) :
    Returns (fun fb' => fb'.grid = fb.grid ∧ fb'.map = fb.map) (fb.replotOldCursor g ctx) := by
  unfold FbContext.replotOldCursor
  split
  · split
    · rename_i hin
      have hi := cell_lt hin.1 hin.2
      rw [Nat.add_comm fb.oldCursorX]
      refine Returns.bind_ok (gridAt_ok hi) ((plot_painted hg fb _ hin.1 hin.2).mono ?_)
      rintro _ ⟨px, rfl, _⟩
      exact ⟨rfl, rfl⟩
    · exact .ok ⟨rfl, rfl⟩
  · exact .ok ⟨rfl, rfl⟩

/-- After the next flush the cell still has the item's character, whatever came into the queue for
it in between. -/
theorem doubleBufferFlush (hg : g.Sane) (h : Forgotten g i k c 0 fb)
    (hother : fb.cursorX < g.cols → fb.cursorY * g.cols + fb.cursorX ≠ i) :
    Returns (fun fb' => fb'.grid i = c ∧ fb'.map i = none) (fb.doubleBufferFlush g ctx) := by
  refine (h.drawEnabledCursor hg hother).bind fun fb₁ ⟨h₁, _⟩ => ?_
  let I (n : Nat) (fb' : FbContext) : Prop := Forgotten g i k c n fb' ∧ fb'.queueI = fb₁.queueI
  refine (forUp_returns I (Nat.zero_le _) ⟨h₁, rfl⟩ fun n fb' _ hn hI => ?_).bind
    fun fb₂ ⟨h₂, _⟩ => ?_
  · refine (hI.1.flushItem hg (by rw [hI.2]; exact hn)).mono fun fb'' hfb => ⟨hfb.1, ?_⟩
    exact hfb.2.trans hI.2
  · have hfree : fb₂.map i = none := by
      refine h₂.waits.resolve_right fun hle => ?_
      have := h₂.used
      omega
    refine (replotOldCursor hg fb₂ ctx).bind fun fb₃ ⟨hgrid, hmap⟩ => .ok ⟨?_, ?_⟩
    · show fb₃.grid i = c
      rw [hgrid]
      exact h₂.grid
    · show fb₃.map i = none
      rw [hmap]
      exact hfree

end Forgotten

theorem rawPutchar_inline (hx : fb.cursorX < g.cols) (c : UInt8) (ctx : FlantermContext) :
    fb.rawPutchar g c ctx =
      pushToQueue g ⟨c, fb.textFg, fb.textBg⟩ fb.cursorX fb.cursorY
        { fb with cursorX := fb.cursorX + 1 } := by
  have hwrap : fb.wrapCursor g ctx = .ok fb := if_neg (Nat.not_le.mpr hx)
  rw [FbContext.rawPutchar, hwrap]
  rfl

theorem fullRefresh_loses (hg : g.Sane) (h : Holds g fb v) (hen : ctx.cursorEnabled = true)
    (hx : fb.cursorX < g.cols) (hy : fb.cursorY < g.rows)
    (hwaits : fb.map (fb.cursorY * g.cols + fb.cursorX) ≠ none) (d : UInt8)
    (ctx₁ ctx₂ : FlantermContext) :
    Returns (fun fb' => fb'.charAt g (fb.cursorY * g.cols + fb.cursorX) =
        .ok (v (fb.cursorY * g.cols + fb.cursorX)))
      (do
        let fb ← fb.fullRefresh g ctx
        let fb ← fb.rawPutchar g d ctx₁
        fb.doubleBufferFlush g ctx₂) := by
  obtain ⟨k, hk⟩ := Option.ne_none_iff_exists'.mp hwaits
  refine (fullRefresh_forgets hg h hen hx hy hk).bind fun fb₁ ⟨h₁, hfree, hpen⟩ => ?_
  have hX : fb₁.cursorX = fb.cursorX := by rw [hpen]
  have hY : fb₁.cursorY = fb.cursorY := by rw [hpen]
  rw [rawPutchar_inline (by rw [hX]; exact hx), hX, hY]
  have hmoved : Forgotten g (fb.cursorY * g.cols + fb.cursorX) k
      (v (fb.cursorY * g.cols + fb.cursorX)) 0
        { fb₁ with cursorX := fb.cursorX + 1, cursorY := fb.cursorY } := { h₁ with }
  refine (hmoved.push hx hy hfree _).bind fun fb₂ ⟨h₂, hpen₂⟩ => ?_
  have hnext : fb₂.cursorY * g.cols + fb₂.cursorX ≠ fb.cursorY * g.cols + fb.cursorX := by
    rw [hpen₂]
    show fb.cursorY * g.cols + (fb.cursorX + 1) ≠ _
    omega
  refine (h₂.doubleBufferFlush hg fun _ => hnext).mono fun fb₃ ⟨hgrid, hmap⟩ => ?_
  have hi := cell_lt hx hy
  rw [charAt, mapAt_ok hi, hmap, ← hgrid]
  exact gridAt_ok hi

end FbContext

end HelixKernel.Flanterm
