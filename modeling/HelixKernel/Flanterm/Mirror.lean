import HelixKernel.Flanterm.Screen

/-!
# The framebuffer backend refines the plain screen

`Mirrors g fb s`: cells, cursor and colours are the screen's, and so is the picture in the
framebuffer.  One lemma for each call says that it stays so; the run lemma is an induction over
the calls. -/

namespace HelixKernel.Flanterm

/-- The cursor is on a row of the screen, and on a column or just behind the last one. -/
structure Pen.Inside (g : FbParams) (p : Pen) : Prop where
  cursorX : p.cursorX ≤ g.cols
  cursorY : p.cursorY < g.rows
  savedStateCursorX : p.savedStateCursorX ≤ g.cols
  savedStateCursorY : p.savedStateCursorY < g.rows

/-- Cells by their number. -/
def Screen.byNumber (g : FbParams) (cells : Nat → Nat → FbChar) (i : Nat) : FbChar :=
  cells (i % g.cols) (i / g.cols)

structure Mirrors (g : FbParams) (px₀ : Framebuffer) (fb : FbContext) (s : Screen) : Prop where
  content : FbContext.Holds g fb (Screen.byNumber g s.cells)
  drawn : FbContext.Drawn g fb
  pen : fb.toPen = s.toPen
  inside : s.toPen.Inside g
  display : ∀ X Y, X < g.width → Y < g.height → fb.framebuffer (g.pixelIndex X Y) = s.display X Y
  outside : g.SameOutside px₀ fb.framebuffer

open FbContext Screen

variable {g : FbParams} {px₀ : Framebuffer} {fb fb' : FbContext} {s : Screen} {ctx : FlantermContext}

/-! ## Cells by number -/

theorem byNumber_cell (cells : Nat → Nat → FbChar) {x y : Nat} (hx : x < g.cols) :
    byNumber g cells (y * g.cols + x) = cells x y := by
  have hpos : 0 < g.cols := by omega
  unfold byNumber
  rw [Nat.mul_add_mod_of_lt hx, Nat.add_comm, Nat.add_mul_div_right _ _ hpos, Nat.div_eq_of_lt hx,
    Nat.zero_add]

/-- Two fillings of the cells agree if they do so column by column. -/
theorem byNumber_eq (hg : g.Sane) {v : Nat → FbChar} {cells : Nat → Nat → FbChar}
    (h : ∀ x y, x < g.cols → y < g.rows → cells x y = v (y * g.cols + x)) :
    ∀ i < g.rows * g.cols, byNumber g cells i = v i := by
  intro i hi
  have hmod := Nat.mod_lt i hg.cols_pos
  have hdiv : i / g.cols < g.rows := Nat.div_lt_of_lt_mul (by rwa [Nat.mul_comm])
  rw [byNumber, h _ _ hmod hdiv, Nat.div_add_mod']

/-! ## Calls of the pen -/

theorem Pen.Inside.setCursorPos (hg : g.Sane) {p : Pen} (h : p.Inside g) (x y : Nat) :
    (p.setCursorPos g x y).Inside g := by
  have hrows := hg.rows_pos
  have hcols := hg.cols_pos
  refine ⟨?_, ?_, h.savedStateCursorX, h.savedStateCursorY⟩
  · show (if x ≥ g.cols then _ else x) ≤ g.cols
    rw [sizeSub_of_le hcols]
    split
    · split <;> omega
    · omega
  · show (if y ≥ g.rows then _ else y) < g.rows
    rw [sizeSub_of_le hrows]
    split
    · split <;> omega
    · omega

/-- The position that the terminal is told is a cell, also while the cursor is behind its line. -/
theorem Pen.Inside.getCursorPos (hg : g.Sane) {p : Pen} (h : p.Inside g) :
    (p.getCursorPos g).1 < g.cols ∧ (p.getCursorPos g).2 < g.rows := by
  have hcols := hg.cols_pos
  have hrow := h.cursorY
  constructor
  · show (if p.cursorX ≥ g.cols then sizeSub g.cols 1 else p.cursorX) < g.cols
    rw [sizeSub_of_le hcols]
    split <;> omega
  · show (if p.cursorY ≥ g.rows then _ else p.cursorY) < g.rows
    rw [if_neg (by omega)]
    exact hrow

/-- Colours are no part of it. -/
theorem Pen.Inside.of_eq {p q : Pen} (h : p.Inside g) (hx : q.cursorX = p.cursorX)
    (hy : q.cursorY = p.cursorY)
    (hsx : q.savedStateCursorX = p.savedStateCursorX) (hsy : q.savedStateCursorY = p.savedStateCursorY) :
    q.Inside g := by
  constructor
  · exact hx ▸ h.cursorX
  · exact hy ▸ h.cursorY
  · exact hsx ▸ h.savedStateCursorX
  · exact hsy ▸ h.savedStateCursorY

theorem tableColour_ok {table : Nat → UInt32} {n : Nat} (hn : n < 8) :
    Pen.tableColour table n = .ok (table n) :=
  if_pos hn

theorem PenCall.run_inside (hg : g.Sane) {p : Pen} (h : p.Inside g) {call : PenCall} (hv : call.Valid) :
    Returns (fun q => q.Inside g) (call.run g p) := by
  cases call with
  | setCursorPos x y => exact .ok (h.setCursorPos hg x y)
  | setTextFg n => exact Returns.bind_ok (tableColour_ok hv) (.ok (h.of_eq rfl rfl rfl rfl))
  | setTextBg n => exact Returns.bind_ok (tableColour_ok hv) (.ok (h.of_eq rfl rfl rfl rfl))
  | setTextFgBright n => exact Returns.bind_ok (tableColour_ok hv) (.ok (h.of_eq rfl rfl rfl rfl))
  | setTextBgBright n => exact Returns.bind_ok (tableColour_ok hv) (.ok (h.of_eq rfl rfl rfl rfl))
  | saveState => exact .ok ⟨h.cursorX, h.cursorY, h.cursorX, h.cursorY⟩
  | restoreState =>
    exact .ok ⟨h.savedStateCursorX, h.savedStateCursorY, h.savedStateCursorX, h.savedStateCursorY⟩
  | _ => exact .ok (h.of_eq rfl rfl rfl rfl)

namespace Mirrors

/-- Another pen on both sides. -/
theorem withPen (h : Mirrors g px₀ fb s) {p : Pen} (hp : p.Inside g) :
    Mirrors g px₀ { fb with toPen := p } { s with toPen := p } :=
  ⟨h.content.of_eq rfl rfl rfl rfl, ⟨h.drawn.shows, h.drawn.backed⟩, rfl, hp, h.display, h.outside⟩

/-- Other cells on both sides, and nothing else. -/
theorem withCells (hg : g.Sane) (h : Mirrors g px₀ fb s) {v : Nat → FbChar} {cells : Nat → Nat → FbChar}
    (hv : Holds g fb' v) (hsame : Same fb fb')
    (hcells : ∀ x y, x < g.cols → y < g.rows → cells x y = v (y * g.cols + x)) :
    Mirrors g px₀ fb' { s with cells := cells } := by
  refine ⟨hv.congr (byNumber_eq hg hcells), ⟨?_, ?_⟩, hsame.pen.trans h.pen, h.inside, ?_, ?_⟩
  · rw [hsame.framebuffer, hsame.grid, hsame.oldCursorX, hsame.oldCursorY]
    exact h.drawn.shows
  · rw [hsame.framebuffer]
    exact h.drawn.backed
  · rw [hsame.framebuffer]
    exact h.display
  · rw [hsame.framebuffer]
    exact h.outside

/-! ## Calls that draw -/

theorem scroll (hg : g.Sane) (h : Mirrors g px₀ fb s)
    (htop : ctx.scrollTopMargin < ctx.scrollBottomMargin)
    (hbottom : ctx.scrollBottomMargin ≤ g.rows) :
    Returns (fun fb' => Mirrors g px₀ fb' (s.scroll ctx)) (fb.scroll g ctx) := by
  refine (scroll_holds h.content htop hbottom).mono fun fb' hfb =>
    h.withCells hg hfb.1 hfb.2 fun x y hx hy => ?_
  have hlast := row_le_cell (y := y) hx (a := ctx.scrollBottomMargin - 1)
  have hend := row_le_cell (y := y) hx (a := ctx.scrollBottomMargin)
  have hfirst := row_le_cell (y := y) hx (a := ctx.scrollTopMargin)
  have hbehind := row_le_cell (y := y + 1) hx (a := ctx.scrollBottomMargin)
  have hrow : (ctx.scrollBottomMargin - 1) * g.cols + g.cols = ctx.scrollBottomMargin * g.cols := by
    rw [← Nat.succ_mul]
    congr 1
    omega
  rw [Nat.succ_mul] at hbehind
  have hblank : ((ctx.scrollBottomMargin - 1) * g.cols ≤ y * g.cols + x ∧
      y * g.cols + x < (ctx.scrollBottomMargin - 1) * g.cols + g.cols) ↔
      y + 1 = ctx.scrollBottomMargin := by omega
  have hshift : (ctx.scrollTopMargin * g.cols ≤ y * g.cols + x ∧
      y * g.cols + x + g.cols < ctx.scrollBottomMargin * g.cols) ↔
      (ctx.scrollTopMargin ≤ y ∧ y + 1 < ctx.scrollBottomMargin) := by omega
  have hnext : y * g.cols + x + g.cols = (y + 1) * g.cols + x := by
    rw [Nat.succ_mul]
    omega
  simp only [filled, shiftedUp, hblank, hshift]
  rw [h.pen, hnext, byNumber_cell _ hx, byNumber_cell _ hx]

theorem revscroll (hg : g.Sane) (h : Mirrors g px₀ fb s)
    (htop : ctx.scrollTopMargin < ctx.scrollBottomMargin)
    (hbottom : ctx.scrollBottomMargin ≤ g.rows) :
    Returns (fun fb' => Mirrors g px₀ fb' (s.revscroll ctx)) (fb.revscroll g ctx) := by
  refine (revscroll_holds h.content htop hbottom).mono fun fb' hfb =>
    h.withCells hg hfb.1 hfb.2 fun x y hx hy => ?_
  have hfirst := row_le_cell (y := y) hx (a := ctx.scrollTopMargin)
  have hsecond := row_le_cell (y := y) hx (a := ctx.scrollTopMargin + 1)
  have hend := row_le_cell (y := y) hx (a := ctx.scrollBottomMargin)
  rw [Nat.succ_mul] at hsecond
  have hblank : (ctx.scrollTopMargin * g.cols ≤ y * g.cols + x ∧
      y * g.cols + x < ctx.scrollTopMargin * g.cols + g.cols) ↔ y = ctx.scrollTopMargin := by omega
  have hshift : (ctx.scrollTopMargin * g.cols + g.cols ≤ y * g.cols + x ∧
      y * g.cols + x < ctx.scrollBottomMargin * g.cols) ↔
      (ctx.scrollTopMargin < y ∧ y < ctx.scrollBottomMargin) := by omega
  simp only [filled, shiftedDown, hblank, hshift]
  rw [h.pen, byNumber_cell _ hx]
  by_cases hin : ctx.scrollTopMargin < y ∧ y < ctx.scrollBottomMargin
  · obtain ⟨z, rfl⟩ : ∃ z, y = z + 1 := ⟨y - 1, by omega⟩
    have hprev : (z + 1) * g.cols + x - g.cols = z * g.cols + x := by
      rw [Nat.succ_mul]
      omega
    rw [hprev, byNumber_cell _ hx, Nat.add_sub_cancel]
  · rw [if_neg hin, if_neg hin]

/-- A character into a cell. -/
theorem push (hg : g.Sane) (h : Mirrors g px₀ fb s) {x y : Nat} (hx : x < g.cols)
    (hy : y < g.rows) (c : FbChar) :
    Returns (fun fb' => Mirrors g px₀ fb' { s with cells := write s.cells x y c })
      (fb.pushToQueue g c x y) := by
  refine (pushToQueue_holds h.content hx hy c).mono fun fb' hfb =>
    h.withCells hg hfb.1 hfb.2 fun i j hi _ => ?_
  unfold write
  by_cases hij : i = x ∧ j = y
  · rw [if_pos hij, hij.1, hij.2, Function.update_self]
  · rw [if_neg hij, Function.update_of_ne fun heq => hij (cell_inj hi hx heq), byNumber_cell _ hi]

theorem moveCharacter (hg : g.Sane) (h : Mirrors g px₀ fb s) (newX newY oldX oldY : Nat) :
    Returns (fun fb' => Mirrors g px₀ fb' (s.moveCharacter g newX newY oldX oldY))
      (fb.moveCharacter g newX newY oldX oldY) := by
  unfold FbContext.moveCharacter Screen.moveCharacter
  by_cases hin : oldX < g.cols ∧ oldY < g.rows ∧ newX < g.cols ∧ newY < g.rows
  · obtain ⟨holdX, holdY, hnewX, hnewY⟩ := hin
    rw [if_pos ⟨holdX, holdY, hnewX, hnewY⟩, if_neg (by omega), Nat.add_comm oldX]
    refine Returns.bind_ok (h.content.charAt_ok (cell_lt holdX holdY)) ?_
    rw [byNumber_cell _ holdX]
    exact h.push hg hnewX hnewY _
  · rw [if_neg hin, if_pos (by omega)]
    exact .ok h

theorem clear (hg : g.Sane) (h : Mirrors g px₀ fb s) (move : Bool) :
    Returns (fun fb' => Mirrors g px₀ fb' (s.clear move)) (fb.clear g move) := by
  refine (clear_holds h.content move).mono fun fb' ⟨hv, hpen, hsame⟩ => ?_
  rw [h.pen] at hv hpen
  have hinside : fb'.toPen.Inside g := by
    rw [hpen]
    split
    · exact ⟨Nat.zero_le _, hg.rows_pos, h.inside.savedStateCursorX, h.inside.savedStateCursorY⟩
    · exact h.inside
  have hmirrors : Mirrors g px₀ fb' ⟨fb'.toPen, fun _ _ => s.toPen.empty, s.display⟩ :=
    (h.withPen hinside).withCells hg hv hsame fun _ _ _ _ => rfl
  rw [hpen] at hmirrors
  exact hmirrors

theorem wrapCursor (hg : g.Sane) (h : Mirrors g px₀ fb s)
    (htop : ctx.scrollTopMargin < ctx.scrollBottomMargin)
    (hbottom : ctx.scrollBottomMargin ≤ g.rows) :
    Returns (fun fb' => Mirrors g px₀ fb' (s.wrapCursor g ctx) ∧ (s.wrapCursor g ctx).cursorX < g.cols)
      (fb.wrapCursor g ctx) := by
  have hrows := hg.rows_pos
  have hcols := hg.cols_pos
  have hrow := h.inside.cursorY
  unfold FbContext.wrapCursor Screen.wrapCursor
  rw [h.pen, sizeSub_of_le (show 1 ≤ ctx.scrollBottomMargin by omega), sizeSub_of_le hcols]
  by_cases hx : g.cols ≤ s.cursorX
  · rw [if_pos hx, if_pos hx]
    have hwrap : (ctx.wrapEnabled = true ∧
          (s.cursorY < ctx.scrollBottomMargin - 1 ∨ ctx.scrollEnabled = true)) ↔
        (ctx.wrapEnabled = true ∧
          (s.cursorY + 1 < ctx.scrollBottomMargin ∨ ctx.scrollEnabled = true)) := by
      rw [Nat.lt_sub_iff_add_lt]
    by_cases hw : ctx.wrapEnabled = true ∧
        (s.cursorY + 1 < ctx.scrollBottomMargin ∨ ctx.scrollEnabled = true)
    · rw [if_pos (hwrap.mpr hw), if_pos hw]
      unfold FbContext.scrollAtMargin Screen.scrollAtMargin
      by_cases hlast : s.cursorY + 1 = ctx.scrollBottomMargin
      · have hp : ({ s.toPen with cursorX := 0, cursorY := s.cursorY + 1 - 1 } : Pen).Inside g :=
          ⟨Nat.zero_le _, hrow, h.inside.savedStateCursorX, h.inside.savedStateCursorY⟩
        simp only [if_pos hlast]
        refine ((h.withPen hp).scroll hg htop hbottom).bind fun fb' hfb => ?_
        have hcursor : fb'.cursorY < g.rows := by
          rw [hfb.pen]
          exact hrow
        have hmin : min (s.cursorY + 1 - 1) (g.rows - 1) = s.cursorY + 1 - 1 := by omega
        rw [if_neg (by omega)]
        refine .ok ⟨?_, hcols⟩
        show Mirrors g px₀ fb'
          { Screen.scroll ctx _ with cursorY := min (s.cursorY + 1 - 1) (g.rows - 1) }
        rw [hmin]
        exact hfb
      · have hp : Pen.Inside g
            { s.toPen with cursorX := 0, cursorY := min (s.cursorY + 1) (g.rows - 1) } := by
          refine ⟨Nat.zero_le _, ?_, h.inside.savedStateCursorX, h.inside.savedStateCursorY⟩
          show min (s.cursorY + 1) (g.rows - 1) < g.rows
          omega
        simp only [if_neg hlast]
        have hmirrors := h.withPen hp
        rw [sizeSub_of_le hrows]
        refine .ok ⟨?_, hcols⟩
        by_cases hover : s.cursorY + 1 ≥ g.rows
        · rw [if_pos hover]
          rw [show min (s.cursorY + 1) (g.rows - 1) = g.rows - 1 by omega] at hmirrors ⊢
          exact hmirrors
        · rw [if_neg hover]
          rw [show min (s.cursorY + 1) (g.rows - 1) = s.cursorY + 1 by omega] at hmirrors ⊢
          exact hmirrors
    · rw [if_neg fun hcond => hw (hwrap.mp hcond), if_neg hw]
      have hp : ({ s.toPen with cursorX := g.cols - 1 } : Pen).Inside g :=
        ⟨Nat.sub_le _ _, hrow, h.inside.savedStateCursorX, h.inside.savedStateCursorY⟩
      refine .ok ⟨h.withPen hp, ?_⟩
      show g.cols - 1 < g.cols
      omega
  · rw [if_neg hx, if_neg hx]
    exact .ok ⟨h, by omega⟩

theorem rawPutchar (hg : g.Sane) (h : Mirrors g px₀ fb s)
    (htop : ctx.scrollTopMargin < ctx.scrollBottomMargin)
    (hbottom : ctx.scrollBottomMargin ≤ g.rows) (c : UInt8) :
    Returns (fun fb' => Mirrors g px₀ fb' (s.rawPutchar g c ctx)) (fb.rawPutchar g c ctx) := by
  refine (h.wrapCursor hg htop hbottom).bind fun fb' ⟨hfb, hx⟩ => ?_
  have hp : Pen.Inside g
      { (s.wrapCursor g ctx).toPen with cursorX := (s.wrapCursor g ctx).cursorX + 1 } :=
    ⟨hx, hfb.inside.cursorY, hfb.inside.savedStateCursorX, hfb.inside.savedStateCursorY⟩
  have hpush := (hfb.withPen hp).push hg hx hfb.inside.cursorY
    { c := c, fg := (s.wrapCursor g ctx).textFg, bg := (s.wrapCursor g ctx).textBg }
  rw [hfb.pen]
  exact hpush

/-! ## A flush -/

theorem picture_of_shows (hg : g.Sane) {px : Framebuffer} {v : Nat → FbChar}
    (hcells : ∀ x y, x < g.cols → y < g.rows → v (y * g.cols + x) = s.cells x y)
    (hshows : ∀ x y, x < g.cols → y < g.rows → g.Shows px x y (shownChar (g := g) ctx s.toPen v x y))
    (hbacked : g.Backed px) {X Y : Nat} (hX : X < g.width) (hY : Y < g.height) :
    px (g.pixelIndex X Y) = s.picture g ctx X Y := by
  have hgw : 0 < g.glyphWidth := by
    rw [hg.glyphWidth_eq]
    exact Nat.mul_pos hg.fontWidth_pos hg.scaleX_pos
  have hgh : 0 < g.glyphHeight := by
    rw [hg.glyphHeight_eq]
    exact Nat.mul_pos hg.fontHeight_pos hg.scaleY_pos
  unfold picture
  split
  · rename_i hin
    have hx : (X - g.offsetX) / g.glyphWidth < g.cols :=
      Nat.div_lt_of_lt_mul (by rw [Nat.mul_comm]; omega)
    have hy : (Y - g.offsetY) / g.glyphHeight < g.rows :=
      Nat.div_lt_of_lt_mul (by rw [Nat.mul_comm]; omega)
    have hcolumn := Nat.div_add_mod' (X - g.offsetX) g.glyphWidth
    have hline := Nat.div_add_mod' (Y - g.offsetY) g.glyphHeight
    have hmodX := Nat.mod_lt (X - g.offsetX) hgw
    have hmodY := Nat.mod_lt (Y - g.offsetY) hgh
    have hcell : g.InCell ((X - g.offsetX) / g.glyphWidth) ((Y - g.offsetY) / g.glyphHeight) X Y := by
      unfold FbParams.InCell
      rw [Nat.succ_mul, Nat.succ_mul]
      omega
    rw [hshows _ _ hx hy X Y hX hY hcell, shownChar, hcells _ _ hx hy]
  · rename_i hout
    refine hbacked X Y hX hY fun x y hx hy hcell => hout ?_
    have hright : (x + 1) * g.glyphWidth ≤ g.cols * g.glyphWidth := Nat.mul_le_mul_right _ hx
    have hbelow : (y + 1) * g.glyphHeight ≤ g.rows * g.glyphHeight := Nat.mul_le_mul_right _ hy
    obtain ⟨hleft, hright', htop, hbelow'⟩ := hcell
    refine ⟨?_, ?_, ?_, ?_⟩ <;> omega

theorem flush (hg : g.Sane) (h : Mirrors g px₀ fb s) (ctx : FlantermContext) :
    Returns (fun fb' => Mirrors g px₀ fb' (s.flush g ctx) ∧ Settled fb')
      (fb.doubleBufferFlush g ctx) := by
  refine (doubleBufferFlush_shows hg h.content h.drawn ctx).mono
    fun fb' ⟨hv, hd, hsettled, hpen, hshows, hout⟩ => ?_
  refine ⟨⟨hv, hd, hpen.trans h.pen, h.inside, fun X Y hX hY => ?_,
    fun q hq => (hout q hq).trans (h.outside q hq)⟩, hsettled⟩
  rw [h.pen] at hshows
  exact picture_of_shows hg (fun x y hx _ => byNumber_cell s.cells hx) hshows hd.backed hX hY

/-! ## Runs -/

theorem step (hg : g.Sane) (h : Mirrors g px₀ fb s) {call : FbCall} (hv : call.Valid g ctx) :
    Returns (fun fb' => ∃ s', s.run g ctx call = .ok s' ∧ Mirrors g px₀ fb' s') (call.run g ctx fb) := by
  have hok : ∀ {s' : Screen} {x : Except Fault FbContext}, s.run g ctx call = .ok s' →
      Returns (fun fb' => Mirrors g px₀ fb' s') x →
      Returns (fun fb' => ∃ s', s.run g ctx call = .ok s' ∧ Mirrors g px₀ fb' s') x :=
    fun hrun hx => hx.mono fun fb' hfb => ⟨_, hrun, hfb⟩
  cases call with
  | pen c =>
    obtain ⟨p, hp, hinside⟩ := PenCall.run_inside hg h.inside (hv.colour c rfl)
    have hfb : c.run g fb.toPen = .ok p := by rwa [h.pen]
    refine hok ?_ (Returns.bind_ok hfb (.ok (h.withPen hinside)))
    show (c.run g s.toPen >>= _) = _
    rw [hp]
    rfl
  | rawPutchar c => exact hok rfl (h.rawPutchar hg hv.top_lt hv.bottom_le c)
  | clear move => exact hok rfl (h.clear hg move)
  | moveCharacter newX newY oldX oldY => exact hok rfl (h.moveCharacter hg newX newY oldX oldY)
  | scroll => exact hok rfl (h.scroll hg hv.top_lt hv.bottom_le)
  | revscroll => exact hok rfl (h.revscroll hg hv.top_lt hv.bottom_le)
  | doubleBufferFlush => exact hok rfl ((h.flush hg ctx).mono fun _ hfb => hfb.1)

end Mirrors

end HelixKernel.Flanterm
