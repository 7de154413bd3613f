import HelixKernel.Flanterm.Fb

/-!
The queue of fb.c as a write-back buffer over the grid.

`Holds g fb v`: queue and map correspond, and cell `i` (counted along the rows) will show `v i`.
Each drawing function of fb.c is a write into `v`:

    pushToQueue_holds, blankRow_holds, scroll_holds, revscroll_holds, clear_holds

and leaves everything else as it is (`Same`), the framebuffer in particular. -/

namespace HelixKernel.Flanterm

namespace FbContext

variable (g : FbParams)

/-- Grid, queue and map, as a write-back buffer over the cells. -/
def buffer (fb : FbContext) : WriteBack Nat FbChar where
  base := fb.grid
  place k := (fb.queue k).y * g.cols + (fb.queue k).x
  value k := (fb.queue k).c
  used := fb.queueI
  slot := fb.map

/-- The numbers of the cells. -/
def cellsOf : Finset Nat := Finset.range (g.rows * g.cols)

structure Holds (fb : FbContext) (v : Nat → FbChar) : Prop where
  tracked : (fb.buffer g).Tracked (cellsOf g)
  items : ∀ k < fb.queueI, (fb.queue k).x < g.cols ∧ (fb.queue k).y < g.rows
  view : ∀ i < g.rows * g.cols, (fb.buffer g).view i = v i

/-- At most queue and map differ. -/
structure Same (fb fb' : FbContext) : Prop where
  pen : fb'.toPen = fb.toPen
  grid : fb'.grid = fb.grid
  oldCursorX : fb'.oldCursorX = fb.oldCursorX
  oldCursorY : fb'.oldCursorY = fb.oldCursorY
  framebuffer : fb'.framebuffer = fb.framebuffer

theorem Same.refl (fb : FbContext) : Same fb fb := ⟨rfl, rfl, rfl, rfl, rfl⟩

theorem Same.trans {fb fb' fb'' : FbContext} (h : Same fb fb') (h' : Same fb' fb'') : Same fb fb'' :=
  ⟨h'.pen.trans h.pen, h'.grid.trans h.grid, h'.oldCursorX.trans h.oldCursorX,
    h'.oldCursorY.trans h.oldCursorY, h'.framebuffer.trans h.framebuffer⟩

variable {g} {fb : FbContext} {v v' : Nat → FbChar} {c : FbChar} {x y i k : Nat}

theorem cell_lt (hx : x < g.cols) (hy : y < g.rows) : y * g.cols + x < g.rows * g.cols :=
  FbParams.mul_add_lt hy hx

/-- Rows are ranges of cells. -/
theorem row_le_cell (hx : x < g.cols) {a : Nat} : a * g.cols ≤ y * g.cols + x ↔ a ≤ y := by
  constructor
  · intro h
    by_contra hlt
    have hrow := Nat.mul_le_mul_right g.cols (show y + 1 ≤ a by omega)
    rw [Nat.succ_mul] at hrow
    omega
  · intro h
    exact le_add_right (Nat.mul_le_mul_right g.cols h)

theorem mapAt_ok (hi : i < g.rows * g.cols) : fb.mapAt g i = .ok (fb.map i) := if_pos hi

theorem gridAt_ok (hi : i < g.rows * g.cols) : fb.gridAt g i = .ok (fb.grid i) := if_pos hi

theorem queueAt_ok (hk : k < g.rows * g.cols) : fb.queueAt g k = .ok (fb.queue k) := if_pos hk

namespace Holds

theorem congr (h : Holds g fb v) (hv : ∀ i < g.rows * g.cols, v' i = v i) : Holds g fb v' :=
  ⟨h.tracked, h.items, fun i hi => (h.view i hi).trans (hv i hi).symm⟩

/-- Cursor, colours and framebuffer are no part of it. -/
theorem of_eq {fb' : FbContext} (h : Holds g fb v) (hgrid : fb'.grid = fb.grid)
    (hqueue : fb'.queue = fb.queue)
    (hused : fb'.queueI = fb.queueI) (hmap : fb'.map = fb.map) : Holds g fb' v := by
  have hbuffer : fb'.buffer g = fb.buffer g := by
    unfold buffer
    rw [hgrid, hqueue, hused, hmap]
  refine ⟨?_, ?_, ?_⟩
  · rw [hbuffer]
    exact h.tracked
  · rw [hused, hqueue]
    exact h.items
  · rw [hbuffer]
    exact h.view

theorem room (h : Holds g fb v) : fb.queueI ≤ g.rows * g.cols := by
  have hle := h.tracked.used_le
  rwa [cellsOf, Finset.card_range] at hle

theorem item_lt (h : Holds g fb v) (hi : i < g.rows * g.cols) (hk : fb.map i = some k) :
    k < g.rows * g.cols :=
  lt_of_lt_of_le (h.tracked.named i (Finset.mem_range.mpr hi) k hk).1 h.room

theorem value_eq (h : Holds g fb v) (hi : i < g.rows * g.cols) (hk : fb.map i = some k) :
    (fb.queue k).c = v i := by
  rw [← h.view i hi, WriteBack.view_some (w := fb.buffer g) hk]
  rfl

/-- What a cell will show is found. -/
theorem charAt_ok (h : Holds g fb v) (hi : i < g.rows * g.cols) : fb.charAt g i = .ok (v i) := by
  rw [← h.view i hi]
  rw [charAt, mapAt_ok hi]
  cases hk : fb.map i with
  | none =>
    rw [WriteBack.view_none (w := fb.buffer g) hk]
    exact gridAt_ok hi
  | some k =>
    rw [WriteBack.view_some (w := fb.buffer g) hk]
    show (fb.queueAt g k >>= fun item => .ok item.c) = _
    rw [queueAt_ok (h.item_lt hi hk)]
    rfl

theorem charAt_returns (h : Holds g fb v) :
    ∀ i < g.rows * g.cols, Returns (fun _ => True) (fb.charAt g i) :=
  fun i hi => ⟨v i, h.charAt_ok hi, trivial⟩

end Holds

/-- A push is a put of the buffer. -/
theorem pushToQueue_put (h : Holds g fb v) (hx : x < g.cols) (hy : y < g.rows) (c : FbChar) :
    Returns (fun fb' => fb'.buffer g = (fb.buffer g).put (y * g.cols + x) c ∧
        (∀ k < fb'.queueI, (fb'.queue k).x < g.cols ∧ (fb'.queue k).y < g.rows) ∧ Same fb fb')
      (fb.pushToQueue g c x y) := by
  have hi := cell_lt hx hy
  have hmem : y * g.cols + x ∈ cellsOf g := Finset.mem_range.mpr hi
  rw [pushToQueue, if_neg (by omega)]
  refine Returns.bind_ok (mapAt_ok hi) ?_
  cases hk : fb.map (y * g.cols + x) with
  | some k =>
    refine Returns.bind_ok (queueAt_ok (h.item_lt hi hk))
      (.ok ⟨?_, fun l hl => ?_, ⟨rfl, rfl, rfl, rfl, rfl⟩⟩)
    · unfold WriteBack.put buffer
      simp only [hk]
      congr 1
      · funext l
        by_cases hl : l = k
        · rw [hl, Function.update_self]
        · rw [Function.update_of_ne hl]
      · funext l
        by_cases hl : l = k
        · rw [hl, Function.update_self, Function.update_self]
        · rw [Function.update_of_ne hl, Function.update_of_ne hl]
    · have hitem := h.items l hl
      by_cases hl : l = k
      · simp only [hl, Function.update_self]
        rwa [hl] at hitem
      · simp only [Function.update_of_ne hl]
        exact hitem
  | none =>
    refine Returns.bind_ok (gridAt_ok hi) ?_
    split
    · rename_i hsame
      refine .ok ⟨?_, h.items, .refl fb⟩
      unfold WriteBack.put buffer
      simp only [hk, hsame, if_true]
    · rename_i hnew
      have hroom := h.tracked.used_lt hmem hk
      rw [cellsOf, Finset.card_range] at hroom
      change fb.queueI < g.rows * g.cols at hroom
      rw [if_neg (Nat.ne_of_lt hroom)]
      refine Returns.bind_ok (queueAt_ok hroom)
        (.ok ⟨?_, fun l hl => ?_, ⟨rfl, rfl, rfl, rfl, rfl⟩⟩)
      · unfold WriteBack.put buffer
        simp only [hk, if_neg hnew]
        congr 1
        · funext l
          by_cases hl : l = fb.queueI
          · rw [hl, Function.update_self, Function.update_self]
          · rw [Function.update_of_ne hl, Function.update_of_ne hl]
        · funext l
          by_cases hl : l = fb.queueI
          · rw [hl, Function.update_self, Function.update_self]
          · rw [Function.update_of_ne hl, Function.update_of_ne hl]
      · change l < fb.queueI + 1 at hl
        by_cases hlast : l = fb.queueI
        · simp only [hlast, Function.update_self]
          exact ⟨hx, hy⟩
        · simp only [Function.update_of_ne hlast]
          exact h.items l (by omega)

theorem Holds.put {fb' : FbContext} (h : Holds g fb v) (hi : i < g.rows * g.cols)
    (hbuffer : fb'.buffer g = (fb.buffer g).put i c)
    (hitems : ∀ k < fb'.queueI, (fb'.queue k).x < g.cols ∧ (fb'.queue k).y < g.rows) :
    Holds g fb' (Function.update v i c) := by
  have hmem : i ∈ cellsOf g := Finset.mem_range.mpr hi
  refine ⟨?_, hitems, fun j hj => ?_⟩
  · rw [hbuffer]
    exact h.tracked.put hmem c
  · rw [hbuffer, h.tracked.view_put hmem c (Finset.mem_range.mpr hj), h.view j hj,
      Function.update_apply]

/-- A push is a write to its cell. -/
theorem pushToQueue_holds (h : Holds g fb v) (hx : x < g.cols) (hy : y < g.rows) (c : FbChar) :
    Returns (fun fb' => Holds g fb' (Function.update v (y * g.cols + x) c) ∧ Same fb fb')
      (fb.pushToQueue g c x y) :=
  (pushToQueue_put h hx hy c).mono fun _ ⟨hbuffer, hitems, hsame⟩ =>
    ⟨h.put (cell_lt hx hy) hbuffer hitems, hsame⟩

/-- What a cell does not have yet waits for the next flush. -/
theorem pushToQueue_waits (h : Holds g fb v) (hx : x < g.cols) (hy : y < g.rows)
    (hc : c ≠ v (y * g.cols + x)) :
    Returns (fun fb' => Holds g fb' (Function.update v (y * g.cols + x) c) ∧
        fb'.map (y * g.cols + x) ≠ none) (fb.pushToQueue g c x y) := by
  have hi := cell_lt hx hy
  refine (pushToQueue_put h hx hy c).mono fun fb' ⟨hbuffer, hitems, _⟩ =>
    ⟨h.put hi hbuffer hitems, ?_⟩
  show (fb'.buffer g).slot (y * g.cols + x) ≠ none
  rw [hbuffer]
  refine WriteBack.put_slot ?_
  rw [h.view _ hi]
  exact hc.symm

/-- A push to the cell with number `i`. -/
theorem pushAt_holds (h : Holds g fb v) (hi : i < g.rows * g.cols) (c : FbChar) :
    Returns (fun fb' => Holds g fb' (Function.update v i c) ∧ Same fb fb')
      (fb.pushToQueue g c (i % g.cols) (i / g.cols)) := by
  have hcols : 0 < g.cols := Nat.pos_of_lt_mul_left hi
  have hpush := pushToQueue_holds h (Nat.mod_lt i hcols) (Nat.div_lt_of_lt_mul (by rwa [Nat.mul_comm])) c
  rwa [Nat.div_add_mod'] at hpush

/-- The cells from `lo` on, `n` of them, become `c`. -/
def filled (v : Nat → FbChar) (lo n : Nat) (c : FbChar) (j : Nat) : FbChar :=
  if lo ≤ j ∧ j < lo + n then c else v j

theorem blankRow_holds (h : Holds g fb v) (hy : y < g.rows) :
    Returns (fun fb' => Holds g fb' (filled v (y * g.cols) g.cols fb.toPen.empty) ∧ Same fb fb')
      (fb.blankRow g y) := by
  let I (n : Nat) (fb' : FbContext) : Prop :=
    Holds g fb' (filled v (y * g.cols) n fb.toPen.empty) ∧ Same fb fb'
  have hstart : I 0 fb := by
    refine ⟨h.congr fun j _ => if_neg ?_, .refl fb⟩
    omega
  refine forUp_returns I (Nat.zero_le _) hstart fun n fb' _ hn hI => ?_
  refine (pushToQueue_holds hI.1 hn hy _).mono fun fb'' hfb =>
    ⟨hfb.1.congr fun j _ => ?_, hI.2.trans hfb.2⟩
  unfold filled
  by_cases hj : j = y * g.cols + n
  · rw [hj, Function.update_self, if_pos (by omega)]
  · rw [Function.update_of_ne hj]
    refine if_congr ?_ rfl rfl
    omega

/-- The cells from `lo` on take what is `n` cells further, up to `hi`. -/
def shiftedUp (v : Nat → FbChar) (n lo hi j : Nat) : FbChar :=
  if lo ≤ j ∧ j + n < hi then v (j + n) else v j

/-- The cells up to `hi` take what is `n` cells before, from `lo` on. -/
def shiftedDown (v : Nat → FbChar) (n lo hi j : Nat) : FbChar :=
  if lo + n ≤ j ∧ j < hi then v (j - n) else v j

theorem scroll_holds (h : Holds g fb v) {ctx : FlantermContext}
    (htop : ctx.scrollTopMargin < ctx.scrollBottomMargin)
    (hbottom : ctx.scrollBottomMargin ≤ g.rows) :
    Returns (fun fb' => Holds g fb'
        (filled (shiftedUp v g.cols (ctx.scrollTopMargin * g.cols) (ctx.scrollBottomMargin * g.cols))
          ((ctx.scrollBottomMargin - 1) * g.cols) g.cols fb.toPen.empty) ∧ Same fb fb')
      (fb.scroll g ctx) := by
  have hend := Nat.mul_le_mul_right g.cols hbottom
  have hregion := Nat.mul_le_mul_right g.cols (Nat.succ_le_of_lt htop)
  let I (i : Nat) (fb' : FbContext) : Prop :=
    Holds g fb' (shiftedUp v g.cols (ctx.scrollTopMargin * g.cols) i) ∧ Same fb fb'
  have hstart : I ((ctx.scrollTopMargin + 1) * g.cols) fb := by
    refine ⟨h.congr fun j _ => if_neg ?_, .refl fb⟩
    rw [Nat.succ_mul]
    omega
  refine Returns.bind (forUp_returns I hregion hstart fun i fb' hlo hhi hI => ?_) fun fb' hI => ?_
  · rw [Nat.succ_mul] at hlo
    refine Returns.bind_ok (hI.1.charAt_ok (by omega)) ?_
    refine (pushAt_holds hI.1 (i := i - g.cols) (by omega) _).mono fun fb'' hfb =>
      ⟨hfb.1.congr fun j _ => ?_, hI.2.trans hfb.2⟩
    -- the cell read lies behind those already written
    have hread : shiftedUp v g.cols (ctx.scrollTopMargin * g.cols) i i = v i := if_neg (by omega)
    rw [hread]
    unfold shiftedUp
    by_cases hj : j = i - g.cols
    · rw [hj, Function.update_self, if_pos (by omega), Nat.sub_add_cancel (by omega)]
    · rw [Function.update_of_ne hj]
      refine if_congr ?_ rfl rfl
      omega
  · rw [sizeSub_of_le (by omega)]
    refine (blankRow_holds hI.1 (y := ctx.scrollBottomMargin - 1) (by omega)).mono fun fb'' hfb =>
      ⟨?_, hI.2.trans hfb.2⟩
    rw [← hI.2.pen]
    exact hfb.1

theorem revscroll_holds (h : Holds g fb v) {ctx : FlantermContext}
    (htop : ctx.scrollTopMargin < ctx.scrollBottomMargin) (hbottom : ctx.scrollBottomMargin ≤ g.rows) :
    Returns (fun fb' => Holds g fb'
        (filled (shiftedDown v g.cols (ctx.scrollTopMargin * g.cols) (ctx.scrollBottomMargin * g.cols))
          (ctx.scrollTopMargin * g.cols) g.cols fb.toPen.empty) ∧ Same fb fb')
      (fb.revscroll g ctx) := by
  have hend := Nat.mul_le_mul_right g.cols hbottom
  have hregion := Nat.mul_le_mul_right g.cols
    (show ctx.scrollTopMargin ≤ ctx.scrollBottomMargin - 1 by omega)
  have hlast : (ctx.scrollBottomMargin - 1) * g.cols + g.cols = ctx.scrollBottomMargin * g.cols := by
    rw [← Nat.succ_mul]
    congr 1
    omega
  -- after the turn for `i` the cells from `i + cols` on are done
  let I (i : Nat) (fb' : FbContext) : Prop :=
    Holds g fb' (shiftedDown v g.cols i (ctx.scrollBottomMargin * g.cols)) ∧ Same fb fb'
  have hstart : I ((ctx.scrollBottomMargin - 1) * g.cols) fb := by
    refine ⟨h.congr fun j _ => if_neg ?_, .refl fb⟩
    omega
  unfold revscroll
  rw [sizeSub_of_le (by omega)]
  refine Returns.bind (forDown_returns I hregion hstart fun i fb' hlo hhi hI => ?_) fun fb' hI => ?_
  · refine Returns.bind_ok (hI.1.charAt_ok (by omega)) ?_
    refine (pushAt_holds hI.1 (i := i + g.cols) (by omega) _).mono fun fb'' hfb =>
      ⟨hfb.1.congr fun j _ => ?_, hI.2.trans hfb.2⟩
    have hread : shiftedDown v g.cols (i + 1) (ctx.scrollBottomMargin * g.cols) i = v i :=
      if_neg (by omega)
    rw [hread]
    unfold shiftedDown
    by_cases hj : j = i + g.cols
    · rw [hj, Function.update_self, if_pos (by omega), Nat.add_sub_cancel]
    · rw [Function.update_of_ne hj]
      refine if_congr ?_ rfl rfl
      omega
  · refine (blankRow_holds hI.1 (y := ctx.scrollTopMargin) (by omega)).mono fun fb'' hfb =>
      ⟨?_, hI.2.trans hfb.2⟩
    rw [← hI.2.pen]
    exact hfb.1

/-- Every cell is blank; with `move` the cursor goes to the first one. -/
theorem clear_holds (h : Holds g fb v) (move : Bool) :
    Returns (fun fb' => Holds g fb' (fun _ => fb.toPen.empty) ∧
        fb'.toPen = (if move then { fb.toPen with cursorX := 0, cursorY := 0 } else fb.toPen) ∧
        Same { fb with toPen := fb'.toPen } fb')
      (fb.clear g move) := by
  let I (n : Nat) (fb' : FbContext) : Prop := Holds g fb' (filled v 0 n fb.toPen.empty) ∧ Same fb fb'
  have hstart : I 0 fb := ⟨h.congr fun j _ => if_neg (by omega), .refl fb⟩
  refine Returns.bind (forUp_returns I (Nat.zero_le _) hstart fun n fb' _ hn hI => ?_) fun fb' hI => ?_
  · refine (pushAt_holds hI.1 hn _).mono fun fb'' hfb => ⟨hfb.1.congr fun j _ => ?_, hI.2.trans hfb.2⟩
    unfold filled
    by_cases hj : j = n
    · rw [hj, Function.update_self, if_pos (by omega)]
    · rw [Function.update_of_ne hj]
      refine if_congr ?_ rfl rfl
      omega
  · have hblank : Holds g fb' fun _ => fb.toPen.empty := hI.1.congr fun j hj => (if_pos (by omega)).symm
    obtain ⟨hpen, hgrid, hx, hy, hpx⟩ := hI.2
    cases move with
    | false => exact .ok ⟨hblank, hpen, ⟨rfl, hgrid, hx, hy, hpx⟩⟩
    | true =>
      refine .ok ⟨hblank.of_eq rfl rfl rfl rfl, ?_, ⟨rfl, hgrid, hx, hy, hpx⟩⟩
      show ({ fb'.toPen with cursorX := 0, cursorY := 0 } : Pen) = _
      rw [hpen]
      rfl

end FbContext

end HelixKernel.Flanterm
