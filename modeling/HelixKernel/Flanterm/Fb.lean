import HelixKernel.Lib.WriteBack
import HelixKernel.Flanterm.Glyphs

/-!
flanterm's framebuffer backend, fb.c: a grid of characters that the framebuffer shows, a queue of
characters to be drawn, and a map from cells to their queue items.

Sizes are numbers: `rows * cols` items of the queue have been allocated, so that no sum or product
of rows and columns below wraps. -/

namespace HelixKernel.Flanterm

structure FbQueueItem where
  x : Nat
  y : Nat
  c : FbChar

/-- What the backend reads of the terminal's state. -/
structure FlantermContext where
  cursorEnabled : Bool
  scrollEnabled : Bool
  wrapEnabled : Bool
  scrollTopMargin : Nat
  scrollBottomMargin : Nat

/-- `a - b` as a `size_t`. -/
def sizeSub (a b : Nat) : Nat := if b ≤ a then a - b else 2 ^ 64 + a - b

theorem sizeSub_of_le {a b : Nat} (h : b ≤ a) : sizeSub a b = a - b := if_pos h

/-- Cursor and colours, as they are and as they were saved. -/
structure Pen where
  textFg : UInt32
  textBg : UInt32
  cursorX : Nat
  cursorY : Nat
  savedStateTextFg : UInt32
  savedStateTextBg : UInt32
  savedStateCursorX : Nat
  savedStateCursorY : Nat

/-- `map` names an item by its place in the queue. -/
structure FbContext extends Pen where
  grid : Nat → FbChar
  queue : Nat → FbQueueItem
  queueI : Nat
  map : Nat → Option Nat
  oldCursorX : Nat
  oldCursorY : Nat
  framebuffer : Framebuffer

/-! ## Cursor and colours -/

namespace Pen

/-- `flanterm_fb_save_state` -/
def saveState (p : Pen) : Pen :=
  { p with
    savedStateTextFg := p.textFg
    savedStateTextBg := p.textBg
    savedStateCursorX := p.cursorX
    savedStateCursorY := p.cursorY }

/-- `flanterm_fb_restore_state` -/
def restoreState (p : Pen) : Pen :=
  { p with
    textFg := p.savedStateTextFg
    textBg := p.savedStateTextBg
    cursorX := p.savedStateCursorX
    cursorY := p.savedStateCursorY }

/-- `flanterm_fb_swap_palette` -/
def swapPalette (p : Pen) : Pen := { p with textFg := p.textBg, textBg := p.textFg }

/-- `flanterm_fb_set_cursor_pos`: above `SIZE_MAX / 2` is left of zero. -/
def setCursorPos (g : FbParams) (x y : Nat) (p : Pen) : Pen :=
  let x := if x ≥ g.cols then (if x > (2 ^ 64 - 1) / 2 then 0 else sizeSub g.cols 1) else x
  let y := if y ≥ g.rows then (if y > (2 ^ 64 - 1) / 2 then 0 else sizeSub g.rows 1) else y
  { p with cursorX := x, cursorY := y }

/-- `flanterm_fb_get_cursor_pos` -/
def getCursorPos (g : FbParams) (p : Pen) : Nat × Nat :=
  (if p.cursorX ≥ g.cols then sizeSub g.cols 1 else p.cursorX,
    if p.cursorY ≥ g.rows then sizeSub g.rows 1 else p.cursorY)

/-- `convert_colour` -/
def convertColour (g : FbParams) (colour : UInt32) : UInt32 :=
  let r := (colour >>> 16) &&& 0xff
  let gr := (colour >>> 8) &&& 0xff
  let b := colour &&& 0xff
  let ret := (r <<< g.redMaskShift.toUInt32) ||| (gr <<< g.greenMaskShift.toUInt32) |||
    (b <<< g.blueMaskShift.toUInt32)
  let ret := if g.redMaskSize > 8 then
      ret ||| ((r >>> (16 - g.redMaskSize.toUInt32)) <<<
        (g.redMaskShift.toUInt32 - g.redMaskSize.toUInt32 + 8)) else ret
  let ret := if g.greenMaskSize > 8 then
      ret ||| ((gr >>> (16 - g.greenMaskSize.toUInt32)) <<<
        (g.greenMaskShift.toUInt32 - g.greenMaskSize.toUInt32 + 8)) else ret
  if g.blueMaskSize > 8 then
      ret ||| ((b >>> (16 - g.blueMaskSize.toUInt32)) <<<
        (g.blueMaskShift.toUInt32 - g.blueMaskSize.toUInt32 + 8)) else ret

/-- An entry of one of the tables of eight colours. -/
def tableColour (table : Nat → UInt32) (n : Nat) : Except Fault UInt32 :=
  if n < 8 then .ok (table n) else .error .outside

/-- `flanterm_fb_set_text_fg` and its bright sibling, on their tables. -/
def setTextFg (table : Nat → UInt32) (n : Nat) (p : Pen) : Except Fault Pen := do
  let colour ← tableColour table n
  .ok { p with textFg := colour }

/-- `flanterm_fb_set_text_bg` and its bright sibling, on their tables. -/
def setTextBg (table : Nat → UInt32) (n : Nat) (p : Pen) : Except Fault Pen := do
  let colour ← tableColour table n
  .ok { p with textBg := colour }

/-- The blank that clearing and scrolling write. -/
def empty (p : Pen) : FbChar := { c := 0x20, fg := p.textFg, bg := p.textBg }

end Pen

namespace FbContext

variable (g : FbParams)

/-- `map[i]` -/
def mapAt (fb : FbContext) (i : Nat) : Except Fault (Option Nat) :=
  if i < g.rows * g.cols then .ok (fb.map i) else .error .outside

/-- `grid[i]` -/
def gridAt (fb : FbContext) (i : Nat) : Except Fault FbChar :=
  if i < g.rows * g.cols then .ok (fb.grid i) else .error .outside

/-- `queue[k]` -/
def queueAt (fb : FbContext) (k : Nat) : Except Fault FbQueueItem :=
  if k < g.rows * g.cols then .ok (fb.queue k) else .error .outside

/-- The character that a cell will show: its queue item's, or the grid's. -/
def charAt (fb : FbContext) (i : Nat) : Except Fault FbChar := do
  match ← fb.mapAt g i with
  | some k => return (← fb.queueAt g k).c
  | none => fb.gridAt g i

/-- `push_to_queue` -/
def pushToQueue (c : FbChar) (x y : Nat) (fb : FbContext) : Except Fault FbContext :=
  if x ≥ g.cols ∨ y ≥ g.rows then .ok fb
  else do
    let i := y * g.cols + x
    match ← fb.mapAt g i with
    | some k =>
      let item ← fb.queueAt g k
      .ok { fb with queue := Function.update fb.queue k { item with c := c } }
    | none =>
      if (← fb.gridAt g i) = c then .ok fb
      else if fb.queueI = g.rows * g.cols then .ok fb
      else do
        let _ ← fb.queueAt g fb.queueI
        .ok { fb with
          queue := Function.update fb.queue fb.queueI { x := x, y := y, c := c }
          queueI := fb.queueI + 1
          map := Function.update fb.map i (some fb.queueI) }

/-- A row of blanks, which ends a scroll. -/
def blankRow (y : Nat) (fb : FbContext) : Except Fault FbContext :=
  forUp 0 g.cols (fun i fb' => fb'.pushToQueue g fb.toPen.empty i y) fb

/-- `flanterm_fb_revscroll` -/
def revscroll (ctx : FlantermContext) (fb : FbContext) : Except Fault FbContext := do
  let fb ← forDown (sizeSub ctx.scrollBottomMargin 1 * g.cols) (ctx.scrollTopMargin * g.cols)
    (fun i fb => do
      let c ← fb.charAt g i
      fb.pushToQueue g c ((i + g.cols) % g.cols) ((i + g.cols) / g.cols)) fb
  fb.blankRow g ctx.scrollTopMargin

/-- `flanterm_fb_scroll` -/
def scroll (ctx : FlantermContext) (fb : FbContext) : Except Fault FbContext := do
  let fb ← forUp ((ctx.scrollTopMargin + 1) * g.cols) (ctx.scrollBottomMargin * g.cols)
    (fun i fb => do
      let c ← fb.charAt g i
      fb.pushToQueue g c ((i - g.cols) % g.cols) ((i - g.cols) / g.cols)) fb
  fb.blankRow g (sizeSub ctx.scrollBottomMargin 1)

/-- `flanterm_fb_clear` -/
def clear (move : Bool) (fb : FbContext) : Except Fault FbContext := do
  let fb' ← forUp 0 (g.rows * g.cols) (fun i fb' =>
    fb'.pushToQueue g fb.toPen.empty (i % g.cols) (i / g.cols)) fb
  .ok (if move then { fb' with cursorX := 0, cursorY := 0 } else fb')

/-- `flanterm_fb_move_character` -/
def moveCharacter (newX newY oldX oldY : Nat) (fb : FbContext) : Except Fault FbContext :=
  if oldX ≥ g.cols ∨ oldY ≥ g.rows ∨ newX ≥ g.cols ∨ newY ≥ g.rows then .ok fb
  else do
    let c ← fb.charAt g (oldX + oldY * g.cols)
    fb.pushToQueue g c newX newY

/-- A character with its colours exchanged. -/
def swapped (c : FbChar) : FbChar := { c with fg := c.bg, bg := c.fg }

/-- `plot_char` on the context's framebuffer. -/
def plot (c : FbChar) (x y : Nat) (fb : FbContext) : Except Fault FbContext := do
  let px ← g.plotChar c x y fb.framebuffer
  .ok { fb with framebuffer := px }

/-- `draw_cursor` -/
def drawCursor (fb : FbContext) : Except Fault FbContext :=
  if fb.cursorX ≥ g.cols ∨ fb.cursorY ≥ g.rows then .ok fb
  else do
    let i := fb.cursorX + fb.cursorY * g.cols
    let q ← fb.mapAt g i
    let c ← fb.charAt g i
    let fb ← fb.plot g (swapped c) fb.cursorX fb.cursorY
    match q with
    | some _ =>
      .ok { fb with grid := Function.update fb.grid i c, map := Function.update fb.map i none }
    | none => .ok fb

/-- `draw_cursor`, where the cursor is enabled. -/
def drawEnabledCursor (ctx : FlantermContext) (fb : FbContext) : Except Fault FbContext :=
  if ctx.cursorEnabled then fb.drawCursor g else .ok fb

/-- One turn of the loop over the queue. -/
def flushItem (k : Nat) (fb : FbContext) : Except Fault FbContext := do
  let q ← fb.queueAt g k
  let offset := q.y * g.cols + q.x
  match ← fb.mapAt g offset with
  | none => .ok fb
  | some _ => do
    let fb ← fb.plot g q.c q.x q.y
    .ok { fb with
      grid := Function.update fb.grid offset q.c
      map := Function.update fb.map offset none }

/-- The cell where the cursor was is drawn anew, unless the cursor is still there. -/
def replotOldCursor (ctx : FlantermContext) (fb : FbContext) : Except Fault FbContext :=
  if (fb.oldCursorX ≠ fb.cursorX ∨ fb.oldCursorY ≠ fb.cursorY) ∨ ctx.cursorEnabled = false then
    if fb.oldCursorX < g.cols ∧ fb.oldCursorY < g.rows then do
      let c ← fb.gridAt g (fb.oldCursorX + fb.oldCursorY * g.cols)
      fb.plot g c fb.oldCursorX fb.oldCursorY
    else .ok fb
  else .ok fb

/-- `flanterm_fb_double_buffer_flush`; the flush callback is told of the framebuffer and changes
nothing here. -/
def doubleBufferFlush (ctx : FlantermContext) (fb : FbContext) : Except Fault FbContext := do
  let fb ← fb.drawEnabledCursor g ctx
  let fb ← forUp 0 fb.queueI (flushItem g) fb
  let fb ← fb.replotOldCursor g ctx
  .ok { fb with oldCursorX := fb.cursorX, oldCursorY := fb.cursorY, queueI := 0 }

/-- A cursor that has gone below the scrolling region goes back, and the region scrolls. -/
def scrollAtMargin (ctx : FlantermContext) (fb : FbContext) : Except Fault FbContext :=
  if fb.cursorY = ctx.scrollBottomMargin then scroll g ctx { fb with cursorY := fb.cursorY - 1 }
  else .ok fb

/-- The next cell, when the cursor has left its line. -/
def wrapCursor (ctx : FlantermContext) (fb : FbContext) : Except Fault FbContext :=
  if fb.cursorX ≥ g.cols then
    if ctx.wrapEnabled ∧ (fb.cursorY < sizeSub ctx.scrollBottomMargin 1 ∨ ctx.scrollEnabled) then do
      let fb ← scrollAtMargin g ctx { fb with cursorX := 0, cursorY := fb.cursorY + 1 }
      .ok (if fb.cursorY ≥ g.rows then { fb with cursorY := sizeSub g.rows 1 } else fb)
    else .ok { fb with cursorX := sizeSub g.cols 1 }
  else .ok fb

/-- `flanterm_fb_raw_putchar` -/
def rawPutchar (c : UInt8) (ctx : FlantermContext) (fb : FbContext) : Except Fault FbContext := do
  let fb ← fb.wrapCursor g ctx
  let ch : FbChar := { c := c, fg := fb.textFg, bg := fb.textBg }
  let x := fb.cursorX
  pushToQueue g ch x fb.cursorY { fb with cursorX := x + 1 }

/-- `flanterm_fb_full_refresh` -/
def fullRefresh (ctx : FlantermContext) (fb : FbContext) : Except Fault FbContext := do
  let px ← forUp 0 g.height (fun y px => forUp 0 g.width (fun x px => do
    let colour ← g.behind g.canvas x y
    g.writePixel px (g.pixelIndex x y) colour) px) fb.framebuffer
  let fb ← forUp 0 (g.rows * g.cols) (fun i fb => do
    let c ← fb.gridAt g i
    fb.plot g c (i % g.cols) (i / g.cols)) { fb with framebuffer := px }
  fb.drawEnabledCursor g ctx

end FbContext

end HelixKernel.Flanterm
