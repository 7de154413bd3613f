import HelixKernel.Flanterm.Flush

/-!
# The terminal without its buffer

`Screen` is what the backend of fb.c is for: a grid of characters that calls write at once, and a
picture of it that a flush paints anew from end to end.  No queue, no map, no old cursor.

    fb_refines_screen : any run of calls on the framebuffer backend returns, and leaves the
      framebuffer pixel for pixel as the same calls on a `Screen` leave the picture -/

namespace HelixKernel.Flanterm

/-! ## Calls -/

/-- A call that only concerns cursor and colours. -/
inductive PenCall where
  | setCursorPos (x y : Nat)
  | setTextFg (n : Nat)
  | setTextBg (n : Nat)
  | setTextFgBright (n : Nat)
  | setTextBgBright (n : Nat)
  | setTextFgRgb (colour : UInt32)
  | setTextBgRgb (colour : UInt32)
  | setTextFgDefault
  | setTextBgDefault
  | setTextFgDefaultBright
  | setTextBgDefaultBright
  | swapPalette
  | saveState
  | restoreState

namespace PenCall

/-- The function that flanterm_fb_init sets for the call. -/
def run (g : FbParams) (p : Pen) : PenCall → Except Fault Pen
  | setCursorPos x y => .ok (p.setCursorPos g x y)
  | setTextFg n => p.setTextFg g.ansiColours n
  | setTextBg n => p.setTextBg g.ansiColours n
  | setTextFgBright n => p.setTextFg g.ansiBrightColours n
  | setTextBgBright n => p.setTextBg g.ansiBrightColours n
  | setTextFgRgb colour => .ok { p with textFg := Pen.convertColour g colour }
  | setTextBgRgb colour => .ok { p with textBg := Pen.convertColour g colour }
  | setTextFgDefault => .ok { p with textFg := g.defaultFg }
  | setTextBgDefault => .ok { p with textBg := 0xffffffff }
  | setTextFgDefaultBright => .ok { p with textFg := g.defaultFgBright }
  | setTextBgDefaultBright => .ok { p with textBg := g.defaultBgBright }
  | swapPalette => .ok p.swapPalette
  | saveState => .ok p.saveState
  | restoreState => .ok p.restoreState

/-- A colour's number is one of the eight. -/
def Valid : PenCall → Prop
  | setTextFg n | setTextBg n | setTextFgBright n | setTextBgBright n => n < 8
  | _ => True

end PenCall

/-- A call of the backend by the terminal. -/
inductive FbCall where
  | pen (call : PenCall)
  | rawPutchar (c : UInt8)
  | clear (move : Bool)
  | moveCharacter (newX newY oldX oldY : Nat)
  | scroll
  | revscroll
  | doubleBufferFlush

def FbCall.run (g : FbParams) (ctx : FlantermContext) (fb : FbContext) : FbCall → Except Fault FbContext
  | pen call => do
    let p ← call.run g fb.toPen
    .ok { fb with toPen := p }
  | rawPutchar c => fb.rawPutchar g c ctx
  | clear move => fb.clear g move
  | moveCharacter newX newY oldX oldY => fb.moveCharacter g newX newY oldX oldY
  | scroll => fb.scroll g ctx
  | revscroll => fb.revscroll g ctx
  | doubleBufferFlush => fb.doubleBufferFlush g ctx

/-- What the terminal's parser sees to: the scrolling region is a range of rows, and colours are
among the eight. -/
structure FbCall.Valid (g : FbParams) (ctx : FlantermContext) (call : FbCall) : Prop where
  top_lt : ctx.scrollTopMargin < ctx.scrollBottomMargin
  bottom_le : ctx.scrollBottomMargin ≤ g.rows
  colour : ∀ c, call = .pen c → c.Valid

/-! ## The plain terminal -/

/-- Columns and rows of characters, and the picture that is shown. -/
structure Screen extends Pen where
  cells : Nat → Nat → FbChar
  display : Nat → Nat → UInt32

namespace Screen

variable (g : FbParams)

def write (cells : Nat → Nat → FbChar) (x y : Nat) (c : FbChar) (i j : Nat) : FbChar :=
  if i = x ∧ j = y then c else cells i j

/-- The lines of the region go up by one, and the last one is blank. -/
def scroll (ctx : FlantermContext) (s : Screen) : Screen :=
  { s with cells := fun x y =>
      if y + 1 = ctx.scrollBottomMargin then s.toPen.empty
      else if ctx.scrollTopMargin ≤ y ∧ y + 1 < ctx.scrollBottomMargin then s.cells x (y + 1)
      else s.cells x y }

/-- They go down by one, and the first one is blank. -/
def revscroll (ctx : FlantermContext) (s : Screen) : Screen :=
  { s with cells := fun x y =>
      if y = ctx.scrollTopMargin then s.toPen.empty
      else if ctx.scrollTopMargin < y ∧ y < ctx.scrollBottomMargin then s.cells x (y - 1)
      else s.cells x y }

def clear (move : Bool) (s : Screen) : Screen :=
  { s with
    cells := fun _ _ => s.toPen.empty
    toPen := if move then { s.toPen with cursorX := 0, cursorY := 0 } else s.toPen }

def moveCharacter (newX newY oldX oldY : Nat) (s : Screen) : Screen :=
  if oldX < g.cols ∧ oldY < g.rows ∧ newX < g.cols ∧ newY < g.rows then
    { s with cells := write s.cells newX newY (s.cells oldX oldY) }
  else s

/-- A cursor below the region goes back, and the region scrolls. -/
def scrollAtMargin (ctx : FlantermContext) (s : Screen) : Screen :=
  if s.cursorY = ctx.scrollBottomMargin then scroll ctx { s with cursorY := s.cursorY - 1 } else s

/-- At the end of a line the next character goes to the next one, or over the last one. -/
def wrapCursor (ctx : FlantermContext) (s : Screen) : Screen :=
  if g.cols ≤ s.cursorX then
    if ctx.wrapEnabled ∧ (s.cursorY + 1 < ctx.scrollBottomMargin ∨ ctx.scrollEnabled) then
      let s := scrollAtMargin ctx { s with cursorX := 0, cursorY := s.cursorY + 1 }
      { s with cursorY := min s.cursorY (g.rows - 1) }
    else { s with cursorX := g.cols - 1 }
  else s

def rawPutchar (c : UInt8) (ctx : FlantermContext) (s : Screen) : Screen :=
  let s := s.wrapCursor g ctx
  { s with
    cells := write s.cells s.cursorX s.cursorY { c := c, fg := s.textFg, bg := s.textBg }
    cursorX := s.cursorX + 1 }

/-- The whole screen as a picture, the cell under the cursor with its colours exchanged. -/
def picture (ctx : FlantermContext) (s : Screen) (X Y : Nat) : UInt32 :=
  if g.offsetX ≤ X ∧ X < g.offsetX + g.cols * g.glyphWidth ∧
      g.offsetY ≤ Y ∧ Y < g.offsetY + g.rows * g.glyphHeight then
    let x := (X - g.offsetX) / g.glyphWidth
    let y := (Y - g.offsetY) / g.glyphHeight
    let c := s.cells x y
    g.cellPicture
      (if ctx.cursorEnabled = true ∧ x = s.cursorX ∧ y = s.cursorY then FbContext.swapped c else c)
      x y X Y
  else g.backdrop X Y

def flush (ctx : FlantermContext) (s : Screen) : Screen := { s with display := s.picture g ctx }

/-- The same calls on a screen. -/
def run (ctx : FlantermContext) (s : Screen) : FbCall → Except Fault Screen
  | .pen call => do
    let p ← call.run g s.toPen
    .ok { s with toPen := p }
  | .rawPutchar c => .ok (s.rawPutchar g c ctx)
  | .clear move => .ok (s.clear move)
  | .moveCharacter newX newY oldX oldY => .ok (s.moveCharacter g newX newY oldX oldY)
  | .scroll => .ok (s.scroll ctx)
  | .revscroll => .ok (s.revscroll ctx)
  | .doubleBufferFlush => .ok (s.flush g ctx)

end Screen

end HelixKernel.Flanterm
