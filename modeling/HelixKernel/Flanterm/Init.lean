import HelixKernel.Flanterm.Refresh

/-!
# From flanterm_fb_init on

`FbArgs.params` is what `flanterm_fb_init` makes of its arguments, `FbMemory.allocates` whether it
gets its arrays, `FbContext.start` the state that it returns with then.

    fb_refines_screen : whatever is called then, in whatever order, the backend returns, and the
      framebuffer is the picture that the plain screen paints
    full_refresh_repairs, full_refresh_loses : what a full refresh in between brings back, and when
      it loses a character
    FbArgs.sane : the terminal that it makes lies in the framebuffer
    FbMemory.pool_suffices : with the built-in font the pool holds what it asks for -/

namespace HelixKernel.Flanterm

/-- The arguments; `none` is a null pointer. -/
structure FbArgs where
  malloc : Bool
  width : Nat
  height : Nat
  pitch : Nat
  redMaskSize : UInt8
  redMaskShift : UInt8
  greenMaskSize : UInt8
  greenMaskShift : UInt8
  blueMaskSize : UInt8
  blueMaskShift : UInt8
  canvas : Option (Nat → UInt32)
  ansiColours : Option (Nat → UInt32)
  ansiBrightColours : Option (Nat → UInt32)
  defaultBg : Option UInt32
  defaultFg : Option UInt32
  defaultBgBright : Option UInt32
  defaultFgBright : Option UInt32
  font : Option (Nat → UInt8)
  fontWidth : Nat
  fontHeight : Nat
  fontSpacing : Nat
  fontScaleX : Nat
  fontScaleY : Nat
  margin : Nat
  rotation : Rotation

namespace FbArgs

variable (a : FbArgs)

/-- The screen stands on its side. -/
def onSide : Bool :=
  match a.rotation with
  | .rotate0 | .rotate180 => false
  | .rotate90 | .rotate270 => true

/-- Width and height as the terminal counts them. -/
def logical : Nat × Nat := if a.onSide then (a.height, a.width) else (a.width, a.height)

/-- The scale of the font, which the resolution picks where none is given. -/
def scale : Nat × Nat :=
  if a.fontScaleX = 0 ∨ a.fontScaleY = 0 then
    if a.logical.1 ≥ 3840 + 3840 / 3 ∧ a.logical.2 ≥ 2160 + 2160 / 3 then (4, 4)
    else if a.logical.1 ≥ 1920 + 1920 / 3 ∧ a.logical.2 ≥ 1080 + 1080 / 3 then (2, 2)
    else (1, 1)
  else (a.fontScaleX, a.fontScaleY)

/-- The built-in pool holds a terminal of this size. -/
def limited : Nat × Nat := if a.malloc then a.logical else (min a.logical.1 1920, min a.logical.2 1200)

/-- Lines of the framebuffer that the terminal spans. -/
def physHeight : Nat :=
  if a.malloc = false ∧ (a.logical.1 > 1920 ∨ a.logical.2 > 1200) then
    (if a.onSide then a.limited.1 else a.limited.2)
  else a.height

/-- The masks are of one size, of eight bits at least. -/
def MasksOk : Prop :=
  ¬ (a.redMaskSize < 8 ∨ a.redMaskSize ≠ a.greenMaskSize ∨ a.redMaskSize ≠ a.blueMaskSize)

instance : Decidable a.MasksOk := inferInstanceAs (Decidable (¬ _))

/-- Columns of a glyph, the empty ones after it among them, and its lines. -/
def glyphSize : Nat × Nat :=
  match a.font with
  | some _ => (a.fontWidth + a.fontSpacing, a.fontHeight)
  | none => (8 + 1, 16)

/-- `font_bool`: eight dots of a line come from a byte, and what follows is empty but for the
characters that draw lines. -/
def fontBits (bits : Nat → UInt8) (w h n : Nat) : Bool :=
  let i := n / w / h
  let y := n / w % h
  let x := n % w
  if x < 8 then bits (i * h + y) &&& (0x80 >>> x.toUInt8) ≠ 0
  else if 0xc0 ≤ i ∧ i ≤ 0xdf then bits (i * h + y) &&& 1 ≠ 0
  else false

def defaultAnsiColours (n : Nat) : UInt32 :=
  [0x00000000, 0x00aa0000, 0x0000aa00, 0x00aa5500, 0x000000aa, 0x00aa00aa, 0x0000aaaa,
    0x00aaaaaa].getD n 0

def defaultAnsiBrightColours (n : Nat) : UInt32 :=
  [0x00555555, 0x00ff5555, 0x0055ff55, 0x00ffff55, 0x005555ff, 0x00ff55ff, 0x0055ffff,
    0x00ffffff].getD n 0

/-- The context but for its colours, which are converted with its masks. -/
def paramsBare (builtinFont : Nat → UInt8) : FbParams :=
  let w := a.glyphSize.1 * a.scale.1
  let h := a.glyphSize.2 * a.scale.2
  { rows := sizeSub a.limited.2 (a.margin * 2) / h
    cols := sizeSub a.limited.1 (a.margin * 2) / w
    fontWidth := a.glyphSize.1
    fontHeight := a.glyphSize.2
    glyphWidth := w
    glyphHeight := h
    fontScaleX := a.scale.1
    fontScaleY := a.scale.2
    offsetX := a.margin + sizeSub a.limited.1 (a.margin * 2) % w / 2
    offsetY := a.margin + sizeSub a.limited.2 (a.margin * 2) % h / 2
    pitch := a.pitch
    width := a.limited.1
    height := a.limited.2
    physHeight := a.physHeight
    rotation := a.rotation
    fontBool := fontBits (a.font.getD builtinFont) a.glyphSize.1 a.glyphSize.2
    canvas := none
    ansiColours := fun _ => 0
    ansiBrightColours := fun _ => 0
    defaultFg := 0
    defaultBg := 0
    defaultFgBright := 0
    defaultBgBright := 0
    redMaskSize := a.redMaskSize
    redMaskShift := a.redMaskShift + (a.redMaskSize - 8)
    greenMaskSize := a.greenMaskSize
    greenMaskShift := a.greenMaskShift + (a.greenMaskSize - 8)
    blueMaskSize := a.blueMaskSize
    blueMaskShift := a.blueMaskShift + (a.blueMaskSize - 8) }

/-- What the context's fields are set to. -/
def params (builtinFont : Nat → UInt8) : FbParams :=
  let g := a.paramsBare builtinFont
  let convert := Pen.convertColour g
  { g with
    canvas := if a.malloc then a.canvas.map (fun words i => convert (words i)) else none
    ansiColours := fun n => convert ((a.ansiColours.getD defaultAnsiColours) n)
    ansiBrightColours := fun n => convert ((a.ansiBrightColours.getD defaultAnsiBrightColours) n)
    defaultBg := (a.defaultBg.map convert).getD 0x00000000
    defaultFg := convert (a.defaultFg.getD 0x00aaaaaa)
    defaultBgBright := convert (a.defaultBgBright.getD 0x00555555)
    defaultFgBright := convert (a.defaultFgBright.getD 0x00ffffff) }

/-- `sizeof(struct flanterm_fb_context)`, and of the items of the arrays. -/
def contextSize : Nat := 1112
def charSize : Nat := 12
def queueItemSize : Nat := 32
def pointerSize : Nat := 8

/-- What `_malloc` is called with, in this order.  The products are not cut to `size_t`, which they
fit in where the framebuffer lies in memory (`Fits.allocSizes_lt`). -/
def allocSizes (builtinFont : Nat → UInt8) : List Nat :=
  let g := a.paramsBare builtinFont
  let sizes := [contextSize, a.glyphSize.2 * 256, 256 * a.glyphSize.2 * a.glyphSize.1,
    g.rows * g.cols * charSize, g.rows * g.cols * queueItemSize, g.rows * g.cols * pointerSize]
  if a.malloc ∧ a.canvas.isSome then sizes ++ [g.width * g.height * 4] else sizes

/-- A line of the framebuffer holds its pixels, the font has eight columns (its loops write as
many) and a line, and one character fits between the margins.  The framebuffer lies in the address
space, and the strides with which a glyph is drawn are of type `int`. -/
structure Fits : Prop where
  lines : a.width * 4 ≤ a.pitch
  memory : a.pitch * a.height < 2 ^ 48
  stride : a.pitch < 2 ^ 33
  font : 8 ≤ a.glyphSize.1 ∧ 0 < a.glyphSize.2
  room_x : a.margin * 2 + a.glyphSize.1 * a.scale.1 ≤ a.limited.1
  room_y : a.margin * 2 + a.glyphSize.2 * a.scale.2 ≤ a.limited.2

variable {a}

theorem scale_pos : 0 < a.scale.1 ∧ 0 < a.scale.2 := by
  unfold scale
  split
  · split
    · exact ⟨by decide, by decide⟩
    · split <;> exact ⟨by decide, by decide⟩
  · show 0 < a.fontScaleX ∧ 0 < a.fontScaleY
    omega

theorem limited_le : a.limited.1 ≤ a.logical.1 ∧ a.limited.2 ≤ a.logical.2 := by
  unfold limited
  split
  · exact ⟨Nat.le_refl _, Nat.le_refl _⟩
  · exact ⟨Nat.min_le_left _ _, Nat.min_le_left _ _⟩

theorem cells_le {margin total glyph scale : Nat} (h : margin * 2 ≤ total) :
    sizeSub total (margin * 2) / (glyph * scale) ≤ total / glyph := by
  rw [sizeSub_of_le h, ← Nat.div_div_eq_div_mul]
  calc (total - margin * 2) / glyph / scale
      ≤ (total - margin * 2) / glyph := Nat.div_le_self _ _
    _ ≤ total / glyph := Nat.div_le_div_right (Nat.sub_le _ _)

/-- The terminal has no more pixels than the framebuffer has words. -/
theorem Fits.area_lt (h : a.Fits) : a.limited.1 * a.limited.2 < 2 ^ 46 := by
  have hlogical : a.logical.1 * a.logical.2 = a.width * a.height := by
    unfold logical
    split
    · exact Nat.mul_comm _ _
    · rfl
  have hlimited := Nat.mul_le_mul (limited_le (a := a)).1 (limited_le (a := a)).2
  have hwords := Nat.mul_le_mul_right a.height h.lines
  have hmemory := h.memory
  rw [Nat.mul_right_comm] at hwords
  omega

theorem Fits.glyph_le (h : a.Fits) : a.glyphSize.1 * a.glyphSize.2 ≤ a.limited.1 * a.limited.2 := by
  have hscale := scale_pos (a := a)
  have hx := Nat.le_mul_of_pos_right a.glyphSize.1 hscale.1
  have hy := Nat.le_mul_of_pos_right a.glyphSize.2 hscale.2
  have hroomX := h.room_x
  have hroomY := h.room_y
  exact Nat.mul_le_mul (by omega) (by omega)

theorem Fits.rows_le (h : a.Fits) (builtinFont : Nat → UInt8) :
    (a.paramsBare builtinFont).rows ≤ a.limited.2 / a.glyphSize.2 := by
  have hroom := h.room_y
  exact cells_le (by omega)

theorem Fits.cols_le (h : a.Fits) (builtinFont : Nat → UInt8) :
    (a.paramsBare builtinFont).cols ≤ a.limited.1 / a.glyphSize.1 := by
  have hroom := h.room_x
  exact cells_le (by omega)

/-- No size wraps. -/
theorem Fits.allocSizes_lt (h : a.Fits) (builtinFont : Nat → UInt8) :
    ∀ s ∈ a.allocSizes builtinFont, s < 2 ^ 64 := by
  have harea := h.area_lt
  have hglyph := h.glyph_le
  have hline : a.glyphSize.2 ≤ a.glyphSize.1 * a.glyphSize.2 :=
    Nat.le_mul_of_pos_left _ (lt_of_lt_of_le (by decide) h.font.1)
  have hcells : (a.paramsBare builtinFont).rows * (a.paramsBare builtinFont).cols ≤
      a.limited.1 * a.limited.2 := by
    rw [Nat.mul_comm]
    exact Nat.mul_le_mul ((h.cols_le builtinFont).trans (Nat.div_le_self _ _))
      ((h.rows_le builtinFont).trans (Nat.div_le_self _ _))
  have hbool : 256 * a.glyphSize.2 * a.glyphSize.1 = 256 * (a.glyphSize.1 * a.glyphSize.2) := by
    rw [Nat.mul_assoc, Nat.mul_comm a.glyphSize.2]
  have hcanvas : (a.paramsBare builtinFont).width * (a.paramsBare builtinFont).height =
      a.limited.1 * a.limited.2 := rfl
  intro s hs
  unfold allocSizes at hs
  dsimp only at hs
  split at hs <;>
    simp only [List.cons_append, List.nil_append, List.mem_cons, List.not_mem_nil, or_false,
      contextSize, charSize, queueItemSize, pointerSize] at hs <;>
    omega

/-- A margin on both sides, cells, and what is left over halved. -/
theorem cells_fit {margin total cell : Nat} (h : margin * 2 ≤ total) :
    margin + sizeSub total (margin * 2) % cell / 2 + sizeSub total (margin * 2) / cell * cell ≤
      total := by
  rw [sizeSub_of_le h]
  have hsum := Nat.div_add_mod' (total - margin * 2) cell
  omega

theorem sane (h : a.Fits) (builtinFont : Nat → UInt8) : (a.params builtinFont).Sane := by
  have hscale := scale_pos (a := a)
  have hcolumns : 0 < a.glyphSize.1 := lt_of_lt_of_le (by decide) h.font.1
  have hw := Nat.mul_pos hcolumns hscale.1
  have hh := Nat.mul_pos h.font.2 hscale.2
  have hroomX := h.room_x
  have hroomY := h.room_y
  refine
    { rows_pos := ?_
      cols_pos := ?_
      glyphWidth_eq := rfl
      glyphHeight_eq := rfl
      fontWidth_pos := hcolumns
      fontHeight_pos := h.font.2
      scaleX_pos := hscale.1
      scaleY_pos := hscale.2
      fits_x := cells_fit (by omega)
      fits_y := cells_fit (by omega)
      lines := ?_ }
  · show 0 < sizeSub a.limited.2 (a.margin * 2) / (a.glyphSize.2 * a.scale.2)
    rw [sizeSub_of_le (by omega)]
    exact Nat.div_pos (by omega) hh
  · show 0 < sizeSub a.limited.1 (a.margin * 2) / (a.glyphSize.1 * a.scale.1)
    rw [sizeSub_of_le (by omega)]
    exact Nat.div_pos (by omega) hw
  · have hstride : a.width ≤ a.pitch / 4 := by
      have := h.lines
      omega
    obtain ⟨hlimX, hlimY⟩ := limited_le (a := a)
    show match a.rotation with
      | .rotate0 | .rotate180 => a.limited.1 ≤ a.pitch / 4 ∧ a.limited.2 ≤ a.physHeight
      | .rotate90 | .rotate270 => a.limited.2 ≤ a.pitch / 4 ∧ a.limited.1 ≤ a.physHeight
    unfold physHeight
    cases hr : a.rotation <;> simp only [logical, onSide, hr] at hlimX hlimY ⊢ <;>
      simp only [Bool.false_eq_true, if_false, if_true] at hlimX hlimY ⊢ <;>
      split <;> omega

end FbArgs

/-! ## Its memory -/

def bumpAllocPoolSize : Nat := 873000

/-- `bump_alloc`: what `bump_alloc_ptr` is after it; `none` is a null pointer. -/
def bumpAlloc (ptr s : Nat) : Option Nat :=
  let s := if s % 16 ≠ 0 then (s + 16) / 16 * 16 else s
  if ptr + s > bumpAllocPoolSize then none else some (ptr + s)

/-- What it finds when it is called: whether `_malloc`, asked for blocks of these sizes one after the
other, gives them all, the address of `bump_alloc_pool`, and `bump_allocated_instance`. -/
structure FbMemory where
  gives : List Nat → Bool
  pool : Nat
  allocatedInstance : Bool

namespace FbMemory

/-- Where the first block of the pool lies in it. -/
def baseOffset (m : FbMemory) : Nat := if m.pool % 16 ≠ 0 then 16 - m.pool % 16 else 0

/-- No allocation fails, and nobody has the pool where it is needed. -/
def allocates (m : FbMemory) (a : FbArgs) (builtinFont : Nat → UInt8) : Bool :=
  if a.malloc then m.gives (a.allocSizes builtinFont)
  else !m.allocatedInstance && ((a.allocSizes builtinFont).foldlM bumpAlloc m.baseOffset).isSome

end FbMemory

theorem bumpAlloc_le {ptr s : Nat} (h : ptr + (s + 15) ≤ bumpAllocPoolSize) :
    ∃ next, bumpAlloc ptr s = some next ∧ next ≤ ptr + (s + 15) := by
  unfold bumpAlloc
  split
  · exact ⟨_, if_neg (by omega), by omega⟩
  · exact ⟨_, if_neg (by omega), by omega⟩

/-- Every block costs its size and less than sixteen bytes. -/
theorem foldlM_bumpAlloc {sizes : List Nat} {ptr : Nat}
    (h : ptr + (sizes.map (· + 15)).sum ≤ bumpAllocPoolSize) :
    (sizes.foldlM bumpAlloc ptr).isSome := by
  induction sizes generalizing ptr with
  | nil => rfl
  | cons s rest ih =>
    rw [List.map_cons, List.sum_cons] at h
    have hfits : ptr + (s + 15) ≤ bumpAllocPoolSize := by omega
    obtain ⟨next, hnext, hle⟩ := bumpAlloc_le hfits
    rw [List.foldlM_cons, hnext]
    exact ih (by omega)

/-- The limits of the terminal are such that the pool is large enough for it. -/
theorem FbMemory.pool_suffices {a : FbArgs} {m : FbMemory} (ha : a.Fits) (hmalloc : a.malloc = false)
    (hfont : a.font = none) (hfree : m.allocatedInstance = false) (builtinFont : Nat → UInt8) :
    m.allocates a builtinFont := by
  have hglyph : a.glyphSize = (9, 16) := by
    unfold FbArgs.glyphSize
    rw [hfont]
  have hlimits : a.limited.1 ≤ 1920 ∧ a.limited.2 ≤ 1200 := by
    unfold FbArgs.limited
    rw [hmalloc]
    exact ⟨Nat.min_le_right _ _, Nat.min_le_right _ _⟩
  have hcols : (a.paramsBare builtinFont).cols ≤ 213 := by
    have hle := ha.cols_le builtinFont
    rw [hglyph] at hle
    exact hle.trans (Nat.div_le_div_right hlimits.1)
  have hrows : (a.paramsBare builtinFont).rows ≤ 75 := by
    have hle := ha.rows_le builtinFont
    rw [hglyph] at hle
    exact hle.trans (Nat.div_le_div_right hlimits.2)
  have hcells := Nat.mul_le_mul hrows hcols
  have hbase : m.baseOffset ≤ 15 := by
    unfold baseOffset
    split <;> omega
  unfold allocates
  rw [hmalloc, hfree]
  refine foldlM_bumpAlloc ?_
  simp only [FbArgs.allocSizes, hmalloc, hglyph, FbArgs.contextSize, FbArgs.charSize,
    FbArgs.queueItemSize, FbArgs.pointerSize, bumpAllocPoolSize, Bool.false_eq_true, false_and,
    if_false, List.map_cons, List.map_nil, List.sum_cons, List.sum_nil]
  omega

/-! ## The state that it returns with -/

/-- The cursor is drawn, as flanterm_context_reinit leaves it. -/
def FlantermContext.initial (g : FbParams) : FlantermContext where
  cursorEnabled := true
  scrollEnabled := true
  wrapEnabled := true
  scrollTopMargin := 0
  scrollBottomMargin := g.rows

def Pen.initial (g : FbParams) : Pen where
  textFg := g.defaultFg
  textBg := 0xffffffff
  cursorX := 0
  cursorY := 0
  savedStateTextFg := g.defaultFg
  savedStateTextBg := 0xffffffff
  savedStateCursorX := 0
  savedStateCursorY := 0

namespace FbContext

/-- The arrays after their allocation; the framebuffer has what was there. -/
def blank (g : FbParams) (px : Framebuffer) : FbContext where
  toPen := Pen.initial g
  grid := fun _ => (Pen.initial g).empty
  queue := fun _ => ⟨0, 0, ⟨0, 0, 0⟩⟩
  queueI := 0
  map := fun _ => none
  oldCursorX := 0
  oldCursorY := 0
  framebuffer := px

def start (g : FbParams) (px : Framebuffer) : Except Fault FbContext :=
  (blank g px).fullRefresh g (FlantermContext.initial g)

/-- Calls one after the other, each with what the terminal's state is then. -/
def runs (g : FbParams) (fb : FbContext) : List (FlantermContext × FbCall) → Except Fault FbContext
  | [] => .ok fb
  | (ctx, call) :: rest => do
    let fb ← call.run g ctx fb
    runs g fb rest

end FbContext

/-- `flanterm_fb_init`, and what is called on the context that it returns, if it returns one. -/
def flantermFbInit (a : FbArgs) (m : FbMemory) (builtinFont : Nat → UInt8) (px : Framebuffer)
    (calls : List (FlantermContext × FbCall)) : Except Fault (Option FbContext) :=
  if a.MasksOk ∧ m.allocates a builtinFont then do
    let fb ← FbContext.start (a.params builtinFont) px
    let fb ← fb.runs (a.params builtinFont) calls
    .ok (some fb)
  else .ok none

namespace Screen

/-- Blanks that nobody has painted yet. -/
def blank (g : FbParams) : Screen := ⟨Pen.initial g, fun _ _ => (Pen.initial g).empty, fun _ _ => 0⟩

def start (g : FbParams) : Screen := (blank g).flush g (FlantermContext.initial g)

def runs (g : FbParams) (s : Screen) : List (FlantermContext × FbCall) → Except Fault Screen
  | [] => .ok s
  | (ctx, call) :: rest => do
    let s ← s.run g ctx call
    runs g s rest

end Screen

open FbContext

variable {g : FbParams} {px₀ : Framebuffer}

/-- The terminal that flanterm_fb_init returns shows blanks. -/
theorem start_mirrors (hg : g.Sane) (px₀ : Framebuffer) :
    Returns (fun fb => Mirrors g px₀ fb (Screen.start g)) (FbContext.start g px₀) := by
  have hholds : Holds g (blank g px₀) (Screen.byNumber g (Screen.blank g).cells) :=
    ⟨WriteBack.tracked_of_clear rfl fun _ _ => rfl, fun k hk => absurd hk (Nat.not_lt_zero k),
      fun _ _ => rfl⟩
  have hinside : (Pen.initial g).Inside g := ⟨Nat.zero_le _, hg.rows_pos, Nat.zero_le _, hg.rows_pos⟩
  exact fullRefresh_mirrors hg hholds rfl hinside ⟨rfl, rfl, rfl⟩ _

theorem Mirrors.runs (hg : g.Sane) {fb : FbContext} {s : Screen} (h : Mirrors g px₀ fb s)
    {calls : List (FlantermContext × FbCall)} (hcalls : ∀ p ∈ calls, p.2.Valid g p.1) :
    Returns (fun fb' => ∃ s', s.runs g calls = .ok s' ∧ Mirrors g px₀ fb' s') (fb.runs g calls) := by
  induction calls generalizing fb s with
  | nil => exact .ok ⟨s, rfl, h⟩
  | cons p rest ih =>
    obtain ⟨ctx, call⟩ := p
    refine (h.step hg (hcalls _ (List.mem_cons_self ..))).bind fun fb₁ ⟨s₁, hrun, h₁⟩ => ?_
    refine (ih h₁ fun p hp => hcalls p (List.mem_cons_of_mem _ hp)).mono fun fb' ⟨s', hruns, hfb⟩ =>
      ⟨s', ?_, hfb⟩
    show (s.run g ctx call >>= _) = _
    rw [hrun]
    exact hruns

theorem init_mirrors {a : FbArgs} {m : FbMemory} (ha : a.Fits) (hmasks : a.MasksOk)
    (builtinFont : Nat → UInt8) (hmem : m.allocates a builtinFont) (px₀ : Framebuffer)
    {calls : List (FlantermContext × FbCall)}
    (hcalls : ∀ p ∈ calls, p.2.Valid (a.params builtinFont) p.1) :
    ∃ fb s, flantermFbInit a m builtinFont px₀ calls = .ok (some fb) ∧
      (Screen.start (a.params builtinFont)).runs (a.params builtinFont) calls = .ok s ∧
      Mirrors (a.params builtinFont) px₀ fb s := by
  have hg := FbArgs.sane ha builtinFont
  obtain ⟨fb₀, hstart, h₀⟩ := start_mirrors hg px₀
  obtain ⟨fb, hruns, s, hplain, h⟩ := h₀.runs hg hcalls
  refine ⟨fb, s, ?_, hplain, h⟩
  rw [flantermFbInit, if_pos ⟨hmasks, hmem⟩, hstart]
  show (fb₀.runs (a.params builtinFont) calls >>= _) = _
  rw [hruns]
  rfl

/-- Whatever is called, the framebuffer is what the plain screen paints: at every pixel, cursor and
margins included.  No call reaches outside an array, none is lost in a full queue, and no word
outside the terminal's pixels changes. -/
theorem fb_refines_screen (a : FbArgs) (m : FbMemory) (builtinFont : Nat → UInt8) (ha : a.Fits)
    (hmasks : a.MasksOk) (hmem : m.allocates a builtinFont) (px₀ : Framebuffer)
    (calls : List (FlantermContext × FbCall))
    (hcalls : ∀ p ∈ calls, p.2.Valid (a.params builtinFont) p.1) :
    ∃ fb s, flantermFbInit a m builtinFont px₀ calls = .ok (some fb) ∧
      (Screen.start (a.params builtinFont)).runs (a.params builtinFont) calls = .ok s ∧
      fb.toPen = s.toPen ∧
      (∀ X Y, X < (a.params builtinFont).width → Y < (a.params builtinFont).height →
        fb.framebuffer ((a.params builtinFont).pixelIndex X Y) = s.display X Y) ∧
      (a.params builtinFont).SameOutside px₀ fb.framebuffer := by
  obtain ⟨fb, s, hrun, hplain, h⟩ := init_mirrors ha hmasks builtinFont hmem px₀ hcalls
  exact ⟨fb, s, hrun, hplain, h.pen, h.display, h.outside⟩

/-- The kernel's call (`__cstdio_initialise_terminal`) for a framebuffer of 640 by 480 pixels. -/
def kernelArgs : FbArgs where
  malloc := false
  width := 640
  height := 480
  pitch := 2560
  redMaskSize := 8
  redMaskShift := 16
  greenMaskSize := 8
  greenMaskShift := 8
  blueMaskSize := 8
  blueMaskShift := 0
  canvas := none
  ansiColours := none
  ansiBrightColours := none
  defaultBg := none
  defaultFg := none
  defaultBgBright := none
  defaultFgBright := none
  font := none
  fontWidth := 0
  fontHeight := 0
  fontSpacing := 1
  fontScaleX := 0
  fontScaleY := 0
  margin := 0
  rotation := .rotate0

theorem kernelArgs_fits : kernelArgs.Fits := by
  constructor <;> decide

/-- Nobody has made a terminal before. -/
def kernelMemory : FbMemory where
  gives := fun _ => false
  pool := 0xffffffff80123450
  allocatedInstance := false

theorem kernelMemory_allocates : kernelMemory.allocates kernelArgs fun _ => 0 :=
  FbMemory.pool_suffices kernelArgs_fits rfl rfl rfl _

/-- With a font that has nothing in it. -/
abbrev kernelParams : FbParams := kernelArgs.params fun _ => 0

theorem kernelParams_rows : 0 < kernelParams.rows := by decide

/-- A character and a flush on the kernel's terminal. -/
theorem fb_refines_screen_kernel : ∃ fb s,
    flantermFbInit kernelArgs kernelMemory (fun _ => 0) (fun _ => 0)
      [(.initial (kernelArgs.params fun _ => 0), .rawPutchar 0x41),
        (.initial (kernelArgs.params fun _ => 0), .doubleBufferFlush)] = .ok (some fb) ∧
      (Screen.start (kernelArgs.params fun _ => 0)).runs (kernelArgs.params fun _ => 0)
        [(.initial (kernelArgs.params fun _ => 0), .rawPutchar 0x41),
          (.initial (kernelArgs.params fun _ => 0), .doubleBufferFlush)] = .ok s ∧
      fb.toPen = s.toPen ∧
      (∀ X Y, X < (kernelArgs.params fun _ => 0).width → Y < (kernelArgs.params fun _ => 0).height →
        fb.framebuffer ((kernelArgs.params fun _ => 0).pixelIndex X Y) = s.display X Y) ∧
      (kernelArgs.params fun _ => 0).SameOutside (fun _ => 0) fb.framebuffer := by
  refine fb_refines_screen kernelArgs kernelMemory (fun _ => 0) kernelArgs_fits (by decide)
      kernelMemory_allocates (fun _ => 0) _ ?_
  intro p hp
  simp only [List.mem_cons, List.not_mem_nil, or_false] at hp
  rcases hp with rfl | rfl
  · exact ⟨kernelParams_rows, Nat.le_refl _, fun c hc => by cases hc⟩
  · exact ⟨kernelParams_rows, Nat.le_refl _, fun c hc => by cases hc⟩

/-! ## Full refreshes in between -/

/-- Directly after a flush a full refresh brings the picture back, whatever has been written to the
framebuffer, and all calls after it go on from there. -/
theorem full_refresh_repairs (a : FbArgs) (m : FbMemory) (builtinFont : Nat → UInt8) (ha : a.Fits)
    (hmasks : a.MasksOk) (hmem : m.allocates a builtinFont) (px₀ : Framebuffer)
    (calls : List (FlantermContext × FbCall))
    (hcalls : ∀ p ∈ calls, p.2.Valid (a.params builtinFont) p.1) :
    ∃ fb s, flantermFbInit a m builtinFont px₀ calls = .ok (some fb) ∧
      (Screen.start (a.params builtinFont)).runs (a.params builtinFont) calls = .ok s ∧
      ∀ ctx₀ ctx px rest, (∀ p ∈ rest, p.2.Valid (a.params builtinFont) p.1) → ∃ fb' s',
        (do
          let fb ← fb.doubleBufferFlush (a.params builtinFont) ctx₀
          let fb ← { fb with framebuffer := px }.fullRefresh (a.params builtinFont) ctx
          fb.runs (a.params builtinFont) rest) = .ok fb' ∧
        (s.flush (a.params builtinFont) ctx).runs (a.params builtinFont) rest = .ok s' ∧
        fb'.toPen = s'.toPen ∧
        (∀ X Y, X < (a.params builtinFont).width → Y < (a.params builtinFont).height →
          fb'.framebuffer ((a.params builtinFont).pixelIndex X Y) = s'.display X Y) ∧
        (a.params builtinFont).SameOutside px fb'.framebuffer := by
  have hg := FbArgs.sane ha builtinFont
  obtain ⟨fb, s, hrun, hplain, h⟩ := init_mirrors ha hmasks builtinFont hmem px₀ hcalls
  refine ⟨fb, s, hrun, hplain, fun ctx₀ ctx px rest hrest => ?_⟩
  obtain ⟨fb₁, hflush, h₁, hsettled⟩ := h.flush hg ctx₀
  have hcontent : Holds (a.params builtinFont) { fb₁ with framebuffer := px }
      (Screen.byNumber (a.params builtinFont) s.cells) := h₁.content.of_eq rfl rfl rfl rfl
  obtain ⟨fb₂, hrefresh, h₂⟩ := fullRefresh_mirrors hg hcontent h₁.pen h₁.inside
    ⟨hsettled.queue, hsettled.cursorX, hsettled.cursorY⟩ ctx
  obtain ⟨fb', hruns, s', hplain', h'⟩ := h₂.runs hg hrest
  refine ⟨fb', s', ?_, hplain', h'.pen, h'.display, h'.outside⟩
  rw [hflush]
  show ({ fb₁ with framebuffer := px }.fullRefresh (a.params builtinFont) ctx >>= _) = _
  rw [hrefresh]
  exact hruns

/-- The first picture, after somebody else has filled the framebuffer. -/
theorem full_refresh_repairs_kernel : ∃ fb fb' : FbContext,
    flantermFbInit kernelArgs kernelMemory (fun _ => 0) (fun _ => 0) [] = .ok (some fb) ∧
      (do
        let fb ← fb.doubleBufferFlush kernelParams (.initial kernelParams)
        let fb ← { fb with framebuffer := fun _ => 7 }.fullRefresh kernelParams (.initial kernelParams)
        fb.runs kernelParams []) = .ok fb' ∧
      ∀ X Y, X < kernelParams.width → Y < kernelParams.height →
        fb'.framebuffer (kernelParams.pixelIndex X Y) = (Screen.start kernelParams).display X Y := by
  have hnone : ∀ p ∈ ([] : List (FlantermContext × FbCall)),
      p.2.Valid kernelParams p.1 := fun p hp => by cases hp
  obtain ⟨fb, s, hrun, hplain, hall⟩ :=
    full_refresh_repairs kernelArgs kernelMemory (fun _ => 0) kernelArgs_fits (by decide)
      kernelMemory_allocates (fun _ => 0) [] hnone
  obtain rfl := Except.ok.inj hplain
  obtain ⟨fb', s', hruns, hplain', _, hpixels, _⟩ :=
    hall (.initial kernelParams) (.initial kernelParams) (fun _ => 7) [] hnone
  obtain rfl := Except.ok.inj hplain'
  exact ⟨fb, fb', hrun, hruns, hpixels⟩

/-- The cursor goes to a cell and back to it after a character, which waits there then. -/
theorem Mirrors.put_waits {fb : FbContext} {s : Screen} (h : Mirrors g px₀ fb s) {x y : Nat}
    (hx : x < g.cols) (hy : y < g.rows) {c : UInt8}
    (hc : (⟨c, s.textFg, s.textBg⟩ : FbChar) ≠ s.cells x y) (ctx : FlantermContext) :
    ∃ fb', fb.runs g [(ctx, .pen (.setCursorPos x y)), (ctx, .rawPutchar c),
        (ctx, .pen (.setCursorPos x y))] = .ok fb' ∧
      (∃ v, Holds g fb' v ∧ v (y * g.cols + x) = ⟨c, s.textFg, s.textBg⟩) ∧
      fb'.map (y * g.cols + x) ≠ none ∧ fb'.cursorX = x ∧ fb'.cursorY = y := by
  have hset : ∀ p : Pen, p.setCursorPos g x y = { p with cursorX := x, cursorY := y } := fun p => by
    rw [Pen.setCursorPos, if_neg (Nat.not_le.mpr hx), if_neg (Nat.not_le.mpr hy)]
  have hmoved : Holds g { fb with cursorX := x + 1, cursorY := y } (Screen.byNumber g s.cells) :=
    h.content.of_eq rfl rfl rfl rfl
  have hnew : (⟨c, s.textFg, s.textBg⟩ : FbChar) ≠ Screen.byNumber g s.cells (y * g.cols + x) := by
    rw [byNumber_cell _ hx]
    exact hc
  obtain ⟨fb₁, hpush, hholds, hwaits⟩ := pushToQueue_waits hmoved hx hy hnew
  refine ⟨{ fb₁ with cursorX := x, cursorY := y }, ?_,
    ⟨_, hholds.of_eq rfl rfl rfl rfl, Function.update_self ..⟩, hwaits, rfl, rfl⟩
  have hput : FbContext.rawPutchar g c ctx { fb with toPen := fb.toPen.setCursorPos g x y } =
      .ok fb₁ := by
    rw [hset, rawPutchar_inline hx, ← hpush]
    show pushToQueue g ⟨c, fb.textFg, fb.textBg⟩ x y _ = _
    rw [h.pen]
  show (FbContext.rawPutchar g c ctx { fb with toPen := fb.toPen.setCursorPos g x y } >>= _) = _
  rw [hput]
  show Except.ok { fb₁ with toPen := fb₁.toPen.setCursorPos g x y } = _
  rw [hset]

/-- Where a character waits under the cursor, a full refresh makes the backend forget its place: the
next character that is written there does not get into the cell, not even with a flush. -/
theorem full_refresh_loses (a : FbArgs) (m : FbMemory) (builtinFont : Nat → UInt8) (ha : a.Fits)
    (hmasks : a.MasksOk) (hmem : m.allocates a builtinFont) (px₀ : Framebuffer)
    (calls : List (FlantermContext × FbCall))
    (hcalls : ∀ p ∈ calls, p.2.Valid (a.params builtinFont) p.1) :
    ∃ fb s, flantermFbInit a m builtinFont px₀ calls = .ok (some fb) ∧
      (Screen.start (a.params builtinFont)).runs (a.params builtinFont) calls = .ok s ∧
      ∀ x y, x < (a.params builtinFont).cols → y < (a.params builtinFont).rows →
        ∀ c d : UInt8, (⟨c, s.textFg, s.textBg⟩ : FbChar) ≠ s.cells x y →
        ∀ ctx ctx₁ ctx₂ ctx₃ : FlantermContext, ctx.cursorEnabled = true → ∃ fb',
          (do
            let fb ← fb.runs (a.params builtinFont)
              [(ctx₁, .pen (.setCursorPos x y)), (ctx₁, .rawPutchar c),
                (ctx₁, .pen (.setCursorPos x y))]
            let fb ← fb.fullRefresh (a.params builtinFont) ctx
            let fb ← fb.rawPutchar (a.params builtinFont) d ctx₂
            fb.doubleBufferFlush (a.params builtinFont) ctx₃) = .ok fb' ∧
          fb'.charAt (a.params builtinFont) (y * (a.params builtinFont).cols + x) =
            .ok ⟨c, s.textFg, s.textBg⟩ := by
  have hg := FbArgs.sane ha builtinFont
  obtain ⟨fb, s, hrun, hplain, h⟩ := init_mirrors ha hmasks builtinFont hmem px₀ hcalls
  refine ⟨fb, s, hrun, hplain, fun x y hx hy c d hc ctx ctx₁ ctx₂ ctx₃ hen => ?_⟩
  obtain ⟨fb₁, hput, ⟨v, hcontent, hv⟩, hwaits, hX, hY⟩ := h.put_waits hx hy hc ctx₁
  subst hX hY
  obtain ⟨fb', hlost, hchar⟩ := fullRefresh_loses hg hcontent hen hx hy hwaits d ctx₂ ctx₃
  refine ⟨fb', ?_, hchar.trans (congrArg _ hv)⟩
  rw [hput]
  exact hlost

/-- An `A` waits in the first cell when the refresh comes, and the `B` after it is lost. -/
theorem full_refresh_loses_kernel : ∃ fb fb' : FbContext,
    flantermFbInit kernelArgs kernelMemory (fun _ => 0) (fun _ => 0) [] = .ok (some fb) ∧
      (do
        let fb ← fb.runs kernelParams
          [(.initial kernelParams, .pen (.setCursorPos 0 0)), (.initial kernelParams, .rawPutchar 0x41),
            (.initial kernelParams, .pen (.setCursorPos 0 0))]
        let fb ← fb.fullRefresh kernelParams (.initial kernelParams)
        let fb ← fb.rawPutchar kernelParams 0x42 (.initial kernelParams)
        fb.doubleBufferFlush kernelParams (.initial kernelParams)) = .ok fb' ∧
      fb'.charAt kernelParams 0 =
        .ok ⟨0x41, kernelParams.defaultFg, 0xffffffff⟩ := by
  obtain ⟨fb, s, hrun, hplain, hall⟩ :=
    full_refresh_loses kernelArgs kernelMemory (fun _ => 0) kernelArgs_fits (by decide)
      kernelMemory_allocates (fun _ => 0) []
      fun p hp => by cases hp
  obtain rfl := Except.ok.inj hplain
  obtain ⟨fb', hlost, hchar⟩ := hall 0 0 (by decide) kernelParams_rows 0x41 0x42
    (fun heq => absurd (congrArg FbChar.c heq) (by decide)) (.initial kernelParams)
    (.initial kernelParams) (.initial kernelParams) (.initial kernelParams) rfl
  rw [Nat.zero_mul] at hchar
  exact ⟨fb, fb', hrun, hlost, hchar⟩

end HelixKernel.Flanterm
