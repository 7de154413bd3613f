import Mathlib.Logic.Function.Basic
import Mathlib.Tactic.Ring
import Mathlib.Tactic.Positivity
import HelixKernel.Lib.Loops

/-!
The framebuffer of flanterm's framebuffer backend, word by word.

`plotChar` is what the four `plot_char_*` functions of fb.c do: they walk the pixels of a
character's cell with a pointer and two strides, which the rotation picks, and read the font's
bits and, for a transparent colour, what lies behind the text.

    plotChar_painted : a plot paints its cell, pixel by pixel, and no other word of the
      framebuffer -/

namespace HelixKernel.Flanterm

/-- What the C code would do instead of going on. -/
inductive Fault where
  /-- an access outside an array -/
  | outside
  deriving DecidableEq

inductive Rotation where
  | rotate0
  | rotate90
  | rotate180
  | rotate270
  deriving DecidableEq

/-- A character on the screen; `0xffffffff` as a colour is what lies behind it. -/
structure FbChar where
  c : UInt8
  fg : UInt32
  bg : UInt32
  deriving DecidableEq

/-- What flanterm_fb_init sets and nothing writes again: rows and columns, the font, the
framebuffer's layout (`pitch` in bytes) and the colours. -/
structure FbParams where
  rows : Nat
  cols : Nat
  fontWidth : Nat
  fontHeight : Nat
  glyphWidth : Nat
  glyphHeight : Nat
  fontScaleX : Nat
  fontScaleY : Nat
  offsetX : Nat
  offsetY : Nat
  pitch : Nat
  width : Nat
  height : Nat
  physHeight : Nat
  rotation : Rotation
  fontBool : Nat → Bool
  canvas : Option (Nat → UInt32)
  ansiColours : Nat → UInt32
  ansiBrightColours : Nat → UInt32
  defaultFg : UInt32
  defaultBg : UInt32
  defaultFgBright : UInt32
  defaultBgBright : UInt32
  redMaskSize : UInt8
  redMaskShift : UInt8
  greenMaskSize : UInt8
  greenMaskShift : UInt8
  blueMaskSize : UInt8
  blueMaskShift : UInt8

/-- Words of the framebuffer; the index is relative to its first word. -/
abbrev Framebuffer := Int → UInt32

namespace FbParams

variable (g : FbParams)

/-- `pitch / 4`, the words from one line of the framebuffer to the next. -/
def stride : Nat := g.pitch / 4

/-- The word of pixel (`X`, `Y`), as the terminal counts pixels. -/
def pixelIndex (X Y : Nat) : Int :=
  match g.rotation with
  | .rotate0 => X + Y * g.stride
  | .rotate90 => (g.height - 1 - Y) + X * g.stride
  | .rotate180 => (g.width - 1 - X) + (g.height - 1 - Y) * g.stride
  | .rotate270 => Y + (g.width - 1 - X) * g.stride

def outerStride : Int :=
  match g.rotation with
  | .rotate0 => g.stride
  | .rotate90 => -1
  | .rotate180 => -g.stride
  | .rotate270 => 1

def innerStride : Int :=
  match g.rotation with
  | .rotate0 => 1
  | .rotate90 => g.stride
  | .rotate180 => -1
  | .rotate270 => -g.stride

/-- A store of one word. -/
def writePixel (px : Framebuffer) (i : Int) (colour : UInt32) : Except Fault Framebuffer :=
  if 0 ≤ i ∧ i < g.stride * g.physHeight then .ok (Function.update px i colour) else .error .outside

/-- `font_bool[i]` -/
def fontBit (i : Nat) : Except Fault Bool :=
  if i < 256 * g.fontHeight * g.fontWidth then .ok (g.fontBool i) else .error .outside

/-- What a transparent colour shows at a pixel. -/
def behind (canvas : Option (Nat → UInt32)) (X Y : Nat) : Except Fault UInt32 :=
  match canvas with
  | none => .ok g.defaultBg
  | some words =>
    if X + Y * g.width < g.width * g.height then .ok (words (X + Y * g.width)) else .error .outside

/-- The colour of the pixel at (`gx`, `gy`) of a glyph whose line there is `fy` of the font. -/
def glyphColour (canvas : Option (Nat → UInt32)) (c : FbChar) (fx fy X Y : Nat) :
    Except Fault UInt32 := do
  let bg ← if c.bg = 0xffffffff then g.behind canvas X Y else .ok c.bg
  let fg ← if c.fg = 0xffffffff then g.behind canvas X Y else .ok c.fg
  let bit ← g.fontBit (c.c.toNat * g.fontHeight * g.fontWidth + fy * g.fontWidth + fx)
  .ok (if bit then fg else bg)

/-- One line of a glyph: `scaleX` pixels for each of the font's. -/
def plotLine (canvas : Option (Nat → UInt32)) (fontRow : Nat → Nat) (scaleX : Nat) (c : FbChar)
    (X Y gy : Nat)
    (px : Framebuffer) (line : Int) : Except Fault (Framebuffer × Int) :=
  forUp 0 g.fontWidth (fun fx t =>
    forUp 0 scaleX (fun i t => do
      let colour ← g.glyphColour canvas c fx (fontRow gy) (X + (scaleX * fx + i)) (Y + gy)
      let px ← g.writePixel t.1 t.2 colour
      .ok (px, t.2 + g.innerStride)) t) (px, line)

/-- The loops that the four functions below share: `fontRow` is the line of the font for a line of
the glyph. -/
def plotGlyph (canvas : Option (Nat → UInt32)) (fontRow : Nat → Nat) (scaleX : Nat) (c : FbChar)
    (x y : Nat)
    (px : Framebuffer) : Except Fault Framebuffer :=
  if x ≥ g.cols ∨ y ≥ g.rows then .ok px
  else do
    let X := g.offsetX + x * g.glyphWidth
    let Y := g.offsetY + y * g.glyphHeight
    let t ← forUp 0 g.glyphHeight (fun gy t => do
      let r ← g.plotLine canvas fontRow scaleX c X Y gy t.1 t.2
      .ok (r.1, t.2 + g.outerStride)) (px, g.pixelIndex X Y)
    .ok t.1

/-- `uint8_t fy = gy / font_scale_y` -/
def scaledRow (gy : Nat) : Nat := gy / g.fontScaleY % 256

def plotCharScaledCanvas (words : Nat → UInt32) := g.plotGlyph (some words) g.scaledRow g.fontScaleX

def plotCharScaledUncanvas := g.plotGlyph none g.scaledRow g.fontScaleX

def plotCharUnscaledCanvas (words : Nat → UInt32) := g.plotGlyph (some words) (fun gy => gy) 1

def plotCharUnscaledUncanvas := g.plotGlyph none (fun gy => gy) 1

/-- The function that flanterm_fb_init puts into `plot_char`. -/
def plotChar (c : FbChar) (x y : Nat) (px : Framebuffer) : Except Fault Framebuffer :=
  if g.fontScaleX = 1 ∧ g.fontScaleY = 1 then
    match g.canvas with
    | none => g.plotCharUnscaledUncanvas c x y px
    | some words => g.plotCharUnscaledCanvas words c x y px
  else
    match g.canvas with
    | none => g.plotCharScaledUncanvas c x y px
    | some words => g.plotCharScaledCanvas words c x y px

/-- The line of the font that line `gy` of a glyph shows. -/
def shownRow (gy : Nat) : Nat := if g.fontScaleX = 1 ∧ g.fontScaleY = 1 then gy else g.scaledRow gy

/-! ## The picture of a character -/

/-- What lies behind the text at a pixel. -/
def backdrop (X Y : Nat) : UInt32 :=
  match g.canvas with
  | none => g.defaultBg
  | some words => words (X + Y * g.width)

/-- The colour of pixel (`X`, `Y`), which is (`gx`, `gy`) of a cell with `c` in it. -/
def charPixel (c : FbChar) (gx gy X Y : Nat) : UInt32 :=
  if g.fontBool (c.c.toNat * g.fontHeight * g.fontWidth + g.shownRow gy * g.fontWidth +
      gx / g.fontScaleX) then
    if c.fg = 0xffffffff then g.backdrop X Y else c.fg
  else
    if c.bg = 0xffffffff then g.backdrop X Y else c.bg

/-- Pixel (`X`, `Y`) belongs to the cell in column `x` and row `y`. -/
def InCell (x y X Y : Nat) : Prop :=
  g.offsetX + x * g.glyphWidth ≤ X ∧ X < g.offsetX + (x + 1) * g.glyphWidth ∧
    g.offsetY + y * g.glyphHeight ≤ Y ∧ Y < g.offsetY + (y + 1) * g.glyphHeight

/-- The cell with `c` in it, as a picture. -/
def cellPicture (c : FbChar) (x y X Y : Nat) : UInt32 :=
  g.charPixel c (X - (g.offsetX + x * g.glyphWidth)) (Y - (g.offsetY + y * g.glyphHeight)) X Y

/-- What flanterm_fb_init leaves behind: there is a cell, cells have pixels, and all of them lie
in the framebuffer. -/
structure Sane : Prop where
  rows_pos : 0 < g.rows
  cols_pos : 0 < g.cols
  glyphWidth_eq : g.glyphWidth = g.fontWidth * g.fontScaleX
  glyphHeight_eq : g.glyphHeight = g.fontHeight * g.fontScaleY
  fontWidth_pos : 0 < g.fontWidth
  fontHeight_pos : 0 < g.fontHeight
  scaleX_pos : 0 < g.fontScaleX
  scaleY_pos : 0 < g.fontScaleY
  fits_x : g.offsetX + g.cols * g.glyphWidth ≤ g.width
  fits_y : g.offsetY + g.rows * g.glyphHeight ≤ g.height
  /-- the terminal's pixels lie in the framebuffer's lines -/
  lines : match g.rotation with
    | .rotate0 | .rotate180 => g.width ≤ g.stride ∧ g.height ≤ g.physHeight
    | .rotate90 | .rotate270 => g.height ≤ g.stride ∧ g.width ≤ g.physHeight

/-- From `px` to `px'` the pixels in `A` have got the colours `f`, and no other word has changed. -/
structure Painted (px px' : Framebuffer) (A : Nat → Nat → Prop) (f : Nat → Nat → UInt32) : Prop where
  on : ∀ X Y, X < g.width → Y < g.height → A X Y → px' (g.pixelIndex X Y) = f X Y
  off : ∀ X Y, X < g.width → Y < g.height → ¬ A X Y → px' (g.pixelIndex X Y) = px (g.pixelIndex X Y)
  outside : ∀ q, (∀ X Y, X < g.width → Y < g.height → q ≠ g.pixelIndex X Y) → px' q = px q

/-! ## Words and pixels -/

variable {g}

theorem mul_add_lt {a b m n : Nat} (ha : a < m) (hb : b < n) : a * n + b < m * n := by
  calc a * n + b < a * n + n := Nat.add_lt_add_left hb _
    _ = (a + 1) * n := (Nat.succ_mul a n).symm
    _ ≤ m * n := Nat.mul_le_mul_right n ha

/-- Column and line of a word are known. -/
theorem split_word {a b a' b' n : Int} (ha : 0 ≤ a) (han : a < n) (ha' : 0 ≤ a') (han' : a' < n)
    (h : a + b * n = a' + b' * n) : a = a' ∧ b = b' := by
  have hmod : a = a' := by
    have hleft := Int.emod_eq_of_lt ha han
    have hright := Int.emod_eq_of_lt ha' han'
    rw [← Int.add_mul_emod_self_right (b := b), h, Int.add_mul_emod_self_right] at hleft
    rw [← hleft, hright]
  refine ⟨hmod, ?_⟩
  have hmul : b * n = b' * n := by omega
  exact Int.eq_of_mul_eq_mul_right (by omega) hmul

theorem pixelIndex_inj (hg : g.Sane) {X Y X' Y' : Nat} (hX : X < g.width) (hY : Y < g.height)
    (hX' : X' < g.width) (hY' : Y' < g.height) (h : g.pixelIndex X Y = g.pixelIndex X' Y') :
    X = X' ∧ Y = Y' := by
  have hlines := hg.lines
  unfold pixelIndex at h
  cases hr : g.rotation <;> simp only [hr] at h hlines <;>
    have hsplit := split_word (by omega) (by omega) (by omega) (by omega) h <;> omega

theorem pixelIndex_lt (hg : g.Sane) {X Y : Nat} (hX : X < g.width) (hY : Y < g.height) :
    0 ≤ g.pixelIndex X Y ∧ g.pixelIndex X Y < g.stride * g.physHeight := by
  have hlines := hg.lines
  -- a word in column `a` of line `b`
  have hword : ∀ {a b : Nat}, a < g.stride → b < g.physHeight → ∀ {i : Int}, i = a + b * g.stride →
      0 ≤ i ∧ i < g.stride * g.physHeight := by
    intro a b ha hb i hi
    have hlt := mul_add_lt hb ha
    rw [Nat.mul_comm g.physHeight] at hlt
    have hcast : ((b * g.stride + a : Nat) : Int) < ((g.stride * g.physHeight : Nat) : Int) := by
      exact_mod_cast hlt
    push_cast at hcast
    have hnonneg : 0 ≤ (b : Int) * g.stride := by positivity
    omega
  unfold pixelIndex
  cases hr : g.rotation <;> simp only [hr] at hlines ⊢
  · exact hword (a := X) (b := Y) (by omega) (by omega) rfl
  · exact hword (a := g.height - 1 - Y) (b := X) (by omega) (by omega) (by omega)
  · refine hword (a := g.width - 1 - X) (b := g.height - 1 - Y) (by omega) (by omega) ?_
    rw [show ((g.width - 1 - X : Nat) : Int) = g.width - 1 - X by omega,
      show ((g.height - 1 - Y : Nat) : Int) = g.height - 1 - Y by omega]
  · refine hword (a := Y) (b := g.width - 1 - X) (by omega) (by omega) ?_
    rw [show ((g.width - 1 - X : Nat) : Int) = g.width - 1 - X by omega]

theorem pixelIndex_right (X Y : Nat) : g.pixelIndex (X + 1) Y = g.pixelIndex X Y + g.innerStride := by
  unfold pixelIndex innerStride
  cases g.rotation <;> push_cast <;> ring

theorem pixelIndex_down (X Y : Nat) : g.pixelIndex X (Y + 1) = g.pixelIndex X Y + g.outerStride := by
  unfold pixelIndex outerStride
  cases g.rotation <;> push_cast <;> ring

namespace Painted

variable {px px' px'' : Framebuffer} {A B C : Nat → Nat → Prop} {f f' : Nat → Nat → UInt32}

theorem none (px : Framebuffer) (h : ∀ X Y, ¬ A X Y) : g.Painted px px A f :=
  ⟨fun X Y _ _ hA => absurd hA (h X Y), fun _ _ _ _ _ => rfl, fun _ _ => rfl⟩

theorem congr (h : g.Painted px px' A f) (hC : ∀ X Y, C X Y ↔ A X Y) : g.Painted px px' C f :=
  ⟨fun X Y hX hY hmem => h.on X Y hX hY ((hC X Y).mp hmem),
    fun X Y hX hY hmem => h.off X Y hX hY fun hA => hmem ((hC X Y).mpr hA), h.outside⟩

theorem trans (h : g.Painted px px' A f) (h' : g.Painted px' px'' B f)
    (hC : ∀ X Y, C X Y ↔ A X Y ∨ B X Y) : g.Painted px px'' C f := by
  refine ⟨fun X Y hX hY hmem => ?_, fun X Y hX hY hmem => ?_, fun q hq => ?_⟩
  · by_cases hB : B X Y
    · exact h'.on X Y hX hY hB
    · rw [h'.off X Y hX hY hB]
      exact h.on X Y hX hY (((hC X Y).mp hmem).resolve_right hB)
  · rw [hC, not_or] at hmem
    rw [h'.off X Y hX hY hmem.2, h.off X Y hX hY hmem.1]
  · rw [h'.outside q hq, h.outside q hq]

end Painted

theorem writePixel_painted (hg : g.Sane) (px : Framebuffer) {X Y : Nat} (hX : X < g.width)
    (hY : Y < g.height)
    (f : Nat → Nat → UInt32) :
    Returns (fun px' => g.Painted px px' (fun X' Y' => X' = X ∧ Y' = Y) f)
      (g.writePixel px (g.pixelIndex X Y) (f X Y)) := by
  rw [writePixel, if_pos (pixelIndex_lt hg hX hY)]
  refine .ok ⟨fun X' Y' _ _ hmem => ?_, fun X' Y' hX' hY' hmem => ?_, fun q hq => ?_⟩
  · rw [hmem.1, hmem.2, Function.update_self]
  · exact Function.update_of_ne (fun heq => hmem (pixelIndex_inj hg hX' hY' hX hY heq)) ..
  · exact Function.update_of_ne (hq X Y hX hY) ..

/-! ## A plot paints its cell -/

theorem shownRow_lt (hg : g.Sane) {gy : Nat} (hgy : gy < g.glyphHeight) :
    g.shownRow gy < g.fontHeight := by
  have hscale := hg.scaleY_pos
  rw [hg.glyphHeight_eq] at hgy
  have hdiv : gy / g.fontScaleY < g.fontHeight := Nat.div_lt_of_lt_mul (by rwa [Nat.mul_comm] at hgy)
  unfold shownRow scaledRow
  split
  · rename_i hone
    rwa [hone.2, Nat.div_one] at hdiv
  · exact lt_of_le_of_lt (Nat.mod_le _ _) hdiv

theorem fontBit_ok (c : UInt8) {fx fy : Nat} (hfx : fx < g.fontWidth) (hfy : fy < g.fontHeight) :
    g.fontBit (c.toNat * g.fontHeight * g.fontWidth + fy * g.fontWidth + fx) =
      .ok (g.fontBool (c.toNat * g.fontHeight * g.fontWidth + fy * g.fontWidth + fx)) := by
  have hline := mul_add_lt c.toNat_lt hfy
  have hbit := mul_add_lt hline hfx
  rw [Nat.add_mul] at hbit
  rw [fontBit, if_pos hbit]

theorem behind_ok {X Y : Nat} (hX : X < g.width) (hY : Y < g.height) :
    g.behind g.canvas X Y = .ok (g.backdrop X Y) := by
  unfold behind backdrop
  cases g.canvas with
  | none => rfl
  | some words =>
    have hlt := mul_add_lt hY hX
    rw [Nat.mul_comm g.height, Nat.add_comm] at hlt
    exact if_pos hlt

theorem glyphColour_ok (hg : g.Sane) (c : FbChar) {fx i gy X Y : Nat} (hfx : fx < g.fontWidth)
    (hi : i < g.fontScaleX) (hgy : gy < g.glyphHeight) (hX : X < g.width) (hY : Y < g.height) :
    g.glyphColour g.canvas c fx (g.shownRow gy) X Y =
      .ok (g.charPixel c (g.fontScaleX * fx + i) gy X Y) := by
  have hcolumn : (g.fontScaleX * fx + i) / g.fontScaleX = fx := by
    rw [Nat.mul_add_div hg.scaleX_pos, Nat.div_eq_of_lt hi, Nat.add_zero]
  unfold glyphColour charPixel
  rw [hcolumn, fontBit_ok c.c hfx (shownRow_lt hg hgy), behind_ok hX hY]
  split <;> split <;> rfl

/-- Some lines of a cell, and then some pixels of the next line. -/
def Begun (X Y width lines columns X' Y' : Nat) : Prop :=
  X ≤ X' ∧ Y ≤ Y' ∧ (Y' < Y + lines ∧ X' < X + width ∨ Y' = Y + lines ∧ X' < X + columns)

section Plot

variable {c : FbChar} {x y X Y : Nat} {px px₀ : Framebuffer}

theorem plotLine_painted (hg : g.Sane) {gy : Nat} (hgy : gy < g.glyphHeight)
    (hX : X + g.glyphWidth ≤ g.width)
    (hY : Y + g.glyphHeight ≤ g.height)
    (hpx : g.Painted px₀ px (Begun X Y g.glyphWidth gy 0)
      fun X' Y' => g.charPixel c (X' - X) (Y' - Y) X' Y') :
    Returns (fun t => g.Painted px₀ t.1 (Begun X Y g.glyphWidth (gy + 1) 0)
        fun X' Y' => g.charPixel c (X' - X) (Y' - Y) X' Y')
      (g.plotLine g.canvas g.shownRow g.fontScaleX c X Y gy px (g.pixelIndex X (Y + gy))) := by
  have hgw := hg.glyphWidth_eq
  -- after `n` pixels of the line the pointer is at the next one
  let I (n : Nat) (t : Framebuffer × Int) : Prop :=
    t.2 = g.pixelIndex (X + n) (Y + gy) ∧ g.Painted px₀ t.1 (Begun X Y g.glyphWidth gy n)
      fun X' Y' => g.charPixel c (X' - X) (Y' - Y) X' Y'
  have hstart : I (g.fontScaleX * 0) (px, g.pixelIndex X (Y + gy)) := ⟨rfl, hpx⟩
  refine Returns.mono (forUp_returns (fun fx t => I (g.fontScaleX * fx) t) (Nat.zero_le _) hstart
    fun fx t _ hfx ht => ?_) fun t ht => ht.2.congr ?_
  · refine Returns.mono (forUp_returns (fun i t => I (g.fontScaleX * fx + i) t) (Nat.zero_le _) ht
      fun i t _ hi ht => ?_) fun t ht => ?_
    · obtain ⟨hline, hpainted⟩ := ht
      have hcolumn : g.fontScaleX * fx + i < g.glyphWidth := by
        rw [hgw, Nat.mul_comm g.fontWidth]
        have := mul_add_lt hfx hi
        rwa [Nat.mul_comm fx, Nat.mul_comm g.fontWidth] at this
      have hcolour := glyphColour_ok hg c hfx hi hgy (X := X + (g.fontScaleX * fx + i)) (Y := Y + gy)
        (by omega) (by omega)
      refine Returns.bind_ok hcolour ?_
      have hwrite := writePixel_painted hg t.1 (X := X + (g.fontScaleX * fx + i)) (Y := Y + gy)
        (by omega) (by omega)
        fun X' Y' => g.charPixel c (X' - X) (Y' - Y) X' Y'
      rw [Nat.add_sub_cancel_left, Nat.add_sub_cancel_left, ← hline] at hwrite
      refine hwrite.bind fun px' hpx' => .ok ⟨?_, hpainted.trans hpx' fun X' Y' => ?_⟩
      · show t.2 + g.innerStride = _
        rw [hline, ← pixelIndex_right]
        rfl
      · unfold Begun
        omega
    · rwa [Nat.mul_succ]
  · intro X' Y'
    rw [hgw, Nat.mul_comm g.fontWidth]
    unfold Begun
    omega

theorem plotGlyph_painted (hg : g.Sane) (c : FbChar) {x y : Nat} (hx : x < g.cols) (hy : y < g.rows)
    (px : Framebuffer) :
    Returns (fun px' => g.Painted px px' (g.InCell x y) (g.cellPicture c x y))
      (g.plotGlyph g.canvas g.shownRow g.fontScaleX c x y px) := by
  have hX : g.offsetX + x * g.glyphWidth + g.glyphWidth ≤ g.width := by
    have hcell := Nat.mul_le_mul_right g.glyphWidth (Nat.succ_le_of_lt hx)
    rw [Nat.succ_mul] at hcell
    have := hg.fits_x
    omega
  have hY : g.offsetY + y * g.glyphHeight + g.glyphHeight ≤ g.height := by
    have hcell := Nat.mul_le_mul_right g.glyphHeight (Nat.succ_le_of_lt hy)
    rw [Nat.succ_mul] at hcell
    have := hg.fits_y
    omega
  rw [plotGlyph, if_neg (by omega)]
  let I (n : Nat) (t : Framebuffer × Int) : Prop :=
    t.2 = g.pixelIndex (g.offsetX + x * g.glyphWidth) (g.offsetY + y * g.glyphHeight + n) ∧
      g.Painted px t.1
        (Begun (g.offsetX + x * g.glyphWidth) (g.offsetY + y * g.glyphHeight) g.glyphWidth n 0)
        (g.cellPicture c x y)
  have hstart : I 0
      (px, g.pixelIndex (g.offsetX + x * g.glyphWidth) (g.offsetY + y * g.glyphHeight)) := by
    refine ⟨rfl, .none px fun X' Y' hmem => ?_⟩
    unfold Begun at hmem
    omega
  refine Returns.bind (forUp_returns I (Nat.zero_le _) hstart fun gy t _ hgy ht => ?_)
    fun t ht => .ok (ht.2.congr ?_)
  · obtain ⟨hdest, hpainted⟩ := ht
    rw [hdest]
    refine (plotLine_painted hg hgy hX hY hpainted).bind fun r hr => .ok ⟨?_, hr⟩
    exact (pixelIndex_down _ _).symm
  · intro X' Y'
    unfold InCell Begun
    rw [Nat.add_mul, Nat.one_mul, Nat.add_mul, Nat.one_mul]
    omega

/-- A plot paints its cell, whichever of the four functions it is. -/
theorem plotChar_painted (hg : g.Sane) (c : FbChar) {x y : Nat} (hx : x < g.cols) (hy : y < g.rows)
    (px : Framebuffer) :
    Returns (fun px' => g.Painted px px' (g.InCell x y) (g.cellPicture c x y))
      (g.plotChar c x y px) := by
  have hplot := plotGlyph_painted hg c hx hy px
  unfold plotChar plotCharUnscaledUncanvas plotCharUnscaledCanvas plotCharScaledUncanvas
    plotCharScaledCanvas
  split
  · rename_i hone
    have hrow : g.shownRow = fun gy => gy := by
      funext gy
      exact if_pos hone
    rw [hrow, hone.1] at hplot
    cases hcanvas : g.canvas <;> rwa [hcanvas] at hplot
  · rename_i hscaled
    have hrow : g.shownRow = g.scaledRow := by
      funext gy
      exact if_neg hscaled
    rw [hrow] at hplot
    cases hcanvas : g.canvas <;> rwa [hcanvas] at hplot

end Plot

/-! ## Cells and pixels -/

/-- A pixel belongs to one cell at most. -/
theorem InCell.unique {x y x' y' X Y : Nat} (h : g.InCell x y X Y) (h' : g.InCell x' y' X Y) :
    x = x' ∧ y = y' := by
  obtain ⟨hX, hX', hY, hY'⟩ := h
  obtain ⟨kX, kX', kY, kY'⟩ := h'
  refine ⟨?_, ?_⟩
  · have hlt := Nat.lt_of_mul_lt_mul_right (a := g.glyphWidth) (b := x) (c := x' + 1) (by omega)
    have hgt := Nat.lt_of_mul_lt_mul_right (a := g.glyphWidth) (b := x') (c := x + 1) (by omega)
    omega
  · have hlt := Nat.lt_of_mul_lt_mul_right (a := g.glyphHeight) (b := y) (c := y' + 1) (by omega)
    have hgt := Nat.lt_of_mul_lt_mul_right (a := g.glyphHeight) (b := y') (c := y + 1) (by omega)
    omega

end FbParams

end HelixKernel.Flanterm
