/-
# `Chip8.Display` — the screen and its afterglow

The screen has 64 × 32 pixels.  It is kept twice: as a grid of pixels that
are lit or dark, which is all a program can see and change, and as a grid of
intensities, the afterglow, which is advanced once per frame and which only
a renderer looks at.

**Drawing.**  A sprite is a list of row bytes, the most significant bit
leftmost.  Every set bit flips one pixel, and the sprite wraps around on
both axes.  `spriteIndices` lists the pixels to flip, in order; drawing is
the fold of single flips over this list, and it collides if one of the flips
finds its pixel lit.  Coordinates are reduced with the remainder that has
the sign of the dividend, so a negative coordinate may give an index outside
the grid.  Such a pixel is dark, and flipping it does nothing.

**Afterglow.**  In each frame a lit pixel shines with intensity one, and the
intensity of a dark pixel, unless it is zero, is multiplied by the decay
factor.  Below one millionth it snaps to zero, so that every afterglow ends.
The factor is kept between 0 and 0.99.  A factor that is not a number is
refused; only a factor that is left out comes through unchecked, and then
the afterglow is not a number either.

**Dirty.**  The screen remembers whether anything was drawn or cleared since
it was last asked.
-/
import Chip8.Scalar
import Chip8.Fault

namespace Chip8

/-- Pixels in a row. -/
def screenWidth : Nat := 64

/-- Rows. -/
def screenHeight : Nat := 32

/-- The lit and the dark pixels, row after row. -/
abbrev Grid := Vector Bool 2048

namespace Grid

/-- All pixels dark. -/
def dark : Grid := Vector.replicate 2048 false

/-- Flips the pixel at an index, and remembers whether one was lit. -/
def flip (s : Grid × Bool) (index : Int) : Grid × Bool :=
  match index with
  | .ofNat i =>
      if h : i < 2048 then (s.1.set i (!s.1[i]), s.2 || s.1[i]) else s
  | .negSucc _ => s

/-- The number of lit pixels. -/
def litCount (g : Grid) : Nat := g.toList.countP id

/-- The grid as bytes, one for a lit pixel and zero for a dark one. -/
def bytes (g : Grid) : List UInt8 := g.toList.map fun lit => if lit then 1 else 0

theorem bytes_le_one (g : Grid) : ∀ b ∈ g.bytes, b = 0 ∨ b = 1 := by
  intro b hb
  obtain ⟨lit, -, rfl⟩ := List.mem_map.1 hb
  cases lit with
  | false => exact .inl rfl
  | true => exact .inr rfl

end Grid

/-! ## Sprites -/

/-- The index of the pixel in a column of a row of a sprite, before the
wrap-around. -/
def spriteIndex (x y : Int) (row column : Nat) : Int :=
  Int.tmod (Int.tmod y screenHeight + row) screenHeight * screenWidth +
    Int.tmod (Int.tmod x screenWidth + column) screenWidth

/-- The columns of the set bits of a row, from the left. -/
def setColumns (bits : UInt8) : List Nat :=
  (List.range 8).filter fun column => bits.toNat.testBit (7 - column)

/-- The pixels that one row flips. -/
def rowIndices (x y : Int) (row : Nat) (bits : UInt8) : List Int :=
  (setColumns bits).map (spriteIndex x y row)

/-- The pixels that a sprite flips whose first row has the number `row`. -/
def spriteIndices (x y : Int) (row : Nat) : List UInt8 → List Int
  | [] => []
  | bits :: rest => rowIndices x y row bits ++ spriteIndices x y (row + 1) rest

/-- Draws a sprite; tells whether a lit pixel was flipped. -/
def Grid.draw (g : Grid) (x y : Int) (rows : List UInt8) : Grid × Bool :=
  (spriteIndices x y 0 rows).foldl Grid.flip (g, false)

/-! ## The decay factor -/

/-- The factor of a screen that nobody has set. -/
def defaultDecay : Float := 0.85

section Decay
variable {α : Type} [Scalar α]

/-- The largest factor. -/
def maxDecay : α := 0.99

/-- Intensities below this are zero. -/
def dimmest : α := 1e-6

/-- The factor, kept between zero and the largest. -/
def clampDecay (d : α) : α :=
  if d ≤ Scalar.ofInt 0 then Scalar.ofInt 0
  else if maxDecay ≤ d then maxDecay
  else d

end Decay

/-- A factor that a host asks for: kept in bounds, and refused if it is not
a number.  One that is left out is not checked. -/
def admitDecay : Argument → Except Failure Float
  | .absent => .ok Number.nan.toFloat
  | d =>
      let x := d.toNumber.toFloat
      if x.isNaN then .error (.rejected .decay) else .ok (clampDecay x)

/-! ## The screen -/

/-- The screen: pixels, afterglow, its factor, whether something was drawn,
and the number of frames so far. -/
structure Display (α : Type) where
  pixels : Grid
  glow : Vector α 2048
  decay : α
  dirty : Bool
  frame : Nat

namespace Display

variable {α : Type} [Scalar α]

/-- A dark screen with a decay factor. -/
def initial (decay : α) : Display α where
  pixels := Grid.dark
  glow := Vector.replicate 2048 (Scalar.ofInt 0)
  decay := decay
  dirty := false
  frame := 0

/-- The power-on screen; only the factor stays. -/
def reset (d : Display α) : Display α := initial d.decay

/-- Darkens all pixels.  The afterglow goes on. -/
def clear (d : Display α) : Display α := { d with pixels := Grid.dark, dirty := true }

/-- Marks the screen as drawn on. -/
def touch (d : Display α) : Display α := { d with dirty := true }

/-- Draws a sprite; tells whether a lit pixel was flipped. -/
def draw (d : Display α) (x y : Int) (rows : List UInt8) : Display α × Bool :=
  let (pixels, collision) := d.pixels.draw x y rows
  ({ d with pixels := pixels, dirty := true }, collision)

/-- An intensity, or zero if it is too dim. -/
def snap (v : α) : α := if v < dimmest then Scalar.ofInt 0 else v

/-- The intensity of a pixel in the next frame. -/
def nextGlow (decay : α) (lit : Bool) (glow : α) : α :=
  if lit then Scalar.ofInt 1
  else if Scalar.isZero glow then glow
  else snap (glow * decay)

/-- One frame of afterglow. -/
def advanceFrame (d : Display α) : Display α :=
  { d with
    glow := Vector.zipWith (nextGlow d.decay) d.pixels d.glow
    frame := d.frame + 1 }

/-- Whether anything was drawn since the last call. -/
def consumeDirty (d : Display α) : Display α × Bool := ({ d with dirty := false }, d.dirty)

/-- Whether coordinates are known to lie outside the screen. -/
def outside (x y : Number) : Bool :=
  x.lt 0 || Number.le screenWidth x || y.lt 0 || Number.le screenHeight y

/-- The index of the pixel at coordinates, if the sum that gives it is the
index of a pixel. -/
def index? (x y : Number) : Option (Fin 2048) :=
  match y * screenWidth + x with
  | .whole (.ofNat i) => if h : i < 2048 then some ⟨i, h⟩ else none
  | _ => none

/-- Whole coordinates on the screen are those of a pixel. -/
theorem index?_whole {a b : Nat} (ha : a < 64) (hb : b < 32) :
    index? a b = some ⟨b * 64 + a, by omega⟩ := by
  have hm : ((b : Number) * screenWidth : Number) = .whole ((b * 64 : Nat) : Int) :=
    Number.whole_mul_whole (by simp only [screenWidth]; omega)
  have hs : (.whole ((b * 64 : Nat) : Int) + (a : Number) : Number) =
      .whole ((b * 64 + a : Nat) : Int) :=
    Number.whole_add_whole (by omega)
  unfold index?
  rw [hm, hs]
  exact dif_pos (by omega)

/-- The index of the pixel at coordinates, which are refused outside the
screen. -/
def admitPixel (x y : Argument) : Except Failure (Option (Fin 2048)) :=
  if outside x.toNumber y.toNumber then .error (.rejected (.pixel x y))
  else .ok (index? x.toNumber y.toNumber)

/-- Whether the pixel at coordinates is lit. -/
def pixelAt (d : Display α) (x y : Argument) : Except Failure Bool :=
  (admitPixel x y).map fun i => (i.map d.pixels.get).getD false

/-- The intensity at coordinates, if a pixel is there. -/
def glowAt (d : Display α) (x y : Argument) : Except Failure (Option α) :=
  (admitPixel x y).map fun i => i.map d.glow.get

end Display

/-- Sets the decay factor; the intensities stay. -/
def Display.setDecay (d : Display Float) (factor : Argument) : Except Failure (Display Float) :=
  (admitDecay factor).map fun f => { d with decay := f }

end Chip8
