/-
# `Chip8.Picture.Uneven` — pictures at any scale

A host may ask for a scale that is no natural number.  `renderAt` answers
that too.  It agrees with `render` by definition where the scale is natural,
and otherwise follows the same rules with the sides of the picture and the
places of the pixels as doubles:

* the buffer has as many bytes as the product of the two sides and four says,
  less its fraction;
* a cell is painted as a square with as many pixels on a side as there are
  numbers 0, 1, 2, … below the scale, so squares of neighbours may overlap,
  and then the later cell wins;
* the place of a pixel is the place that a natural scale would give it, less
  its fraction.

At a negative scale, and at one that is no finite number, a square has no
pixels, and the picture stays empty.

A file has whole sides.  `Sheet` is a picture with its two sides, each less
its fraction, and with as many bytes as these make; the pixels are placed as
before.
-/
import Chip8.Picture

namespace Chip8
namespace Picture

/-- The number of bytes of a picture at a scale. -/
def bytesAt (scale : Float) : Nat :=
  (Number.ofFloat (64.0 * scale * 32.0 * scale * 4.0)).extent.toNat

/-- The number of pixels on a side of a square.  There are no pictures at an
infinite scale. -/
def sideAt (scale : Number) : Nat := if scale.isFinite then scale.countBelow else 0

/-- The number of the pixel at `(dx, dy)` in the square of the cell
`(x, y)`. -/
def pixelNumberAt (scale : Float) (x y dx dy : Nat) : Nat :=
  let row := Float.ofNat y * scale + Float.ofNat dy
  let column := Float.ofNat x * scale + Float.ofNat dx
  (Number.ofFloat (row * (64.0 * scale) + column)).extent.toNat

/-- The pixels of the square of a cell, row after row. -/
def squareAt (scale : Float) (side x y : Nat) : List Nat :=
  (List.range side).flatMap fun dy =>
    (List.range side).map fun dx => pixelNumberAt scale x y dx dy

/-- Paints all cells, in the order of their indices. -/
def paintAt (cell : Nat → Colour UInt8) (scale : Float) (side : Nat) (buffer : ByteArray) :
    ByteArray :=
  (List.range (screenWidth * screenHeight)).foldl (fun buffer i =>
    (squareAt scale side (i % screenWidth) (i / screenWidth)).foldl (putPixel (cell i))
      buffer) buffer

/-- A grid of intensities painted at any scale into so many bytes. -/
def renderInto {α : Type} [Scalar α] (bytes : Nat) (glow : Nat → α) (scale : Number)
    (palette : Palette α) (storage : Storage) : ByteArray :=
  paintAt (fun i => storage.pixel (palette.shade (glow i))) scale.toFloat (sideAt scale)
    (zeros bytes)

/-- The picture of a grid of intensities at any scale. -/
def renderAt {α : Type} [Scalar α] (glow : Nat → α) (scale : Number) (palette : Palette α)
    (storage : Storage) : ByteArray :=
  match scale with
  | .whole (.ofNat n) => render glow n palette storage
  | scale =>
      renderInto (if scale.isFinite then bytesAt scale.toFloat else 0) glow scale palette storage

/-! ## Whole sides -/

/-- A picture with its sides. -/
structure Sheet where
  width : Nat
  height : Nat
  buffer : ByteArray

/-- The whole pixels on a side of so many cells. -/
def wholeSide (cells : Nat) (scale : Number) : Nat :=
  if scale.isFinite then (Number.ofFloat (Float.ofNat cells * scale.toFloat)).extent.toNat else 0

/-- The picture of a grid of intensities at any scale, with whole sides. -/
def sheetAt {α : Type} [Scalar α] (glow : Nat → α) (scale : Number) (palette : Palette α) :
    Sheet :=
  match scale with
  | .whole (.ofNat n) => ⟨width n, height n, render glow n palette .wrapped⟩
  | scale =>
      let w := wholeSide screenWidth scale
      let h := wholeSide screenHeight scale
      ⟨w, h, renderInto (w * h * 4) glow scale palette .wrapped⟩

end Picture
end Chip8
