/-
# `Chip8.Picture` — intensities as coloured pixels

A palette has a background and a foreground colour.  An intensity is first
kept between zero and one; then each channel lies that far on the way from
the background to the foreground, rounded to the nearest whole number with a
half going up.  The channels of a palette are scalars, and nothing bounds
them, so a mixed channel is a number of any size until it is stored as a
byte.  There are two ways to do that: clamped between 0 and 255, or modulo
256.  An intensity that is not a number has no colour, and is stored as
zero.

`render` paints each of the 64 × 32 cells as a square of `scale` × `scale`
pixels into a buffer of zeros, four bytes a pixel, row after row.  The byte
offset of a pixel is a signed number of 32 bits.  Up to a scale of 512 every
offset fits.  In larger pictures the offsets wrap around: a pixel whose
offset comes out negative is not stored at all.
-/
import Chip8.Scalar
import Chip8.Display

namespace Chip8

/-- A colour, by its three channels. -/
structure Colour (α : Type) where
  red : α
  green : α
  blue : α
deriving DecidableEq, Repr

/-- The colour with a function applied to its channels. -/
def Colour.map {α β : Type} (f : α → β) (c : Colour α) : Colour β :=
  ⟨f c.red, f c.green, f c.blue⟩

/-- The colours of a dark and of a lit pixel. -/
structure Palette (α : Type) where
  background : Colour α
  foreground : Colour α
deriving DecidableEq, Repr

/-- The palette with a function applied to its channels. -/
def Palette.map {α β : Type} (f : α → β) (p : Palette α) : Palette β :=
  ⟨p.background.map f, p.foreground.map f⟩

section Mixing
variable {α : Type} [Scalar α]

/-- The intensity, kept between zero and one. -/
def clampIntensity (v : α) : α :=
  if v ≤ Scalar.ofInt 0 then Scalar.ofInt 0
  else if Scalar.ofInt 1 ≤ v then Scalar.ofInt 1
  else v

/-- Phosphor green on near-black. -/
def Palette.phosphor : Palette α :=
  Palette.map Scalar.ofInt ⟨⟨16, 16, 16⟩, ⟨51, 255, 102⟩⟩

/-- The whole number that lies `t` of the way from one channel to
another. -/
def mix (a b t : α) : Number := Scalar.round (a + (b - a) * t)

/-- The colour of an intensity. -/
def Palette.shade (p : Palette α) (v : α) : Colour Number :=
  let t := clampIntensity v
  { red := mix p.background.red p.foreground.red t
    green := mix p.background.green p.foreground.green t
    blue := mix p.background.blue p.foreground.blue t }

end Mixing

/-- How a channel becomes a byte. -/
inductive Storage where
  | clamped
  | wrapped
deriving DecidableEq, Repr

/-- The byte of a channel. -/
def Storage.byte (s : Storage) (channel : Number) : UInt8 :=
  match s with
  | clamped => UInt8.ofNat (min channel.extent.toNat 255)
  | wrapped => channel.byte

/-- The stored bytes of an opaque colour. -/
def Storage.pixel (s : Storage) (c : Colour Number) : Colour UInt8 := c.map s.byte

namespace Picture

/-- Pixels in a row of a picture. -/
def width (scale : Nat) : Nat := screenWidth * scale

/-- Rows of a picture. -/
def height (scale : Nat) : Nat := screenHeight * scale

/-- The number of bytes of a picture. -/
def size (scale : Nat) : Nat := width scale * height scale * 4

/-- The number of the leftmost pixel in a row of the square of the cell
`(x, y)`. -/
def runStart (scale x y dy : Nat) : Nat := (y * scale + dy) * width scale + x * scale

/-- The byte offset of a pixel, as a number of 32 bits. -/
def byteOffset (pixel : Nat) : UInt32 := UInt32.ofNat pixel <<< 2

/-- The first number of 32 bits that is negative when it is read with a
sign. -/
def signBit : UInt32 := 0x80000000

/-- Stores a pixel, unless its offset is negative. -/
def putPixel (c : Colour UInt8) (buffer : ByteArray) (pixel : Nat) : ByteArray :=
  let offset := byteOffset pixel
  if offset < signBit then
    let o := offset.toNat
    (((buffer.set! o c.red).set! (o + 1) c.green).set! (o + 2) c.blue).set! (o + 3) 255
  else buffer

/-- Stores so many pixels from a number on. -/
def putRun (c : Colour UInt8) (buffer : ByteArray) (pixel : Nat) : Nat → ByteArray
  | 0 => buffer
  | n + 1 => putRun c (putPixel c buffer pixel) (pixel + 1) n

/-- Paints the square of a cell. -/
def paintCell (scale x y : Nat) (c : Colour UInt8) (buffer : ByteArray) : ByteArray :=
  (List.range scale).foldl (fun buffer dy => putRun c buffer (runStart scale x y dy) scale) buffer

/-- Paints all cells; `cell` gives the pixel of a cell by its index. -/
def paint (cell : Nat → Colour UInt8) (scale : Nat) (buffer : ByteArray) : ByteArray :=
  (List.range screenHeight).foldl (fun buffer y =>
    (List.range screenWidth).foldl (fun buffer x =>
      paintCell scale x y (cell (y * screenWidth + x)) buffer) buffer) buffer

/-- A buffer with a block added so many times. -/
def addBlocks (block buffer : ByteArray) : Nat → ByteArray
  | 0 => buffer
  | n + 1 => addBlocks block (buffer ++ block) n

/-- A buffer with so many bytes of zero added. -/
def addZeros (buffer : ByteArray) : Nat → ByteArray
  | 0 => buffer
  | n + 1 => addZeros (buffer.push 0) n

/-- So many bytes of zero, most of them in blocks. -/
def zeros (n : Nat) : ByteArray :=
  addZeros (addBlocks (addZeros .empty 65536) (.emptyWithCapacity n) (n / 65536)) (n % 65536)

/-- The picture of a grid of intensities, given by their index. -/
def render {α : Type} [Scalar α] (glow : Nat → α) (scale : Nat) (palette : Palette α)
    (storage : Storage) : ByteArray :=
  paint (fun i => storage.pixel (palette.shade (glow i))) scale (zeros (size scale))

end Picture

/-- The intensity at an index of a screen, for a renderer. -/
def Display.glowIndex (d : Display Float) (i : Nat) : Float := d.glow[i]?.getD (0.0 / 0.0)

end Chip8
