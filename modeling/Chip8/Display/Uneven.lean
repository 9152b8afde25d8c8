/-
# `Chip8.Display.Uneven` — drawing at any coordinates

A program draws at the bytes of two registers.  A host may draw anywhere:
at negative coordinates, at large ones, and between the pixels.  The rule is
that of `spriteIndex`, with every sum and product rounded like a double:

    index = (y rem 32 + row) rem 32 · 64 + (x rem 64 + column) rem 64

If the index comes out whole, that pixel is flipped, and otherwise none is.
So half a row down is half a row to the right, and a coordinate close to
zero may be lost in the sum with a row or a column, but not in the pixel at
row zero and column zero.

`spriteIndicesAt_whole` says that at whole coordinates nothing is new.
-/
import Chip8.Display

namespace Chip8

/-- The number of the pixel in a column of a row of a sprite. -/
def spriteIndexAt (x y : Number) (row column : Nat) : Number :=
  (y.rem screenHeight + row).rem screenHeight * screenWidth +
    (x.rem screenWidth + column).rem screenWidth

/-- The pixels that one row flips. -/
def rowIndicesAt (x y : Number) (row : Nat) (bits : UInt8) : List Int :=
  ((setColumns bits).map (spriteIndexAt x y row)).filterMap Number.whole?

/-- The pixels that a sprite flips whose first row has the number `row`. -/
def spriteIndicesAt (x y : Number) (row : Nat) : List UInt8 → List Int
  | [] => []
  | bits :: rest => rowIndicesAt x y row bits ++ spriteIndicesAt x y (row + 1) rest

/-- Draws a sprite at coordinates from outside; tells whether a lit pixel
was flipped. -/
def Grid.drawAt (g : Grid) (x y : Number) (rows : List UInt8) : Grid × Bool :=
  (spriteIndicesAt x y 0 rows).foldl Grid.flip (g, false)

/-- Draws a sprite at coordinates from outside. -/
def Display.drawAt {α : Type} (d : Display α) (x y : Number) (rows : List UInt8) :
    Display α × Bool :=
  let (pixels, collision) := d.pixels.drawAt x y rows
  ({ d with pixels := pixels, dirty := true }, collision)

/-! ## Whole coordinates -/

theorem natAbs_tmod_lt (n : Int) {k : Nat} (h : 0 < k) : (Int.tmod n k).natAbs < k := by
  rw [Int.natAbs_tmod]
  exact Nat.mod_lt _ (by simpa using h)

/-- At whole coordinates no sum and no product is rounded. -/
theorem spriteIndexAt_whole (x y : Int) {row column : Nat} (hr : row ≤ 2 ^ 52)
    (hc : column < 8) :
    spriteIndexAt x y row column = .whole (spriteIndex x y row column) := by
  have hx := natAbs_tmod_lt x (k := screenWidth) (by decide)
  have hy := natAbs_tmod_lt y (k := screenHeight) (by decide)
  have hx' := natAbs_tmod_lt (Int.tmod x screenWidth + column) (k := screenWidth) (by decide)
  have hy' := natAbs_tmod_lt (Int.tmod y screenHeight + row) (k := screenHeight) (by decide)
  simp only [screenWidth, screenHeight] at hx hy hx' hy'
  simp only [spriteIndexAt, spriteIndex, screenWidth, screenHeight, Number.rem]
  rw [Number.whole_add_whole (by omega), Number.whole_add_whole (by omega)]
  simp only
  rw [Number.whole_mul_whole (by omega), Number.whole_add_whole (by omega)]

theorem rowIndicesAt_whole (x y : Int) {row : Nat} (hr : row ≤ 2 ^ 52) (bits : UInt8) :
    rowIndicesAt x y row bits = rowIndices x y row bits := by
  have h : (setColumns bits).map (spriteIndexAt x y row) =
      ((setColumns bits).map (spriteIndex x y row)).map Number.whole := by
    rw [List.map_map]
    exact List.map_congr_left fun column hc =>
      spriteIndexAt_whole x y hr (List.mem_range.1 (List.mem_filter.1 hc).1)
  rw [rowIndicesAt, h, List.filterMap_map]
  exact List.filterMap_some

/-- At whole coordinates a sprite flips the pixels that it always flips. -/
theorem spriteIndicesAt_whole (x y : Int) {row : Nat} {rows : List UInt8}
    (h : row + rows.length ≤ 2 ^ 52) :
    spriteIndicesAt x y row rows = spriteIndices x y row rows := by
  induction rows generalizing row with
  | nil => rfl
  | cons bits rest ih =>
    rw [List.length_cons] at h
    rw [spriteIndicesAt, spriteIndices, rowIndicesAt_whole x y (by omega), ih (by omega)]

/-- At whole coordinates a host draws as a program does. -/
theorem Display.drawAt_whole {α : Type} (d : Display α) (x y : Int) {rows : List UInt8}
    (h : rows.length ≤ 2 ^ 52) : d.drawAt x y rows = d.draw x y rows := by
  unfold Display.drawAt Display.draw Grid.drawAt Grid.draw
  rw [spriteIndicesAt_whole x y (by omega)]

end Chip8
