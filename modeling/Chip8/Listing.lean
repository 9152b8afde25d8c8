/-
# `Chip8.Listing` — programs as lines of text

A line of a listing shows the address, the word found there and what it
means.  A word that is no instruction is shown as data, `DW` and the word,
so a listing never fails on the bytes themselves.

There are two ways to get at the bytes.  `Line.at?` takes a reader, a
function from addresses that may refuse; the memory of a machine is one, and
refuses addresses outside the 4 KiB.  `listing` walks over the image of a
program, two bytes a line, as it would lie from an origin on, and finds
zeros behind its end.

An origin may be any number, and addresses are added like doubles.  So the
listing of an image at an absurdly large origin repeats some bytes and
leaves out others, because the addresses between two doubles do not exist.
As long as addresses stay below `2 ^ 53`, sums are exact.
-/
import Chip8.Instruction.Mnemonic

namespace Chip8

/-- A line of a listing. -/
structure Line where
  pc : Number
  word : Number
  text : String

namespace Line

/-- The line as text. -/
def format (l : Line) : String :=
  upperHex l.pc 3 ++ "  " ++ upperHex l.word 4 ++ "  " ++ l.text

/-- What a word means: an instruction, or data. -/
def wordText (word : Nat) : String :=
  match Instruction.ofWord? word with
  | some ins => ins.text
  | none => "DW $" ++ upperHex word 4

/-- The big-endian word of two values, of which the low bytes count. -/
def wordOf (high low : Number) : Nat := high.byte.toNat * 256 + low.byte.toNat

/-- The line of an address and the two values found there. -/
def of (pc high low : Number) : Line :=
  ⟨pc, wordOf high low, wordText (wordOf high low)⟩

/-- The line at an address.  The high byte is read first. -/
def at? {ε : Type} (read : Number → Except ε Number) (pc : Number) : Except ε Line :=
  match read pc with
  | .error e => .error e
  | .ok high =>
      match read (pc + 1) with
      | .error e => .error e
      | .ok low => .ok (of pc high low)

/-- The line at an address, by a reader that refuses nothing. -/
def ofReader (read : Number → Number) (pc : Number) : Line := of pc (read pc) (read (pc + 1))

end Line

/-! ## Images -/

/-- The byte at an address of an image that begins at `origin`; outside there
are zeros. -/
def imageByte (image : Array UInt8) (origin addr : Number) : Number :=
  match addr - origin with
  | .whole k => if 0 ≤ k then (image.getD k.toNat 0).toNat else 0
  | .other _ => 0

/-- The lines of an image from an address on, at most `n` of them. -/
def linesFrom (image : Array UInt8) (origin pc : Number) : Nat → List Line
  | 0 => []
  | n + 1 =>
      if pc.lt (origin + image.size) then
        .ofReader (imageByte image origin) pc :: linesFrom image origin (pc + 2) n
      else []

/-- The lines of a program image: one for every two bytes, an odd last byte
filled up with zero. -/
def lines (origin : Number) (image : List UInt8) : List Line :=
  linesFrom image.toArray origin origin image.length

/-- The listing of a program image as it would lie from `origin` on. -/
def listing (image : List UInt8) (origin : Number) : List String :=
  (lines origin image).map Line.format

end Chip8
