/-
# `Chip8.Random` — a source of random numbers

A source is a sequence of rolls together with the number of rolls already
drawn.  Nothing else about it is ever asked, so two machines with the same
sequence and the same count draw the same numbers for ever.  A roll is an
integer of any size, or a failure of the source; a failed roll is used up
like any other.
-/
import Chip8.Number

namespace Chip8

/-- One roll of a source. -/
inductive Roll where
  | value (n : Int)
  | failed
deriving DecidableEq, Repr

/-- The rolls of a source, and how many are drawn. -/
structure RandomSource where
  roll : Nat → Roll
  drawn : Nat

namespace RandomSource

/-- The next roll. -/
def next (s : RandomSource) : Roll := s.roll s.drawn

/-- The source after one more roll. -/
def advance (s : RandomSource) : RandomSource := { s with drawn := s.drawn + 1 }

/-- The source that goes through a list of rolls over and over.  An empty
list rolls zeros. -/
def cycle (rolls : Array Roll) : RandomSource where
  roll n := rolls.getD (n % rolls.size) (.value 0)
  drawn := 0

/-- A byte from a fraction between zero and one. -/
def byteOfFraction (x : Float) : Int := (Number.ofFloat (floorFloat (x * 256.0))).byte.toNat

/-- The source of bytes that goes through a list of fractions over and
over. -/
def ofFractions (fractions : Array Float) : RandomSource :=
  cycle (fractions.map fun x => .value (byteOfFraction x))

end RandomSource
end Chip8
