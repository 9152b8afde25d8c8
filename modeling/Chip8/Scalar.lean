/-
# `Chip8.Scalar` — the arithmetic of the timers, the afterglow and the colours

Elapsed time, afterglow and colour mixing are computed in fractions.  The
machine that runs uses doubles.  What one wants to say about these rules,
that no tick is lost, that an afterglow ends, that a colour stays between
its ends, is about fractions as such, and rounding only blurs it.  So the
rules are written once, over any `Scalar`, with the operations in the order
in which the machine applies them, and there are two instances:

* `Float`, in which the machine runs;
* `Rat`, in which every operation is exact.

Besides the four operations and the order a scalar offers three readings as
a whole number: `floor`, which stays a scalar because a double may be too
large for anything else; `round`, to the nearest integer with a half going
up; and `tally`, the number of times that something happens.
-/
import Chip8.Number

namespace Chip8

/-- A scalar read as a count: so many times, without end, or nothing that
can be counted. -/
inductive Tally where
  | times (n : Nat)
  | endless
  | unknown
deriving DecidableEq, Repr

/-- Fractions in which the machine can compute. -/
class Scalar (α : Type) extends Add α, Sub α, Mul α, Div α, LT α, LE α, OfScientific α where
  decLt : DecidableLT α
  decLe : DecidableLE α
  /-- The scalar nearest to an integer. -/
  ofInt : Int → α
  /-- The largest whole scalar that is not above. -/
  floor : α → α
  /-- The nearest integer, a half going up.  A scalar that has none stays
  what it is. -/
  round : α → Number
  /-- The number of times that a scalar stands for. -/
  tally : α → Tally

namespace Scalar

instance {α : Type} [Scalar α] : DecidableLT α := decLt
instance {α : Type} [Scalar α] : DecidableLE α := decLe

/-- Whether the scalar is zero. -/
def isZero {α : Type} [Scalar α] (x : α) : Bool := x ≤ ofInt 0 ∧ ofInt 0 ≤ x

/-- The scalar, or zero if it is below zero. -/
def clipBelow {α : Type} [Scalar α] (x : α) : α := if x < ofInt 0 then ofInt 0 else x

end Scalar

/-- A double as a count.  A negative one counts nothing. -/
def tallyFloat (x : Float) : Tally :=
  match Double.ofFloat x with
  | .nan => .unknown
  | .infinite negative => if negative then .times 0 else .endless
  | d => .times (d.floor?.getD 0).toNat

/-- The whole number nearest to a double, a half going up. -/
def roundFloat (x : Float) : Number :=
  match (Double.ofFloat x).round? with
  | some n => .whole n
  | none => .other x

instance : Scalar Float where
  decLt := inferInstance
  decLe := inferInstance
  ofInt := Float.ofInt
  floor := floorFloat
  round := roundFloat
  tally := tallyFloat

instance : Scalar Rat where
  decLt := inferInstance
  decLe := inferInstance
  ofInt n := n
  floor x := (x.floor : Int)
  round x := .whole (x + 1 / 2).floor
  tally x := .times x.floor.toNat

end Chip8
