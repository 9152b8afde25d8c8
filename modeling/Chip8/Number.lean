/-
# `Chip8.Number` — a number as a host hands it in

Addresses, speeds and coordinates are whole numbers, and the machine itself
never produces anything else.  A host may still ask for address `1.5`, or
set the speed to NaN, and the answer to that is a fault or a rejection that
names the offending number.  So a number from outside is one of two things:

* `whole n`, an exact integer of either sign;
* `other x`, a double that is no integer: a fraction, an infinity or NaN.

`Number.ofFloat` sorts a double into these two, and minus zero is the whole
number zero.  Past this point a check for "is it whole" is a match on the
constructor, and no floating-point comparison is left in the machine.

Sums, differences and products are rounded like doubles, and remainders are
exact.  Between whole numbers all of that is done in integers, so nothing
about addresses and counts depends on the floating-point unit.  NaN is
neither below nor above anything.
-/
import Chip8.Number.Double

namespace Chip8

/-- A number from outside: a whole one, or a double that is not whole. -/
inductive Number where
  | whole (n : Int)
  | other (x : Float)
deriving DecidableEq

instance : Inhabited Number := ⟨.whole 0⟩

instance : Coe Int Number := ⟨.whole⟩

instance : Coe Nat Number := ⟨fun n => .whole n⟩

instance (n : Nat) : OfNat Number n := ⟨.whole n⟩

namespace Number

/-- Sorts a double: whole values become integers. -/
def ofFloat (x : Float) : Number :=
  match (Double.ofFloat x).whole? with
  | some n => .whole n
  | none => .other x

/-- The double nearest to the number. -/
def toFloat : Number → Float
  | .whole n => Float.ofInt n
  | .other x => x

/-- Not a number. -/
def nan : Number := .other (0.0 / 0.0)

/-- The integer, if the number is whole. -/
def whole? : Number → Option Int
  | .whole n => some n
  | .other _ => none

/-- Whole numbers are finite; of the others, the fractions are. -/
def isFinite : Number → Bool
  | .whole _ => true
  | .other x => x.isFinite

/-- The number without its fraction, modulo `2 ^ 32`.  An infinity and NaN
count as zero. -/
def word : Number → Nat
  | .whole n => (n % 2 ^ 32).toNat
  | .other x => (((Double.ofFloat x).truncate?.getD 0) % 2 ^ 32).toNat

/-- The low eight bits of `word`. -/
def byte (v : Number) : UInt8 := UInt8.ofNat v.word

/-- The number without its fraction.  NaN counts as zero, and an infinity as
an integer that is larger than every double. -/
def extent : Number → Int
  | .whole n => n
  | .other x =>
      match Double.ofFloat x with
      | .infinite negative => Double.signed negative (2 ^ 1024)
      | d => d.truncate?.getD 0

/-- How many numbers 0, 1, 2, … lie below a limit.  Below infinity there are
more than below any double. -/
def countBelow : Number → Nat
  | .whole n => n.toNat
  | .other x =>
      match Double.ofFloat x with
      | .infinite false => 2 ^ 1024
      | d => (d.floor?.map fun n => (n + 1).toNat).getD 0

/-! ## Arithmetic and order -/

/-- The sum, as a double. -/
def add : Number → Number → Number
  | .whole a, .whole b => .whole (Double.nearest (a + b))
  | a, b => .ofFloat (a.toFloat + b.toFloat)

/-- The difference, as a double. -/
def sub : Number → Number → Number
  | .whole a, .whole b => .whole (Double.nearest (a - b))
  | a, b => .ofFloat (a.toFloat - b.toFloat)

/-- The product, as a double. -/
def mul : Number → Number → Number
  | .whole a, .whole b => .whole (Double.nearest (a * b))
  | a, b => .ofFloat (a.toFloat * b.toFloat)

/-- The remainder of the division by `k`, with the sign of the dividend.  It
is exact. -/
def rem (v : Number) (k : Nat) : Number :=
  match v with
  | .whole n => .whole (Int.tmod n k)
  | .other x => .ofFloat ((Double.ofFloat x).remainder k).toFloat

/-- The quotient by `k`, rounded like a double and then down.  Below
`2 ^ 52` the first rounding does not reach the next whole number. -/
def quotient (v : Number) (k : Nat) : Number :=
  match v with
  | .whole n =>
      if n.natAbs < 2 ^ 52 then .whole (n / k)
      else .ofFloat (floorFloat (Float.ofInt n / Float.ofNat k))
  | .other x => .ofFloat (floorFloat (x / Float.ofNat k))

instance : Add Number := ⟨add⟩
instance : Sub Number := ⟨sub⟩
instance : Mul Number := ⟨mul⟩

/-- Whether a number is below another. -/
def lt : Number → Number → Bool
  | .whole a, .whole b => a < b
  | a, b => a.toFloat < b.toFloat

/-- Whether a number is below another or equal to it. -/
def le : Number → Number → Bool
  | .whole a, .whole b => a ≤ b
  | a, b => a.toFloat ≤ b.toFloat

/-- Small whole numbers have an exact sum. -/
theorem whole_add_whole {a b : Int} (h : (a + b).natAbs ≤ 2 ^ 53) :
    Number.whole a + Number.whole b = .whole (a + b) :=
  congrArg Number.whole (Double.nearest_eq_self h)

/-- Small whole numbers have an exact difference. -/
theorem whole_sub_whole {a b : Int} (h : (a - b).natAbs ≤ 2 ^ 53) :
    Number.whole a - Number.whole b = .whole (a - b) :=
  congrArg Number.whole (Double.nearest_eq_self h)

/-- Small whole numbers have an exact product. -/
theorem whole_mul_whole {a b : Int} (h : (a * b).natAbs ≤ 2 ^ 53) :
    Number.whole a * Number.whole b = .whole (a * b) :=
  congrArg Number.whole (Double.nearest_eq_self h)

theorem word_lt (v : Number) : v.word < 2 ^ 32 := by
  cases v <;> simp only [word] <;> omega

end Number
end Chip8
