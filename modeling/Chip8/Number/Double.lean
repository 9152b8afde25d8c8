/-
# `Chip8.Number.Double` — what the 64 bits of a double stand for

Most of the machine counts in whole numbers.  Three things do not: the
elapsed milliseconds that drive the timers, the afterglow of the screen,
and the numbers that a host hands in.  Those are doubles, and their exact
value decides what is shown: whether an address is whole, how many ticks
have fired, which byte a colour rounds to.

`Double.ofFloat` reads the sign, the exponent and the mantissa out of the
bit pattern.  Everything that has to be exact is then arithmetic on `Nat`
and `Int`:

    finite s m e   stands for   ±m · 2^e

so rounding down, rounding to the nearest and cutting off the fraction are
integer divisions and carry no rounding of their own.

The other direction is needed for counters.  A counter that is kept in a
double is an exact integer up to `2 ^ 53`; beyond that, adding two to it may
add four, or nothing at all.  `Double.nearest` is that rounding, again in
integers only, and `nearest_eq_self` says that small numbers never notice.
-/

namespace Chip8

/-- Powers are those of the core library, whatever else a module imports. -/
@[default_instance 10001]
instance (priority := 1100) corePow {α : Type} [NatPow α] : Pow α Nat := instPowNat

/-- The meaning of a bit pattern: not a number, an infinity, or the exact
value `±mantissa · 2 ^ exponent`. -/
inductive Double where
  | nan
  | infinite (negative : Bool)
  | finite (negative : Bool) (mantissa : Nat) (exponent : Int)
deriving DecidableEq, Repr

namespace Double

/-- Splits a 64-bit pattern into its fields.  A zero exponent field marks
the subnormal numbers, a full one the infinities and the NaNs. -/
def ofBits (bits : Nat) : Double :=
  let negative := bits / 2 ^ 63 % 2 == 1
  let field : Nat := bits / 2 ^ 52 % 2048
  let fraction := bits % 2 ^ 52
  if field = 2047 then
    if fraction = 0 then .infinite negative else .nan
  else if field = 0 then .finite negative fraction (-1074)
  else .finite negative (fraction + 2 ^ 52) ((field : Int) - 1075)

/-- The meaning of a floating-point value. -/
def ofFloat (x : Float) : Double := ofBits x.toBits.toNat

/-- The mantissa with its sign. -/
def signed (negative : Bool) (mantissa : Nat) : Int :=
  if negative then -(mantissa : Int) else mantissa

/-- The quotient `n / 2 ^ k`, rounded down. -/
def shiftDown (n : Int) (k : Nat) : Int := n / (2 ^ k : Nat)

/-- The largest whole number that is not above the value. -/
def floor? : Double → Option Int
  | .finite s m (.ofNat e) => some (signed s m * (2 ^ e : Nat))
  | .finite s m (.negSucc e) => some (shiftDown (signed s m) (e + 1))
  | _ => none

/-- The nearest whole number; of two that are equally near, the larger. -/
def round? : Double → Option Int
  | .finite s m (.ofNat e) => some (signed s m * (2 ^ e : Nat))
  | .finite s m (.negSucc e) =>
      some (shiftDown (2 * signed s m + (2 ^ (e + 1) : Nat)) (e + 2))
  | _ => none

/-- The whole number that is left when the fraction is cut off. -/
def truncate? : Double → Option Int
  | .finite s m (.ofNat e) => some (signed s m * (2 ^ e : Nat))
  | .finite s m (.negSucc e) => some (signed s (m / 2 ^ (e + 1)))
  | _ => none

/-- The value itself, if it is a whole number. -/
def whole? : Double → Option Int
  | .finite s m (.ofNat e) => some (signed s m * (2 ^ e : Nat))
  | .finite s m (.negSucc e) =>
      if m % 2 ^ (e + 1) = 0 then some (signed s (m / 2 ^ (e + 1))) else none
  | _ => none

/-- The exact value of a finite double as a fraction. -/
def toRat? : Double → Option Rat
  | .finite s m (.ofNat e) => some (signed s m * (2 ^ e : Nat) : Int)
  | .finite s m (.negSucc e) => some (mkRat (signed s m) (2 ^ (e + 1)))
  | _ => none

/-- What is left of the value when it is divided by `k` with a whole
quotient that is cut off.  It has the sign of the value and is a double
again. -/
def remainder (k : Nat) : Double → Double
  | .finite s m (.ofNat e) => .finite s (m * 2 ^ e % k) 0
  | .finite s m (.negSucc e) => .finite s (m % (k * 2 ^ (e + 1))) (.negSucc e)
  | _ => .nan

/-- The floating-point value with a meaning. -/
def toFloat : Double → Float
  | .nan => 0.0 / 0.0
  | .infinite negative => if negative then -1.0 / 0.0 else 1.0 / 0.0
  | .finite s m e =>
      let x := (Float.ofNat m).scaleB e
      if s then -x else x

/-! ## Integers as doubles -/

/-- The quotient `m / 2 ^ k` as a whole number, a half going to the even
neighbour. -/
def halfEven (m k : Nat) : Nat :=
  let q := m / 2 ^ k
  let twice := 2 * (m % 2 ^ k)
  if twice < 2 ^ k ∨ (twice = 2 ^ k ∧ q % 2 = 0) then q else q + 1

/-- The double nearest to an integer, of which the leading 53 binary digits
are kept. -/
def nearest (n : Int) : Int :=
  if n.natAbs ≤ 2 ^ 53 then n
  else
    let k := Nat.log2 n.natAbs - 52
    signed (n < 0) (halfEven n.natAbs k * 2 ^ k)

/-- Up to `2 ^ 53` every integer is a double. -/
theorem nearest_eq_self {n : Int} (h : n.natAbs ≤ 2 ^ 53) : nearest n = n := if_pos h

end Double

/-- The largest whole double that is not above `x`; an infinity and NaN
stay what they are. -/
def floorFloat (x : Float) : Float :=
  match Double.ofFloat x with
  | .finite s m (.negSucc e) => Float.ofInt (Double.shiftDown (Double.signed s m) (e + 1))
  | _ => x

end Chip8
