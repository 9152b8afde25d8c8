/-
# `Chip8.Number.Decimal` — decimal text of a number

Two texts of a double are needed.

**The shortest text.**  Messages show a number with the fewest digits that
read back as the same double, and among those the nearest to it.  A double
`m · 2^e` owns an interval of reals: up to half a step above it, and down to
half a step below it, where the step below a power of two is only half as
long.  The ends belong to the interval exactly when the mantissa is even,
because that is how ties are rounded when a text is read.  On the decimal
grid with `n` significant digits only the two neighbours of the value need
to be tried; the first `n` with a neighbour in the interval wins, and of two
neighbours the nearer, or else the even one.  All of this is compared in
whole numbers, after multiplying with both denominators.

**Two places.**  A label shows the afterglow factor with exactly two
decimal places.  The exact value is rounded to hundredths and a half goes
up.

How digits become text: positional notation while the point stands at most
21 places to the right of the first digit and at most 5 zeros follow the
point before it; otherwise one digit, a fraction, and an exponent with its
sign.
-/
import Chip8.Number

namespace Chip8

/-- The positive number `digits · 10 ^ exponent`. -/
structure Decimal where
  digits : Nat
  exponent : Int
deriving DecidableEq, Repr

namespace Decimal

/-- A ratio of naturals for `m · 10 ^ e`. -/
def ratio10 (m : Nat) : Int → Nat × Nat
  | .ofNat e => (m * 10 ^ e, 1)
  | .negSucc e => (m, 10 ^ (e + 1))

/-- A ratio of naturals for `m · 2 ^ e`. -/
def ratio2 (m : Nat) : Int → Nat × Nat
  | .ofNat e => (m * 2 ^ e, 1)
  | .negSucc e => (m, 2 ^ (e + 1))

/-- Whether one ratio is at most the other. -/
def ratioLe (a b : Nat × Nat) : Bool := a.1 * b.2 ≤ b.1 * a.2

/-- The distance between two ratios, over the product of their
denominators. -/
def ratioGap (a b : Nat × Nat) : Nat :=
  max (a.1 * b.2) (b.1 * a.2) - min (a.1 * b.2) (b.1 * a.2)

/-- The reals that are read as the double `m · 2 ^ e`, in quarters of its
step: the lower end, the upper end, and whether the ends belong to it. -/
structure Interval where
  low : Nat × Nat
  high : Nat × Nat
  closed : Bool

/-- The interval of `m · 2 ^ e`.  Just above a power of two the step below
the value is half as long as the step above it. -/
def Interval.of (m : Nat) (e : Int) : Interval where
  low := ratio2 (4 * m - if m = 2 ^ 52 ∧ e ≠ -1074 then 1 else 2) (e - 2)
  high := ratio2 (4 * m + 2) (e - 2)
  closed := m % 2 = 0

/-- Membership of a ratio in an interval. -/
def Interval.holds (i : Interval) (x : Nat × Nat) : Bool :=
  if i.closed then ratioLe i.low x && ratioLe x i.high
  else !ratioLe x i.low && !ratioLe i.high x

/-- The power of ten of the first significant digit of `m · 2 ^ e`, for
`m > 0`.  The estimate from the binary length is off by one at most. -/
def leadingPower (m : Nat) (e : Int) : Int :=
  let guess := (e + (Nat.log2 m : Int)) * 30103 / 100000
  let v := ratio2 m e
  if ratioLe (ratio10 1 (guess + 1)) v then guess + 1
  else if ratioLe (ratio10 1 guess) v then guess
  else guess - 1

/-- The largest grid point `k · 10 ^ q` that is not above the ratio. -/
def gridBelow (v : Nat × Nat) : Int → Nat
  | .ofNat q => v.1 / (v.2 * 10 ^ q)
  | .negSucc q => v.1 * 10 ^ (q + 1) / v.2

/-- Of `k` and `k + 1`, the one with the smaller gap; of equal gaps, the even
one. -/
def nearer (k gap gapNext : Nat) : Nat :=
  if gap < gapNext then k
  else if gapNext < gap then k + 1
  else if k % 2 = 0 then k else k + 1

/-- Tries the two neighbours of `v` on the grid of step `10 ^ q`. -/
def neighbour? (v : Nat × Nat) (i : Interval) (q : Int) : Option Decimal :=
  let k := gridBelow v q
  let below := ratio10 k q
  let above := ratio10 (k + 1) q
  match i.holds below, i.holds above with
  | true, true =>
      -- the two gaps have the same denominators, so they compare as they stand
      some ⟨nearer k (ratioGap v below) (ratioGap above v), q⟩
  | true, false => some ⟨k, q⟩
  | false, true => some ⟨k + 1, q⟩
  | false, false => none

/-- Goes to finer and finer grids until a neighbour reads back. -/
def refine (v : Nat × Nat) (i : Interval) (q : Int) : Nat → Decimal
  | 0 => ⟨gridBelow v q, q⟩
  | n + 1 =>
      match neighbour? v i q with
      | some d => d
      | none => refine v i (q - 1) n

/-- Drops trailing zeros of the digits. -/
def strip (d : Decimal) : Nat → Decimal
  | 0 => d
  | n + 1 =>
      if d.digits % 10 = 0 then strip ⟨d.digits / 10, d.exponent + 1⟩ n else d

/-- The shortest decimal that reads back as `m · 2 ^ e`, for `m > 0`.
Seventeen significant digits are always enough. -/
def shortest (m : Nat) (e : Int) : Decimal :=
  strip (refine (ratio2 m e) (.of m e) (leadingPower m e) 17) 17

/-- The digits of a natural number in base ten. -/
def digitsOf (n : Nat) : List Char := Nat.toDigits 10 n

/-- Digits with the exponent of the last one, as text. -/
def text (d : Decimal) : List Char :=
  let ds := digitsOf d.digits
  let k : Int := ds.length
  let point := k + d.exponent
  if k ≤ point ∧ point ≤ 21 then ds ++ List.replicate (point - k).toNat '0'
  else if 0 < point ∧ point ≤ 21 then
    ds.take point.toNat ++ '.' :: ds.drop point.toNat
  else if -6 < point ∧ point ≤ 0 then
    '0' :: '.' :: (List.replicate (-point).toNat '0' ++ ds)
  else
    let power := point - 1
    let mark := if power < 0 then '-' else '+'
    let tail := 'e' :: mark :: digitsOf power.natAbs
    match ds with
    | [c] => c :: tail
    | c :: cs => c :: '.' :: (cs ++ tail)
    | [] => tail

end Decimal

/-- A sign in front of a text. -/
def signedText (negative : Bool) (cs : List Char) : List Char :=
  if negative then '-' :: cs else cs

/-- The shortest text of a double. -/
def Double.text : Double → List Char
  | .nan => "NaN".toList
  | .infinite negative => signedText negative "Infinity".toList
  | .finite negative m e =>
      if m = 0 then ['0'] else signedText negative (Decimal.shortest m e).text

/-- The digits of an integer, behind its sign. -/
def integerText (n : Int) : List Char := signedText (n < 0) (Decimal.digitsOf n.natAbs)

/-- The shortest text of a number.  An integer up to `2 ^ 53` has no shorter
one than its digits. -/
def Number.text (v : Number) : String :=
  String.ofList <|
    match v with
    | .whole n => if n.natAbs ≤ 2 ^ 53 then integerText n else (Double.ofFloat v.toFloat).text
    | .other x => (Double.ofFloat x).text

/-- A value in hundredths, a half going up. -/
def Double.hundredths? : Double → Option Int
  | .finite s m (.ofNat e) => some (100 * signed s m * (2 ^ e : Nat))
  | .finite s m (.negSucc e) =>
      some (shiftDown (200 * signed s m + (2 ^ (e + 1) : Nat)) (e + 2))
  | _ => none

/-- A double that is not negative, with two decimal places. -/
def twoPlaces (x : Float) : String :=
  match (Double.ofFloat x).hundredths? with
  | none => (Number.ofFloat x).text
  | some n =>
      let n := n.toNat
      String.ofList (Decimal.digitsOf (n / 100) ++
        '.' :: Nat.digitChar (n / 10 % 10) :: [Nat.digitChar (n % 10)])

end Chip8
