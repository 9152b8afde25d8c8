/-
# `Chip8.Number.Numeral` — numbers written as text

Settings arrive as text: environment variables, command line options, the
text of a slider, the query of a page address.  Three readings are in use,
and they differ in how much of the text has to be a number.

| | reads | when there is no number |
| :-- | :-- | :-- |
| `Number.ofIntegerPrefix` | blanks, a sign, decimal digits; ignores the rest | NaN |
| `Number.ofDecimalPrefix` | blanks, the longest decimal numeral; ignores the rest | NaN |
| `Number.ofNumeral` | the whole text, blanks at both ends apart | NaN, and zero for an empty text |

A decimal numeral is a sign, then `Infinity`, or digits with an optional
point and an optional exponent; at least one digit stands beside the point.
A whole text may also be unsigned hexadecimal, octal or binary (`0x`, `0o`,
`0b`).

The result is the double nearest to the number that is written.  The digits
are gathered into one natural number and a power of ten, and only this pair
is rounded.  A power beyond the range of doubles is answered without being
computed, so a text of a few characters cannot ask for a huge power.
-/
import Chip8.Number

namespace Chip8

/-- Blanks and line ends of the Unicode standard, and the byte order
mark. -/
def isBlank (c : Char) : Bool :=
  let n := c.toNat
  (9 ≤ n && n ≤ 13) || n == 32 || n == 0xA0 || n == 0x1680 || (0x2000 ≤ n && n ≤ 0x200A) ||
    n == 0x2028 || n == 0x2029 || n == 0x202F || n == 0x205F || n == 0x3000 || n == 0xFEFF

/-- The text without blanks at its start. -/
def skipBlanks (cs : List Char) : List Char := cs.dropWhile isBlank

/-- The text without blanks at both ends. -/
def trimBlanks (cs : List Char) : List Char :=
  (skipBlanks (skipBlanks cs).reverse).reverse

/-- The value of a digit in a base of at most sixteen. -/
def digitValue? (base : Nat) (c : Char) : Option Nat :=
  let n := c.toNat
  let d? :=
    if 48 ≤ n ∧ n ≤ 57 then some (n - 48)
    else if 97 ≤ n ∧ n ≤ 102 then some (n - 87)
    else if 65 ≤ n ∧ n ≤ 70 then some (n - 55)
    else none
  d?.filter (· < base)

/-- The digits at the start of a text, and the rest. -/
def spanDigits (base : Nat) (cs : List Char) : List Nat × List Char :=
  let isDigit := fun c => (digitValue? base c).isSome
  ((cs.takeWhile isDigit).filterMap (digitValue? base), cs.dropWhile isDigit)

/-- The natural number with these digits. -/
def ofDigits (base : Nat) (ds : List Nat) : Nat :=
  ds.foldl (fun n d => n * base + d) 0

/-- A sign at the start of a text: whether it is a minus, and the rest. -/
def takeSign : List Char → Bool × List Char
  | '-' :: r => (true, r)
  | '+' :: r => (false, r)
  | r => (false, r)

/-- The double nearest to `m · 10 ^ e`.  Beyond `10 ^ 310` that is an
infinity and below `10 ^ -330` it is zero. -/
def nearestDouble (m : Nat) (e : Int) : Float :=
  let size : Int := (Nat.toDigits 10 m).length
  if m = 0 then 0.0
  else if 310 < size + e then 1.0 / 0.0
  else if size + e < -330 then 0.0
  else
    match e with
    | .ofNat k => Float.ofScientific m false k
    | .negSucc k => Float.ofScientific m true (k + 1)

/-- A numeral without its sign: infinity, or `digits · 10 ^ exponent`. -/
inductive Magnitude where
  | infinity
  | decimal (digits : Nat) (exponent : Int)
deriving DecidableEq, Repr

namespace Magnitude

/-- The number that a sign and a magnitude stand for. -/
def toNumber (negative : Bool) : Magnitude → Number
  | infinity => .other (if negative then -1.0 / 0.0 else 1.0 / 0.0)
  | decimal m e =>
      let x := nearestDouble m e
      .ofFloat (if negative then -x else x)

/-- An exponent at the start of a text, if its digits are there, and the
rest. -/
def exponentPart : List Char → Int × List Char
  | c :: r =>
      if c = 'e' ∨ c = 'E' then
        let (negative, r') := takeSign r
        match spanDigits 10 r' with
        | ([], _) => (0, c :: r)
        | (ds, rest) =>
            let n : Int := ofDigits 10 ds
            (if negative then -n else n, rest)
      else (0, c :: r)
  | [] => (0, [])

/-- The digits after a point at the start of a text, and the rest.  A point
without digits is taken only if digits came before it. -/
def fractionPart (before : List Nat) : List Char → List Nat × List Char
  | '.' :: r =>
      match spanDigits 10 r with
      | ([], _) => if before.isEmpty then ([], '.' :: r) else ([], r)
      | (ds, rest) => (ds, rest)
  | r => ([], r)

/-- The longest unsigned decimal numeral at the start of a text. -/
def span? (cs : List Char) : Option (Magnitude × List Char) :=
  if "Infinity".toList.isPrefixOf cs then some (.infinity, cs.drop 8)
  else
    let (ds, r) := spanDigits 10 cs
    let (fs, r) := fractionPart ds r
    if ds.isEmpty && fs.isEmpty then none
    else
      let (e, r) := exponentPart r
      some (.decimal (ofDigits 10 (ds ++ fs)) (e - fs.length), r)

end Magnitude

/-- An unsigned whole text in base sixteen, eight or two. -/
def basedNumeral? : List Char → Option Nat
  | '0' :: c :: r =>
      let base? :=
        if c = 'x' ∨ c = 'X' then some 16
        else if c = 'o' ∨ c = 'O' then some 8
        else if c = 'b' ∨ c = 'B' then some 2
        else none
      match base? with
      | none => none
      | some base =>
          match spanDigits base r with
          | ([], _) => none
          | (ds, []) => some (ofDigits base ds)
          | (_, _ :: _) => none
  | _ => none

namespace Number

/-- The integer that a text starts with. -/
def ofIntegerPrefix (text : String) : Number :=
  let (negative, r) := takeSign (skipBlanks text.toList)
  match spanDigits 10 r with
  | ([], _) => .nan
  | (ds, _) => (Magnitude.decimal (ofDigits 10 ds) 0).toNumber negative

/-- The decimal number that a text starts with. -/
def ofDecimalPrefix (text : String) : Number :=
  let (negative, r) := takeSign (skipBlanks text.toList)
  match Magnitude.span? r with
  | none => .nan
  | some (m, _) => m.toNumber negative

/-- The number that a whole text denotes. -/
def ofNumeral (text : String) : Number :=
  match trimBlanks text.toList with
  | [] => .whole 0
  | cs =>
      match basedNumeral? cs with
      | some n => (Magnitude.decimal n 0).toNumber false
      | none =>
          let (negative, r) := takeSign cs
          match Magnitude.span? r with
          | some (m, []) => m.toNumber negative
          | _ => .nan

end Number
end Chip8
