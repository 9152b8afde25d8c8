/-
# `Chip8.Number.Hexadecimal` — addresses, words and bytes in base sixteen

Two spellings are in use.  Messages write a number modulo `2 ^ 32` in lower
case (`lowerHex`); listings write the number itself in upper case, with a
minus sign when it is negative (`upperHex`).  Both are filled up with zeros
on the left to a least width, and a longer number is never cut.  The filling
stands in front of the sign, because it is applied to the finished text.

A listing may have to show a number that is not whole.  The fraction of a
double is a fraction of a power of two, so in base sixteen it ends, and all
of its digits are written.
-/
import Chip8.Number

namespace Chip8

/-- The digits of a natural number in base sixteen, in lower case. -/
def hexDigits (n : Nat) : List Char := Nat.toDigits 16 n

/-- A text filled up with zeros on the left. -/
def zeroFill (width : Nat) (cs : List Char) : List Char := cs.leftpad width '0'

/-- The signed digits of an integer in base sixteen, in upper case. -/
def signedHexDigits (n : Int) : List Char :=
  let ds := (hexDigits n.natAbs).map Char.toUpper
  if n < 0 then '-' :: ds else ds

/-- The digits behind the point of `m / 2 ^ k`, without zeros at their
end. -/
def fractionHexDigits (m k : Nat) : List Char :=
  let places := (k + 3) / 4
  let ds := zeroFill places (hexDigits (m % 2 ^ k * 2 ^ (4 * places - k)))
  (ds.reverse.dropWhile (· == '0')).reverse

/-- The text of a double that is no whole number. -/
def doubleHexText : Double → List Char
  | .nan => "NaN".toList
  | .infinite negative => if negative then "-Infinity".toList else "Infinity".toList
  | .finite negative m (.ofNat e) => (if negative then ['-'] else []) ++ hexDigits (m * 2 ^ e)
  | .finite negative m (.negSucc e) =>
      (if negative then ['-'] else []) ++
        (hexDigits (m / 2 ^ (e + 1)) ++ '.' :: fractionHexDigits m (e + 1))

/-- A number in upper case, as listings show it. -/
def upperHex (v : Number) (width : Nat) : String :=
  match v with
  | .whole n => String.ofList (zeroFill width (signedHexDigits n))
  | .other x =>
      String.ofList (zeroFill width ((doubleHexText (Double.ofFloat x)).map Char.toUpper))

/-- A number modulo `2 ^ 32` in lower case, as messages show it. -/
def lowerHex (v : Number) (width : Nat) : String :=
  String.ofList (zeroFill width (hexDigits v.word))

end Chip8
