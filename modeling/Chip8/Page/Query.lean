/-
# `Chip8.Page.Query` — settings in a page address

Blanks and control characters at the end of an address are not part of it.
What follows the first question mark, up to a number sign, is a list of
names with values.  Pairs are separated by `&`, a name ends at the first
`=`, a plus sign stands for a blank, and `%` with two hexadecimal digits
stands for a byte of UTF-8.  A percent sign without them stands for itself.
Of several pairs of one name the first counts.

A setting is taken from the query only if its value as a whole is a finite
number.  An empty value is zero.
-/
import Chip8.Number.Numeral

namespace Chip8
namespace Query

/-- A text without the blanks and control characters at its end. -/
def trimEnd (cs : List Char) : List Char := (cs.reverse.dropWhile (· ≤ ' ')).reverse

/-- The part of an address behind its question mark, line ends and tabs
apart. -/
def part (address : List Char) : List Char :=
  let kept := (trimEnd address).filter fun c => c != '\t' && c != '\n' && c != '\r'
  ((kept.takeWhile (· != '#')).dropWhile (· != '?')).drop 1

/-- Splits a text at a character. -/
def splitAt (sep : Char) (cs : List Char) : List (List Char) :=
  cs.foldr (fun c parts =>
    match parts with
    | p :: ps => if c = sep then [] :: p :: ps else (c :: p) :: ps
    | [] => [[c]]) [[]]

/-- The bytes of a text in which bytes may be written by percent signs. -/
def decodedBytes : List Char → List UInt8
  | '%' :: a :: b :: r =>
      match digitValue? 16 a, digitValue? 16 b with
      | some x, some y => UInt8.ofNat (x * 16 + y) :: decodedBytes r
      | _, _ => 0x25 :: decodedBytes (a :: b :: r)
  | c :: r => (if c = '+' then [0x20] else c.toString.toUTF8.toList) ++ decodedBytes r
  | [] => []

/-- The text of a name or a value.  Bytes that are no UTF-8 make it the
replacement character. -/
def decode (cs : List Char) : String :=
  (String.fromUTF8? ⟨(decodedBytes cs).toArray⟩).getD "\ufffd"

/-- The pairs of an address. -/
def pairs (address : String) : List (String × String) :=
  let parts := (splitAt '&' (part address.toList)).filter (!·.isEmpty)
  parts.map fun p =>
    (decode (p.takeWhile (· != '=')), decode ((p.dropWhile (· != '=')).drop 1))

/-- The number that an address gives for a name. -/
def number? (address name : String) : Option Number :=
  ((pairs address).lookup name).bind fun value =>
    let n := Number.ofNumeral value
    if n.isFinite then some n else none

end Query
end Chip8
