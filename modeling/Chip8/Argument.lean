/-
# `Chip8.Argument` — what a host hands in where a number is due

Where a host hands in a number it may also hand in something else.  It
leaves the argument out, or puts an explicit `null` in its place, or a flag,
or a text.  Most calls have a default for what is left out.  The others go
on and compute with what they have:

| argument | as a number | as a text |
| :-- | :-- | :-- |
| `absent` | NaN | `undefined` |
| `null` | zero | `null` |
| `flag b` | one or zero | `true` or `false` |
| `string s` | the number that `s` denotes | `s` |
| `number n` | `n` | the shortest text of `n` |

A sum in which a text takes part is the two texts one after the other; any
other is the sum of the numbers.  Two arguments are the same only if they
are of one kind, and NaN is not the same as itself.
-/
import Chip8.Number.Decimal
import Chip8.Number.Numeral

namespace Chip8

/-- A number from outside, or something in its place. -/
inductive Argument where
  | absent
  | null
  | flag (b : Bool)
  | string (s : String)
  | number (n : Number)
deriving DecidableEq

instance : Coe Number Argument := ⟨.number⟩

namespace Argument

/-- The number that an argument counts as. -/
def toNumber : Argument → Number
  | absent => .nan
  | null => .whole 0
  | flag b => .whole (if b then 1 else 0)
  | string s => .ofNumeral s
  | number n => n

/-- The argument in a message. -/
def text : Argument → String
  | absent => "undefined"
  | null => "null"
  | flag b => if b then "true" else "false"
  | string s => s
  | number n => n.text

/-- The argument without its fraction, modulo `2 ^ 32`. -/
def word (a : Argument) : Nat := a.toNumber.word

/-- The low eight bits of `word`. -/
def byte (a : Argument) : UInt8 := a.toNumber.byte

/-- Whether the argument is a text. -/
def isString : Argument → Bool
  | string _ => true
  | _ => false

/-- The sum, or the two texts one after the other. -/
def add (a b : Argument) : Argument :=
  if a.isString || b.isString then string (a.text ++ b.text)
  else number (a.toNumber + b.toNumber)

instance : Add Argument := ⟨add⟩

/-- Whether two arguments are the same. -/
def same : Argument → Argument → Bool
  | number a, number b => Number.le a b && Number.le b a
  | number _, _ => false
  | a, b => a = b

/-- Whether an argument is above another or equal to it.  Two texts are
compared as texts. -/
def atLeast : Argument → Argument → Bool
  | string s, string t => t ≤ s
  | a, b => Number.le b.toNumber a.toNumber

end Argument
end Chip8
