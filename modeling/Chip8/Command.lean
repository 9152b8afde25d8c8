/-
# `Chip8.Command` — what the command lines share

A command reads its options from the environment and from its arguments, of
which later ones win.  It names one program file.  What stands behind that
name is looked up by the outer layer, which hands in the `Lookup`; the
outcome of a command is a list of lines for each of the two outputs, an exit
code, and perhaps a picture to be written.
-/
import Chip8.Number.Numeral

namespace Chip8

/-- What stands behind the name of a file. -/
inductive Lookup where
  | missing
  | directory
  | file (bytes : List UInt8)

/-- A picture to be written: where, at which scale, and its pixels. -/
structure PictureFile where
  path : String
  scale : Nat
  buffer : ByteArray

/-- What a command leaves behind. -/
structure Outcome where
  exitCode : Nat
  out : List String
  err : List String
  picture : Option PictureFile

namespace Command

/-- A command that only complains. -/
def complain (exitCode : Nat) (line : String) : Outcome := ⟨exitCode, [], [line], none⟩

/-- The complaint about a directory in the place of a file. -/
def directoryError : String := "Error: EISDIR: illegal operation on a directory, read"

/-- The value of an option, if the argument is one: the text behind its
name and the equals sign. -/
def optionValue? (name argument : String) : Option String :=
  let start := ("--" ++ name ++ "=").toList
  if start.isPrefixOf argument.toList then
    some (String.ofList (argument.toList.drop start.length))
  else none

/-- Whether an argument is an option. -/
def isOption (argument : String) : Bool := "--".toList.isPrefixOf argument.toList

/-- A count: the integer that a text starts with, or zero if there is none,
if it is negative, or if it is too large for a double. -/
def count (text : String) : Nat :=
  match Number.ofIntegerPrefix text with
  | .whole n => n.toNat
  | .other _ => 0

/-- The last component of a path, slashes at its end apart. -/
def baseName (path : String) : String :=
  let stripped := path.toList.reverse.dropWhile (· == '/')
  String.ofList (stripped.takeWhile (· != '/')).reverse

/-- What stands before the last slash of a path. -/
def directoryName (path : String) : String :=
  String.ofList ((path.toList.reverse.dropWhile (· != '/')).drop 1).reverse

end Command
end Chip8
