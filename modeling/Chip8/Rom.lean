/-
# `Chip8.Rom` — programs

A program is a list of bytes without a header, with a name if it came from a
file.  The only thing that can be wrong with it is its length, so a `Rom`
carries the fact that it fits above the program start.
-/
import Chip8.Memory

namespace Chip8

/-- A program that fits. -/
structure Rom where
  data : List UInt8
  name : Option String
  fits : data.length ≤ programCapacity

/-- Takes bytes as a program, if they fit. -/
def Rom.parse (data : List UInt8) (name : Option String) : Except Fault Rom :=
  if h : data.length ≤ programCapacity then .ok ⟨data, name, h⟩
  else .error (.romCapacity (Number.whole data.length) (Number.whole programCapacity))

end Chip8
