/-
# `Chip8.Fault` — everything that can go wrong, by cause

Three kinds of trouble are kept apart, because the machine treats them
differently.

* A `Fault` is a condition of the machine itself: a word that is no
  instruction, a memory range that leaves the 4 KiB, a call too many, a
  return too many, a program that does not fit.  The scheduler catches it,
  halts the machine and hands it to the host as data.
* A `Rejection` is an argument that no setting admits.  It goes straight
  back to the caller, and nothing has happened.
* A `Failure` is what an operation as a whole may end in: a fault, a
  rejection, a random source that gave out, or an instruction record that
  names no instruction.

Each cause carries the numbers that it is about.  The wording is in one
place, `message`, and the word for the class of trouble is in `name`.
-/
import Chip8.Argument
import Chip8.Number.Hexadecimal

namespace Chip8

/-- What a memory range was wanted for. -/
inductive Access where
  | read
  | write
  | fetch
  | named (purpose : String)
deriving DecidableEq, Repr

/-- The word for an access in a message. -/
def Access.text : Access → String
  | read => "read"
  | write => "write"
  | fetch => "fetch"
  | named purpose => purpose

/-- A condition that halts the machine. -/
inductive Fault where
  | decode (word pc : Number)
  | memoryBounds (address : Number) (access : Access)
  | stackOverflow (pc : Number)
  | stackUnderflow (pc : Number)
  | romCapacity (size capacity : Argument)

namespace Fault

/-- The word by which a report tells faults apart. -/
def kind : Fault → String
  | decode .. => "decode"
  | memoryBounds .. => "memory-bounds"
  | stackOverflow _ => "stack-overflow"
  | stackUnderflow _ => "stack-underflow"
  | romCapacity .. => "rom-capacity"

/-- The name of the fault in a log line. -/
def name : Fault → String
  | decode .. => "DecodeFault"
  | memoryBounds .. => "MemoryBoundsFault"
  | stackOverflow _ => "StackOverflowFault"
  | stackUnderflow _ => "StackUnderflowFault"
  | romCapacity .. => "RomCapacityFault"

/-- An address or a word behind a dollar sign. -/
def dollar (v : Number) (width : Nat) : String := "$" ++ lowerHex v width

/-- The sentence that a host shows. -/
def message : Fault → String
  | decode word pc => "Unknown opcode " ++ dollar word 4 ++ " at " ++ dollar pc 3
  | memoryBounds address access =>
      "Memory " ++ access.text ++ " out of range at " ++ dollar address 3
  | stackOverflow pc =>
      "Stack overflow: call at " ++ dollar pc 3 ++ " with 16 return addresses already pushed"
  | stackUnderflow pc =>
      "Stack underflow: return at " ++ dollar pc 3 ++ " with an empty stack"
  | romCapacity size capacity =>
      "ROM is " ++ size.text ++ " bytes; program space holds " ++ capacity.text

/-- Name and sentence, as one line. -/
def line (f : Fault) : String := f.name ++ ": " ++ f.message

end Fault

/-- An argument that no setting admits. -/
inductive Rejection where
  /-- Elapsed time that is no finite number of milliseconds. -/
  | elapsed (ms : Argument)
  /-- A speed that is no whole number of at least one. -/
  | cyclesPerFrame (n : Argument)
  /-- An afterglow factor that is not a number. -/
  | decay
  /-- Coordinates outside the screen. -/
  | pixel (x y : Argument)
  /-- A copy that would begin past the end, or end past it. -/
  | offset

/-- The sentence that goes back to the caller. -/
def Rejection.message : Rejection → String
  | elapsed ms => "elapsed time must be finite, got " ++ ms.text
  | cyclesPerFrame n => "cyclesPerFrame must be an integer >= 1 (got " ++ n.text ++ ")"
  | decay => "Decay factor must be a number"
  | pixel x y => "Pixel (" ++ x.text ++ ", " ++ y.text ++ ") outside 64x32"
  | offset => "offset is out of bounds"

/-- What an operation may end in instead of a result. -/
inductive Failure where
  | fault (f : Fault)
  | rejected (r : Rejection)
  | randomSource
  | unknownInstruction (text : String)

namespace Failure

/-- The word for the class of trouble. -/
def name : Failure → String
  | fault f => f.name
  | rejected _ => "RangeError"
  | randomSource => "Error"
  | unknownInstruction _ => "Error"

/-- The sentence that goes with it. -/
def message : Failure → String
  | fault f => f.message
  | rejected r => r.message
  | randomSource => "random source failed"
  | unknownInstruction text => "Unhandled instruction " ++ text

/-- Name and sentence, as one line. -/
def line (e : Failure) : String := e.name ++ ": " ++ e.message

end Failure
end Chip8
