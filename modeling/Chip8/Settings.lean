/-
# `Chip8.Settings` — speed and afterglow

Two settings can be chosen: how many instructions are executed per frame,
and the factor of the afterglow.  What is asked for explicitly wins over the
environment, which wins over the defaults.  A text in the environment is
read as far as it is a number, the speed as an integer and the factor as a
decimal, and is then held to the same rules as a number that is asked for:
the speed is a whole number of at least one, and the factor is a number and
is kept in bounds.  The speed is checked first.
-/
import Chip8.Display
import Chip8.Environment
import Chip8.Number.Numeral

namespace Chip8

/-- Instructions per frame if nobody chooses. -/
def defaultCyclesPerFrame : Number := .whole 10

/-- What a host asks for explicitly. -/
structure Overrides where
  cyclesPerFrame : Option Number
  decay : Option Number

/-- Nothing is asked for. -/
def Overrides.none : Overrides := ⟨.none, .none⟩

/-- The settings in force. -/
structure Settings where
  cyclesPerFrame : Nat
  decay : Float

namespace Settings

/-- A speed that a host asks for: a whole number of at least one. -/
def admitCycles : Argument → Except Failure Nat
  | .number (.whole n) =>
      if 1 ≤ n then .ok n.toNat
      else .error (.rejected (.cyclesPerFrame (.number (.whole n))))
  | n => .error (.rejected (.cyclesPerFrame n))

/-- The first number that is there. -/
def choose (override : Option Number) (text : Option String) (read : String → Number)
    (default : Number) : Number :=
  match override, text with
  | some n, _ => n
  | none, some s => read s
  | none, none => default

/-- The settings from what is asked for and from the environment. -/
def resolve (asked : Overrides) (env : String → Option String) : Except Failure Settings :=
  let cycles := choose asked.cyclesPerFrame (env "CHIP8_CYCLES_PER_FRAME")
    Number.ofIntegerPrefix defaultCyclesPerFrame
  let decay := choose asked.decay (env "CHIP8_DECAY")
    Number.ofDecimalPrefix (.other defaultDecay)
  match admitCycles cycles with
  | .error e => .error e
  | .ok n =>
      match admitDecay decay with
      | .error e => .error e
      | .ok d => .ok ⟨n, d⟩

end Settings
end Chip8
