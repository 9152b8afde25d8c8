/-
# `Chip8.Trace` — a run instruction by instruction

A trace lists each instruction before it is executed, with the registers as
they are then.  Where the program counter stands so that no whole word can
be read, the line shows question marks, and the step that follows reports
the fault.  A fault ends the trace with a line of its own.
-/
import Chip8.Console
import Chip8.Listing

namespace Chip8

/-- A countdown in base sixteen. -/
def Countdown.hex (c : Countdown) : String := upperHex c.toNumber 2

namespace Console

/-- The index, the stack depth, the delay timer and the registers. -/
def registerText (s : Console) : String :=
  let c := s.machine.cpu
  let regs := c.v.toList.map fun b => upperHex b.toNat 2
  "I:" ++ upperHex c.i 3 ++ " SP:" ++ toString c.sp ++ " DT:" ++ s.machine.timers.delay.hex ++
    " V:" ++ String.intercalate " " regs

/-- The listing line at the program counter. -/
def listingText (s : Console) : String :=
  let pc := s.machine.cpu.pc
  let read := fun (a : Number) => (s.machine.memory.read a).map fun b => Number.whole b.toNat
  match Line.at? read pc with
  | .ok line => line.format
  | .error _ => upperHex pc 3 ++ "  ????  ??"

/-- A text filled up with blanks on the right. -/
def padRight (width : Nat) (text : String) : String :=
  text ++ String.ofList (List.replicate (width - text.length) ' ')

/-- The line about the instruction to come. -/
def traceText (s : Console) : String := padRight 30 s.listingText ++ " " ++ s.registerText

/-- The line about a fault that ends a trace. -/
def faultText (f : Fault) : String := "[fault] " ++ f.kind ++ ": " ++ f.message

/-- Traces up to `n` instructions, after the lines that are there already. -/
def traceFrom (s : Console) (lines log : Array String) : Nat → Call (Array String)
  | 0 => ⟨s, .ok lines, log⟩
  | n + 1 =>
      let lines := lines.push s.traceText
      let call := s.stepInstruction
      match call.answer with
      | .error e => ⟨call.console, .error e, log ++ call.log⟩
      | .ok (some f) => ⟨call.console, .ok (lines.push (faultText f)), log ++ call.log⟩
      | .ok none => traceFrom call.console lines (log ++ call.log) n

/-- Traces up to `n` instructions. -/
def trace (s : Console) (n : Nat) : Call (Array String) := s.traceFrom #[] #[] n

end Console
end Chip8
