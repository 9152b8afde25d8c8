/-
# `Chip8.Machine.Step` — fetch, decode, execute

A step fetches the word at the program counter, decodes it, moves the
program counter past it and executes it.  A completed step is counted.  If a
fault stops the step, wherever it arises, the program counter is put back on
the instruction, so that the machine is as it was before.  Other failures
are not the machine's own and leave it where they struck.

`traceLine?` is what an observer may write down about a step that gets as far
as executing: the address, the word, the mnemonic, and the index and the
stack depth from before.
-/
import Chip8.Machine.Execute
import Chip8.Instruction.Mnemonic

namespace Chip8
namespace Machine

/-- The word at the program counter and its instruction. -/
def fetchDecode (m : Machine) : Except Fault (Nat × Instruction Int) :=
  match m.memory.fetch m.cpu.pc with
  | .error f => .error f
  | .ok word => (Instruction.decode word m.cpu.pc).map fun ins => (word, ins)

/-- The machine with its program counter moved by `k`. -/
def movePc (m : Machine) (k : Int) : Machine :=
  { m with cpu := { m.cpu with pc := m.cpu.pcPlus k } }

/-- The machine with its program counter at an address. -/
def setPc (m : Machine) (pc : Int) : Machine := { m with cpu := { m.cpu with pc := pc } }

/-- Putting the program counter back undoes moving it. -/
@[simp] theorem setPc_movePc (m : Machine) (k : Int) : (m.movePc k).setPc m.cpu.pc = m := rfl

/-- The machine with one more completed instruction. -/
def countCycle (m : Machine) : Machine :=
  { m with cpu := { m.cpu with cycles := m.cpu.cycles + 1 } }

/-- Fetches, decodes and executes one instruction. -/
def step (m : Machine) : Machine × Except Failure (Instruction Int) :=
  match m.fetchDecode with
  | .error f => (m, .error (.fault f))
  | .ok (_, ins) =>
      match (m.movePc 2).execute ins with
      | (m', none) => (m'.countCycle, .ok ins)
      | (m', some (.fault f)) => (m'.setPc m.cpu.pc, .error (.fault f))
      | (m', some e) => (m', .error e)

/-- The line about a step that gets as far as executing. -/
def traceLine? (m : Machine) : Option String :=
  match m.fetchDecode with
  | .error _ => none
  | .ok (word, ins) =>
      some ("[cpu] pc=" ++ Fault.dollar m.cpu.pc 3 ++ " op=" ++ Fault.dollar (.whole word) 4 ++
        " " ++ ins.text ++ " I=" ++ Fault.dollar m.cpu.i 3 ++ " sp=" ++ toString m.cpu.sp)

end Machine
end Chip8
