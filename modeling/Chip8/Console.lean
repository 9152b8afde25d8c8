/-
# `Chip8.Console` — the machine as a host drives it

A console is a machine with a program, the settings, and three marks of the
scheduler: paused, halted, and the last fault.  A host drives it one frame
or one instruction at a time.

**A frame** is, in this order: as many instructions as the speed says, the
60 Hz timers for the elapsed wall-clock time, one step of the afterglow, and
the question whether anything was drawn.  A fault ends the instructions of
the frame, not the frame.  A halted machine executes nothing, but its timers
and its afterglow go on; a paused one executes nothing and its timers stand
still.

**A fault** halts the machine and is kept as the last fault.  `resume` lifts
the halt, so that the same instruction is tried again, and `skip` moves past
it.  `reset` is power-on with the program in place: only the pause, the
settings, the random source and the bytes below the program start stay.

What a host call leaves behind is a `Call`: the console, the answer or the
failure that kept the call from answering, and the lines that were logged on
the way.  The console is there in either case, since a failing random source
strikes in the middle of things.
-/
import Chip8.Machine.Step
import Chip8.Settings
import Chip8.Rom

namespace Chip8

/-- Milliseconds in a frame. -/
def frameMs : Float := 1000.0 / 60.0

/-- A machine with a program, settings and the marks of the scheduler. -/
structure Console where
  machine : Machine
  rom : Option Rom
  cyclesPerFrame : Nat
  paused : Bool
  halted : Bool
  lastFault : Option Fault
  traceSteps : Bool
  traceFaults : Bool

/-- What a host call leaves behind. -/
structure Call (α : Type) where
  console : Console
  answer : Except Failure α
  log : Array String

/-- What a frame reports. -/
structure Frame where
  executed : Nat
  timerTicks : Float
  drew : Bool
  fault : Option Fault

namespace Console

/-! ## Construction and settings -/

/-- A new console without a program.  Whether steps and faults are logged is
decided here, by the environment. -/
def create (asked : Overrides) (env : Environment) (random : RandomSource) :
    Except Failure Console :=
  (Settings.resolve asked env.get?).map fun s =>
    { machine := Machine.initial s.decay random
      rom := none
      cyclesPerFrame := s.cyclesPerFrame
      paused := false
      halted := false
      lastFault := none
      traceSteps := env.flag "CHIP8_TRACE"
      traceFaults := env.flag "CHIP8_TRACE_FAULTS" }

/-- The settings in force. -/
def settings (s : Console) : Settings := ⟨s.cyclesPerFrame, s.machine.display.decay⟩

/-- A call that was carried out, with nothing to answer. -/
def granted (s : Console) : Call Unit := ⟨s, .ok (), #[]⟩

/-- A call that was refused, with the console as it is by then. -/
def refused (s : Console) (e : Failure) : Call Unit := ⟨s, .error e, #[]⟩

/-- Sets the speed. -/
def setCyclesPerFrame (s : Console) (n : Argument) : Call Unit :=
  match Settings.admitCycles n with
  | .error e => s.refused e
  | .ok n => { s with cyclesPerFrame := n }.granted

/-- Sets the factor of the afterglow. -/
def setDecay (s : Console) (d : Argument) : Call Unit :=
  match s.machine.display.setDecay d with
  | .error e => s.refused e
  | .ok display => { s with machine := { s.machine with display := display } }.granted

/-- Presses or releases a key. -/
def setKey (s : Console) (key : Int) (down : Bool) : Console :=
  { s with machine := { s.machine with keypad := s.machine.keypad.set key down } }

/-- Sets the delay timer. -/
def setDelayTimer (s : Console) (value : Number) : Console :=
  { s with machine := { s.machine with timers := s.machine.timers.setDelay value } }

/-- Sets the sound timer. -/
def setSoundTimer (s : Console) (value : Number) : Console :=
  { s with machine := { s.machine with timers := s.machine.timers.setSound value } }

/-- Whether the sound is on. -/
def soundActive (s : Console) : Bool := s.machine.timers.soundActive

/-! ## Programs and reset -/

/-- Memory after a reset, with a program in place. -/
def bootMemory (m : Memory) : Option Rom → Memory
  | none => m.reset
  | some rom => m.reset.put programStart rom.data

/-- The machine at power-on, with a program in place. -/
def bootMachine (m : Machine) (rom : Option Rom) : Machine where
  cpu := Cpu.initial programStart
  memory := bootMemory m.memory rom
  display := m.display.reset
  timers := Timers.initial
  keypad := Keypad.initial
  random := m.random

/-- Power-on with the same program. -/
def reset (s : Console) : Console :=
  { s with machine := bootMachine s.machine s.rom, halted := false, lastFault := none }

/-- Puts a program in and resets.  One that does not fit changes nothing. -/
def loadRom (s : Console) (data : List UInt8) (name : Option String) : Call Unit :=
  match Rom.parse data name with
  | .error f => s.refused (.fault f)
  | .ok rom => { s with rom := some rom }.reset.granted

/-! ## Pause and halt -/

/-- Stops executing until `resume`. -/
def pause (s : Console) : Console := { s with paused := true }

/-- Lifts a pause and a halt.  The last fault stays on record. -/
def resume (s : Console) : Console := { s with paused := false, halted := false }

/-- Moves past the instruction that halted the machine. -/
def skip (s : Console) : Console :=
  if s.halted then
    { s with
      machine := { s.machine with cpu := s.machine.cpu.skip }
      halted := false
      lastFault := none }
  else s

/-! ## Instructions -/

/-- The line about the step to come, if steps are logged. -/
def stepLog (s : Console) : Array String :=
  if s.traceSteps then s.machine.traceLine?.toArray else #[]

/-- The line about a fault, if faults are logged. -/
def faultLog (s : Console) (f : Fault) : Array String :=
  if s.traceFaults then #["[sys] " ++ f.line] else #[]

/-- The console halted by a fault. -/
def halt (s : Console) (f : Fault) : Console := { s with halted := true, lastFault := some f }

/-- One step of the machine.  A fault halts it and becomes the answer. -/
def attempt (s : Console) : Call (Option Fault) :=
  match s.machine.step with
  | (m, .ok _) => ⟨{ s with machine := m }, .ok none, s.stepLog⟩
  | (m, .error (.fault f)) =>
      ⟨{ s with machine := m }.halt f, .ok (some f), s.stepLog ++ s.faultLog f⟩
  | (m, .error e) => ⟨{ s with machine := m }, .error e, s.stepLog⟩

/-- A single instruction, paused or not.  A halted machine answers with its
last fault. -/
def stepInstruction (s : Console) : Call (Option Fault) :=
  if s.halted then ⟨s, .ok s.lastFault, #[]⟩ else s.attempt

/-! ## Frames -/

/-- Up to `n` instructions, ending with the first that does not complete.
The answer counts the completed ones, beginning at `executed`. -/
def burst (s : Console) (executed : Nat) (log : Array String) :
    Nat → Call (Nat × Option Fault)
  | 0 => ⟨s, .ok (executed, none), log⟩
  | n + 1 =>
      let call := s.attempt
      match call.answer with
      | .ok none => burst call.console (executed + 1) (log ++ call.log) n
      | .ok (some f) => ⟨call.console, .ok (executed, some f), log ++ call.log⟩
      | .error e => ⟨call.console, .error e, log ++ call.log⟩

/-- The instructions of a frame. -/
def frameBurst (s : Console) : Call (Nat × Option Fault) :=
  if s.paused || s.halted then ⟨s, .ok (0, none), #[]⟩
  else s.burst 0 #[] s.cyclesPerFrame

/-- Lets wall-clock time pass for the timers, unless paused. -/
def advanceTimers (s : Console) (ms : Float) : Console × Float :=
  if s.paused then (s, 0.0)
  else
    let (timers, fired) := s.machine.timers.advance ms
    ({ s with machine := { s.machine with timers := timers } }, fired)

/-- One step of the afterglow. -/
def advanceGlow (s : Console) : Console :=
  { s with machine := { s.machine with display := s.machine.display.advanceFrame } }

/-- Whether anything was drawn since the last frame. -/
def consumeDirty (s : Console) : Console × Bool :=
  let (display, drew) := s.machine.display.consumeDirty
  ({ s with machine := { s.machine with display := display } }, drew)

/-- What follows the instructions of a frame. -/
def closeFrame (s : Console) (ms : Float) (executed : Nat) (fault : Option Fault) :
    Console × Frame :=
  let (s, ticks) := s.advanceTimers ms
  let (s, drew) := s.advanceGlow.consumeDirty
  (s, ⟨executed, ticks, drew, fault⟩)

/-- One frame of `ms` milliseconds. -/
def runFrame (s : Console) (ms : Float) : Call Frame :=
  if ms.isFinite then
    let call := s.frameBurst
    match call.answer with
    | .error e => ⟨call.console, .error e, call.log⟩
    | .ok (executed, fault) =>
        let (s, frame) := call.console.closeFrame ms executed fault
        ⟨s, .ok frame, call.log⟩
  else ⟨s, .error (.rejected (.elapsed (Number.ofFloat ms))), #[]⟩

end Console

/-- Lets `ms` milliseconds pass for bare timers; they must be finite. -/
def Timers.elapse (t : Timers Float) (ms : Argument) : Except Failure (Timers Float × Float) :=
  if ms.toNumber.isFinite then .ok (t.advance ms.toNumber.toFloat)
  else .error (.rejected (.elapsed ms))

end Chip8
