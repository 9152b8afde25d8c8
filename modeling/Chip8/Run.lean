/-
# `Chip8.Run` — unattended runs

A run takes a console through a number of frames.  Keys are pressed and
released by schedule: an event takes effect before the first frame whose
number is not below the event's, so its frame may be negative or a fraction.
Events are taken in the order of their frames, and in the order of the list
where frames agree, so the later entry wins.

A fault either ends the run with that frame or is skipped, so that the
program goes on behind the instruction.  The summary counts frames,
completed instructions and frames that ended with the sound on, lists the
faults, and takes the CRC-32 of the pixels as a fingerprint.
-/
import Chip8.Console
import Chip8.Checksum

namespace Chip8

/-- A key that is pressed or released from a frame on. -/
structure KeyEvent where
  frame : Rat
  key : Int
  down : Bool
deriving DecidableEq

/-- A key event as a host lists it, with a double for its frame. -/
structure Cue where
  frame : Float
  key : Int
  down : Bool
deriving DecidableEq

/-- The event that a cue stands for.  Its frame is the exact value of the double,
and an infinity is beyond all frames. -/
def Cue.event (c : Cue) : KeyEvent where
  frame := ((Double.ofFloat c.frame).toRat?).getD (Number.ofFloat c.frame).extent
  key := c.key
  down := c.down

/-- What a fault does to a run. -/
inductive FaultPolicy where
  | halt
  | skip
deriving DecidableEq, Repr

/-- The summary of a run. -/
structure RunSummary where
  frames : Nat
  cycles : Nat
  /-- The run was ended by a fault. -/
  faulted : Bool
  faults : List Fault
  soundFrames : Nat
  crc : UInt32

/-- The word for how a run ended. -/
def RunSummary.reason (r : RunSummary) : String := if r.faulted then "fault" else "done"

namespace Run

/-- Puts an event in front of all that are not earlier. -/
def insertEvent (e : KeyEvent) : List KeyEvent → List KeyEvent
  | [] => [e]
  | f :: rest => if e.frame ≤ f.frame then e :: f :: rest else f :: insertEvent e rest

/-- The events in the order in which they take effect.  Events of one frame
keep their order. -/
def schedule (events : List KeyEvent) : List KeyEvent := events.foldr insertEvent []

theorem insertEvent_perm (e : KeyEvent) (l : List KeyEvent) :
    (insertEvent e l).Perm (e :: l) := by
  induction l with
  | nil => exact .refl _
  | cons f rest ih =>
    unfold insertEvent
    split
    · exact .refl _
    · exact (ih.cons f).trans (.swap e f rest)

/-- The schedule holds the events that were given, and no others. -/
theorem schedule_perm (events : List KeyEvent) : (schedule events).Perm events := by
  induction events with
  | nil => exact .refl _
  | cons e rest ih => exact (insertEvent_perm e _).trans (ih.cons e)

/-- Whether an event takes effect by a frame. -/
def due (frame : Nat) (e : KeyEvent) : Bool := e.frame ≤ (frame : Rat)

/-- Applies events in their order. -/
def applyKeys (s : Console) (events : List KeyEvent) : Console :=
  events.foldl (fun s e => s.setKey e.key e.down) s

/-- A run under way: the next frame, the events still to come, and what the
summary will need. -/
structure Progress where
  console : Console
  frame : Nat
  events : List KeyEvent
  faults : List Fault
  soundFrames : Nat
  log : Array String

/-- Presses and releases the keys that are due. -/
def Progress.pressKeys (p : Progress) : Progress :=
  { p with
    console := applyKeys p.console (p.events.takeWhile (due p.frame))
    events := p.events.dropWhile (due p.frame) }

/-- Takes the report of a frame into account.  Under `skip` the console moves
past a fault. -/
def Progress.record (p : Progress) (policy : FaultPolicy) (s : Console) (fault : Option Fault)
    (log : Array String) : Progress :=
  { p with
    console := if fault.isSome && policy == .skip then s.skip else s
    frame := p.frame + 1
    faults := p.faults ++ fault.toList
    soundFrames := if s.soundActive then p.soundFrames + 1 else p.soundFrames
    log := p.log ++ log }

/-- Runs `n` more frames. -/
def frames (policy : FaultPolicy) (p : Progress) : Nat → Except (Failure × Progress) Progress
  | 0 => .ok p
  | n + 1 =>
      let p := p.pressKeys
      let call := p.console.runFrame frameMs
      match call.answer with
      | .error e => .error (e, { p with console := call.console, log := p.log ++ call.log })
      | .ok report =>
          let p := p.record policy call.console report.fault call.log
          if report.fault.isSome && policy == .halt then .ok p else frames policy p n

/-- The summary of a run that has come to its end. -/
def Progress.summary (p : Progress) (policy : FaultPolicy) : RunSummary where
  frames := p.frame
  cycles := p.console.machine.cpu.cycles
  faulted := policy == .halt && !p.faults.isEmpty
  faults := p.faults
  soundFrames := p.soundFrames
  crc := Checksum.crc32 p.console.machine.display.pixels.bytes 0

/-- The start of a run. -/
def Progress.start (s : Console) (events : List KeyEvent) : Progress :=
  ⟨s, 0, schedule events, [], 0, #[]⟩

end Run

/-- Runs a console for a number of frames. -/
def Console.run (s : Console) (limit : Nat) (policy : FaultPolicy) (events : List KeyEvent) :
    Call RunSummary :=
  match Run.frames policy (Run.Progress.start s events) limit with
  | .error (e, p) => ⟨p.console, .error e, p.log⟩
  | .ok p => ⟨p.console, .ok (p.summary policy), p.log⟩

/-- Puts a program into a new console and runs it. -/
def Console.runRom (asked : Overrides) (env : Environment) (random : RandomSource)
    (data : List UInt8) (limit : Nat) (policy : FaultPolicy) (events : List KeyEvent) :
    Except Failure (Call RunSummary) := do
  let new ← Console.create asked env random
  let loaded := new.loadRom data none
  let () ← loaded.answer
  return loaded.console.run limit policy events

end Chip8
