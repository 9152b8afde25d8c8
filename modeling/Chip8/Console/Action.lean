/-
# `Chip8.Console.Action` — host calls as data

Everything that a host can do to a console, one call after another, is an
`Action`.  `perform` carries one out, and `after` goes through a whole list.
A call that is refused leaves the console as it was.
-/
import Chip8.Console

namespace Chip8

/-- A host call. -/
inductive Action where
  | loadRom (data : List UInt8) (name : Option String)
  | reset
  | pause
  | resume
  | skip
  | step
  | frame (ms : Float)
  | setCycles (n : Argument)
  | setDecay (factor : Argument)
  | key (key : Int) (down : Bool)
  | setDelay (value : Number)
  | setSound (value : Number)

/-- What a host call answers. -/
inductive Reply where
  | nothing
  | step (fault : Option Fault)
  | frame (report : Frame)

namespace Console

/-- A call that cannot fail. -/
def quiet (s : Console) : Call Reply := ⟨s, .ok .nothing, #[]⟩

/-- A call with another form of its answer. -/
def answering {α : Type} (c : Call α) (f : α → Reply) : Call Reply :=
  ⟨c.console, c.answer.map f, c.log⟩

/-- Carries out a host call. -/
def perform (s : Console) : Action → Call Reply
  | .loadRom data name => answering (s.loadRom data name) fun _ => .nothing
  | .reset => s.reset.quiet
  | .pause => s.pause.quiet
  | .resume => s.resume.quiet
  | .skip => s.skip.quiet
  | .step => answering s.stepInstruction .step
  | .frame ms => answering (s.runFrame ms) .frame
  | .setCycles n => answering (s.setCyclesPerFrame n) fun _ => .nothing
  | .setDecay d => answering (s.setDecay d) fun _ => .nothing
  | .key k down => (s.setKey k down).quiet
  | .setDelay v => (s.setDelayTimer v).quiet
  | .setSound v => (s.setSoundTimer v).quiet

/-- The console after a list of host calls. -/
def after (s : Console) (actions : List Action) : Console :=
  actions.foldl (fun s a => (s.perform a).console) s

end Console
end Chip8
