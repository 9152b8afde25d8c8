/-
# `Chip8.Page` — the machine on a page

A page shows the screen and has four buttons, two sliders and a file input.
It is a state machine: `open?` builds the page, if the document has all it
needs, and `handle` takes it from event to event.

**Loading a program.**  Choosing a file only starts to read it.  The read
ends later, in an event of its own, and several reads may be under way, to
end in any order.  When one ends, its bytes become the program of the page.

**Frames.**  Once started the page asks for one animation frame after
another, and each one runs a frame of the machine for the time since the one
before.  The first one after a start counts as one sixtieth of a second, and
none counts for more than a tenth, so that a page in the background does not
catch up.  A frame whose time stamp is not finite is refused, and then no
further one is asked for.

**Sound.**  There is no sound before the first start.  From then on the
beeper follows the sound timer, frame by frame.

Texts: the status line tells what happened last; the two labels and the two
sliders show the settings in force, unless setting them failed.  What went
wrong is also logged, a line for each error.
-/
import Chip8.Console
import Chip8.Picture
import Chip8.Page.Fullscreen
import Chip8.Page.Keymap
import Chip8.Page.Query

namespace Chip8

/-- A chosen file: its name, and what reading it will give. -/
structure PageFile where
  name : String
  contents : Except Trouble (List UInt8)

/-- The beeper: not there yet, sounding, or silent. -/
inductive Beep where
  | absent
  | sounding
  | silent
deriving DecidableEq, Repr

/-- The beeper once sound is wanted: silent at first. -/
def Beep.wake : Beep → Beep
  | absent => silent
  | b => b

/-- A page. -/
structure Page where
  console : Console
  /-- The program that a start puts in. -/
  program : Option (List UInt8)
  /-- The files that are being read, in the order in which they were
  chosen. -/
  reads : List PageFile
  running : Bool
  lastStamp : Float
  status : String
  speed : String
  speedLabel : String
  decay : String
  decayLabel : String
  beep : Beep
  resumes : Nat
  draws : Nat
  /-- The intensities that were drawn last. -/
  shown : Vector Float 2048
  /-- Animation frames that are asked for. -/
  loops : Nat
  fullscreen : Bool
  /-- The lines logged so far. -/
  errors : List String

/-- What a document lacks, or what its address asks for in vain. -/
inductive PageFailure where
  | missingElement (selector : String)
  | noCanvas
  | settings (e : Failure)

/-- The name of the trouble. -/
def PageFailure.name : PageFailure → String
  | settings e => e.name
  | _ => "Error"

/-- The sentence about the trouble. -/
def PageFailure.message : PageFailure → String
  | missingElement selector => "Missing element " ++ selector
  | noCanvas => "2D canvas unavailable"
  | settings e => e.message

/-- The document of a page. -/
structure Document where
  address : String
  /-- The elements that are not there. -/
  missing : List String
  /-- Whether the screen can be drawn on. -/
  canvas : Bool
  /-- Why a request for the full screen is turned down, if it is. -/
  refusal : Option Trouble

/-- What a page consists of, in the order in which it is looked up. -/
def pageElements : List String :=
  ["#screen", "#status", "#start", "#pause", "#step", "#fullscreen", "#rom", "#speed",
   "#speedLabel", "#decay", "#decayLabel"]

namespace Page

/-! ## Drawing and labels -/

/-- Shows the settings in force. -/
def syncLabels (p : Page) : Page :=
  let cycles := (Number.whole p.console.cyclesPerFrame).text
  let decay := p.console.machine.display.decay
  { p with
    speed := cycles
    speedLabel := cycles ++ " cyc/frame"
    decay := (Number.ofFloat decay).text
    decayLabel := twoPlaces decay }

/-- Draws the screen. -/
def draw (p : Page) : Page :=
  { p with shown := p.console.machine.display.glow, draws := p.draws + 1 }

/-- The bytes of the picture that was drawn last. -/
def picture (p : Page) : ByteArray :=
  Picture.render (fun i => p.shown[i]?.getD (0.0 / 0.0)) 1 .phosphor .clamped

/-- Logs a line. -/
def log (p : Page) (line : String) : Page := { p with errors := p.errors ++ [line] }

/-- Changes the status line. -/
def say (p : Page) (status : String) : Page := { p with status := status }

/-- Turns the beeper on or off, if it is there. -/
def setBeep (p : Page) (on : Bool) : Page :=
  match p.beep with
  | .absent => p
  | _ => { p with beep := if on then .sounding else .silent }

/-! ## Opening -/

/-- A page before its labels are written and its screen is drawn. -/
def blank (s : Console) : Page where
  console := s
  program := none
  reads := []
  running := false
  lastStamp := 0.0
  status := "Load a ROM"
  speed := ""
  speedLabel := ""
  decay := ""
  decayLabel := ""
  beep := .absent
  resumes := 0
  draws := 0
  shown := s.machine.display.glow
  loops := 0
  fullscreen := false
  errors := []

/-- Builds a page, if the document has all it needs. -/
def open? (d : Document) (env : Environment) (random : RandomSource) :
    Except PageFailure Page :=
  match pageElements.find? (d.missing.contains ·) with
  | some selector => .error (.missingElement selector)
  | none =>
      if !d.canvas then .error .noCanvas
      else
        let asked : Overrides :=
          ⟨Query.number? d.address "cycles", Query.number? d.address "decay"⟩
        match Console.create asked env random with
        | .error e => .error (.settings e)
        | .ok s => .ok (blank s).syncLabels.draw

/-! ## Events -/

/-- What can happen to a page. -/
inductive Event where
  | start
  | pause
  | step
  | fullscreen
  /-- The file input changed; perhaps no file is chosen. -/
  | choose (file : Option PageFile)
  /-- The read with this number among those under way ends. -/
  | readEnds (number : Nat)
  | slideSpeed (value : String)
  | slideDecay (value : String)
  | keyDown (code : String)
  | keyUp (code : String)
  | animationFrame (stamp : Float)

/-- What an event gives back: nothing, whether the key was the page's own,
or what the event failed on. -/
inductive Reply where
  | nothing
  | handled (own : Bool)
  | failed (e : Failure)

/-- A file has been read: its program replaces the one before. -/
def finishRead (p : Page) (file : PageFile) : Page :=
  match file.contents with
  | .error t =>
      ({ p with program := none }.say (t.status "Failed to load ROM")).log t.line
  | .ok bytes =>
      let loaded := p.console.loadRom bytes none
      let p := { p with console := loaded.console }
      match loaded.answer with
      | .error e => ({ p with program := none }.say e.message).log e.line
      | .ok () =>
          ({ p with program := some bytes }.draw).say
            ("Loaded " ++ file.name ++ " (" ++ toString bytes.length ++ " bytes), press Start")

/-- Asks for an animation frame, if the page does not do so already. -/
def startLoop (p : Page) : Page :=
  if p.running then p
  else { p with running := true, lastStamp := 0.0, loops := p.loops + 1 }

/-- Starts the program from its beginning. -/
def start (p : Page) : Page × Reply :=
  match p.program with
  | none => (p, .nothing)
  | some bytes =>
      let loaded := p.console.loadRom bytes none
      let p := { p with
        beep := p.beep.wake
        resumes := p.resumes + 1
        console := loaded.console }
      match loaded.answer with
      | .error e => (p, .failed e)
      | .ok () => ({ p with console := p.console.resume }.say "Running" |>.startLoop, .nothing)

/-- Pauses, or goes on. -/
def togglePause (p : Page) : Page :=
  if p.console.paused then { p with console := p.console.resume }.say "Running"
  else ({ p with console := p.console.pause }.setBeep false).say "Paused"

/-- The status line after a fault. -/
def haltedText (f : Fault) : String := "Halted: " ++ f.message

/-- Pauses, and executes a single instruction. -/
def stepOnce (p : Page) : Page × Reply :=
  match p.program with
  | none => (p, .nothing)
  | some _ =>
      let call := p.console.pause.stepInstruction
      match call.answer with
      | .error e => ({ p with console := call.console }, .failed e)
      | .ok fault =>
          let status := match fault with
            | some f => haltedText f
            | none => "Stepped to " ++ Fault.dollar call.console.machine.cpu.pc 3
          (({ p with console := call.console.advanceGlow }.say status).draw, .nothing)

/-- The elapsed time that a frame counts for. -/
def elapsed (p : Page) (stamp : Float) : Float :=
  if p.lastStamp == 0.0 then frameMs
  else
    let gap := stamp - p.lastStamp
    if gap > 100.0 then 100.0 else gap

/-- Runs one frame. -/
def frame (p : Page) (stamp : Float) : Page × Reply :=
  let ms := p.elapsed stamp
  let p := { p with lastStamp := stamp }
  let call := p.console.runFrame ms
  let p := { p with console := call.console }
  match call.answer with
  | .error e => (p, .failed e)
  | .ok report =>
      let p := match report.fault with
        | none => p
        | some f => (p.say (haltedText f)).log ("[main] " ++ f.line)
      let p := p.setBeep (p.console.soundActive && !p.console.paused)
      ({ p.draw with loops := p.loops + 1 }, .nothing)

/-- Runs a frame for each one that is asked for. -/
def animate (p : Page) (stamp : Float) : Nat → Page × Reply
  | 0 => (p, .nothing)
  | n + 1 =>
      match p.frame stamp with
      | (p, .failed e) => (p, .failed e)
      | (p, _) => animate p stamp n

/-- A key of the keyboard goes down or up. -/
def key (p : Page) (code : String) (down : Bool) : Page × Reply :=
  match keyForCode code with
  | none => (p, .handled false)
  | some k => ({ p with console := p.console.setKey k down }, .handled true)

/-- The speed that a slider asks for: at least one, and one if the text does
not begin with a number. -/
def sliderSpeed (value : String) : Number :=
  match Number.ofIntegerPrefix value with
  | .whole n => .whole (max n 1)
  | .other x => if x > 0.0 then .other x else .whole 1

/-- The speed slider is moved. -/
def slideSpeed (p : Page) (value : String) : Page × Reply :=
  let set := p.console.setCyclesPerFrame (sliderSpeed value)
  let p := { p with speed := value, console := set.console }
  match set.answer with
  | .error e => (p, .failed e)
  | .ok () => (p.syncLabels, .nothing)

/-- The slider of the afterglow is moved. -/
def slideDecay (p : Page) (value : String) : Page × Reply :=
  let set := p.console.setDecay (Number.ofDecimalPrefix value)
  let p := { p with decay := value, console := set.console }
  match set.answer with
  | .error e => (p, .failed e)
  | .ok () => (p.syncLabels, .nothing)

/-- The button for the full screen.  Only entering it can be turned down. -/
def pressFullscreen (p : Page) (refusal : Option Trouble) : Page :=
  let refuse := fun call => if call = .request then refusal else none
  match (toggleFullscreen p.fullscreen refuse).2 with
  | .ok on => { p with fullscreen := on }
  | .error t => (p.say (t.status "Fullscreen unavailable")).log t.line

/-- Takes the page through one event. -/
def handle (d : Document) (p : Page) : Event → Page × Reply
  | .start => p.start
  | .pause => (p.togglePause, .nothing)
  | .step => p.stepOnce
  | .fullscreen => (p.pressFullscreen d.refusal, .nothing)
  | .choose none => (p, .nothing)
  | .choose (some file) => ({ p with reads := p.reads ++ [file] }, .nothing)
  | .readEnds number =>
      match p.reads[number]? with
      | none => (p, .nothing)
      | some file => ({ p with reads := p.reads.eraseIdx number }.finishRead file, .nothing)
  | .slideSpeed value => p.slideSpeed value
  | .slideDecay value => p.slideDecay value
  | .keyDown code => p.key code true
  | .keyUp code => p.key code false
  | .animationFrame stamp => { p with loops := 0 }.animate stamp p.loops

end Page
end Chip8
