/-
# `Chip8.Command.Run` — run a program and report

The command runs a program for a number of frames and prints the summary as
one line of JSON.  On request it writes the final afterglow as a picture.
It ends with exit code 1 if a fault ended the run, or if the program does
not fit or a setting is not admitted, and with 2 if there is nothing to run.
-/
import Chip8.Command
import Chip8.Run
import Chip8.Picture
import Chip8.Text.Json

namespace Chip8
namespace Command

/-- The options of a run. -/
structure RunOptions where
  rom : String
  frames : Nat
  cyclesPerFrame : Option Number
  decay : Option Number
  picture : String
  scale : Nat
  policy : FaultPolicy

namespace RunOptions

/-- The options before any argument. -/
def ofEnvironment (env : Environment) : RunOptions where
  rom := env.getD "ROM" ""
  frames := count (env.getD "FRAMES" "600")
  cyclesPerFrame := none
  decay := none
  picture := env.getD "PNG" ""
  scale := 8
  policy := .halt

/-- Takes one argument into account.  The first argument that is no option
names the program, unless something else has named it before. -/
def take (o : RunOptions) (argument : String) : RunOptions :=
  if let some v := optionValue? "rom" argument then { o with rom := v }
  else if let some v := optionValue? "frames" argument then { o with frames := count v }
  else if let some v := optionValue? "cycles" argument then
    { o with cyclesPerFrame := some (.ofIntegerPrefix v) }
  else if let some v := optionValue? "decay" argument then
    { o with decay := some (.ofDecimalPrefix v) }
  else if let some v := optionValue? "png" argument then { o with picture := v }
  else if let some v := optionValue? "scale" argument then { o with scale := max 1 (count v) }
  else if argument == "--skip-faults" then { o with policy := .skip }
  else if !isOption argument && o.rom.isEmpty then { o with rom := argument }
  else o

/-- The options of a command line. -/
def parse (env : Environment) (arguments : List String) : RunOptions :=
  arguments.foldl take (ofEnvironment env)

end RunOptions

/-- What is printed when no program is named. -/
def runUsage : String :=
  "Usage: tsx scripts/run-rom.ts --rom=<file.ch8> [--frames=N] [--cycles=N] [--decay=D] " ++
    "[--png=out.png] [--scale=N] [--skip-faults]"

/-- A fault in the summary. -/
def faultJson (f : Fault) : Json :=
  .object [("kind", .text f.kind), ("message", .text f.message)]

/-- The summary of a run.  The picture is mentioned only if there is one. -/
def summaryJson (name picture : String) (r : RunSummary) (lit : Nat) : Json :=
  .object ([
    ("rom", .text name),
    ("frames", .nat r.frames),
    ("cycles", .nat r.cycles),
    ("reason", .text r.reason),
    ("faults", .list (r.faults.map faultJson)),
    ("sound_frames", .nat r.soundFrames),
    ("lit", .nat lit),
    ("crc", .text ("0x" ++ upperHex r.crc.toNat 8))] ++
    if picture.isEmpty then [] else [("png", .text picture)])

/-- The picture that a run leaves, if one is wanted. -/
def finalPicture (o : RunOptions) (s : Console) : Option PictureFile :=
  if o.picture.isEmpty then none
  else some ⟨o.picture, o.scale,
    Picture.render s.machine.display.glowIndex o.scale .phosphor .wrapped⟩

/-- Runs a program from its bytes. -/
def runBytes (o : RunOptions) (env : Environment) (random : RandomSource)
    (bytes : List UInt8) : Outcome :=
  let name := baseName o.rom
  match Rom.parse bytes (some name) with
  | .error f => complain 1 f.line
  | .ok rom =>
      match Console.create ⟨o.cyclesPerFrame, o.decay⟩ env random with
      | .error e => complain 1 e.line
      | .ok s =>
          let loaded := s.loadRom rom.data rom.name
          match loaded.answer with
          | .error e => complain 1 e.line
          | .ok () =>
              let call := loaded.console.run o.frames o.policy []
              match call.answer with
              | .error e => ⟨1, call.log.toList, [e.line], none⟩
              | .ok r =>
                  let lit := call.console.machine.display.pixels.litCount
                  { exitCode := if r.faulted then 1 else 0
                    out := call.log.toList ++ [(summaryJson name o.picture r lit).write]
                    err := []
                    picture := finalPicture o call.console }

/-- The command, once its program has been looked up. -/
def run (o : RunOptions) (env : Environment) (random : RandomSource) (rom : Lookup) : Outcome :=
  if o.rom.isEmpty then complain 2 runUsage
  else
    match rom with
    | .missing => complain 2 ("ROM not found: " ++ o.rom)
    | .directory => complain 1 directoryError
    | .file bytes => runBytes o env random bytes

end Command
end Chip8
