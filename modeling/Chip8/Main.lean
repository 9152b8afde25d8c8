/-
# `Chip8.Main` — the command line

`run` runs a program and reports; `trace` traces or lists one.  Everything
that is decided is decided in `Chip8.Command`; here the environment is read,
the program is looked up, and the outcome is printed and written.
-/
import Chip8.Command.Run
import Chip8.Command.Trace
import Chip8.Picture.Png

namespace Chip8

/-- The variables that the commands read. -/
def readEnvironment : IO Environment := do
  let names := ["CHIP8_CYCLES_PER_FRAME", "CHIP8_DECAY", "CHIP8_TRACE", "CHIP8_TRACE_FAULTS",
    "ROM", "FRAMES", "PNG", "TRACE_MAX"]
  let mut vars := []
  for name in names do
    if let some value ← IO.getEnv name then vars := vars ++ [(name, value)]
  return ⟨vars⟩

/-- Looks up what stands behind a path.  What is there but cannot be read is
taken for a directory. -/
def lookupFile (path : String) : IO Lookup := do
  try
    return .file (← IO.FS.readBinFile path).toList
  catch
    | .noFileOrDirectory .. => return .missing
    | _ => return .directory

/-- The number of random bytes that are rolled in advance. -/
def rollCount : Nat := 4096

/-- A source of random bytes that differs from run to run. -/
def randomSource : IO RandomSource := do
  let mut rolls := #[]
  for _ in [0:rollCount] do
    rolls := rolls.push (Roll.value (← IO.rand 0 255))
  return .cycle rolls

/-- Writes a picture, and the directory that it goes to. -/
def writePicture (p : PictureFile) : IO Unit := do
  let parent := Command.directoryName p.path
  if !parent.isEmpty then IO.FS.createDirAll parent
  IO.FS.writeBinFile p.path ⟨(Png.encode p.buffer p.scale).toArray⟩

/-- Prints an outcome and writes its picture. -/
def deliver (o : Outcome) : IO UInt32 := do
  if let some p := o.picture then writePicture p
  for line in o.out do IO.println line
  for line in o.err do IO.eprintln line
  return o.exitCode.toUInt32

/-- Runs the command that the first argument names; without a name, `run`. -/
def runCommand (arguments : List String) : IO UInt32 := do
  let env ← readEnvironment
  let random ← randomSource
  match arguments with
  | "trace" :: rest =>
      let o := Command.TraceOptions.parse env rest
      deliver (Command.trace o env random (← lookupFile o.rom))
  | "run" :: rest | rest =>
      let o := Command.RunOptions.parse env rest
      deliver (Command.run o env random (← lookupFile o.rom))

end Chip8

def main (arguments : List String) : IO UInt32 := Chip8.runCommand arguments
