/-
# `Chip8.Command.Trace` — trace or list a program

The command prints the first instructions of a program as they are executed,
or, with `--list`, the listing of its bytes.  A listing does not need the
program to fit.
-/
import Chip8.Command
import Chip8.Trace

namespace Chip8
namespace Command

/-- The options of a trace. -/
structure TraceOptions where
  rom : String
  most : Nat
  listing : Bool

namespace TraceOptions

/-- The options before any argument. -/
def ofEnvironment (env : Environment) : TraceOptions where
  rom := env.getD "ROM" ""
  most := count (env.getD "TRACE_MAX" "200")
  listing := false

/-- Takes one argument into account. -/
def take (o : TraceOptions) (argument : String) : TraceOptions :=
  if let some v := optionValue? "rom" argument then { o with rom := v }
  else if let some v := optionValue? "max" argument then { o with most := count v }
  else if argument == "--list" then { o with listing := true }
  else o

/-- The options of a command line. -/
def parse (env : Environment) (arguments : List String) : TraceOptions :=
  arguments.foldl take (ofEnvironment env)

end TraceOptions

/-- Traces a program from its bytes. -/
def traceBytes (o : TraceOptions) (env : Environment) (random : RandomSource)
    (bytes : List UInt8) : Outcome :=
  match Console.create .none env random with
  | .error e => complain 1 e.line
  | .ok s =>
      let loaded := s.loadRom bytes none
      match loaded.answer with
      | .error e => complain 1 e.line
      | .ok () =>
          let call := loaded.console.trace o.most
          match call.answer with
          | .error e => ⟨1, call.log.toList, [e.line], none⟩
          | .ok lines => ⟨0, call.log.toList ++ lines.toList, [], none⟩

/-- The command, once its program has been looked up. -/
def trace (o : TraceOptions) (env : Environment) (random : RandomSource) (rom : Lookup) :
    Outcome :=
  if o.rom.isEmpty then complain 2 "ROM not found: (none)"
  else
    match rom with
    | .missing => complain 2 ("ROM not found: " ++ o.rom)
    | .directory => complain 1 directoryError
    | .file bytes =>
        if o.listing then ⟨0, listing bytes programStart, [], none⟩
        else traceBytes o env random bytes

end Command
end Chip8
