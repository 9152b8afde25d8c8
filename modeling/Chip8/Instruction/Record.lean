/-
# `Chip8.Instruction.Record` — instructions as records

Hosts exchange instructions as records: the name of the operation under
`op`, and each operand under its own name.  Writing a record gives exactly
these members, in this order; reading one looks at the members that the
operation has and ignores all others.  A member need not be there, and need
not be a whole number, so the operands of a record are arguments.  A record
whose operation has no such name is refused, and the refusal shows the
record.
-/
import Chip8.Instruction
import Chip8.Text.Json

namespace Chip8

namespace Instruction

/-- The names by which records call the operations, with the operations as
functions of the operands `addr`, `x`, `y`, `n` and `nn`. -/
def operations {ω : Type} : List (String × (ω → ω → ω → ω → ω → Instruction ω)) :=
  [("cls", fun _ _ _ _ _ => clear),
   ("ret", fun _ _ _ _ _ => ret),
   ("jp", fun addr _ _ _ _ => jump addr),
   ("call", fun addr _ _ _ _ => call addr),
   ("seImm", fun _ x _ _ nn => skipEqByte x nn),
   ("sneImm", fun _ x _ _ nn => skipNeByte x nn),
   ("seReg", fun _ x y _ _ => skipEqReg x y),
   ("ldImm", fun _ x _ _ nn => setByte x nn),
   ("addImm", fun _ x _ _ nn => addByte x nn),
   ("ldReg", fun _ x y _ _ => copy x y),
   ("or", fun _ x y _ _ => or x y),
   ("and", fun _ x y _ _ => and x y),
   ("xor", fun _ x y _ _ => xor x y),
   ("addReg", fun _ x y _ _ => add x y),
   ("sub", fun _ x y _ _ => sub x y),
   ("shr", fun _ x y _ _ => shiftRight x y),
   ("subn", fun _ x y _ _ => subReversed x y),
   ("shl", fun _ x y _ _ => shiftLeft x y),
   ("sneReg", fun _ x y _ _ => skipNeReg x y),
   ("ldI", fun addr _ _ _ _ => setIndex addr),
   ("jpV0", fun addr _ _ _ _ => jumpOffset addr),
   ("rnd", fun _ x _ _ nn => random x nn),
   ("drw", fun _ x y n _ => draw x y n),
   ("skp", fun _ x _ _ _ => skipIfKey x),
   ("sknp", fun _ x _ _ _ => skipUnlessKey x),
   ("ldVxDt", fun _ x _ _ _ => readDelay x),
   ("ldVxKey", fun _ x _ _ _ => waitKey x),
   ("ldDtVx", fun _ x _ _ _ => setDelay x),
   ("ldStVx", fun _ x _ _ _ => setSound x),
   ("addI", fun _ x _ _ _ => addIndex x),
   ("ldFont", fun _ x _ _ _ => pointGlyph x),
   ("bcd", fun _ x _ _ _ => storeDecimal x),
   ("store", fun _ x _ _ _ => storeRegs x),
   ("load", fun _ x _ _ _ => loadRegs x)]

/-- The name of the operation and the operands of an instruction. -/
def members {ω : Type} : Instruction ω → String × List (String × ω)
  | clear => ("cls", [])
  | ret => ("ret", [])
  | jump addr => ("jp", [("addr", addr)])
  | call addr => ("call", [("addr", addr)])
  | skipEqByte x nn => ("seImm", [("x", x), ("nn", nn)])
  | skipNeByte x nn => ("sneImm", [("x", x), ("nn", nn)])
  | skipEqReg x y => ("seReg", [("x", x), ("y", y)])
  | setByte x nn => ("ldImm", [("x", x), ("nn", nn)])
  | addByte x nn => ("addImm", [("x", x), ("nn", nn)])
  | copy x y => ("ldReg", [("x", x), ("y", y)])
  | or x y => ("or", [("x", x), ("y", y)])
  | and x y => ("and", [("x", x), ("y", y)])
  | xor x y => ("xor", [("x", x), ("y", y)])
  | add x y => ("addReg", [("x", x), ("y", y)])
  | sub x y => ("sub", [("x", x), ("y", y)])
  | shiftRight x y => ("shr", [("x", x), ("y", y)])
  | subReversed x y => ("subn", [("x", x), ("y", y)])
  | shiftLeft x y => ("shl", [("x", x), ("y", y)])
  | skipNeReg x y => ("sneReg", [("x", x), ("y", y)])
  | setIndex addr => ("ldI", [("addr", addr)])
  | jumpOffset addr => ("jpV0", [("addr", addr)])
  | random x nn => ("rnd", [("x", x), ("nn", nn)])
  | draw x y n => ("drw", [("x", x), ("y", y), ("n", n)])
  | skipIfKey x => ("skp", [("x", x)])
  | skipUnlessKey x => ("sknp", [("x", x)])
  | readDelay x => ("ldVxDt", [("x", x)])
  | waitKey x => ("ldVxKey", [("x", x)])
  | setDelay x => ("ldDtVx", [("x", x)])
  | setSound x => ("ldStVx", [("x", x)])
  | addIndex x => ("addI", [("x", x)])
  | pointGlyph x => ("ldFont", [("x", x)])
  | storeDecimal x => ("bcd", [("x", x)])
  | storeRegs x => ("store", [("x", x)])
  | loadRegs x => ("load", [("x", x)])

/-- The record of an instruction. -/
def record (i : Instruction Int) : Json :=
  .object (("op", .text i.members.1) :: i.members.2.map fun (k, v) => (k, .number v))

/-- An operand of a record.  A list or an object in its place is a text. -/
def operand (r : Json) (name : String) : Argument :=
  match r.member? name with
  | none => .absent
  | some .null => .null
  | some (.bool b) => .flag b
  | some (.number n) => .number n
  | some v => .string v.plain

/-- The name of the operation of a record. -/
def operationName (r : Json) : Option String :=
  match r.member? "op" with
  | some (.text s) => some s
  | _ => none

/-- The instruction of a record. -/
def ofRecord? (r : Json) : Option (Instruction Argument) :=
  ((operationName r).bind fun name => operations.lookup name).map fun build =>
    build (operand r "addr") (operand r "x") (operand r "y") (operand r "n") (operand r "nn")

/-- The instruction of a record, or the refusal. -/
def ofRecord (r : Json) : Except Failure (Instruction Argument) :=
  match ofRecord? r with
  | some i => .ok i
  | none => .error (.unknownInstruction r.write)

end Instruction
end Chip8
