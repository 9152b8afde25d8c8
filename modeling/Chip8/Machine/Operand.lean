/-
# `Chip8.Machine.Operand` — instructions as hosts hand them in

The machine executes instructions with integer operands.  A host may hand in
one whose operands are fractions, or NaN, or larger than any address, or
flags, or texts, or not there at all.  The rules for those are the ordinary
ones with everything that is ordinarily guaranteed left open:

| operand | counts as |
| :-- | :-- |
| `x`, `y` | the register that it names (`Register.ofArgument`) |
| a byte | the argument as it is; a numbered register keeps the low eight bits |
| an address | the low bits of the number without its fraction |
| a length | the bytes up to the end that its sum with the index gives |
| a count | the registers up to the argument plus one, less its fraction |

A register that is not numbered need not hold a byte, and so the arithmetic
is that of arguments: sums may join texts, bits are the low 32 of a number
without its fraction, and a flag compares what was there before anything was
cut off.

An instruction that a word encodes is not touched by any of this
(`executeRecord_record` in `Chip8.Machine.Encoded`).
-/
import Chip8.Display.Uneven
import Chip8.Machine.Execute
import Chip8.Machine.Register
import Chip8.Instruction.Record

namespace Chip8

namespace Argument

/-- The argument plus one. -/
def successor (a : Argument) : Argument := a + number 1

/-- The low 32 bits, as a signed number. -/
def ofWord (bits : Nat) : Argument := number (.whole (Int.bmod bits (2 ^ 32)))

/-- The low eight bits. -/
def ofByte (bits : Nat) : Argument := number (.whole ↑(bits % 256))

end Argument

namespace Cpu

/-- What is in the register that an argument names. -/
def value (c : Cpu) (x : Argument) : Argument := c.held (.ofArgument x)

/-- Puts something into the register that an argument names. -/
def assign (c : Cpu) (x a : Argument) : Cpu := c.hold (.ofArgument x) a

/-- Puts something into a register and then sets VF. -/
def assignFlag (c : Cpu) (x a : Argument) (on : Bool) : Cpu := (c.assign x a).setFlag on

/-- The processor after an operation on the bits of two registers. -/
def combineBits (c : Cpu) (x y : Argument) (op : Nat → Nat → Nat) : Cpu :=
  c.assign x (.ofWord (op (c.value x).word (c.value y).word))

/-- The processor after the sum of two registers. -/
def addValues (c : Cpu) (x y : Argument) : Cpu :=
  let sum := c.value x + c.value y
  c.assignFlag x (.ofByte sum.word) (Number.lt 255 sum.toNumber)

/-- The processor after the difference `a - b`. -/
def takeAway (c : Cpu) (x a b : Argument) : Cpu :=
  c.assignFlag x (.ofByte (a.toNumber - b.toNumber).word) (a.atLeast b)

/-- The processor after halving a register. -/
def halve (c : Cpu) (x : Argument) : Cpu :=
  let bits := (c.value x).word
  c.assignFlag x (.number (.whole (Int.bmod bits (2 ^ 32) / 2))) (bits.testBit 0)

/-- The processor after doubling a register. -/
def double (c : Cpu) (x : Argument) : Cpu :=
  let bits := (c.value x).word
  c.assignFlag x (.ofByte (2 * bits)) (bits.testBit 7)

/-- The processor with a register added to the index. -/
def addToIndex (c : Cpu) (x : Argument) : Cpu :=
  let sum := .number c.i + c.value x
  { c with i := wrapAddress sum.word }.setFlag (Number.lt 4095 sum.toNumber)

end Cpu

namespace Machine

/-- The number of bytes from the index on that a host means by a length. -/
def copyLength (m : Machine) (len : Argument) : Int :=
  Memory.lengthTo m.cpu.i len.toNumber (.number m.cpu.i + len).toNumber

/-- A random number under a mask. -/
def rollUnder (m : Machine) (x nn : Argument) : Stopped :=
  let m' := { m with random := m.random.advance }
  match m.random.next with
  | .value n => m'.doneCpu (m'.cpu.assign x (.ofByte ((Number.whole n).word &&& nn.word)))
  | .failed => (m', some .randomSource)

/-- Draws the rows at the index. -/
def drawValues (m : Machine) (x y n : Argument) : Stopped :=
  match m.memory.readRange m.cpu.i (m.copyLength n) with
  | .error f => m.stop f
  | .ok rows =>
      let (display, collision) :=
        m.display.drawAt (m.cpu.value x).toNumber (m.cpu.value y).toNumber rows
      done { m with display := display, cpu := m.cpu.setFlag collision }

/-- Takes the lowest held key, or parks on the instruction. -/
def awaitKey (c : Cpu) (keypad : Keypad) (x : Argument) : Cpu :=
  match keypad.firstDown with
  | none => { c with waiting := true, pc := c.pcPlus (-2) }
  | some key => { c with waiting := false }.assign x (.number key)

/-- Stores the last three decimal digits of a register at the index; what is
not a digit is cut off like a byte. -/
def storeValueDigits (m : Machine) (x : Argument) : Stopped :=
  let n := (m.cpu.value x).toNumber
  m.storeThree (n.quotient 100) ((n.quotient 10).rem 10) (n.rem 10)

/-- Executes one instruction with any operands. -/
def executeArguments (m : Machine) : Instruction Argument → Stopped
  | .clear => m.execute .clear
  | .ret => m.execute .ret
  | .jump addr => m.execute (.jump addr.word)
  | .call addr => m.execute (.call addr.word)
  | .skipEqByte x nn => m.doneCpu (m.cpu.skipIf ((m.cpu.value x).same nn))
  | .skipNeByte x nn => m.doneCpu (m.cpu.skipIf (!(m.cpu.value x).same nn))
  | .skipEqReg x y => m.doneCpu (m.cpu.skipIf ((m.cpu.value x).same (m.cpu.value y)))
  | .skipNeReg x y => m.doneCpu (m.cpu.skipIf (!(m.cpu.value x).same (m.cpu.value y)))
  | .setByte x nn => m.doneCpu (m.cpu.assign x nn)
  | .addByte x nn => m.doneCpu (m.cpu.assign x (.ofByte (m.cpu.value x + nn).word))
  | .copy x y => m.doneCpu (m.cpu.assign x (m.cpu.value y))
  | .or x y => m.doneCpu (m.cpu.combineBits x y (· ||| ·))
  | .and x y => m.doneCpu (m.cpu.combineBits x y (· &&& ·))
  | .xor x y => m.doneCpu (m.cpu.combineBits x y (· ^^^ ·))
  | .add x y => m.doneCpu (m.cpu.addValues x y)
  | .sub x y => m.doneCpu (m.cpu.takeAway x (m.cpu.value x) (m.cpu.value y))
  | .subReversed x y => m.doneCpu (m.cpu.takeAway x (m.cpu.value y) (m.cpu.value x))
  | .shiftRight x _ => m.doneCpu (m.cpu.halve x)
  | .shiftLeft x _ => m.doneCpu (m.cpu.double x)
  | .setIndex addr => m.execute (.setIndex addr.word)
  | .jumpOffset addr => m.execute (.jump (addr + m.cpu.value (.number 0)).word)
  | .random x nn => m.rollUnder x nn
  | .draw x y n => m.drawValues x y n
  | .skipIfKey x => m.doneCpu (m.cpu.skipIf (m.keypad.isDown (m.cpu.value x).word))
  | .skipUnlessKey x => m.doneCpu (m.cpu.skipIf (!m.keypad.isDown (m.cpu.value x).word))
  | .readDelay x => m.doneCpu (m.cpu.assign x m.timers.delay.toNumber)
  | .waitKey x => m.doneCpu (awaitKey m.cpu m.keypad x)
  | .setDelay x => done { m with timers := m.timers.setDelay (m.cpu.value x).toNumber }
  | .setSound x => done { m with timers := m.timers.setSound (m.cpu.value x).toNumber }
  | .addIndex x => m.doneCpu (m.cpu.addToIndex x)
  | .pointGlyph x =>
      m.doneCpu { m.cpu with i := fontBase + glyphRows * ((m.cpu.value x).word % 16) }
  | .storeDecimal x => m.storeValueDigits x
  | .storeRegs x => m.execute (.storeRegs (x.successor.toNumber.extent - 1))
  | .loadRegs x => m.execute (.loadRegs (m.copyLength x.successor - 1))

/-- Executes the instruction of a record; a record of none stops at once. -/
def executeRecord (m : Machine) (record : Json) : Stopped :=
  match Instruction.ofRecord record with
  | .error e => (m, some e)
  | .ok ins => m.executeArguments ins

end Machine
end Chip8
