/-
# `Chip8.Machine.Execute` — what each instruction does

`execute` takes a machine whose program counter already stands behind the
instruction, and gives the machine after it together with what stopped it,
if anything.  An instruction that cannot be completed leaves the machine as
it found it: every check comes before the first change.  The one exception
is a random source that fails, for the failed roll is used up.

Flags.  The arithmetic instructions write their result first and VF second,
so VF as a result register ends up as the flag.  Values are taken before
anything is written, so VF as an operand is the old one.

Operands out of range.  A register that does not exist is never written.  As
an operand it makes a sum or a difference zero with a clear flag, it equals
no byte and every other missing register, and elsewhere it reads as zero.
Drawing at a missing coordinate flips no pixel, but counts as drawing.
-/
import Chip8.Machine
import Chip8.Instruction

namespace Chip8
namespace Machine

/-- A machine, and what stopped it. -/
abbrev Stopped := Machine × Option Failure

/-- Completed. -/
def done (m : Machine) : Stopped := (m, none)

/-- Completed, with a new processor. -/
def doneCpu (m : Machine) (c : Cpu) : Stopped := ({ m with cpu := c }, none)

/-- Stopped by a fault. -/
def stop (m : Machine) (f : Fault) : Stopped := (m, some (.fault f))

/-! ## Arithmetic -/

/-- The register after an operation on two registers that has no flag. -/
def combine (c : Cpu) (x y : Int) (op : UInt8 → UInt8 → UInt8) : Cpu :=
  c.setReg x (op (c.reg x) (c.reg y))

/-- The registers after an operation on two registers that has a flag.  A
missing operand gives zero and a clear flag. -/
def combineFlag (c : Cpu) (x y : Int) (op : UInt8 → UInt8 → UInt8)
    (flag : UInt8 → UInt8 → Bool) : Cpu :=
  match c.reg? x, c.reg? y with
  | some a, some b => c.setRegFlag x (op a b) (flag a b)
  | _, _ => c.setRegFlag x 0 false

/-- Whether a sum leaves the byte. -/
def carries (a b : UInt8) : Bool := 255 < a.toNat + b.toNat

/-- Whether the first can be taken from the second without a borrow. -/
def fitsIn (a b : UInt8) : Bool := a.toNat ≤ b.toNat

/-- The lowest bit. -/
def lowBit (a : UInt8) : Bool := a.toNat % 2 = 1

/-- The highest bit. -/
def highBit (a : UInt8) : Bool := 128 ≤ a.toNat

/-- Adds a register to the index. -/
def addToIndex (c : Cpu) (x : Int) : Cpu :=
  match c.reg? x with
  | some b =>
      let sum := Double.nearest (c.i + b.toNat)
      { c with i := Cpu.wrapAddress sum }.setFlag (4095 < sum)
  | none => { c with i := 0 }.setFlag false

/-! ## Calls -/

/-- Returns from the last call. -/
def returnFromCall (m : Machine) : Stopped :=
  if m.cpu.sp = 0 then m.stop (.stackUnderflow (m.cpu.pcPlus (-2)))
  else
    let sp := m.cpu.sp - 1
    m.doneCpu { m.cpu with sp := sp, pc := (m.cpu.stack[sp]?.getD 0).toNat }

/-- Goes to an address and remembers where to return to. -/
def callAddress (m : Machine) (addr : Int) : Stopped :=
  if stackDepth ≤ m.cpu.sp then m.stop (.stackOverflow (m.cpu.pcPlus (-2)))
  else
    let c := m.cpu
    let back := UInt16.ofNat (c.pc % 65536).toNat
    m.doneCpu
      { c with
        stack := c.stack.setIfInBounds c.sp back
        sp := c.sp + 1
        pc := Cpu.wrapAddress addr }

/-! ## Devices -/

/-- A random byte under a mask. -/
def rollInto (m : Machine) (x nn : Int) : Stopped :=
  let m' := { m with random := m.random.advance }
  match m.random.next with
  | .value n => m'.doneCpu (m'.cpu.setReg x (Cpu.lowByte n &&& Cpu.lowByte nn))
  | .failed => (m', some .randomSource)

/-- Draws the rows at the index. -/
def drawRows (m : Machine) (x y n : Int) : Stopped :=
  match m.memory.readRange m.cpu.i n with
  | .error f => m.stop f
  | .ok rows =>
      match m.cpu.reg? x, m.cpu.reg? y with
      | some a, some b =>
          let (display, collision) := m.display.draw a.toNat b.toNat rows
          done { m with display := display, cpu := m.cpu.setFlag collision }
      | _, _ =>
          done { m with display := m.display.touch, cpu := m.cpu.setFlag false }

/-- Takes the lowest held key, or parks on the instruction. -/
def takeKey (c : Cpu) (keypad : Keypad) (x : Int) : Cpu :=
  match keypad.firstDown with
  | none => { c with waiting := true, pc := c.pcPlus (-2) }
  | some key => { c with waiting := false }.setReg x (UInt8.ofNat key)

/-! ## Transfers -/

/-- Stores bytes at the index. -/
def storeBytes (m : Machine) (bytes : List UInt8) : Stopped :=
  let (memory, e) := m.memory.load bytes m.cpu.i
  ({ m with memory := memory }, e)

/-- Writes three bytes, one after another.  What is written before one of them
is refused stays written. -/
def writeThree (memory : Memory) (addr a b c : Number) : Memory × Option Fault :=
  match memory.write addr a with
  | (memory, some f) => (memory, some f)
  | (memory, none) =>
      match memory.write (addr + 1) b with
      | (memory, some f) => (memory, some f)
      | (memory, none) => memory.write (addr + 2) c

/-- Stores three bytes at the index.  The range is probed by a read, for none
of the three may be refused after another one was written. -/
def storeThree (m : Machine) (a b c : Number) : Stopped :=
  match m.memory.readRange m.cpu.i 3 with
  | .error f => m.stop f
  | .ok _ =>
      let (memory, f) := writeThree m.memory m.cpu.i a b c
      ({ m with memory := memory }, f.map .fault)

/-- Stores the decimal digits of a register at the index. -/
def storeDigits (m : Machine) (x : Int) : Stopped :=
  let n := (m.cpu.reg x).toNat
  m.storeThree (n / 100 : Nat) (n / 10 % 10 : Nat) (n % 10 : Nat)

/-- Loads registers from the index; more than sixteen are refused. -/
def loadFirst (m : Machine) (x : Int) : Stopped :=
  match m.memory.readRange m.cpu.i (x + 1) with
  | .error f => m.stop f
  | .ok bytes =>
      if 16 < bytes.length then (m, some (.rejected .offset))
      else m.doneCpu (m.cpu.setFirstRegs bytes)

/-! ## All instructions -/

/-- Executes one instruction. -/
def execute (m : Machine) : Instruction Int → Stopped
  | .clear => done { m with display := m.display.clear }
  | .ret => m.returnFromCall
  | .jump addr => m.doneCpu (m.cpu.goTo addr)
  | .call addr => m.callAddress addr
  | .skipEqByte x nn =>
      m.doneCpu (m.cpu.skipIf ((m.cpu.reg? x).map (fun b => (b.toNat : Int)) == some nn))
  | .skipNeByte x nn =>
      m.doneCpu (m.cpu.skipIf ((m.cpu.reg? x).map (fun b => (b.toNat : Int)) != some nn))
  | .skipEqReg x y => m.doneCpu (m.cpu.skipIf (m.cpu.reg? x == m.cpu.reg? y))
  | .skipNeReg x y => m.doneCpu (m.cpu.skipIf (m.cpu.reg? x != m.cpu.reg? y))
  | .setByte x nn => m.doneCpu (m.cpu.setReg x (Cpu.lowByte nn))
  | .addByte x nn => m.doneCpu (m.cpu.setReg x (m.cpu.reg x + Cpu.lowByte nn))
  | .copy x y => m.doneCpu (m.cpu.setReg x (m.cpu.reg y))
  | .or x y => m.doneCpu (combine m.cpu x y (· ||| ·))
  | .and x y => m.doneCpu (combine m.cpu x y (· &&& ·))
  | .xor x y => m.doneCpu (combine m.cpu x y (· ^^^ ·))
  | .add x y => m.doneCpu (combineFlag m.cpu x y (· + ·) carries)
  | .sub x y => m.doneCpu (combineFlag m.cpu x y (· - ·) (fun a b => fitsIn b a))
  | .subReversed x y => m.doneCpu (combineFlag m.cpu x y (fun a b => b - a) fitsIn)
  | .shiftRight x _ =>
      m.doneCpu (m.cpu.setRegFlag x (m.cpu.reg x >>> 1) (lowBit (m.cpu.reg x)))
  | .shiftLeft x _ =>
      m.doneCpu (m.cpu.setRegFlag x (m.cpu.reg x <<< 1) (highBit (m.cpu.reg x)))
  | .setIndex addr => m.doneCpu { m.cpu with i := Cpu.wrapAddress addr }
  | .jumpOffset addr => m.doneCpu (m.cpu.goTo (addr + (m.cpu.reg 0).toNat))
  | .random x nn => m.rollInto x nn
  | .draw x y n => m.drawRows x y n
  | .skipIfKey x => m.doneCpu (m.cpu.skipIf (m.keypad.isDown (m.cpu.reg x).toNat))
  | .skipUnlessKey x => m.doneCpu (m.cpu.skipIf (!m.keypad.isDown (m.cpu.reg x).toNat))
  | .readDelay x => m.doneCpu (m.cpu.setReg x m.timers.delay.byte)
  | .waitKey x => m.doneCpu (takeKey m.cpu m.keypad x)
  | .setDelay x =>
      done { m with timers := m.timers.setDelay ((m.cpu.reg x).toNat : Int) }
  | .setSound x =>
      done { m with timers := m.timers.setSound ((m.cpu.reg x).toNat : Int) }
  | .addIndex x => m.doneCpu (addToIndex m.cpu x)
  | .pointGlyph x =>
      m.doneCpu { m.cpu with i := fontBase + glyphRows * ((m.cpu.reg x).toNat % 16) }
  | .storeDecimal x => m.storeDigits x
  | .storeRegs x => m.storeBytes (m.cpu.firstRegs (x + 1))
  | .loadRegs x => m.loadFirst x

end Machine
end Chip8
