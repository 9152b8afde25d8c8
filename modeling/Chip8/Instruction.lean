/-
# `Chip8.Instruction` — the instruction set and its encoding

There are 34 instructions.  Each is a constructor with its operands:

| operand | meaning | range in a word |
| :-- | :-- | :-- |
| `x`, `y` | register numbers | 0 … 15 |
| `n` | rows of a sprite | 0 … 15 |
| `nn` | a byte | 0 … 255 |
| `addr` | an address | 0 … 4095 |

The type of the operands is a parameter.  An `Instruction Int` is what the
machine executes; its operands are integers of any size, and `InRange` says
that all of them fit their fields.  A host may hand in an instruction that no
word encodes, an `Instruction Argument`, whose operands need not be whole
and need not be there.

`decode` and `encode` are the two directions between words and instructions.
`decode` looks at the low sixteen bits only.  A word that is no instruction
is a fault, which carries that word and the address it was fetched from.
The two shifts have a second register in their encoding, which they keep but
do not use.
-/
import Chip8.Fault

namespace Chip8

/-- One instruction with operands of a type. -/
inductive Instruction (ω : Type) where
  /-- Darkens the screen. -/
  | clear
  /-- Returns from the last call. -/
  | ret
  /-- Goes on at an address. -/
  | jump (addr : ω)
  /-- Goes on at an address and remembers where to return to. -/
  | call (addr : ω)
  /-- Skips the next instruction if the register holds the byte. -/
  | skipEqByte (x nn : ω)
  /-- Skips the next instruction unless the register holds the byte. -/
  | skipNeByte (x nn : ω)
  /-- Skips the next instruction if the registers agree. -/
  | skipEqReg (x y : ω)
  /-- Skips the next instruction unless the registers agree. -/
  | skipNeReg (x y : ω)
  | setByte (x nn : ω)
  | addByte (x nn : ω)
  | copy (x y : ω)
  | or (x y : ω)
  | and (x y : ω)
  | xor (x y : ω)
  /-- Adds the second register; VF tells the carry. -/
  | add (x y : ω)
  /-- Takes the second register away; VF tells that nothing was borrowed. -/
  | sub (x y : ω)
  /-- The second register less the first; VF tells that nothing was
  borrowed. -/
  | subReversed (x y : ω)
  /-- Halves the register; VF tells the bit that fell out. -/
  | shiftRight (x y : ω)
  /-- Doubles the register; VF tells the bit that fell out. -/
  | shiftLeft (x y : ω)
  | setIndex (addr : ω)
  /-- Goes on at an address plus V0. -/
  | jumpOffset (addr : ω)
  /-- A random byte under a mask. -/
  | random (x nn : ω)
  /-- Draws `n` rows from the index at the coordinates in two registers; VF
  tells a collision. -/
  | draw (x y n : ω)
  | skipIfKey (x : ω)
  | skipUnlessKey (x : ω)
  | readDelay (x : ω)
  /-- Waits until a key is held and takes its number. -/
  | waitKey (x : ω)
  | setDelay (x : ω)
  | setSound (x : ω)
  /-- Adds the register to the index; VF tells that it left the 4 KiB. -/
  | addIndex (x : ω)
  /-- Points the index at the glyph of a digit. -/
  | pointGlyph (x : ω)
  /-- Stores the three decimal digits of the register at the index. -/
  | storeDecimal (x : ω)
  /-- Stores V0 up to Vx at the index. -/
  | storeRegs (x : ω)
  /-- Loads V0 up to Vx from the index. -/
  | loadRegs (x : ω)
deriving DecidableEq, Repr

namespace Instruction

/-! ## Words to instructions -/

/-- The arithmetic family, selected by the last digit. -/
def ofArithmetic? (n : Nat) (x y : Int) : Option (Instruction Int) :=
  match n with
  | 0x0 => some (copy x y)
  | 0x1 => some (or x y)
  | 0x2 => some (and x y)
  | 0x3 => some (xor x y)
  | 0x4 => some (add x y)
  | 0x5 => some (sub x y)
  | 0x6 => some (shiftRight x y)
  | 0x7 => some (subReversed x y)
  | 0xE => some (shiftLeft x y)
  | _ => none

/-- The family of key tests, selected by the last byte. -/
def ofKeyTest? (nn : Nat) (x : Int) : Option (Instruction Int) :=
  match nn with
  | 0x9E => some (skipIfKey x)
  | 0xA1 => some (skipUnlessKey x)
  | _ => none

/-- The family of timers, index and transfers, selected by the last byte. -/
def ofDevice? (nn : Nat) (x : Int) : Option (Instruction Int) :=
  match nn with
  | 0x07 => some (readDelay x)
  | 0x0A => some (waitKey x)
  | 0x15 => some (setDelay x)
  | 0x18 => some (setSound x)
  | 0x1E => some (addIndex x)
  | 0x29 => some (pointGlyph x)
  | 0x33 => some (storeDecimal x)
  | 0x55 => some (storeRegs x)
  | 0x65 => some (loadRegs x)
  | _ => none

/-- The instruction that a sixteen-bit word encodes, if any.  The first
digit selects the family, the others are its operands. -/
def ofWord? (w : Nat) : Option (Instruction Int) :=
  let x : Int := ↑(w / 256 % 16)
  let y : Int := ↑(w / 16 % 16)
  let n := w % 16
  let nn := w % 256
  let addr := w % 4096
  match w / 4096 with
  | 0x0 => if w = 0x00E0 then some clear else if w = 0x00EE then some ret else none
  | 0x1 => some (jump addr)
  | 0x2 => some (call addr)
  | 0x3 => some (skipEqByte x nn)
  | 0x4 => some (skipNeByte x nn)
  | 0x5 => if n = 0 then some (skipEqReg x y) else none
  | 0x6 => some (setByte x nn)
  | 0x7 => some (addByte x nn)
  | 0x8 => ofArithmetic? n x y
  | 0x9 => if n = 0 then some (skipNeReg x y) else none
  | 0xA => some (setIndex addr)
  | 0xB => some (jumpOffset addr)
  | 0xC => some (random x nn)
  | 0xD => some (draw x y n)
  | 0xE => ofKeyTest? nn x
  | 0xF => ofDevice? nn x
  | _ => none

/-- The low sixteen bits of an integer. -/
def lowWord (word : Int) : Nat := (word % 65536).toNat

theorem lowWord_lt (word : Int) : lowWord word < 65536 := by unfold lowWord; omega

/-- Decodes the low sixteen bits of `word`; `pc` is only reported. -/
def decode (word : Int) (pc : Number) : Except Fault (Instruction Int) :=
  match ofWord? (lowWord word) with
  | some ins => .ok ins
  | none => .error (.decode (.whole (lowWord word)) pc)

/-! ## Instructions to words -/

/-- A word of a register and a byte. -/
def wordXNN (family : Nat) (x nn : Int) : Int := family * 4096 + x * 256 + nn

/-- A word of two registers and a digit. -/
def wordXYN (family : Nat) (x y n : Int) : Int := family * 4096 + x * 256 + y * 16 + n

/-- A word of an address. -/
def wordAddr (family : Nat) (addr : Int) : Int := family * 4096 + addr

/-- The word of an instruction.  If the operands are in range, it is one of
the sixteen-bit words. -/
def encode : Instruction Int → Int
  | clear => 0x00E0
  | ret => 0x00EE
  | jump addr => wordAddr 0x1 addr
  | call addr => wordAddr 0x2 addr
  | skipEqByte x nn => wordXNN 0x3 x nn
  | skipNeByte x nn => wordXNN 0x4 x nn
  | skipEqReg x y => wordXYN 0x5 x y 0
  | setByte x nn => wordXNN 0x6 x nn
  | addByte x nn => wordXNN 0x7 x nn
  | copy x y => wordXYN 0x8 x y 0x0
  | or x y => wordXYN 0x8 x y 0x1
  | and x y => wordXYN 0x8 x y 0x2
  | xor x y => wordXYN 0x8 x y 0x3
  | add x y => wordXYN 0x8 x y 0x4
  | sub x y => wordXYN 0x8 x y 0x5
  | shiftRight x y => wordXYN 0x8 x y 0x6
  | subReversed x y => wordXYN 0x8 x y 0x7
  | shiftLeft x y => wordXYN 0x8 x y 0xE
  | skipNeReg x y => wordXYN 0x9 x y 0
  | setIndex addr => wordAddr 0xA addr
  | jumpOffset addr => wordAddr 0xB addr
  | random x nn => wordXNN 0xC x nn
  | draw x y n => wordXYN 0xD x y n
  | skipIfKey x => wordXNN 0xE x 0x9E
  | skipUnlessKey x => wordXNN 0xE x 0xA1
  | readDelay x => wordXNN 0xF x 0x07
  | waitKey x => wordXNN 0xF x 0x0A
  | setDelay x => wordXNN 0xF x 0x15
  | setSound x => wordXNN 0xF x 0x18
  | addIndex x => wordXNN 0xF x 0x1E
  | pointGlyph x => wordXNN 0xF x 0x29
  | storeDecimal x => wordXNN 0xF x 0x33
  | storeRegs x => wordXNN 0xF x 0x55
  | loadRegs x => wordXNN 0xF x 0x65

/-- The two bytes of a word, the high one first. -/
def wordBytes (word : Int) : List UInt8 :=
  [UInt8.ofNat (lowWord word / 256), UInt8.ofNat (lowWord word % 256)]

/-- The bytes of a program, instruction after instruction. -/
def assemble (program : List (Instruction Int)) : List UInt8 :=
  program.flatMap fun ins => wordBytes ins.encode

/-! ## Operands that fit -/

/-- A register number or a digit. -/
def IsDigit (v : Int) : Prop := 0 ≤ v ∧ v < 16

/-- A byte. -/
def IsByte (v : Int) : Prop := 0 ≤ v ∧ v < 256

/-- An address of the 4 KiB. -/
def IsAddr (v : Int) : Prop := 0 ≤ v ∧ v < 4096

/-- All operands fit their fields. -/
def InRange : Instruction Int → Prop
  | clear | ret => True
  | jump addr | call addr | setIndex addr | jumpOffset addr => IsAddr addr
  | skipEqByte x nn | skipNeByte x nn | setByte x nn | addByte x nn | random x nn =>
      IsDigit x ∧ IsByte nn
  | skipEqReg x y | skipNeReg x y | copy x y | or x y | and x y | xor x y
  | add x y | sub x y | shiftRight x y | subReversed x y | shiftLeft x y =>
      IsDigit x ∧ IsDigit y
  | draw x y n => IsDigit x ∧ IsDigit y ∧ IsDigit n
  | skipIfKey x | skipUnlessKey x | readDelay x | waitKey x | setDelay x | setSound x
  | addIndex x | pointGlyph x | storeDecimal x | storeRegs x | loadRegs x => IsDigit x

instance (v : Int) : Decidable (IsDigit v) := inferInstanceAs (Decidable (_ ∧ _))
instance (v : Int) : Decidable (IsByte v) := inferInstanceAs (Decidable (_ ∧ _))
instance (v : Int) : Decidable (IsAddr v) := inferInstanceAs (Decidable (_ ∧ _))

end Instruction
end Chip8
