/-
# `Chip8.Instruction.Mnemonic` — instructions as assembler text

A mnemonic and its operands, as in a listing.  Registers are written `V`
and a digit, addresses with a dollar sign and at least three digits, bytes
with `#$` and at least two, and the number of sprite rows in base ten.  The
second register of a shift is not shown, since the instruction does not use
it; every other operand is.  An operand that does not fit its field is
written out in full.

Integers and the arguments of a host are both written this way, so the
layout is given once, over any type whose values have a text in both bases.
-/
import Chip8.Instruction

namespace Chip8

/-- Operands with a text in base sixteen and in base ten. -/
class OperandText (ω : Type) where
  /-- In base sixteen, with a least number of digits. -/
  hex : ω → Nat → String
  /-- In base ten. -/
  plain : ω → String

instance : OperandText Int := ⟨fun n width => upperHex n width, fun n => toString n⟩

/-- An argument in base sixteen, if it is a number, and otherwise its text in
upper case. -/
def Argument.hex (a : Argument) (width : Nat) : String :=
  match a with
  | .number n => upperHex n width
  | a => String.ofList (zeroFill width a.text.toUpper.toList)

instance : OperandText Argument := ⟨Argument.hex, Argument.text⟩

namespace Instruction

variable {ω : Type} [OperandText ω]

/-- A register. -/
def regText (x : ω) : String := "V" ++ OperandText.hex x 1

/-- An address. -/
def addrText (addr : ω) : String := "$" ++ OperandText.hex addr 3

/-- A byte operand. -/
def byteText (nn : ω) : String := "#$" ++ OperandText.hex nn 2

/-- A mnemonic with a register and a byte. -/
def textXNN (name : String) (x nn : ω) : String :=
  name ++ " " ++ regText x ++ ", " ++ byteText nn

/-- A mnemonic with two registers. -/
def textXY (name : String) (x y : ω) : String :=
  name ++ " " ++ regText x ++ ", " ++ regText y

/-- A mnemonic with one register. -/
def textX (name : String) (x : ω) : String := name ++ " " ++ regText x

/-- The assembler text of an instruction. -/
def text : Instruction ω → String
  | clear => "CLS"
  | ret => "RET"
  | jump addr => "JP " ++ addrText addr
  | call addr => "CALL " ++ addrText addr
  | skipEqByte x nn => textXNN "SE" x nn
  | skipNeByte x nn => textXNN "SNE" x nn
  | skipEqReg x y => textXY "SE" x y
  | skipNeReg x y => textXY "SNE" x y
  | setByte x nn => textXNN "LD" x nn
  | addByte x nn => textXNN "ADD" x nn
  | copy x y => textXY "LD" x y
  | or x y => textXY "OR" x y
  | and x y => textXY "AND" x y
  | xor x y => textXY "XOR" x y
  | add x y => textXY "ADD" x y
  | sub x y => textXY "SUB" x y
  | shiftRight x _ => textX "SHR" x
  | subReversed x y => textXY "SUBN" x y
  | shiftLeft x _ => textX "SHL" x
  | setIndex addr => "LD I, " ++ addrText addr
  | jumpOffset addr => "JP V0, " ++ addrText addr
  | random x nn => textXNN "RND" x nn
  | draw x y n => textXY "DRW" x y ++ ", " ++ OperandText.plain n
  | skipIfKey x => textX "SKP" x
  | skipUnlessKey x => textX "SKNP" x
  | readDelay x => textX "LD" x ++ ", DT"
  | waitKey x => textX "LD" x ++ ", K"
  | setDelay x => "LD DT, " ++ regText x
  | setSound x => "LD ST, " ++ regText x
  | addIndex x => "ADD I, " ++ regText x
  | pointGlyph x => "LD F, " ++ regText x
  | storeDecimal x => "LD B, " ++ regText x
  | storeRegs x => "LD [I], " ++ regText x
  | loadRegs x => textX "LD" x ++ ", [I]"

/-! ## How a text begins -/

/-- The mnemonics. -/
def mnemonics : List String :=
  ["CLS", "RET", "JP", "CALL", "SE", "SNE", "LD", "ADD", "OR", "AND", "XOR", "SUB", "SHR", "SUBN",
    "SHL", "RND", "DRW", "SKP", "SKNP"]

theorem begins_append {name text : String} (h : name.toList <+: text.toList) (rest : String) :
    name.toList <+: (text ++ rest).toList := by
  rw [String.toList_append]
  exact h.trans (List.prefix_append _ _)

theorem textX_begins (name : String) (x : ω) : name.toList <+: (textX name x).toList :=
  begins_append (begins_append (List.prefix_refl _) _) _

theorem textXY_begins (name : String) (x y : ω) : name.toList <+: (textXY name x y).toList :=
  begins_append (begins_append (textX_begins name x) _) _

theorem textXNN_begins (name : String) (x nn : ω) : name.toList <+: (textXNN name x nn).toList :=
  begins_append (begins_append (textX_begins name x) _) _

/-- The text of an instruction begins with a mnemonic. -/
theorem text_begins (ins : Instruction ω) :
    ∃ name ∈ mnemonics, name.toList <+: ins.text.toList := by
  cases ins with
  | clear => exact ⟨"CLS", by decide, List.prefix_refl _⟩
  | ret => exact ⟨"RET", by decide, List.prefix_refl _⟩
  | jump addr => exact ⟨"JP", by decide, begins_append (by decide) _⟩
  | call addr => exact ⟨"CALL", by decide, begins_append (by decide) _⟩
  | skipEqByte x nn => exact ⟨"SE", by decide, textXNN_begins _ x nn⟩
  | skipNeByte x nn => exact ⟨"SNE", by decide, textXNN_begins _ x nn⟩
  | skipEqReg x y => exact ⟨"SE", by decide, textXY_begins _ x y⟩
  | skipNeReg x y => exact ⟨"SNE", by decide, textXY_begins _ x y⟩
  | setByte x nn => exact ⟨"LD", by decide, textXNN_begins _ x nn⟩
  | addByte x nn => exact ⟨"ADD", by decide, textXNN_begins _ x nn⟩
  | copy x y => exact ⟨"LD", by decide, textXY_begins _ x y⟩
  | or x y => exact ⟨"OR", by decide, textXY_begins _ x y⟩
  | and x y => exact ⟨"AND", by decide, textXY_begins _ x y⟩
  | xor x y => exact ⟨"XOR", by decide, textXY_begins _ x y⟩
  | add x y => exact ⟨"ADD", by decide, textXY_begins _ x y⟩
  | sub x y => exact ⟨"SUB", by decide, textXY_begins _ x y⟩
  | shiftRight x y => exact ⟨"SHR", by decide, textX_begins _ x⟩
  | subReversed x y => exact ⟨"SUBN", by decide, textXY_begins _ x y⟩
  | shiftLeft x y => exact ⟨"SHL", by decide, textX_begins _ x⟩
  | setIndex addr => exact ⟨"LD", by decide, begins_append (by decide) _⟩
  | jumpOffset addr => exact ⟨"JP", by decide, begins_append (by decide) _⟩
  | random x nn => exact ⟨"RND", by decide, textXNN_begins _ x nn⟩
  | draw x y n =>
      exact ⟨"DRW", by decide, begins_append (begins_append (textXY_begins _ x y) _) _⟩
  | skipIfKey x => exact ⟨"SKP", by decide, textX_begins _ x⟩
  | skipUnlessKey x => exact ⟨"SKNP", by decide, textX_begins _ x⟩
  | readDelay x => exact ⟨"LD", by decide, begins_append (textX_begins _ x) _⟩
  | waitKey x => exact ⟨"LD", by decide, begins_append (textX_begins _ x) _⟩
  | addIndex x => exact ⟨"ADD", by decide, begins_append (by decide) _⟩
  | loadRegs x => exact ⟨"LD", by decide, begins_append (textX_begins _ x) _⟩
  | _ => exact ⟨"LD", by decide, begins_append (by decide) _⟩

/-- What no mnemonic begins with, no text begins with. -/
theorem not_begins_text (start : List Char)
    (h : ∀ name ∈ mnemonics, start.length ≤ name.toList.length ∧ ¬ start <+: name.toList)
    (ins : Instruction ω) : ¬ start <+: ins.text.toList := by
  intro hstart
  obtain ⟨name, hmem, hname⟩ := ins.text_begins
  obtain ⟨hlen, hnot⟩ := h name hmem
  exact hnot (List.prefix_of_prefix_length_le hstart hname hlen)

end Instruction
end Chip8
