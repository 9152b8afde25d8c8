/-
# `Chip8.Proofs.Assembler` — an instruction is read back from its text

A text of the listing is a mnemonic and operands, with blanks between them
and a comma behind every operand but the last.  Reading it takes two steps:

    "DRW VA, V3, 12"
    tokens        name DRW, register 10, register 3, count 12
    ofTokens?     draw 10 3 12

The first character of a word says what it is: `V` a register, `$` an
address, `#` a byte, a decimal digit a count, and everything else a name.
No name that occurs begins like that, so the commas carry nothing and are
dropped.  Several instructions share a mnemonic, and a register may stand
where a fixed operand stands in another (`JP V0, $200` and `JP $200`); the
number of operands and their kinds tell them apart.

Whatever fits its fields is read back (`ofText?_text`), but for the second
register of a shift, which the text does not show.  So two texts are equal
if and only if the instructions are, up to that register (`text_eq_iff`).
-/
import Chip8.Proofs.Decoding

namespace Chip8

/-! ## Digits -/

/-- The value of a digit in base sixteen, in upper case. -/
def digitValue (c : Char) : Nat := if c.isDigit then c.toNat - 48 else c.toNat - 55

/-- The number that some digits in base sixteen stand for. -/
def readHex (ds : List Char) : Nat := ds.foldl (fun n c => 16 * n + digitValue c) 0

theorem digitValue_digitChar : ∀ d < 16, digitValue (Nat.digitChar d).toUpper = d := by
  decide

theorem readHex_append (ds : List Char) (c : Char) :
    readHex (ds ++ [c]) = 16 * readHex ds + digitValue c := by
  rw [readHex, List.foldl_append]
  rfl

theorem readHex_hexDigits (n : Nat) : readHex ((hexDigits n).map Char.toUpper) = n := by
  induction n using Nat.strongRecOn with
  | ind n ih =>
      by_cases hn : n < 16
      · rw [hexDigits, Nat.toDigits_of_lt_base hn]
        exact (Nat.zero_add _).trans (digitValue_digitChar n hn)
      · have hlast : digitValue (Nat.digitChar (n % 16)).toUpper = n % 16 :=
          digitValue_digitChar _ (Nat.mod_lt n (by decide))
        have hrest := ih (n / 16) (by omega)
        rw [hexDigits] at hrest ⊢
        rw [Nat.toDigits_of_base_le (by decide) (Nat.le_of_not_lt hn), List.map_append,
          List.map_singleton, readHex_append, hrest, hlast]
        omega

/-- Zeros in front do not count. -/
theorem readHex_zeroFill (width : Nat) (ds : List Char) :
    readHex (zeroFill width ds) = readHex ds := by
  have hzeros : ∀ k, (List.replicate k '0').foldl (fun n c => 16 * n + digitValue c) 0 = 0 := by
    intro k
    induction k with
    | zero => rfl
    | succ k ih => exact ih
  rw [readHex, zeroFill, List.leftpad, List.foldl_append, hzeros]
  rfl

theorem toList_upperHex (n width : Nat) :
    (upperHex n width).toList = zeroFill width ((hexDigits n).map Char.toUpper) := by
  have hsign : ¬ (n : Int) < 0 := by omega
  simp only [upperHex, signedHexDigits, if_neg hsign, Int.natAbs_natCast, String.toList_ofList]

/-- A number that is written in base sixteen is read back. -/
theorem readHex_upperHex (n width : Nat) : readHex (upperHex n width).toList = n := by
  rw [toList_upperHex, readHex_zeroFill, readHex_hexDigits]

/-- The characters of a number in base sixteen are digits. -/
theorem mem_upperHex {n width : Nat} {c : Char} (h : c ∈ (upperHex n width).toList) :
    ∃ d < 16, c = (Nat.digitChar d).toUpper := by
  have hdigits : ∀ n, ∀ c ∈ Nat.toDigits 16 n, ∃ d < 16, c = Nat.digitChar d := by
    intro n
    induction n using Nat.strongRecOn with
    | ind n ih =>
        intro c hc
        rw [Nat.toDigits_eq_if (by decide)] at hc
        split at hc
        case isTrue hn => exact ⟨n, hn, List.mem_singleton.mp hc⟩
        case isFalse hn =>
          rcases List.mem_append.mp hc with hrest | hlast
          · exact ih (n / 16) (by omega) c hrest
          · exact ⟨n % 16, Nat.mod_lt n (by decide), List.mem_singleton.mp hlast⟩
  rw [toList_upperHex] at h
  rcases List.mem_append.mp h with hzero | hdigit
  · exact ⟨0, by decide, List.eq_of_mem_replicate hzero⟩
  · obtain ⟨c', hc', rfl⟩ := List.mem_map.mp hdigit
    obtain ⟨d, hd, rfl⟩ := hdigits n c' hc'
    exact ⟨d, hd, rfl⟩

namespace Instruction

/-! ## Words -/

/-- What a word of a text says. -/
inductive Token where
  | register (x : Int)
  | address (addr : Int)
  | byte (nn : Int)
  | count (n : Int)
  | name (text : String)
deriving DecidableEq

/-- Reads a word by its first character. -/
def Token.read : List Char → Token
  | 'V' :: ds => .register (readHex ds)
  | '$' :: ds => .address (readHex ds)
  | '#' :: '$' :: ds => .byte (readHex ds)
  | c :: cs =>
      if c.isDigit then .count (Nat.ofDigitChars 10 (c :: cs) 0)
      else .name (String.ofList (c :: cs))
  | [] => .name ""

/-- The words of a text, without the commas. -/
def tokens (text : String) : List Token :=
  ((text.toList.filter (· != ',')).splitOn ' ').map Token.read

/-- A text without blanks and commas is a single word. -/
def Plain (text : String) : Prop := ∀ c ∈ text.toList, c ≠ ' ' ∧ c ≠ ','

-- By the characters of the text, and not by all characters there are.
instance : DecidablePred Plain := fun text => List.decidableBAll _ text.toList

/-- A blank separates words, with or without a comma. -/
theorem tokens_separated {mark : String} (hmark : mark.toList.filter (· != ',') = [' '])
    (a b : String) : tokens (a ++ mark ++ b) = tokens a ++ tokens b := by
  rw [tokens, String.toList_append, String.toList_append, List.filter_append, List.filter_append,
    hmark, List.append_assoc, List.singleton_append, List.splitOn_append_cons_self,
    List.map_append]
  rfl

theorem tokens_blank (a b : String) : tokens (a ++ " " ++ b) = tokens a ++ tokens b :=
  tokens_separated rfl a b

theorem tokens_comma (a b : String) : tokens (a ++ ", " ++ b) = tokens a ++ tokens b :=
  tokens_separated rfl a b

theorem tokens_of_plain {text : String} (h : Plain text) :
    tokens text = [Token.read text.toList] := by
  have hall : text.toList.filter (· != ',') = text.toList := by
    refine List.filter_eq_self.mpr fun c hc => ?_
    exact bne_iff_ne.mpr (h c hc).2
  have hblank : ' ' ∉ text.toList := fun hc => (h ' ' hc).1 rfl
  rw [tokens, hall, List.splitOn_eq_singleton hblank]
  rfl

/-! ## Operands -/

section Operands

variable {x y n nn addr : Int} {name : String}

theorem plain_append {a b : String} (ha : Plain a) (hb : Plain b) : Plain (a ++ b) := by
  intro c hc
  rw [String.toList_append] at hc
  rcases List.mem_append.mp hc with hc | hc
  · exact ha c hc
  · exact hb c hc

theorem plain_upperHex (n width : Nat) : Plain (upperHex n width) := by
  have hdigits : ∀ d < 16, (Nat.digitChar d).toUpper ≠ ' ' ∧ (Nat.digitChar d).toUpper ≠ ',' := by
    decide
  intro c hc
  obtain ⟨d, hd, rfl⟩ := mem_upperHex hc
  exact hdigits d hd

/-- A mark with a number behind it is a single word, and read as the number. -/
theorem tokens_marked {mark : String} {make : Int → Token} (hmark : Plain mark)
    (hread : ∀ ds, Token.read (mark.toList ++ ds) = make (readHex ds)) (k width : Nat) :
    tokens (mark ++ upperHex k width) = [make k] := by
  rw [tokens_of_plain (plain_append hmark (plain_upperHex k width)), String.toList_append, hread,
    readHex_upperHex]

theorem tokens_regText (hx : IsDigit x) : tokens (regText x) = [.register x] := by
  obtain ⟨k, rfl⟩ := Int.eq_ofNat_of_zero_le hx.1
  exact tokens_marked (by decide) (fun _ => rfl) k 1

theorem tokens_addrText (ha : IsAddr addr) : tokens (addrText addr) = [.address addr] := by
  obtain ⟨k, rfl⟩ := Int.eq_ofNat_of_zero_le ha.1
  exact tokens_marked (by decide) (fun _ => rfl) k 3

theorem tokens_byteText (hnn : IsByte nn) : tokens (byteText nn) = [.byte nn] := by
  obtain ⟨k, rfl⟩ := Int.eq_ofNat_of_zero_le hnn.1
  exact tokens_marked (by decide) (fun _ => rfl) k 2

theorem tokens_plain (hn : IsDigit n) : tokens (OperandText.plain n) = [.count n] := by
  have hall : ∀ k < 16, tokens (OperandText.plain ((k : Nat) : Int)) = [.count k] := by decide
  obtain ⟨k, rfl⟩ := Int.eq_ofNat_of_zero_le hn.1
  exact hall k (by have := hn.2; omega)

/-! ## Layouts -/

theorem tokens_textX (hname : tokens name = [.name name]) (hx : IsDigit x) :
    tokens (textX name x) = [.name name, .register x] := by
  rw [textX, tokens_blank, hname, tokens_regText hx]
  rfl

theorem tokens_textXNN (hname : tokens name = [.name name]) (hx : IsDigit x) (hnn : IsByte nn) :
    tokens (textXNN name x nn) = [.name name, .register x, .byte nn] := by
  rw [textXNN, tokens_comma, tokens_blank, hname, tokens_regText hx, tokens_byteText hnn]
  rfl

theorem tokens_textXY (hname : tokens name = [.name name]) (hx : IsDigit x) (hy : IsDigit y) :
    tokens (textXY name x y) = [.name name, .register x, .register y] := by
  rw [textXY, tokens_comma, tokens_blank, hname, tokens_regText hx, tokens_regText hy]
  rfl

/-- A text that begins with a fixed operand. -/
theorem tokens_lead (start lead : String) {rest : String} (h : start = lead ++ ", ") :
    tokens (start ++ rest) = tokens lead ++ tokens rest := by
  rw [h, tokens_comma]

/-- A text of an address only. -/
theorem tokens_target (start name : String) (h : start = name ++ " ") (ha : IsAddr addr) :
    tokens (start ++ addrText addr) = tokens name ++ [.address addr] := by
  rw [h, tokens_blank, tokens_addrText ha]

/-- A text that ends with a fixed operand. -/
theorem tokens_tail (rest tail : String) {start : String} (h : rest = ", " ++ tail) :
    tokens (start ++ rest) = tokens start ++ tokens tail := by
  rw [h, ← String.append_assoc, tokens_comma]

end Operands

/-! ## Instructions -/

/-- The instruction that some words stand for. -/
def ofTokens? : List Token → Option (Instruction Int)
  | [.name "CLS"] => some clear
  | [.name "RET"] => some ret
  | [.name "JP", .address addr] => some (jump addr)
  | [.name "JP", .register 0, .address addr] => some (jumpOffset addr)
  | [.name "CALL", .address addr] => some (call addr)
  | [.name "SE", .register x, .byte nn] => some (skipEqByte x nn)
  | [.name "SE", .register x, .register y] => some (skipEqReg x y)
  | [.name "SNE", .register x, .byte nn] => some (skipNeByte x nn)
  | [.name "SNE", .register x, .register y] => some (skipNeReg x y)
  | [.name "LD", .register x, .byte nn] => some (setByte x nn)
  | [.name "LD", .register x, .register y] => some (copy x y)
  | [.name "LD", .name "I", .address addr] => some (setIndex addr)
  | [.name "LD", .register x, .name "DT"] => some (readDelay x)
  | [.name "LD", .register x, .name "K"] => some (waitKey x)
  | [.name "LD", .name "DT", .register x] => some (setDelay x)
  | [.name "LD", .name "ST", .register x] => some (setSound x)
  | [.name "LD", .name "F", .register x] => some (pointGlyph x)
  | [.name "LD", .name "B", .register x] => some (storeDecimal x)
  | [.name "LD", .name "[I]", .register x] => some (storeRegs x)
  | [.name "LD", .register x, .name "[I]"] => some (loadRegs x)
  | [.name "ADD", .register x, .byte nn] => some (addByte x nn)
  | [.name "ADD", .register x, .register y] => some (add x y)
  | [.name "ADD", .name "I", .register x] => some (addIndex x)
  | [.name "OR", .register x, .register y] => some (or x y)
  | [.name "AND", .register x, .register y] => some (and x y)
  | [.name "XOR", .register x, .register y] => some (xor x y)
  | [.name "SUB", .register x, .register y] => some (sub x y)
  | [.name "SUBN", .register x, .register y] => some (subReversed x y)
  | [.name "SHR", .register x] => some (shiftRight x 0)
  | [.name "SHL", .register x] => some (shiftLeft x 0)
  | [.name "RND", .register x, .byte nn] => some (random x nn)
  | [.name "DRW", .register x, .register y, .count n] => some (draw x y n)
  | [.name "SKP", .register x] => some (skipIfKey x)
  | [.name "SKNP", .register x] => some (skipUnlessKey x)
  | _ => none

/-- The instruction that a text of the listing stands for. -/
def ofText? (text : String) : Option (Instruction Int) := ofTokens? (tokens text)

/-- What the text of an instruction shows: all but the second register of a
shift. -/
def shown : Instruction Int → Instruction Int
  | shiftRight x _ => shiftRight x 0
  | shiftLeft x _ => shiftLeft x 0
  | ins => ins

theorem text_shown (ins : Instruction Int) : ins.shown.text = ins.text := by
  cases ins <;> rfl

/-- An instruction is read back from its text. -/
theorem ofText?_text {ins : Instruction Int} (h : ins.InRange) :
    ofText? ins.text = some ins.shown := by
  cases ins with
  | clear | ret => rfl
  | jump addr =>
      rw [ofText?, text, tokens_target "JP " "JP" rfl h]
      rfl
  | call addr =>
      rw [ofText?, text, tokens_target "CALL " "CALL" rfl h]
      rfl
  | skipEqByte x nn | skipNeByte x nn | setByte x nn | addByte x nn | random x nn =>
      rw [ofText?, text, tokens_textXNN rfl h.1 h.2]
      rfl
  | skipEqReg x y | skipNeReg x y | copy x y | or x y | and x y | xor x y | add x y | sub x y
  | subReversed x y =>
      rw [ofText?, text, tokens_textXY rfl h.1 h.2]
      rfl
  | shiftRight x y | shiftLeft x y =>
      rw [ofText?, text, tokens_textX rfl h.1]
      rfl
  | skipIfKey x | skipUnlessKey x =>
      rw [ofText?, text, tokens_textX rfl h]
      rfl
  | draw x y n =>
      rw [ofText?, text, tokens_comma, tokens_textXY rfl h.1 h.2.1, tokens_plain h.2.2]
      rfl
  | readDelay x =>
      rw [ofText?, text, tokens_tail ", DT" "DT" rfl, tokens_textX rfl h]
      rfl
  | waitKey x =>
      rw [ofText?, text, tokens_tail ", K" "K" rfl, tokens_textX rfl h]
      rfl
  | loadRegs x =>
      rw [ofText?, text, tokens_tail ", [I]" "[I]" rfl, tokens_textX rfl h]
      rfl
  | setIndex addr =>
      rw [ofText?, text, tokens_lead "LD I, " "LD I" rfl, tokens_addrText h]
      rfl
  | jumpOffset addr =>
      rw [ofText?, text, tokens_lead "JP V0, " "JP V0" rfl, tokens_addrText h]
      rfl
  | setDelay x =>
      rw [ofText?, text, tokens_lead "LD DT, " "LD DT" rfl, tokens_regText h]
      rfl
  | setSound x =>
      rw [ofText?, text, tokens_lead "LD ST, " "LD ST" rfl, tokens_regText h]
      rfl
  | addIndex x =>
      rw [ofText?, text, tokens_lead "ADD I, " "ADD I" rfl, tokens_regText h]
      rfl
  | pointGlyph x =>
      rw [ofText?, text, tokens_lead "LD F, " "LD F" rfl, tokens_regText h]
      rfl
  | storeDecimal x =>
      rw [ofText?, text, tokens_lead "LD B, " "LD B" rfl, tokens_regText h]
      rfl
  | storeRegs x =>
      rw [ofText?, text, tokens_lead "LD [I], " "LD [I]" rfl, tokens_regText h]
      rfl

/-- Two texts are equal if the instructions show the same, and only then. -/
theorem text_eq_iff {ins ins' : Instruction Int} (h : ins.InRange) (h' : ins'.InRange) :
    ins.text = ins'.text ↔ ins.shown = ins'.shown := by
  constructor
  · intro htext
    have hread := ofText?_text h
    rw [htext, ofText?_text h'] at hread
    exact (Option.some.inj hread).symm
  · intro hshown
    rw [← ins.text_shown, hshown, ins'.text_shown]

end Instruction
end Chip8
