/-
# `Chip8.Keypad.Word` — the held keys in a signed word

A host keeps the held keys in a signed word `w` of 32 bits and works on all of
it.  With `b` for a one that is shifted up by the low four bits of the key:

| | |
| :-- | :-- |
| press | `w` or `b` |
| release | `w` and not `b` and `0xFFFF` |
| is it held? | is `w` and `b` not zero? |

A key may be any integer, and is itself taken as a word first.  Nothing here
keeps the upper half of `w` at zero except the calls themselves.  That they do,
and that such words and a `Keypad` are two forms of one thing, is
`toWord_initial` and `toWord_set` for the calls, and `isDown_toWord`,
`firstDown_toWord` and `mask_toWord` for what is read.
-/
import Chip8.Keypad

namespace Chip8
namespace Keypad

/-- The held keys, in a word of 32 bits. -/
structure Word where
  bits : BitVec 32
deriving DecidableEq, Repr

namespace Word

/-- No key is held, as after a reset. -/
def initial : Word := ⟨0#32⟩

/-- The low four bits of an integer, taken as a word. -/
def lowFour (key : Int) : BitVec 32 := BitVec.ofInt 32 key &&& 0x0F#32

/-- The word of a single key. -/
def bit (key : Int) : BitVec 32 := 1#32 <<< lowFour key

/-- Presses or releases a key. -/
def set (w : Word) (key : Int) (down : Bool) : Word :=
  ⟨if down then w.bits ||| bit key else w.bits &&& ~~~bit key &&& 0xFFFF#32⟩

/-- Whether a key is held. -/
def isDown (w : Word) (key : Int) : Bool := w.bits &&& bit key != 0#32

/-- The held key with the lowest number.  Bits above those of the keys are
not looked at. -/
def firstDown (w : Word) : Option Nat :=
  if w.bits = 0#32 then none
  else (List.range 16).find? fun k => w.bits &&& 1#32 <<< k != 0#32

/-- The word, read with its sign. -/
def mask (w : Word) : Int := w.bits.toInt

end Word

/-- The keypad as a word. -/
def toWord (pad : Keypad) : Word := ⟨pad.mask.setWidth 32⟩

/-! ## Single bits -/

/-- The low four bits of an integer are the number of its key. -/
theorem toNat_lowFour (key : Int) : (Word.lowFour key).toNat = number key := by
  have hlow : (Word.lowFour key).toNat = (BitVec.ofInt 32 key).toNat % 2 ^ 4 := by
    rw [Word.lowFour, BitVec.toNat_and]
    exact Nat.and_two_pow_sub_one_eq_mod _ 4
  rw [hlow, BitVec.toNat_ofInt, number]
  omega

theorem word_bit_eq (key : Int) : Word.bit key = BitVec.twoPow 32 (number key) := by
  rw [Word.bit, BitVec.shiftLeft_eq', toNat_lowFour, BitVec.twoPow_eq]

/-- Under a single bit something is left exactly if that bit is set. -/
theorem and_twoPow_ne_zero (x : BitVec 32) (k : Nat) :
    (x &&& BitVec.twoPow 32 k != 0#32) = x.getLsbD k := by
  rw [BitVec.and_twoPow]
  cases hx : x.getLsbD k with
  | false => rfl
  | true =>
      have hk : 2 ^ k < 2 ^ 32 := Nat.pow_lt_pow_right (by decide) (BitVec.lt_of_getLsbD hx)
      have hone : BitVec.twoPow 32 k ≠ 0#32 := by
        rw [ne_eq, ← BitVec.toNat_inj, BitVec.toNat_twoPow, Nat.mod_eq_of_lt hk]
        exact Nat.ne_of_gt (Nat.two_pow_pos k)
      exact bne_iff_ne.2 hone

theorem getLsbD_bit (key : Int) (i : Nat) : (bit key).getLsbD i = decide (number key = i) := by
  rw [bit, ← BitVec.twoPow_eq, BitVec.getLsbD_twoPow, decide_eq_true (number_lt key),
    Bool.true_and]

theorem getLsbD_word_bit (key : Int) (i : Nat) :
    (Word.bit key).getLsbD i = decide (number key = i) := by
  have hn : number key < 32 := Nat.lt_trans (number_lt key) (by decide)
  rw [word_bit_eq, BitVec.getLsbD_twoPow, decide_eq_true hn, Bool.true_and]

theorem getLsbD_lowHalf {i : Nat} (hi : i < 32) : (0xFFFF#32).getLsbD i = decide (i < 16) := by
  have hones : 0xFFFF#32 = BitVec.ofNat 32 (2 ^ 16 - 1) := rfl
  rw [hones, BitVec.getLsbD_ofNat, Nat.testBit_two_pow_sub_one, decide_eq_true hi, Bool.true_and]

/-- The upper half of the word is zero, as are the bits that a keypad does not
have. -/
theorem getLsbD_toWord (pad : Keypad) (i : Nat) :
    pad.toWord.bits.getLsbD i = pad.mask.getLsbD i := by
  rw [toWord, BitVec.getLsbD_setWidth]
  by_cases hi : i < 32
  · rw [decide_eq_true hi, Bool.true_and]
  · rw [decide_eq_false hi, Bool.false_and, BitVec.getLsbD_of_ge pad.mask i (by omega)]

/-! ## The calls -/

theorem toWord_initial : initial.toWord = Word.initial := rfl

/-- A call does to the word what it does to the keypad. -/
theorem toWord_set (pad : Keypad) (key : Int) (down : Bool) :
    (pad.set key down).toWord = pad.toWord.set key down := by
  refine congrArg Word.mk (BitVec.eq_of_getLsbD_eq fun i hi => ?_)
  refine (getLsbD_toWord _ i).trans ?_
  cases down with
  | true =>
      simp only [set, if_true, BitVec.getLsbD_or, getLsbD_bit, getLsbD_word_bit,
        getLsbD_toWord]
  | false =>
      -- the complement of a bit has ones in the upper half, which the word masks out
      simp only [set, Bool.false_eq_true, if_false, BitVec.getLsbD_and,
        BitVec.getLsbD_not, getLsbD_bit, getLsbD_word_bit, getLsbD_toWord, getLsbD_lowHalf hi,
        decide_eq_true hi, Bool.true_and]
      rw [Bool.and_assoc, Bool.and_comm (decide (i < 16))]

/-! ## What is read -/

theorem isDown_toWord (pad : Keypad) (q : Int) : pad.toWord.isDown q = pad.isDown q := by
  rw [Word.isDown, word_bit_eq, and_twoPow_ne_zero, getLsbD_toWord, isDown]

theorem toWord_bits_eq_zero {pad : Keypad} : pad.toWord.bits = 0#32 ↔ pad.mask = 0#16 := by
  rw [← BitVec.toNat_inj, ← BitVec.toNat_inj, toWord, BitVec.toNat_setWidth_of_le (by decide)]
  rfl

/-- The search finds the same key, whether or not it looks for zero first. -/
theorem firstDown_toWord (pad : Keypad) : pad.toWord.firstDown = pad.firstDown := by
  unfold Word.firstDown
  split
  · next hzero => exact (firstDown_eq_none.2 (toWord_bits_eq_zero.1 hzero)).symm
  · refine congrArg (fun p => (List.range 16).find? p) (funext fun k => ?_)
    rw [← BitVec.twoPow_eq, and_twoPow_ne_zero, getLsbD_toWord]

/-- The word is never negative. -/
theorem mask_toWord (pad : Keypad) : pad.toWord.mask = pad.mask.toNat := by
  have hlt := pad.mask.isLt
  have hnat : pad.toWord.bits.toNat = pad.mask.toNat := BitVec.toNat_setWidth_of_le (by decide)
  rw [Word.mask, BitVec.toInt_eq_toNat_of_lt (by omega), hnat]

end Keypad
end Chip8
