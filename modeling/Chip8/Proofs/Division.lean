/-
# `Chip8.Proofs.Division` — a look-up is eight steps of the division

The CRC-32 is the remainder of a division of polynomials over the two
elements, with the bits of a message taken one after the other, the lowest
bit of each byte first.  `feed` takes one of them:

    the register moves down by one;
    if the bit that falls out differs from that of the message,
    the polynomial is taken away.

The checksum with the table takes a byte at once.  That this is the same
rests on one fact about the division (`shifts_xor`): it makes no difference
whether a message is fed bit by bit, or put into the register beforehand and
shifted out.  Put in beforehand, the bits wait above until they reach the
bottom.  For the byte of a message this says that eight shifts take it in.
For the upper three bytes of the register, whose lowest eight bits are zero,
it says that eight shifts only move them down, which is what the table step
does with them, for every register and not only for those in the table.
-/
import Chip8.Checksum

namespace Chip8
namespace Checksum

/-! ## The division, bit by bit -/

/-- Takes one bit of a message. -/
def feed (c : UInt32) (bit : Bool) : UInt32 :=
  if c.toNat.testBit 0 = bit then c >>> 1 else (0xEDB88320 : UInt32) ^^^ (c >>> 1)

/-- The lowest bits of a number, the lowest first. -/
def lowBits (n k : Nat) : List Bool := (List.range k).map n.testBit

/-- The bits of some bytes, byte after byte. -/
def messageBits (bytes : List UInt8) : List Bool := bytes.flatMap fun b => lowBits b.toNat 8

/-- The CRC-32 of a message of bits, continued from a seed. -/
def crc32OfBits (message : List Bool) (seed : UInt32) : UInt32 :=
  ~~~ (message.foldl feed (~~~ seed))

theorem lowBits_succ (n k : Nat) : lowBits n (k + 1) = n.testBit 0 :: lowBits (n >>> 1) k := by
  have htail : ∀ i, n.testBit (Nat.succ i) = (n >>> 1).testBit i := by
    intro i
    rw [Nat.testBit_shiftRight, Nat.add_comm 1 i]
  rw [lowBits, List.range_succ_eq_map, List.map_cons, List.map_map]
  exact congrArg (n.testBit 0 :: ·) (List.map_congr_left fun i _ => htail i)

/-- The test of the lowest bit. -/
theorem and_one_eq_one_iff (c : UInt32) : c &&& 1 = 1 ↔ c.toNat.testBit 0 = true := by
  rw [← UInt32.toNat_inj, UInt32.toNat_and, Nat.testBit_zero, decide_eq_true_eq]
  show c.toNat &&& 1 = 1 ↔ c.toNat % 2 = 1
  rw [Nat.and_one_is_mod]

theorem shift_eq (c : UInt32) : shift c = feed c false := by
  unfold shift feed
  cases hc : c.toNat.testBit 0 with
  | true => rw [if_pos ((and_one_eq_one_iff c).mpr hc), if_neg Bool.noConfusion]
  | false =>
      have hno : ¬ c &&& 1 = 1 := fun h => by
        rw [(and_one_eq_one_iff c).mp h] at hc
        cases hc
      rw [if_neg hno, if_pos rfl]

/-- What is put into the register is fed with its lowest bit. -/
theorem feed_xor (c m : UInt32) :
    feed (c ^^^ m) false = feed c (m.toNat.testBit 0) ^^^ (m >>> 1) := by
  unfold feed
  rw [UInt32.toNat_xor, Nat.testBit_xor, UInt32.shiftRight_xor]
  cases c.toNat.testBit 0 <;> cases m.toNat.testBit 0 <;>
    simp only [Bool.xor_false, Bool.xor_true, Bool.not_false, Bool.not_true, if_true, reduceCtorEq,
      if_false, UInt32.xor_assoc]

/-- What is put into the register beforehand waits above, and is fed bit by
bit. -/
theorem shifts_xor (k : Nat) (c m : UInt32) :
    shifts k (c ^^^ m) = (lowBits m.toNat k).foldl feed c ^^^ UInt32.ofNat (m.toNat >>> k) := by
  induction k generalizing c m with
  | zero =>
      rw [Nat.shiftRight_zero, UInt32.ofNat_toNat]
      rfl
  | succ k ih =>
      have hrest : (m >>> 1).toNat = m.toNat >>> 1 := rfl
      rw [shifts, shift_eq, feed_xor, ih, lowBits_succ, List.foldl_cons, hrest,
        ← Nat.shiftRight_add, Nat.add_comm 1 k]

/-! ## A byte at a time -/

/-- A byte in a register is gone after eight places. -/
theorem byte_shiftRight (m : UInt32) (hm : m.toNat < 2 ^ 8) : m >>> 8 = 0 := by
  apply UInt32.toNat_inj.mp
  show m.toNat >>> 8 = 0
  rw [Nat.shiftRight_eq_div_pow]
  exact Nat.div_eq_of_lt hm

theorem shifts_eight_xor (c m : UInt32) :
    shifts 8 (c ^^^ m) = (lowBits m.toNat 8).foldl feed c ^^^ (m >>> 8) := by
  have hmoved : UInt32.ofNat (m.toNat >>> 8) = m >>> 8 :=
    show UInt32.ofNat (m >>> 8).toNat = m >>> 8 from UInt32.ofNat_toNat
  rw [shifts_xor, hmoved]

/-- Zeros that are fed only shift. -/
theorem feed_zeros (k : Nat) (c : UInt32) : (List.replicate k false).foldl feed c = shifts k c := by
  induction k generalizing c with
  | zero => rfl
  | succ k ih => rw [List.replicate_succ, List.foldl_cons, ih, shifts, shift_eq]

/-- Eight shifts take in the byte that was put in beforehand. -/
theorem bitStep_eq (c : UInt32) (b : UInt8) : bitStep c b = (lowBits b.toNat 8).foldl feed c := by
  rw [bitStep, shifts_eight_xor, byte_shiftRight b.toUInt32 b.toNat_lt, UInt8.toNat_toUInt32,
    UInt32.xor_zero]

/-! ## The table -/

/-- The low byte of a register, by which the table is entered. -/
def lowByte (d : UInt32) : UInt32 := UInt32.ofNat (d.toNat % 256)

theorem toNat_lowByte (d : UInt32) : (lowByte d).toNat = d.toNat % 2 ^ 8 := by
  rw [lowByte, UInt32.toNat_ofNat']
  omega

theorem entry_eq (d : UInt32) : entry d = shifts 8 (lowByte d) := by
  rw [entry, table, Vector.getElem_ofFn, lowByte]

/-- Without the low byte of a register, its lowest bits are zero. -/
theorem lowBits_xor_lowByte (d : UInt32) :
    lowBits (d ^^^ lowByte d).toNat 8 = List.replicate 8 false := by
  refine List.eq_replicate_iff.mpr ⟨by rw [lowBits, List.length_map, List.length_range], ?_⟩
  intro bit hbit
  obtain ⟨i, hi, rfl⟩ := List.mem_map.mp hbit
  rw [UInt32.toNat_xor, toNat_lowByte, Nat.testBit_xor, Nat.testBit_mod_two_pow,
    decide_eq_true (List.mem_range.mp hi), Bool.true_and, Bool.xor_self]

/-- Without the low byte of a register, its upper bytes are the same. -/
theorem shiftRight_xor_lowByte (d : UInt32) : (d ^^^ lowByte d) >>> 8 = d >>> 8 := by
  have hbyte : (lowByte d).toNat < 2 ^ 8 := by
    rw [toNat_lowByte]
    exact Nat.mod_lt _ (by decide)
  rw [UInt32.shiftRight_xor, byte_shiftRight (lowByte d) hbyte, UInt32.xor_zero]

/-- The upper three bytes of a register only move down, and the lowest one is
looked up. -/
theorem shifts_eight (d : UInt32) : shifts 8 d = (d >>> 8) ^^^ entry d := by
  have hsplit : d = lowByte d ^^^ (d ^^^ lowByte d) := by
    rw [UInt32.xor_comm d, ← UInt32.xor_assoc, UInt32.xor_self, UInt32.zero_xor]
  calc shifts 8 d
      = shifts 8 (lowByte d ^^^ (d ^^^ lowByte d)) := by rw [← hsplit]
    _ = (List.replicate 8 false).foldl feed (lowByte d) ^^^ (d >>> 8) := by
        rw [shifts_eight_xor, lowBits_xor_lowByte, shiftRight_xor_lowByte]
    _ = entry d ^^^ (d >>> 8) := by rw [feed_zeros, entry_eq]
    _ = (d >>> 8) ^^^ entry d := UInt32.xor_comm _ _

/-- The step with the table is the step without. -/
theorem step_eq_bitStep (c : UInt32) (b : UInt8) : step c b = bitStep c b := by
  rw [bitStep, shifts_eight, UInt32.shiftRight_xor, byte_shiftRight b.toUInt32 b.toNat_lt,
    UInt32.xor_zero, step]

/-- Of a number only the low byte reaches the table. -/
theorem stepNumber_eq (c : UInt32) (v : Number) : stepNumber c v = step c v.byte := by
  have hword : (UInt32.ofNat v.word).toNat % 2 ^ 8 = v.byte.toUInt32.toNat % 2 ^ 8 := by
    rw [UInt8.toNat_toUInt32, Number.byte, UInt32.toNat_ofNat', UInt8.toNat_ofNat']
    omega
  have hindex : (c ^^^ UInt32.ofNat v.word).toNat % 2 ^ 8 =
      (c ^^^ v.byte.toUInt32).toNat % 2 ^ 8 := by
    rw [UInt32.toNat_xor, UInt32.toNat_xor, Nat.xor_mod_two_pow, Nat.xor_mod_two_pow, hword]
  have hbyte : lowByte (c ^^^ UInt32.ofNat v.word) = lowByte (c ^^^ v.byte.toUInt32) :=
    congrArg UInt32.ofNat hindex
  rw [stepNumber, entry_eq, hbyte, ← entry_eq, step]

/-! ## The checksum -/

theorem crc32_eq_crc32Bitwise (bytes : List UInt8) (seed : UInt32) :
    crc32 bytes seed = crc32Bitwise bytes seed := by
  have hstep : step = bitStep := funext fun c => funext fun b => step_eq_bitStep c b
  rw [crc32, hstep, crc32Bitwise]

theorem crc32Bitwise_eq_crc32OfBits (bytes : List UInt8) (seed : UInt32) :
    crc32Bitwise bytes seed = crc32OfBits (messageBits bytes) seed := by
  have hstep : bitStep = fun c b => (lowBits b.toNat 8).foldl feed c :=
    funext fun c => funext fun b => bitStep_eq c b
  rw [crc32Bitwise, hstep, crc32OfBits, messageBits, List.foldl_flatMap]

theorem crc32Numbers_eq_crc32 (values : List Number) (seed : Number) :
    crc32Numbers values seed = crc32 (values.map Number.byte) (UInt32.ofNat seed.word) := by
  have hstep : stepNumber = fun c v => step c v.byte :=
    funext fun c => funext fun v => stepNumber_eq c v
  rw [crc32Numbers, hstep, crc32, List.foldl_map]

/-- The checksum with the table is the reflected CRC-32, bit by bit, with an
inverted start and an inverted end; of each number the low byte counts, and
of the seed the low 32 bits.  It is a number of 32 bits, and the checksum of
a first part is the seed for the rest. -/
theorem crc32_is_bitwise (values : List Number) (seed : Number) :
    crc32Numbers values seed =
        crc32OfBits (messageBits (values.map Number.byte)) (UInt32.ofNat seed.word) ∧
      (crc32Numbers values seed).toNat < 2 ^ 32 ∧
      ∀ rest : List Number, crc32Numbers (values ++ rest) seed =
        crc32Numbers rest (crc32Numbers values seed).toNat := by
  refine ⟨?_, UInt32.toNat_lt _, fun rest => ?_⟩
  · rw [crc32Numbers_eq_crc32, crc32_eq_crc32Bitwise, crc32Bitwise_eq_crc32OfBits]
  · have hseed : UInt32.ofNat (Number.word (crc32Numbers values seed).toNat) =
        crc32Numbers values seed := by
      have hlt := (crc32Numbers values seed).toNat_lt
      have hword : Number.word (crc32Numbers values seed).toNat =
          (crc32Numbers values seed).toNat := by
        show (((crc32Numbers values seed).toNat : Int) % 2 ^ 32).toNat = _
        omega
      rw [hword, UInt32.ofNat_toNat]
    rw [crc32Numbers_eq_crc32 rest, hseed, crc32Numbers_eq_crc32, crc32Numbers_eq_crc32,
      List.map_append, crc32_append]

/-- The published check value, of the digits 1 to 9. -/
example : crc32OfBits (messageBits [0x31, 0x32, 0x33, 0x34, 0x35, 0x36, 0x37, 0x38, 0x39]) 0 =
    0xCBF43926 := by
  decide +kernel

end Checksum
end Chip8
