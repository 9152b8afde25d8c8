/-
# `Chip8.Checksum` — the CRC-32 fingerprint

The fingerprint of a run is the CRC-32 of its pixels: the reflected one,
with the polynomial `0xEDB88320`, an inverted start value and an inverted
end.

`shift` is one step of the division, for one bit.  `step` takes a whole byte
with the help of a table: the low byte of the register selects the result of
eight shifts, and the other three bytes move down.  `bitStep` takes a byte
by eight shifts and no table; it says what `step` is meant to compute.

A host may hand in numbers of any size instead of bytes, and any number as
the seed.  Of the seed 32 bits count, and of each number those that meet the
low byte of the register.

A checksum can be continued: the checksum of a first part is the seed for
the second.
-/
import Chip8.Number

namespace Chip8
namespace Checksum

/-- One bit of the division. -/
def shift (c : UInt32) : UInt32 :=
  if c &&& 1 = 1 then (0xEDB88320 : UInt32) ^^^ (c >>> 1) else c >>> 1

/-- Some bits of the division. -/
def shifts : Nat → UInt32 → UInt32
  | 0, c => c
  | n + 1, c => shifts n (shift c)

/-- Eight shifts of every byte. -/
def table : Vector UInt32 256 := Vector.ofFn fun i => shifts 8 (UInt32.ofNat i.val)

/-- The table entry for the low byte of a register. -/
def entry (c : UInt32) : UInt32 := table[c.toNat % 256]

/-- Takes one byte, with the table. -/
def step (c : UInt32) (b : UInt8) : UInt32 := (c >>> 8) ^^^ entry (c ^^^ b.toUInt32)

/-- Takes one byte, bit by bit. -/
def bitStep (c : UInt32) (b : UInt8) : UInt32 := shifts 8 (c ^^^ b.toUInt32)

/-- The CRC-32 of some bytes, continued from a seed. -/
def crc32 (bytes : List UInt8) (seed : UInt32) : UInt32 := ~~~ (bytes.foldl step (~~~ seed))

/-- Takes one number, with the table. -/
def stepNumber (c : UInt32) (v : Number) : UInt32 := (c >>> 8) ^^^ entry (c ^^^ UInt32.ofNat v.word)

/-- The CRC-32 of some numbers, continued from a seed. -/
def crc32Numbers (values : List Number) (seed : Number) : UInt32 :=
  ~~~ (values.foldl stepNumber (~~~ UInt32.ofNat seed.word))

/-- The CRC-32 of some bytes, bit by bit. -/
def crc32Bitwise (bytes : List UInt8) (seed : UInt32) : UInt32 :=
  ~~~ (bytes.foldl bitStep (~~~ seed))

/-! ## Continuation -/

/-- A checksum of a first part is the seed for the second. -/
theorem crc32_append (a b : List UInt8) (seed : UInt32) :
    crc32 (a ++ b) seed = crc32 b (crc32 a seed) := by
  simp [crc32, List.foldl_append]

end Checksum
end Chip8
