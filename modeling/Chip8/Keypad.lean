/-
# `Chip8.Keypad` — the sixteen keys

The keys that are held are the bits of a sixteen-bit mask, bit `k` for key
`k`.  A key number may be any integer and counts modulo sixteen.
-/
namespace Chip8

/-- The held keys. -/
structure Keypad where
  mask : BitVec 16
deriving DecidableEq, Repr

namespace Keypad

/-- No key is held. -/
def initial : Keypad := ⟨0#16⟩

/-- The number of the key that an integer means. -/
def number (key : Int) : Nat := (key % 16).toNat

/-- The mask of a single key. -/
def bit (key : Int) : BitVec 16 := 1#16 <<< number key

/-- Presses or releases a key. -/
def set (k : Keypad) (key : Int) (down : Bool) : Keypad :=
  ⟨if down then k.mask ||| bit key else k.mask &&& ~~~bit key⟩

/-- Whether a key is held. -/
def isDown (k : Keypad) (key : Int) : Bool := k.mask.getLsbD (number key)

/-- The held key with the lowest number. -/
def firstDown (k : Keypad) : Option Nat :=
  (List.range 16).find? fun i => k.mask.getLsbD i

/-! ## What a call changes -/

theorem number_lt (key : Int) : number key < 16 := by unfold number; omega

/-- A call decides about the key of its number, and about no other. -/
theorem isDown_set (k : Keypad) (key q : Int) (down : Bool) :
    (k.set key down).isDown q = if number q = number key then down else k.isDown q := by
  have hq := number_lt q
  cases down <;> by_cases h : number q = number key <;>
    simp [set, isDown, bit, h, hq] <;> omega

@[simp] theorem isDown_initial (q : Int) : initial.isDown q = false := by
  simp [initial, isDown]

/-! ## The lowest held key -/

theorem number_natCast {k : Nat} (hk : k < 16) : number k = k := by
  unfold number
  omega

theorem isDown_natCast (pad : Keypad) {k : Nat} (hk : k < 16) :
    pad.isDown k = pad.mask.getLsbD k := by
  rw [isDown, number_natCast hk]

/-- No key is found if and only if none is held. -/
theorem firstDown_eq_none {k : Keypad} : k.firstDown = none ↔ k.mask = 0#16 := by
  rw [firstDown, List.find?_range_eq_none]
  constructor
  · intro h
    refine BitVec.eq_of_getLsbD_eq fun i hi => ?_
    rw [BitVec.getLsbD_zero]
    simpa using h i hi
  · intro h i _
    rw [h, BitVec.getLsbD_zero]
    rfl

/-- The key that is found is held, and all keys below it are not. -/
theorem firstDown_eq_some {k : Keypad} {i : Nat} (h : k.firstDown = some i) :
    i < 16 ∧ k.isDown i = true ∧ ∀ j < i, k.isDown j = false := by
  obtain ⟨hdown, hi, hbelow⟩ := List.find?_range_eq_some.1 h
  have hi : i < 16 := List.mem_range.1 hi
  refine ⟨hi, (k.isDown_natCast hi).trans hdown, ?_⟩
  intro j hj
  rw [k.isDown_natCast (by omega)]
  simpa using hbelow j hj

end Keypad
end Chip8
