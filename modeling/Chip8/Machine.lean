/-
# `Chip8.Machine` — processor and devices

The processor has sixteen registers of a byte, an index, a program counter,
sixteen cells for return addresses of which `sp` are live, a count of
completed instructions, and a flag that says that it is parked on an empty
keypad.  The last register, VF, doubles as a flag.

The index and the program counter are integers.  What the instructions leave
in them is small and positive, except that a skip at the end of memory moves
the program counter past it; but a host may overwrite them with anything,
and the machine then answers with faults.  Both are counted like doubles, so
beyond `2 ^ 53` they move in larger steps (`pcPlus`).

A machine is a processor with its devices: memory, display, timers, keypad
and a source of random numbers.
-/
import Chip8.Memory
import Chip8.Display
import Chip8.Timers
import Chip8.Keypad
import Chip8.Random

namespace Chip8

/-- The number of return addresses that fit. -/
def stackDepth : Nat := 16

/-- The processor.  Instructions reach the registers `v` by their numbers.
Under `extra` are the values that a host puts under other names. -/
structure Cpu where
  v : Vector UInt8 16
  i : Int
  pc : Int
  stack : Vector UInt16 16
  sp : Nat
  cycles : Nat
  waiting : Bool
  extra : List (String × Argument)
deriving DecidableEq

namespace Cpu

/-- An address within the 4 KiB. -/
def wrapAddress (n : Int) : Int := n % 4096

/-- The low byte of an integer. -/
def lowByte (n : Int) : UInt8 := UInt8.ofNat (n % 256).toNat

/-- The processor after a reset, with the program counter at an address. -/
def initial (pc : Int) : Cpu where
  v := Vector.replicate 16 0
  i := 0
  pc := wrapAddress pc
  stack := Vector.replicate 16 0
  sp := 0
  cycles := 0
  waiting := false
  extra := []

/-- The register with a number, if there is one. -/
def reg? (c : Cpu) (x : Int) : Option UInt8 :=
  if 0 ≤ x then c.v[x.toNat]? else none

/-- The register with a number; a missing one reads as zero. -/
def reg (c : Cpu) (x : Int) : UInt8 := (c.reg? x).getD 0

/-- Sets a register; a missing one is not set. -/
def setReg (c : Cpu) (x : Int) (b : UInt8) : Cpu :=
  if 0 ≤ x then { c with v := c.v.setIfInBounds x.toNat b } else c

/-- A write decides about one register that exists, and about no other. -/
theorem reg?_setReg (c : Cpu) (x q : Int) (b : UInt8) :
    (c.setReg x b).reg? q = if q = x ∧ 0 ≤ x ∧ x < 16 then some b else c.reg? q := by
  unfold setReg
  by_cases hx : 0 ≤ x
  · rw [if_pos hx]
    by_cases hq : 0 ≤ q
    · simp only [reg?, if_pos hq]
      by_cases h : q = x
      · subst h
        by_cases hl : q < 16
        · rw [if_pos ⟨rfl, hx, hl⟩, Vector.getElem?_setIfInBounds_self_of_lt (by omega)]
        · rw [if_neg (fun h => hl h.2.2), Vector.getElem?_eq_none (by omega),
            Vector.getElem?_eq_none (by omega)]
      · rw [if_neg (fun h' => h h'.1), Vector.getElem?_setIfInBounds_ne (by omega)]
    · rw [if_neg (by omega)]
      simp [reg?, hq]
  · rw [if_neg hx, if_neg (fun h => hx h.2.1)]

theorem reg?_setReg_self {c : Cpu} {x : Int} {b : UInt8} (hx : 0 ≤ x ∧ x < 16) :
    (c.setReg x b).reg? x = some b := by
  rw [reg?_setReg, if_pos ⟨rfl, hx⟩]

theorem reg?_setReg_of_ne {c : Cpu} {x q : Int} {b : UInt8} (h : q ≠ x) :
    (c.setReg x b).reg? q = c.reg? q := by
  rw [reg?_setReg, if_neg fun hq => h hq.1]

/-- Sets VF to one or to zero. -/
def setFlag (c : Cpu) (on : Bool) : Cpu := c.setReg 15 (if on then 1 else 0)

/-- Sets a register and then VF, which wins if they are the same. -/
def setRegFlag (c : Cpu) (x : Int) (b : UInt8) (on : Bool) : Cpu := (c.setReg x b).setFlag on

/-- The program counter, moved by `k`. -/
def pcPlus (c : Cpu) (k : Int) : Int := Double.nearest (c.pc + k)

/-- A small program counter moves by exactly `k`. -/
theorem pcPlus_eq {c : Cpu} {k : Int} (h : (c.pc + k).natAbs ≤ 2 ^ 53) :
    c.pcPlus k = c.pc + k := Double.nearest_eq_self h

/-- Passes over the next instruction if a condition holds. -/
def skipIf (c : Cpu) (b : Bool) : Cpu := if b then { c with pc := c.pcPlus 2 } else c

/-- Goes on at an address. -/
def goTo (c : Cpu) (addr : Int) : Cpu := { c with pc := wrapAddress addr }

/-- Moves past the instruction at the program counter without executing
it. -/
def skip (c : Cpu) : Cpu := { c with pc := c.pcPlus 2, waiting := false }

/-- The live return addresses, the oldest first. -/
def returns (c : Cpu) : List UInt16 := c.stack.toList.take c.sp

/-- Overwrites the first stack cells; all of them are live. -/
def setReturns (c : Cpu) (entries : List UInt16) : Cpu :=
  { c with
    stack := c.stack.mapIdx fun k old => entries.getD k old
    sp := entries.length }

/-- The registers up to a count.  A negative count leaves registers out at
the end. -/
def firstRegs (c : Cpu) (count : Int) : List UInt8 :=
  c.v.toList.take (if count < 0 then (16 + count).toNat else count.toNat)

/-- Overwrites the first registers. -/
def setFirstRegs (c : Cpu) (bytes : List UInt8) : Cpu :=
  { c with v := c.v.mapIdx fun k old => bytes.getD k old }

/-- The first registers in order, as many as there are. -/
theorem getElem?_firstRegs (c : Cpu) {count : Nat} {j : Nat} (hj : j < count) :
    (c.firstRegs count)[j]? = c.reg? j := by
  rw [firstRegs, if_neg (by omega), List.getElem?_take_of_lt (by omega), Vector.getElem?_toList]
  rfl

/-- Each byte goes to the register of its number. -/
theorem reg?_setFirstRegs (c : Cpu) (bytes : List UInt8) (q : Int) :
    (c.setFirstRegs bytes).reg? q = (c.reg? q).map fun old => bytes.getD q.toNat old := by
  unfold reg? setFirstRegs
  split
  · exact Vector.getElem?_mapIdx
  · rfl

/-- The registers behind the last byte stay. -/
theorem reg?_setFirstRegs_of_le (c : Cpu) {bytes : List UInt8} {q : Int}
    (h : (bytes.length : Int) ≤ q) : (c.setFirstRegs bytes).reg? q = c.reg? q := by
  have hkeep : ∀ old, bytes.getD q.toNat old = old := fun old => by
    rw [List.getD_eq_getElem?_getD, List.getElem?_eq_none (by omega), Option.getD_none]
  simp only [reg?_setFirstRegs, hkeep, Option.map_id']

end Cpu

/-- A processor with its devices. -/
structure Machine where
  cpu : Cpu
  memory : Memory
  display : Display Float
  timers : Timers Float
  keypad : Keypad
  random : RandomSource

namespace Machine

/-- A new machine. -/
def initial (decay : Float) (random : RandomSource) : Machine where
  cpu := Cpu.initial programStart
  memory := Memory.initial
  display := Display.initial decay
  timers := Timers.initial
  keypad := Keypad.initial
  random := random

end Machine
end Chip8
