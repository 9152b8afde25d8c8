/-
# `Chip8.Timers` — two countdowns at 60 Hz

The delay and the sound timer count down sixty times a second of wall-clock
time, whatever the program executes.  `advance` takes the elapsed
milliseconds, adds them to a fraction of a tick that is carried along, and
fires all whole ticks at once; `tick` fires a single one.  Since 1000/60 is
no double, the carried fraction may fall short of a whole tick by rounding,
and a slack of `1e-9` lets that tick fire.

The countdowns are natural numbers and stop at zero.  How many ticks fire is
a scalar, as large as the elapsed time makes it.  In doubles an absurdly
long time may be infinite once it is converted to ticks: then both
countdowns end at once, and the carried fraction, infinity less infinity, is
not a number.  From the next call on the number of ticks is unknown, and so
are the countdowns (`Countdown.unknown`), until they are set or reset.
-/
import Chip8.Scalar
import Chip8.Number

namespace Chip8

/-- A timer: so many ticks left, or lost count. -/
inductive Countdown where
  | left (n : Nat)
  | unknown
deriving DecidableEq, Repr

namespace Countdown

/-- Whether ticks are left for certain. -/
def running : Countdown → Bool
  | left n => 0 < n
  | unknown => false

/-- The timer after some ticks. -/
def drop (c : Countdown) (ticks : Tally) : Countdown :=
  match c, ticks with
  | left n, .times k => left (n - k)
  | left _, .endless => left 0
  | _, _ => unknown

@[simp] theorem drop_times_zero (c : Countdown) : c.drop (.times 0) = c := by
  cases c <;> rfl

/-- Ticks that fire at once do what they do one after another. -/
theorem drop_times_add (c : Countdown) (a b : Nat) :
    c.drop (.times (a + b)) = (c.drop (.times a)).drop (.times b) := by
  cases c with
  | left n => exact congrArg left (Nat.sub_add_eq n a b)
  | unknown => rfl

/-- The byte that a register receives. -/
def byte : Countdown → UInt8
  | left n => UInt8.ofNat n
  | unknown => 0

/-- The timer as a number. -/
def toNumber : Countdown → Number
  | left n => .whole n
  | unknown => .nan

end Countdown

/-- The two countdowns, the fraction of a tick that is carried along, and
the number of ticks so far. -/
structure Timers (α : Type) where
  delay : Countdown
  sound : Countdown
  pending : α
  ticks : α

namespace Timers

variable {α : Type} [Scalar α]

/-- Both timers at rest. -/
def initial : Timers α := ⟨.left 0, .left 0, Scalar.ofInt 0, Scalar.ofInt 0⟩

/-- A single tick. -/
def tick (t : Timers α) : Timers α :=
  { t with
    delay := t.delay.drop (.times 1)
    sound := t.sound.drop (.times 1)
    ticks := t.ticks + Scalar.ofInt 1 }

/-- The slack that makes up for the rounding of the frame period. -/
def slack : α := 1e-9

/-- The ticks that have gathered after `ms` more milliseconds. -/
def gathered (t : Timers α) (ms : α) : α :=
  t.pending + ms * Scalar.ofInt 60 / Scalar.ofInt 1000

/-- Fires a number of ticks at once. -/
def fire (t : Timers α) (fired : α) : Timers α where
  delay := t.delay.drop (Scalar.tally fired)
  sound := t.sound.drop (Scalar.tally fired)
  pending := Scalar.clipBelow (t.pending - fired)
  ticks := t.ticks + fired

/-- Lets `ms` milliseconds pass and tells how many ticks fired. -/
def advance (t : Timers α) (ms : α) : Timers α × α :=
  if ms ≤ Scalar.ofInt 0 then (t, Scalar.ofInt 0)
  else
    let t := { t with pending := t.gathered ms }
    let fired := Scalar.floor (t.pending + slack)
    if fired ≤ Scalar.ofInt 0 then (t, Scalar.ofInt 0) else (t.fire fired, fired)

section Advance
variable {t : Timers α} {ms : α}

/-- No time passes. -/
theorem advance_of_le (h : ms ≤ Scalar.ofInt 0) : t.advance ms = (t, Scalar.ofInt 0) := if_pos h

/-- What has gathered makes no tick yet. -/
theorem advance_of_short (h : ¬ ms ≤ Scalar.ofInt 0)
    (hf : Scalar.floor (t.gathered ms + slack) ≤ Scalar.ofInt 0) :
    t.advance ms = ({ t with pending := t.gathered ms }, Scalar.ofInt 0) :=
  (if_neg h).trans (if_pos hf)

/-- What is whole of what has gathered fires. -/
theorem advance_of_due (h : ¬ ms ≤ Scalar.ofInt 0)
    (hf : ¬ Scalar.floor (t.gathered ms + slack) ≤ Scalar.ofInt 0) :
    t.advance ms = (({ t with pending := t.gathered ms } : Timers α).fire
      (Scalar.floor (t.gathered ms + slack)), Scalar.floor (t.gathered ms + slack)) :=
  (if_neg h).trans (if_neg hf)

end Advance

/-- Sets the delay timer to the low eight bits of a value. -/
def setDelay (t : Timers α) (value : Number) : Timers α :=
  { t with delay := .left value.byte.toNat }

/-- Sets the sound timer to the low eight bits of a value. -/
def setSound (t : Timers α) (value : Number) : Timers α :=
  { t with sound := .left value.byte.toNat }

/-- Whether the sound is on. -/
def soundActive (t : Timers α) : Bool := t.sound.running

end Timers
end Chip8
