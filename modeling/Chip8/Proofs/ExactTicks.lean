/-
# `Chip8.Proofs.ExactTicks` — no tick is lost, and none is invented

In fractions that are computed exactly the timers keep an account of the time.
Of the calls so far let `S` be the elapsed time in ticks, `T` the ticks that
have fired, and `k` the number of calls in which any did.  Then

    S ≤ T + pending ≤ S + k · slack        0 ≤ pending < 1 - slack

The middle is what the timers know about the elapsed time.  A call that fires
nothing adds its time to `pending`.  A call that fires `n` ticks moves `n`
from `pending` to `T`.  The slack may make `n` larger than `pending`, by at
most the slack itself.  What is then missing is given, for `pending` stays at
zero, so each such call may put the timers ahead by one slack.  This is the
second inequality, and the only way in which it can fail to be an equality.

Between the bounds on `pending` lies less than a tick.  So `T` is at least the
number of whole ticks in `S`, in however many calls the time came.

Values for the countdowns may be set in between.  They are no part of the
account.
-/
import Chip8.Timers
import Mathlib.Data.Rat.Floor
import Mathlib.Tactic.Linarith
import Mathlib.Tactic.NormNum
import Mathlib.Tactic.Ring

namespace Chip8
namespace Timers

/-- A call to the timers: time passes, or a countdown is set. -/
inductive Event where
  | elapse (ms : Rat)
  | setDelay (value : Number)
  | setSound (value : Number)

namespace Event

/-- The call sets the delay timer. -/
def setsDelay : Event → Bool
  | setDelay _ => true
  | _ => false

/-- The call sets the sound timer. -/
def setsSound : Event → Bool
  | setSound _ => true
  | _ => false

/-- The time that passes, in ticks.  A time that is not positive does not
pass. -/
def ticks : Event → Rat
  | elapse ms => if 0 < ms then ms * 60 / 1000 else 0
  | _ => 0

end Event

/-- The timers after a call. -/
def apply (t : Timers Rat) : Event → Timers Rat
  | .elapse ms => (t.advance ms).1
  | .setDelay v => t.setDelay v
  | .setSound v => t.setSound v

/-- The timers after a list of calls. -/
def after (t : Timers Rat) (events : List Event) : Timers Rat := events.foldl apply t

/-- The counts that the calls answer. -/
def counts (t : Timers Rat) : List Event → List Rat
  | [] => []
  | .elapse ms :: rest => (t.advance ms).2 :: (t.advance ms).1.counts rest
  | e :: rest => (t.apply e).counts rest

/-- The time that passes in a list of calls, in ticks. -/
def elapsed (events : List Event) : Rat := (events.map Event.ticks).sum

/-- The account of `S` ticks of time, of which `T` have fired, in `k` calls. -/
structure Exact (S : Rat) (k T : Nat) (t : Timers Rat) : Prop where
  ticks : t.ticks = T
  behind : S ≤ T + t.pending
  ahead : T + t.pending ≤ S + k * slack
  nonneg : 0 ≤ t.pending
  lt : t.pending < 1 - slack

variable {t : Timers Rat} {S : Rat} {k T : Nat}

theorem slack_eq : (slack : Rat) = 1 / 1000000000 := by
  show (1e-9 : Rat) = 1 / 1000000000
  norm_num

theorem initial_exact : Exact 0 0 0 initial where
  ticks := rfl
  behind := by show (0 : Rat) ≤ 0 + 0; norm_num
  ahead := by show (0 : Rat) + 0 ≤ 0 + 0 * slack; norm_num
  nonneg := le_refl (0 : Rat)
  lt := by rw [slack_eq]; show (0 : Rat) < 1 - 1 / 1000000000; norm_num

/-! ## One call -/

/-- The countdowns are not in the account. -/
theorem Exact.congr {t' : Timers Rat} (h : Exact S k T t) (hp : t'.pending = t.pending)
    (ht : t'.ticks = t.ticks) : Exact S k T t' :=
  ⟨ht.trans h.ticks, by rw [hp]; exact h.behind, by rw [hp]; exact h.ahead,
    by rw [hp]; exact h.nonneg, by rw [hp]; exact h.lt⟩

/-- Time that makes no tick is carried on. -/
theorem Exact.carry {x : Rat} (h : Exact S k T t) (hx : 0 ≤ x)
    (hlt : t.pending + x + slack < 1) :
    Exact (S + x) k T { t with pending := t.pending + x } := by
  obtain ⟨ht, hb, ha, hn, -⟩ := h
  refine ⟨ht, ?_, ?_, ?_, ?_⟩
  · show S + x ≤ T + (t.pending + x)
    linarith
  · show T + (t.pending + x) ≤ S + x + k * slack
    linarith
  · show 0 ≤ t.pending + x
    linarith
  · show t.pending + x < 1 - slack
    linarith

/-- Ticks that fire are taken off what is carried on, down to nothing.  If
that is not enough the timers are ahead, by one slack more. -/
theorem Exact.fire {x : Rat} {n : Nat} (h : Exact S k T t)
    (hn : (n : Rat) ≤ t.pending + x + slack) (hlt : t.pending + x + slack < n + 1) :
    Exact (S + x) (k + 1) (T + n)
      (({ t with pending := t.pending + x } : Timers Rat).fire n) := by
  obtain ⟨ht, hb, ha, -, -⟩ := h
  have hslack : (0 : Rat) < slack ∧ (slack : Rat) < 1 := by rw [slack_eq]; norm_num
  have hticks : (({ t with pending := t.pending + x } : Timers Rat).fire n).ticks =
      ((T + n : Nat) : Rat) := by
    show t.ticks + n = ((T + n : Nat) : Rat)
    rw [ht, Nat.cast_add]
  by_cases hneg : t.pending + x - n < 0
  · have hp : (({ t with pending := t.pending + x } : Timers Rat).fire n).pending = 0 :=
      if_pos hneg
    refine ⟨hticks, ?_, ?_, ?_, ?_⟩
    · rw [hp, Nat.cast_add]
      linarith
    · rw [hp, Nat.cast_add, Nat.cast_add, Nat.cast_one, add_mul, one_mul]
      linarith
    · rw [hp]
    · rw [hp]
      linarith
  · have hp : (({ t with pending := t.pending + x } : Timers Rat).fire n).pending =
        t.pending + x - n := if_neg hneg
    refine ⟨hticks, ?_, ?_, ?_, ?_⟩
    · rw [hp, Nat.cast_add]
      linarith
    · rw [hp, Nat.cast_add, Nat.cast_add, Nat.cast_one, add_mul, one_mul]
      linarith
    · rw [hp]
      linarith
    · rw [hp]
      linarith

/-- A call answers a natural number of ticks, and this is what it takes into
the account and off the countdowns. -/
theorem Exact.advance (h : Exact S k T t) (ms : Rat) :
    ∃ n : Nat, (t.advance ms).2 = n ∧
      Exact (S + (Event.elapse ms).ticks) (k + if 0 < n then 1 else 0) (T + n) (t.advance ms).1 ∧
      (t.advance ms).1.delay = t.delay.drop (.times n) ∧
      (t.advance ms).1.sound = t.sound.drop (.times n) := by
  by_cases hms : ms ≤ 0
  · have hticks : (Event.elapse ms).ticks = 0 := if_neg (not_lt.2 hms)
    refine ⟨0, ?_⟩
    rw [advance_of_le hms, hticks, add_zero, Countdown.drop_times_zero, Countdown.drop_times_zero]
    exact ⟨rfl, h, rfl, rfl⟩
  have hpos : 0 < ms := not_le.1 hms
  have hticks : (Event.elapse ms).ticks = ms * 60 / 1000 := if_pos hpos
  have hx : 0 ≤ ms * 60 / 1000 := by linarith
  rw [hticks]
  by_cases hf : Scalar.floor (t.gathered ms + slack) ≤ Scalar.ofInt 0
  · have hlt : t.pending + ms * 60 / 1000 + slack < 1 := by
      have hfloor : (t.pending + ms * 60 / 1000 + slack).floor ≤ 0 := Int.cast_le.1 hf
      have := Rat.floor_lt_iff.1 (Int.lt_add_one_of_le hfloor)
      rwa [zero_add, Int.cast_one] at this
    refine ⟨0, ?_⟩
    rw [advance_of_short hms hf, Countdown.drop_times_zero, Countdown.drop_times_zero]
    exact ⟨rfl, h.carry hx hlt, rfl, rfl⟩
  · have hfloor : 0 < (t.pending + ms * 60 / 1000 + slack).floor :=
      Int.not_le.1 fun hle => hf (Int.cast_le.2 hle)
    obtain ⟨n, hn⟩ := Int.eq_ofNat_of_zero_le hfloor.le
    have hfired : Scalar.floor (t.gathered ms + slack) = (n : Rat) :=
      congrArg (fun z : Int => (z : Rat)) hn
    have hle := Rat.floor_le (t.pending + ms * 60 / 1000 + slack)
    have hlt := Rat.lt_floor_add_one (t.pending + ms * 60 / 1000 + slack)
    rw [hn] at hle hlt
    have htally : Scalar.tally (n : Rat) = .times n :=
      congrArg (fun z : Int => Tally.times z.toNat) (Rat.floor_intCast n)
    refine ⟨n, ?_⟩
    rw [advance_of_due hms hf, hfired, if_pos (by omega)]
    refine ⟨rfl, h.fire (by exact_mod_cast hle) (by exact_mod_cast hlt), ?_, ?_⟩
    · exact congrArg t.delay.drop htally
    · exact congrArg t.sound.drop htally

/-! ## Any number of calls -/

/-- The account is kept, however the time is cut into calls. -/
theorem Exact.after (h : Exact S k T t) (events : List Event) :
    ∃ n : Nat, (t.counts events).sum = n ∧
      Exact (S + elapsed events) (k + (t.counts events).countP (0 < ·)) (T + n)
        (t.after events) ∧
      ((∀ e ∈ events, e.setsDelay = false) →
        (t.after events).delay = t.delay.drop (.times n)) ∧
      ((∀ e ∈ events, e.setsSound = false) →
        (t.after events).sound = t.sound.drop (.times n)) := by
  induction events generalizing S k T t with
  | nil =>
      refine ⟨0, rfl, ?_, ?_, ?_⟩
      · rw [show elapsed [] = 0 from rfl, add_zero]
        exact h
      · intro _
        rw [Countdown.drop_times_zero]
        rfl
      · intro _
        rw [Countdown.drop_times_zero]
        rfl
  | cons e rest ih =>
      have hsum : elapsed (e :: rest) = e.ticks + elapsed rest := rfl
      cases e with
      | elapse ms =>
          obtain ⟨a, ha, hacc, hd, hs⟩ := h.advance ms
          obtain ⟨b, hb, hacc', hd', hs'⟩ := ih hacc
          refine ⟨a + b, ?_, ?_, ?_, ?_⟩
          · rw [counts, List.sum_cons, ha, hb, Nat.cast_add]
          · rw [hsum, ← add_assoc, ← Nat.add_assoc]
            have hcount : (t.counts (.elapse ms :: rest)).countP (0 < ·) =
                (if 0 < a then 1 else 0) + ((t.advance ms).1.counts rest).countP (0 < ·) := by
              rw [counts, List.countP_cons, ha, Nat.add_comm]
              simp only [Nat.cast_pos, decide_eq_true_eq]
            rw [hcount, ← Nat.add_assoc]
            exact hacc'
          · intro hn
            rw [Countdown.drop_times_add, ← hd]
            exact hd' fun e he => hn e (List.mem_cons_of_mem _ he)
          · intro hn
            rw [Countdown.drop_times_add, ← hs]
            exact hs' fun e he => hn e (List.mem_cons_of_mem _ he)
      | setDelay v =>
          obtain ⟨b, hb, hacc, -, hs⟩ := ih (t := t.setDelay v) (h.congr rfl rfl)
          refine ⟨b, hb, ?_, ?_, ?_⟩
          · rw [hsum, show (Event.setDelay v).ticks = 0 from rfl, zero_add]
            exact hacc
          · intro hn
            cases hn _ List.mem_cons_self
          · intro hn
            exact hs fun e he => hn e (List.mem_cons_of_mem _ he)
      | setSound v =>
          obtain ⟨b, hb, hacc, hd, -⟩ := ih (t := t.setSound v) (h.congr rfl rfl)
          refine ⟨b, hb, ?_, ?_, ?_⟩
          · rw [hsum, show (Event.setSound v).ticks = 0 from rfl, zero_add]
            exact hacc
          · intro hn
            exact hd fun e he => hn e (List.mem_cons_of_mem _ he)
          · intro hn
            cases hn _ List.mem_cons_self

/-- From timers at rest that are set to two values, any calls in which time
passes fire as many ticks as are whole in the elapsed time, and at most one
slack more for each call that fires.  Less than a tick is carried on.  If the
countdowns are not set again they have gone down by the ticks, to zero at
most. -/
theorem ticks_are_exact (d s : Number) (events : List Event) :
    let t := ((initial.setDelay d).setSound s : Timers Rat)
    let t' := t.after events
    let S := elapsed events
    let T := (t.counts events).sum
    let k := (t.counts events).countP (0 < ·)
    T = t'.ticks ∧ (S.floor : Rat) ≤ T ∧ T ≤ S + k * 1e-9 ∧
      0 ≤ t'.pending ∧ t'.pending < 1 - 1e-9 ∧
      ∃ n : Nat, T = n ∧
        ((∀ e ∈ events, e.setsDelay = false) → t'.delay = .left (d.byte.toNat - n)) ∧
        ((∀ e ∈ events, e.setsSound = false) → t'.sound = .left (s.byte.toNat - n)) := by
  intro t t' S T k
  have hstart : Exact 0 0 0 t := initial_exact.congr rfl rfl
  obtain ⟨n, hn, ⟨hticks, hb, ha, hnonneg, hlt⟩, hd, hs⟩ := hstart.after events
  rw [Nat.zero_add] at hticks hb
  rw [Nat.zero_add, Nat.zero_add, zero_add] at ha
  rw [zero_add] at hb
  have hslack : (0 : Rat) < slack := by rw [slack_eq]; norm_num
  have hT : T = n := hn
  refine ⟨hT.trans hticks.symm, ?_, ?_, hnonneg, hlt, n, hT, hd, hs⟩
  · have hfloor : S.floor < (n : Int) + 1 := by
      refine Rat.floor_lt_iff.2 ?_
      push_cast
      linarith
    rw [hT]
    exact_mod_cast Int.le_of_lt_add_one hfloor
  · have hahead : (n : Rat) ≤ S + k * slack := le_trans (by linarith) ha
    rw [hT]
    exact hahead

/-- The first time is a little short of a tick, and fires it.  The second does
not pass. -/
theorem ticks_are_exact_ahead_of_time :
    let t := ((initial.setDelay (.whole 5)).setSound (.whole 200) : Timers Rat)
    let events : List Event := [.elapse 16.66666666, .elapse (-5), .elapse 1000]
    (∀ e ∈ events, e.setsDelay = false) ∧ (∀ e ∈ events, e.setsSound = false) ∧
      (t.counts events).sum = 61 ∧ (elapsed events).floor = 60 ∧
      (61 : Rat) ≤ elapsed events + 2 * 1e-9 ∧
      (t.after events).delay = .left 0 ∧ (t.after events).sound = .left 139 := by
  intro t events
  have hdelay : ∀ e ∈ events, e.setsDelay = false := by simp [events, Event.setsDelay]
  have hsound : ∀ e ∈ events, e.setsSound = false := by simp [events, Event.setsSound]
  have hsum : (t.counts events).sum = 61 := by decide +kernel
  have hcount : (t.counts events).countP (0 < ·) = 2 := by decide +kernel
  have hfloor : (elapsed events).floor = 60 := by decide +kernel
  obtain ⟨-, -, hahead, -, -, n, hn, hd, hs⟩ := ticks_are_exact (.whole 5) (.whole 200) events
  rw [hsum] at hn
  obtain rfl : n = 61 := by exact_mod_cast hn.symm
  rw [hsum, hcount] at hahead
  exact ⟨hdelay, hsound, hsum, hfloor, hahead, hd hdelay, hs hsound⟩

end Timers
end Chip8
