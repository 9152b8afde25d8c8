/-
# `Chip8.Proofs.Clock` — the rate of the timers is the host's

Of a console the 60 Hz ticks see three things: whether it is paused, the
fraction of a tick that is carried along, and the number of ticks so far.
That is its `Clock`, and three host calls move it.

    pause, resume   set the mark
    frame ms        lets the time pass, unless paused
    anything else   leaves the clock alone

In the last line are the instructions, those in a frame as well as single
ones, with the two that set a countdown, the faults, the skips, the keys, the
speed and the afterglow.  A console that is halted keeps its clock going,
since a frame comes to its timers after a fault too.

`clock_perform` says this for one call.  For a list of calls it follows that
the clock can be computed from the calls of the first two lines, whatever
stands between them (`clock_after`, `frameTicks_eq`).  So two machines with nothing
in common but these calls tick alike.

Restarts are left out, since they set the clock to zero.  The countdowns are
no part of the clock.  A program reads and writes them.
-/
import Chip8.Proofs.Bounds

namespace Chip8

/-- The host calls that move the clock. -/
def Action.movesClock : Action → Bool
  | .pause | .resume | .frame _ => true
  | _ => false

/-- What the 60 Hz ticks see of a console. -/
structure Clock where
  paused : Bool
  pending : Float
  ticks : Float

namespace Clock

/-- Timers with this clock and nothing to count down. -/
def timers (c : Clock) : Timers Float := ⟨.left 0, .left 0, c.pending, c.ticks⟩

/-- A frame as the clock sees it, and how many ticks fire. -/
def frame (c : Clock) (ms : Float) : Clock × Float :=
  if c.paused then (c, 0.0)
  else
    let (timers, fired) := c.timers.advance ms
    ({ c with pending := timers.pending, ticks := timers.ticks }, fired)

/-- A host call as the clock sees it, if it is no restart. -/
def perform (c : Clock) : Action → Clock
  | .pause => { c with paused := true }
  | .resume => { c with paused := false }
  | .frame ms => if ms.isFinite then (c.frame ms).1 else c
  | _ => c

/-- The clock after a list of host calls. -/
def after (c : Clock) (actions : List Action) : Clock := actions.foldl perform c

/-- The ticks of the frames in a list of host calls. -/
def frameTicks (c : Clock) : List Action → List Float
  | [] => []
  | .frame ms :: rest =>
      if ms.isFinite then (c.frame ms).2 :: (c.frame ms).1.frameTicks rest
      else c.frameTicks rest
  | a :: rest => (c.perform a).frameTicks rest

theorem perform_of_not {a : Action} (ha : a.movesClock = false) (c : Clock) : c.perform a = c := by
  cases a <;> first | rfl | cases ha

end Clock

namespace Timers

/-- How many ticks fire does not depend on the countdowns, and neither does
what is carried on. -/
theorem advance_of_clock {α : Type} [Scalar α] (t t' : Timers α)
    (hp : t.pending = t'.pending) (ht : t.ticks = t'.ticks) (ms : α) :
    (t.advance ms).2 = (t'.advance ms).2 ∧ (t.advance ms).1.pending = (t'.advance ms).1.pending ∧
      (t.advance ms).1.ticks = (t'.advance ms).1.ticks := by
  have hg : t'.gathered ms = t.gathered ms := by rw [gathered, gathered, hp]
  by_cases hms : ms ≤ Scalar.ofInt 0
  · rw [advance_of_le hms, advance_of_le hms]
    exact ⟨rfl, hp, ht⟩
  · by_cases hf : Scalar.floor (t.gathered ms + slack) ≤ Scalar.ofInt 0
    · rw [advance_of_short hms hf, advance_of_short hms (by rw [hg]; exact hf), hg]
      exact ⟨rfl, rfl, ht⟩
    · rw [advance_of_due hms hf, advance_of_due hms (by rw [hg]; exact hf), hg]
      refine ⟨rfl, rfl, ?_⟩
      simp only [fire, ht]

end Timers

namespace Console

variable {s t : Console} {k : Nat}

/-- The clock of a console. -/
def clock (s : Console) : Clock := ⟨s.paused, s.machine.timers.pending, s.machine.timers.ticks⟩

/-- The ticks that the frames in a list of host calls report. -/
def frameTicks (s : Console) : List Action → List Float
  | [] => []
  | a :: rest =>
      let call := s.perform a
      match call.answer with
      | .ok (.frame r) => r.timerTicks :: call.console.frameTicks rest
      | _ => call.console.frameTicks rest

/-! ## Instructions -/

/-- No instruction reaches the clock, whether it completes or not. -/
theorem attempt_clock (s : Console) : s.attempt.console.clock = s.clock := by
  rcases s.attempt_cases with ⟨f, -, ha⟩ | ⟨w, ins, m', -, -, hx, ha⟩ | ⟨-, -, ha⟩
  · rw [ha]; rfl
  · obtain ⟨-, -, hp, hk⟩ := s.machine.timersAfter_eq ins
    rw [ha, clock, clock, Machine.countCycle_timers hx, hp, hk]
  · rw [ha]; rfl

theorem stepInstruction_clock (s : Console) : s.stepInstruction.console.clock = s.clock := by
  unfold stepInstruction
  split
  · rfl
  · exact s.attempt_clock

theorem frameBurst_clock (s : Console) : s.frameBurst.console.clock = s.clock :=
  frameBurst_invariant (P := fun t => t.clock = s.clock)
    (fun t _ h => t.attempt_clock.trans h) rfl

/-! ## Frames -/

/-- The end of a frame is a frame to the clock. -/
theorem closeFrame_clock (s : Console) (ms : Float) (executed : Nat) (fault : Option Fault) :
    (s.closeFrame ms executed fault).1.clock = (s.clock.frame ms).1 ∧
      (s.closeFrame ms executed fault).2.timerTicks = (s.clock.frame ms).2 := by
  obtain ⟨hfired, hp, hk⟩ :=
    s.machine.timers.advance_of_clock s.clock.timers rfl rfl ms
  obtain ⟨m, rom, n, paused, halted, lastFault, traceSteps, traceFaults⟩ := s
  cases paused with
  | true => exact ⟨rfl, rfl⟩
  | false => exact ⟨congrArg₂ (Clock.mk false) hp hk, hfired⟩

/-- A frame of finite time answers, and what it does to the clock it does
whatever is executed in it. -/
theorem runFrame_clock (hr : s.machine.random.Steady) {ms : Float} (hms : ms.isFinite = true) :
    (s.runFrame ms).console.clock = (s.clock.frame ms).1 ∧
      ∃ r, (s.runFrame ms).answer = .ok r ∧ r.timerTicks = (s.clock.frame ms).2 := by
  rcases s.runFrame_cases ms with ⟨hn, -⟩ | ⟨e, he, -⟩ | ⟨-, executed, fault, -, hc, ha⟩
  · rw [hms] at hn; cases hn
  · obtain ⟨⟨r, hb⟩, -⟩ := frameBurst_steady hr
    rw [hb] at he; cases he
  · obtain ⟨hclock, hticks⟩ := s.frameBurst.console.closeFrame_clock ms executed fault
    rw [frameBurst_clock] at hclock hticks
    exact ⟨by rw [hc, hclock], _, ha, hticks⟩

theorem runFrame_refused (s : Console) {ms : Float} (hms : ms.isFinite = false) :
    s.runFrame ms = ⟨s, .error (.rejected (.elapsed (Number.ofFloat ms))), #[]⟩ :=
  if_neg (by rw [hms]; exact Bool.false_ne_true)

/-! ## Host calls -/

/-- A call that is no restart moves the clock as the clock says. -/
theorem clock_perform (hr : s.machine.random.Steady) {a : Action} (ha : a.restarts = false) :
    (s.perform a).console.clock = s.clock.perform a := by
  cases a with
  | loadRom data name =>
      have hd : ¬ data.length ≤ programCapacity := of_decide_eq_false ha
      simp only [perform, loadRom, Rom.parse, dif_neg hd]
      rfl
  | reset => cases ha
  | skip =>
      simp only [perform, quiet, skip]
      split <;> rfl
  | step => exact s.stepInstruction_clock
  | frame ms =>
      simp only [perform, answering, Clock.perform]
      cases hms : ms.isFinite with
      | true => exact (runFrame_clock hr hms).1
      | false => rw [runFrame_refused s hms]; rfl
  | setCycles n =>
      refine (s.setCyclesPerFrame_settles n).console (Q := fun t => t.clock = s.clock) rfl ?_
      rintro t ⟨k, -, rfl⟩
      rfl
  | setDecay d =>
      refine (s.setDecay_settles d).console (Q := fun t => t.clock = s.clock) rfl ?_
      rintro t ⟨x, -, rfl⟩
      rfl
  | _ => rfl

theorem quiet_answer (s : Console) (r : Frame) : s.quiet.answer ≠ .ok (.frame r) := nofun

theorem answering_nothing (c : Call Unit) (r : Frame) :
    (answering c fun _ => .nothing).answer ≠ .ok (.frame r) := by
  rw [answering]
  intro h
  cases hc : c.answer with
  | error e => rw [hc] at h; cases h
  | ok u => rw [hc] at h; cases h

/-- Only a frame answers with ticks. -/
theorem perform_ticks {a : Action} (ha : ∀ ms, a ≠ .frame ms) (rest : List Action) :
    s.frameTicks (a :: rest) = (s.perform a).console.frameTicks rest := by
  have hanswer : ∀ r, (s.perform a).answer ≠ .ok (.frame r) := by
    intro r
    cases a with
    | frame ms => exact absurd rfl (ha ms)
    | loadRom data name => exact answering_nothing _ r
    | setCycles n => exact answering_nothing _ r
    | setDecay d => exact answering_nothing _ r
    | step =>
        simp only [perform, answering]
        cases s.stepInstruction.answer with
        | error e => exact fun h => by cases h
        | ok f => exact fun h => by cases h
    | _ => exact quiet_answer _ r
  -- by `hanswer` the second case of the match is taken
  simp only [frameTicks]

/-- After a list of calls the clock is where the calls that move it have
brought it. -/
theorem clock_after (hb : s.Bounded k) {actions : List Action}
    (ha : ∀ a ∈ actions, a.restarts = false) :
    (s.after actions).clock = s.clock.after (actions.filter Action.movesClock) := by
  induction actions generalizing s k with
  | nil => rfl
  | cons a rest ih =>
      have hclock := clock_perform hb.random (ha a List.mem_cons_self)
      have hrest := ih (hb.perform a) fun b hb => ha b (List.mem_cons_of_mem a hb)
      rw [after_cons, hrest, hclock, List.filter_cons]
      split
      · rfl
      · rename_i hn
        rw [Clock.perform_of_not (Bool.not_eq_true _ ▸ hn)]

theorem frameTicks_eq (hb : s.Bounded k) {actions : List Action}
    (ha : ∀ a ∈ actions, a.restarts = false) :
    s.frameTicks actions = s.clock.frameTicks (actions.filter Action.movesClock) := by
  induction actions generalizing s k with
  | nil => rfl
  | cons a rest ih =>
      have hclock := clock_perform hb.random (ha a List.mem_cons_self)
      have hrest := ih (hb.perform a) fun b hb => ha b (List.mem_cons_of_mem a hb)
      rw [hclock] at hrest
      by_cases hf : ∃ ms, a = .frame ms
      · obtain ⟨ms, rfl⟩ := hf
        rw [List.filter_cons_of_pos rfl]
        cases hms : ms.isFinite with
        | true =>
            obtain ⟨-, r, hr, hticks⟩ := runFrame_clock hb.random hms
            have hanswer : (s.perform (.frame ms)).answer = .ok (.frame r) :=
              congrArg (Except.map Reply.frame) hr
            simp only [Clock.perform, if_pos hms] at hrest
            simp only [frameTicks, hanswer, Clock.frameTicks, if_pos hms, hticks, hrest]
        | false =>
            have hanswer : (s.perform (.frame ms)).answer =
                .error (.rejected (.elapsed (Number.ofFloat ms))) := by
              rw [perform, answering, runFrame_refused s hms]; rfl
            simp only [Clock.perform, hms, Bool.false_eq_true, if_false] at hrest
            simp only [frameTicks, hanswer, Clock.frameTicks, hms, Bool.false_eq_true, if_false,
              hrest]
      · have hf' : ∀ ms, a ≠ .frame ms := fun ms h => hf ⟨ms, h⟩
        rw [perform_ticks hf', hrest, List.filter_cons]
        cases a with
        | frame ms => exact absurd rfl (hf' ms)
        | _ => rfl

/-! ## Two machines -/

theorem loadRom_eq_granted {data : List UInt8} {name : Option String}
    (h : s.loadRom data name = t.granted) : ∃ rom, t = { s with rom := some rom }.reset := by
  have hsettles := s.loadRom_settles data name
  generalize s.loadRom data name = c at h hsettles
  cases hsettles with
  | refused e => cases h
  | granted t' ht =>
      obtain rfl : t' = t := congrArg Call.console h
      exact ht

/-- Two consoles have just received a program each, and both are paused or
neither is.  Then frames of the same times tick the same on both, if both are
paused and resumed at the same places between them.  It does not matter what
else happens to either, what it executes, and whether it halts. -/
theorem ticks_independent_of_execution {s₀ t₀ s t : Console} {data data' : List UInt8}
    {name name' : Option String} {xs ys : List Action}
    (hs : s₀.loadRom data name = s.granted) (ht : t₀.loadRom data' name' = t.granted)
    (hp : s.paused = t.paused) (hr : s.machine.random.Steady) (hr' : t.machine.random.Steady)
    (hx : ∀ a ∈ xs, a.restarts = false) (hy : ∀ a ∈ ys, a.restarts = false)
    (hxy : xs.filter Action.movesClock = ys.filter Action.movesClock) :
    s.frameTicks xs = t.frameTicks ys ∧
      (s.after xs).machine.timers.ticks = (t.after ys).machine.timers.ticks ∧
      (s.after xs).machine.timers.pending = (t.after ys).machine.timers.pending ∧
      ∀ ms : Float, ms.isFinite = true → ∃ r r', ((s.after xs).runFrame ms).answer = .ok r ∧
        ((t.after ys).runFrame ms).answer = .ok r' ∧ r.timerTicks = r'.timerTicks := by
  obtain ⟨rom, rfl⟩ := loadRom_eq_granted hs
  obtain ⟨rom', rfl⟩ := loadRom_eq_granted ht
  have hb := bounded_of_initial (s := { s₀ with rom := some rom }.reset) rfl hr
  have hb' := bounded_of_initial (s := { t₀ with rom := some rom' }.reset) rfl hr'
  have hstart : ({ s₀ with rom := some rom }.reset).clock =
      ({ t₀ with rom := some rom' }.reset).clock :=
    congrArg (fun p => (⟨p, Scalar.ofInt 0, Scalar.ofInt 0⟩ : Clock)) hp
  have hclock := (clock_after hb hx).trans (.trans (by rw [hstart, hxy]) (clock_after hb' hy).symm)
  refine ⟨?_, congrArg Clock.ticks hclock, congrArg Clock.pending hclock, fun ms hms => ?_⟩
  · rw [frameTicks_eq hb hx, frameTicks_eq hb' hy, hstart, hxy]
  · obtain ⟨-, r, ha, hticks⟩ := runFrame_clock (hb.after xs).random hms
    obtain ⟨-, r', ha', hticks'⟩ := runFrame_clock (hb'.after ys).random hms
    exact ⟨r, r', ha, ha', by rw [hticks, hticks', hclock]⟩

/-- The first program jumps to itself, and the second faults at once. -/
theorem ticks_independent_of_execution_of_fault :
    let s₀ := fresh 10 defaultDecay (RandomSource.cycle #[]) false false
    let t₀ := fresh 500 0 (RandomSource.cycle #[.value 3]) false false
    let xs : List Action := [.step, .frame 40, .pause, .frame 40, .resume]
    let ys : List Action :=
      [.frame 40, .step, .pause, .key 5 true, .frame 40, .skip, .resume, .setCycles (.number (.whole 7))]
    ∃ s t : Console, s₀.loadRom [0x12, 0x00] none = s.granted ∧
      t₀.loadRom [0xFF, 0xFF] none = t.granted ∧
      s.paused = t.paused ∧ s.machine.random.Steady ∧ t.machine.random.Steady ∧
      (∀ a ∈ xs, a.restarts = false) ∧ (∀ a ∈ ys, a.restarts = false) ∧
      xs.filter Action.movesClock = ys.filter Action.movesClock ∧ (40 : Float).isFinite = true ∧
      s.frameTicks xs = t.frameTicks ys ∧
      ∃ r r', ((s.after xs).runFrame 40).answer = .ok r ∧
        ((t.after ys).runFrame 40).answer = .ok r' ∧ r.timerTicks = r'.timerTicks := by
  intro s₀ t₀ xs ys
  have hr : s₀.machine.random.Steady := RandomSource.cycle_steady (by decide)
  have hr' : t₀.machine.random.Steady := RandomSource.cycle_steady (by decide)
  have hx : ∀ a ∈ xs, a.restarts = false := by simp [xs, Action.restarts]
  have hy : ∀ a ∈ ys, a.restarts = false := by simp [ys, Action.restarts]
  have hms : (40 : Float).isFinite = true := by decide +kernel
  obtain ⟨s, hs⟩ : ∃ s : Console, s₀.loadRom [0x12, 0x00] none = s.granted := ⟨_, rfl⟩
  obtain ⟨t, ht⟩ : ∃ t : Console, t₀.loadRom [0xFF, 0xFF] none = t.granted := ⟨_, rfl⟩
  have hsteady : s.machine.random.Steady := by cases hs; exact hr
  have hsteady' : t.machine.random.Steady := by cases ht; exact hr'
  have hp : s.paused = t.paused := by cases hs; cases ht; rfl
  obtain ⟨hticks, -, -, hnext⟩ :=
    ticks_independent_of_execution hs ht hp hsteady hsteady' hx hy rfl
  exact ⟨s, t, hs, ht, hp, hsteady, hsteady', hx, hy, rfl, hms, hticks, hnext 40 hms⟩

end Console
end Chip8
