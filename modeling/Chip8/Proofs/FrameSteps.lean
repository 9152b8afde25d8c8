/-
# `Chip8.Proofs.FrameSteps` — one frame is exactly its steps

There are two ways to drive the machine through `N` instructions.  A frame
runs a loop that is left at the first fault (`Console.burst`).  A debugger
calls `stepInstruction` `N` times, and a machine that is halted answers each
further call with the fault that is already known.  The two agree:

    frame:      step  step  step  fault  ·     ·     then timers, afterglow, dirty
    debugger:   none  none  none  some f some f some f
    executed    = the number of answers `none`          = the cycles gained
    fault       = the first answer that is not `none`

`burst_eq_steps` is the induction.  It goes along the loop, and the invariant
is that the console is not halted yet.  In the step that faults it ends: from
there on `stepInstruction` is the identity (`steps_of_halted`), which is what
leaving the loop amounts to.

What is not claimed: nothing is said about a random source that gives out.
It interrupts a frame before its timers and its afterglow.
-/
import Chip8.Proofs.Effect
import Mathlib.Logic.Function.Iterate

namespace Chip8

/-- A random source that never fails. -/
def RandomSource.Steady (r : RandomSource) : Prop := ∀ n, r.roll n ≠ .failed

theorem RandomSource.Steady.next {r : RandomSource} (h : r.Steady) : r.next ≠ .failed :=
  h r.drawn

theorem RandomSource.cycle_steady {rolls : Array Roll} (h : ∀ r ∈ rolls, r ≠ .failed) :
    (RandomSource.cycle rolls).Steady := by
  intro n
  simp only [cycle, Array.getD]
  split
  · exact h _ (Array.getElem_mem _)
  · nofun

namespace Machine

/-- A steady source is steady after a completed step. -/
theorem countCycle_steady {m m' : Machine} {ins : Instruction Int} (hr : m.random.Steady)
    (h : (m.movePc 2).execute ins = (m', none)) : m'.countCycle.random.Steady := by
  intro n
  rw [show m'.countCycle.random = m'.random from rfl, execute_random h, randomAfter_roll]
  exact hr n

end Machine

namespace Console

/-! ## Single instructions in a row -/

/-- The console after so many single instructions. -/
def steps (s : Console) (n : Nat) : Console := (fun t => t.stepInstruction.console)^[n] s

/-- The fault that the single instruction after `n` others answers. -/
def faultAt (s : Console) (n : Nat) : Option Fault :=
  match (s.steps n).stepInstruction.answer with
  | .ok f => f
  | .error _ => none

/-- How many of the first single instructions answer no fault. -/
def completed (s : Console) (n : Nat) : Nat :=
  (List.range n).countP fun k => (s.faultAt k).isNone

/-- The first fault that is answered. -/
def firstFault (s : Console) (n : Nat) : Option Fault := (List.range n).findSome? s.faultAt

variable {s : Console} {f : Fault}

@[simp] theorem steps_zero (s : Console) : s.steps 0 = s := rfl

theorem steps_succ (s : Console) (n : Nat) :
    s.steps (n + 1) = s.stepInstruction.console.steps n := rfl

theorem steps_succ' (s : Console) (n : Nat) :
    s.steps (n + 1) = (s.steps n).stepInstruction.console :=
  Function.iterate_succ_apply' _ n s

theorem completed_succ (s : Console) (n : Nat) :
    s.completed (n + 1) =
      s.stepInstruction.console.completed n + if (s.faultAt 0).isNone then 1 else 0 := by
  simp only [completed, List.range_succ_eq_map, List.countP_cons, List.countP_map]
  rfl

theorem firstFault_succ (s : Console) (n : Nat) :
    s.firstFault (n + 1) = (s.faultAt 0).or (s.stepInstruction.console.firstFault n) := by
  simp only [firstFault, List.range_succ_eq_map, List.findSome?_cons, List.findSome?_map]
  cases s.faultAt 0 <;> rfl

theorem completed_eq_iff (s : Console) (n : Nat) :
    s.completed n = n ↔ s.firstFault n = none := by
  have hc : s.completed n = n ↔ s.completed n = (List.range n).length := by
    rw [List.length_range]
  rw [hc, completed, firstFault, List.countP_eq_length, List.findSome?_eq_none_iff]
  simp only [Option.isNone_iff_eq_none]

/-! ## What a single instruction does -/

theorem stepInstruction_of_halted (h : s.halted = true) :
    s.stepInstruction = ⟨s, .ok s.lastFault, #[]⟩ := if_pos h

theorem stepInstruction_of_running (h : s.halted = false) : s.stepInstruction = s.attempt :=
  if_neg (by rw [h]; decide)

/-- With a steady source an instruction halts the machine or completes. -/
theorem attempt_steady (hr : s.machine.random.Steady) :
    (∃ f, s.machine.stop? = some f ∧
      s.attempt = ⟨s.halt f, .ok (some f), s.stepLog ++ s.faultLog f⟩) ∨
    (∃ w ins m', s.machine.stop? = none ∧ s.machine.fetchDecode = .ok (w, ins) ∧
      (s.machine.movePc 2).execute ins = (m', none) ∧
      s.attempt = ⟨{ s with machine := m'.countCycle }, .ok none, s.stepLog⟩) := by
  rcases s.attempt_cases with hf | hc | ⟨-, hn, -⟩
  · exact .inl hf
  · exact .inr hc
  · exact absurd hn hr.next

/-- A halted machine stays as it is. -/
theorem steps_of_halted (h : s.halted = true) (n : Nat) : s.steps n = s := by
  induction n with
  | zero => rfl
  | succ n ih => rw [steps_succ, stepInstruction_of_halted h, ih]

theorem faultAt_of_halted (h : s.halted = true) (n : Nat) : s.faultAt n = s.lastFault := by
  rw [faultAt, steps_of_halted h, stepInstruction_of_halted h]

theorem completed_of_halted (h : s.halted = true) (hf : s.lastFault = some f) (n : Nat) :
    s.completed n = 0 := by
  rw [completed, List.countP_eq_zero]
  intro k _
  rw [faultAt_of_halted h, hf]
  exact Bool.false_ne_true

/-! ## The loop and the single instructions -/

/-- The loop of a frame leaves the console of as many single instructions,
counts those that completed, and reports the first fault. -/
theorem burst_eq_steps (hh : s.halted = false) (hr : s.machine.random.Steady) (k n : Nat)
    (log : Array String) :
    (s.burst k log n).console = s.steps n ∧
      (s.burst k log n).answer = .ok (k + s.completed n, s.firstFault n) ∧
      (s.steps n).machine.cpu.cycles = s.machine.cpu.cycles + s.completed n := by
  induction n generalizing s k log with
  | zero => exact ⟨rfl, rfl, rfl⟩
  | succ n ih =>
      have hstep := stepInstruction_of_running hh
      rcases attempt_steady hr with ⟨f, -, ha⟩ | ⟨w, ins, m', -, -, hx, ha⟩
      · -- the loop is left here, and the remaining steps find the machine halted
        have hfault : s.faultAt 0 = some f := by
          rw [faultAt, steps_zero, hstep, ha]
        have hhalt : (s.halt f).halted = true := rfl
        simp only [burst, ha, steps_succ, completed_succ, firstFault_succ, hstep, hfault,
          steps_of_halted hhalt, completed_of_halted (f := f) hhalt rfl]
        exact ⟨trivial, rfl, rfl⟩
      · have hfault : s.faultAt 0 = none := by
          rw [faultAt, steps_zero, hstep, ha]
        have hr' : m'.countCycle.random.Steady := Machine.countCycle_steady hr hx
        have hcyc : m'.countCycle.cpu.cycles = s.machine.cpu.cycles + 1 := by
          simp only [Machine.countCycle, (Machine.execute_moves hx).cycles]
          rfl
        obtain ⟨hc, hans, hn⟩ := ih (s := { s with machine := m'.countCycle }) hh hr' (k + 1)
          (log ++ s.stepLog)
        simp only [burst, ha, steps_succ, completed_succ, firstFault_succ, hstep, hfault,
          Option.isNone_none, if_true, Option.none_or]
        refine ⟨hc, hans.trans ?_, hn.trans ?_⟩
        · congr 2; omega
        · simp only [hcyc]; omega

/-! ## What single instructions leave alone -/

/-- A single instruction answers, and it neither pauses the console nor
wears out a steady source. -/
theorem stepInstruction_steady (hr : s.machine.random.Steady) :
    (∃ f, s.stepInstruction.answer = .ok f) ∧
      s.stepInstruction.console.paused = s.paused ∧
      s.stepInstruction.console.machine.random.Steady := by
  cases hh : s.halted with
  | true =>
      rw [stepInstruction_of_halted hh]
      exact ⟨⟨_, rfl⟩, rfl, hr⟩
  | false =>
      rw [stepInstruction_of_running hh]
      rcases attempt_steady hr with ⟨f, -, ha⟩ | ⟨w, ins, m', -, -, hx, ha⟩
      · rw [ha]; exact ⟨⟨_, rfl⟩, rfl, hr⟩
      · rw [ha]; exact ⟨⟨_, rfl⟩, rfl, Machine.countCycle_steady hr hx⟩

theorem steps_steady (hr : s.machine.random.Steady) (n : Nat) :
    (s.steps n).paused = s.paused ∧ (s.steps n).machine.random.Steady := by
  induction n with
  | zero => exact ⟨rfl, hr⟩
  | succ n ih =>
      obtain ⟨hp, hs⟩ := ih
      obtain ⟨-, hp', hs'⟩ := stepInstruction_steady hs
      rw [steps_succ']
      exact ⟨hp'.trans hp, hs'⟩

theorem faultAt_answer (hr : s.machine.random.Steady) (n : Nat) :
    (s.steps n).stepInstruction.answer = .ok (s.faultAt n) := by
  obtain ⟨⟨f, hf⟩, -⟩ := stepInstruction_steady (steps_steady hr n).2
  rw [faultAt, hf]

/-- Among the instructions the countdowns belong to the two that set them,
and the ticks belong to none. -/
theorem stepInstruction_timers (hr : s.machine.random.Steady) :
    let t := s.stepInstruction.console.machine.timers
    ((∃ x, s.machine.step.2 = .ok (.setDelay x)) ∨ t.delay = s.machine.timers.delay) ∧
      ((∃ x, s.machine.step.2 = .ok (.setSound x)) ∨ t.sound = s.machine.timers.sound) ∧
      t.pending = s.machine.timers.pending ∧ t.ticks = s.machine.timers.ticks := by
  cases hh : s.halted with
  | true =>
      rw [stepInstruction_of_halted hh]
      exact ⟨.inr rfl, .inr rfl, rfl, rfl⟩
  | false =>
      rw [stepInstruction_of_running hh]
      rcases s.machine.step_cases with ⟨f, -, he⟩ | ⟨w, ins, m', -, -, hx, he⟩ | ⟨-, hn, -⟩
      · rw [attempt, he]
        exact ⟨.inr rfl, .inr rfl, rfl, rfl⟩
      · rw [attempt, he]
        have ht := Machine.countCycle_timers hx
        obtain ⟨hd, hs, hp, hk⟩ := s.machine.timersAfter_eq ins
        simp only [ht]
        refine ⟨hd.imp ?_ id, hs.imp ?_ id, hp, hk⟩
        · rintro ⟨x, rfl⟩; exact ⟨x, rfl⟩
        · rintro ⟨x, rfl⟩; exact ⟨x, rfl⟩
      · exact absurd hn hr.next

/-- After a fault the single instructions change nothing. -/
theorem steps_of_fault (hr : s.machine.random.Steady) {j k : Nat}
    (hj : s.faultAt j ≠ none) (hjk : j < k) : s.steps k = s.steps (j + 1) := by
  have hhalt : (s.steps (j + 1)).halted = true := by
    rw [steps_succ']
    cases ht : (s.steps j).halted with
    | true => rw [stepInstruction_of_halted ht]; exact ht
    | false =>
        rw [stepInstruction_of_running ht]
        rcases attempt_steady (steps_steady hr j).2 with ⟨f, -, ha⟩ | ⟨w, ins, m', -, -, -, ha⟩
        · rw [ha]; rfl
        · refine absurd ?_ hj
          rw [faultAt, stepInstruction_of_running ht, ha]
  obtain ⟨n, rfl⟩ : ∃ n, k = n + (j + 1) := ⟨k - (j + 1), by omega⟩
  rw [steps, Function.iterate_add_apply]
  exact steps_of_halted hhalt n

/-! ## A frame -/

/-- With a steady source the instructions of a frame do not fail. -/
theorem frameBurst_steady (hr : s.machine.random.Steady) :
    (∃ r, s.frameBurst.answer = .ok r) ∧ s.frameBurst.console.machine.random.Steady := by
  rcases s.frameBurst_cases with ⟨-, hb⟩ | ⟨-, hh, hb⟩
  · rw [hb]; exact ⟨⟨_, rfl⟩, hr⟩
  · obtain ⟨hc, hans, -⟩ := burst_eq_steps hh hr 0 s.cyclesPerFrame #[]
    rw [hb, hc]
    exact ⟨⟨_, hans⟩, (steps_steady hr _).2⟩

theorem closeFrame_random (s : Console) (ms : Float) (executed : Nat) (fault : Option Fault) :
    (s.closeFrame ms executed fault).1.machine.random = s.machine.random := by
  simp only [closeFrame, advanceTimers]
  split <;> rfl

/-- Nor does a frame of finite time. -/
theorem runFrame_steady (hr : s.machine.random.Steady) {ms : Float} (hms : ms.isFinite = true) :
    (∃ r, (s.runFrame ms).answer = .ok r) ∧ (s.runFrame ms).console.machine.random.Steady := by
  obtain ⟨⟨r, hb⟩, hs⟩ := frameBurst_steady hr
  simp only [runFrame, if_pos hms, hb]
  refine ⟨⟨_, rfl⟩, ?_⟩
  rw [closeFrame_random]
  exact hs

/-- One frame leaves the console of as many single instructions as the speed
says, followed by the timers, the afterglow and the question whether anything
was drawn.  It reports how many of those instructions answered no fault,
which is what the processor has counted, and the first fault answered. -/
theorem frame_is_its_steps (s : Console) (ms : Float) (hp : s.paused = false)
    (hh : s.halted = false) (hms : ms.isFinite = true) (hr : s.machine.random.Steady) :
    let n := s.cyclesPerFrame
    let t := s.steps n
    let (timers, ticks) := t.machine.timers.advance ms
    let (display, drew) := t.machine.display.advanceFrame.consumeDirty
    let r : Frame := ⟨s.completed n, ticks, drew, s.firstFault n⟩
    (s.runFrame ms).answer = .ok r ∧
      (s.runFrame ms).console =
        { t with machine := { t.machine with timers := timers, display := display } } ∧
      (∀ k, (s.steps k).stepInstruction.answer = .ok (s.faultAt k)) ∧
      t.machine.cpu.cycles = s.machine.cpu.cycles + r.executed ∧
      (r.executed = n ↔ r.fault = none) ∧
      (∀ k, let a := (s.steps k).machine.timers
        let b := (s.steps (k + 1)).machine.timers
        ((∃ x, (s.steps k).machine.step.2 = .ok (.setDelay x)) ∨ b.delay = a.delay) ∧
          ((∃ x, (s.steps k).machine.step.2 = .ok (.setSound x)) ∨ b.sound = a.sound) ∧
          b.pending = a.pending ∧ b.ticks = a.ticks) ∧
      ∀ j k, s.faultAt j ≠ none → j < k → s.steps k = s.steps (j + 1) := by
  obtain ⟨hc, hans, hcyc⟩ := burst_eq_steps hh hr 0 s.cyclesPerFrame #[]
  have hpt : (s.steps s.cyclesPerFrame).paused = false := (steps_steady hr _).1.trans hp
  have hburst : s.frameBurst = s.burst 0 #[] s.cyclesPerFrame := by
    rw [frameBurst, hp, hh]; rfl
  have hrun : s.runFrame ms =
      ⟨((s.steps s.cyclesPerFrame).closeFrame ms (s.completed s.cyclesPerFrame)
          (s.firstFault s.cyclesPerFrame)).1,
        .ok ((s.steps s.cyclesPerFrame).closeFrame ms (s.completed s.cyclesPerFrame)
          (s.firstFault s.cyclesPerFrame)).2, s.frameBurst.log⟩ := by
    rw [hburst, runFrame, if_pos hms, hburst]
    simp only [hans, hc, Nat.zero_add]
  rw [hrun]
  simp only [closeFrame, advanceTimers, hpt, Bool.false_eq_true, if_false]
  refine ⟨rfl, rfl, faultAt_answer hr, hcyc, completed_eq_iff s _, fun k => ?_,
    fun j k hj hjk => steps_of_fault hr hj hjk⟩
  rw [steps_succ']
  exact stepInstruction_timers (steps_steady hr k).2

/-- Three instructions are due.  The first sets the delay timer and the
second is none. -/
theorem frame_is_its_steps_until_fault :
    let m : Machine :=
      { Machine.initial 0 (RandomSource.cycle #[.value 7]) with
        memory := ⟨(Vector.replicate 4096 0).setIfInBounds 0 0xF1 |>.setIfInBounds 1 0x15⟩
        cpu := Cpu.initial 0 }
    let s : Console := ⟨m, none, 3, false, false, none, false, false⟩
    s.paused = false ∧ s.halted = false ∧ (16 : Float).isFinite = true ∧
      s.machine.random.Steady ∧
      ∃ r, (s.runFrame 16).answer = .ok r ∧ r.executed = 1 ∧
        r.fault.map Fault.kind = some "decode" := by
  intro m s
  have hms : (16 : Float).isFinite = true := by decide +kernel
  have hr : s.machine.random.Steady := RandomSource.cycle_steady (by decide)
  obtain ⟨hans, -⟩ := frame_is_its_steps s 16 rfl rfl hms hr
  refine ⟨rfl, rfl, hms, hr, _, hans, ?_, ?_⟩
  · show s.completed 3 = 1
    simp only [s, m]
    decide +kernel
  · show (s.firstFault 3).map Fault.kind = some "decode"
    simp only [s, m]
    decide +kernel

end Console
end Chip8
