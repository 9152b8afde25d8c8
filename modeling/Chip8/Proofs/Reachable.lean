/-
# `Chip8.Proofs.Reachable` — consoles that host calls lead to

A console is reached by constructing one and going through a list of host
calls (`Console.after`).  What holds of all of them is shown by

    construction            `create_eq_ok`: the console is a `fresh` one
    one call                by cases on the call
    a list of calls         `after_invariant`

Ten of the twelve calls write a field or two.  The single instruction is
`attempt`, and the frame is a burst of attempts with a fixed end.  For the
burst, `burst_invariant` reduces a property to the single attempt, which it
may take to begin on a console that is not halted; `runFrame_cases` then says
what a frame may leave behind.

`perform_cases` is the same for all twelve.  Besides instructions, frames,
restarts and skips there are only calls that leave the processor alone and
the carried fraction of the timers with it (`Adjusted`).
-/
import Chip8.Proofs.Effect

namespace Chip8

/-- The calls that power the machine on again: a reset, and a program that
fits. -/
def Action.restarts : Action → Bool
  | .reset => true
  | .loadRom data _ => data.length ≤ programCapacity
  | _ => false

/-- A countdown of at most 255 ticks. -/
def Countdown.IsByte (c : Countdown) : Prop := ∃ n ≤ 255, c = .left n

theorem Countdown.isByte_byte (v : Number) : (left v.byte.toNat).IsByte :=
  ⟨v.byte.toNat, Nat.le_of_lt_succ v.byte.toNat_lt, rfl⟩

/-- The second timers are the first, but for countdowns that are set. -/
structure Timers.Rewritten (t t' : Timers Float) : Prop where
  delay : t'.delay = t.delay ∨ t'.delay.IsByte
  sound : t'.sound = t.sound ∨ t'.sound.IsByte
  pending : t'.pending = t.pending

theorem Timers.Rewritten.refl (t : Timers Float) : t.Rewritten t := ⟨.inl rfl, .inl rfl, rfl⟩

namespace Console

variable {s : Console}

/-! ## Construction -/

/-- A console as it comes out of construction. -/
def fresh (cycles : Nat) (decay : Float) (random : RandomSource)
    (traceSteps traceFaults : Bool) : Console where
  machine := Machine.initial decay random
  rom := none
  cyclesPerFrame := cycles
  paused := false
  halted := false
  lastFault := none
  traceSteps := traceSteps
  traceFaults := traceFaults

theorem create_eq_ok {asked : Overrides} {env : Environment} {random : RandomSource}
    (h : create asked env random = .ok s) :
    ∃ cycles decay traceSteps traceFaults,
      s = fresh cycles decay random traceSteps traceFaults := by
  unfold create at h
  cases hs : Settings.resolve asked env.get? with
  | error e => rw [hs] at h; cases h
  | ok settings => rw [hs] at h; cases h; exact ⟨_, _, _, _, rfl⟩

/-! ## Lists of calls -/

@[simp] theorem after_nil (s : Console) : s.after [] = s := rfl

@[simp] theorem after_cons (s : Console) (a : Action) (actions : List Action) :
    s.after (a :: actions) = (s.perform a).console.after actions := rfl

theorem after_append (s : Console) (xs ys : List Action) :
    s.after (xs ++ ys) = (s.after xs).after ys := List.foldl_append

theorem after_concat (s : Console) (actions : List Action) (a : Action) :
    s.after (actions ++ [a]) = ((s.after actions).perform a).console := by
  rw [after_append]; rfl

/-- What a call preserves, a list of calls preserves. -/
theorem after_invariant {P : Console → Prop} {actions : List Action}
    (hcall : ∀ s, ∀ a ∈ actions, P s → P (s.perform a).console) (h : P s) :
    P (s.after actions) := by
  induction actions generalizing s with
  | nil => exact h
  | cons a rest ih =>
      exact ih (fun s b hb => hcall s b (List.mem_cons_of_mem a hb))
        (hcall s a List.mem_cons_self h)

/-! ## Frames -/

/-- What every attempt of a running console preserves, a burst preserves. -/
theorem burst_invariant {P : Console → Prop}
    (hstep : ∀ s : Console, s.halted = false → P s → P s.attempt.console)
    (hh : s.halted = false) (h : P s) (k n : Nat) (log : Array String) :
    P (s.burst k log n).console := by
  induction n generalizing s k log with
  | zero => exact h
  | succ n ih =>
      have hp := hstep s hh h
      rcases s.attempt_cases with ⟨f, -, ha⟩ | ⟨w, ins, m', -, -, -, ha⟩ | ⟨-, -, ha⟩
      · simp only [burst, ha] at hp ⊢; exact hp
      · simp only [burst, ha] at hp ⊢
        exact ih (s := { s with machine := m'.countCycle }) hh hp (k + 1) (log ++ s.stepLog)
      · simp only [burst, ha] at hp ⊢; exact hp

theorem frameBurst_invariant {P : Console → Prop}
    (hstep : ∀ s : Console, s.halted = false → P s → P s.attempt.console) (h : P s) :
    P s.frameBurst.console := by
  rcases s.frameBurst_cases with ⟨-, hb⟩ | ⟨-, hh, hb⟩
  · rw [hb]; exact h
  · rw [hb]; exact burst_invariant hstep hh h 0 s.cyclesPerFrame #[]

/-- A frame is refused, or its burst fails, or the burst is followed by the
end of the frame. -/
theorem runFrame_cases (s : Console) (ms : Float) :
    (ms.isFinite = false ∧ (s.runFrame ms).console = s) ∨
    (∃ e, s.frameBurst.answer = .error e ∧ (s.runFrame ms).console = s.frameBurst.console) ∨
    (ms.isFinite = true ∧ ∃ executed fault, s.frameBurst.answer = .ok (executed, fault) ∧
      (s.runFrame ms).console = (s.frameBurst.console.closeFrame ms executed fault).1 ∧
      (s.runFrame ms).answer = .ok (s.frameBurst.console.closeFrame ms executed fault).2) := by
  unfold runFrame
  cases hms : ms.isFinite with
  | false => exact .inl ⟨rfl, rfl⟩
  | true =>
      right
      cases hb : s.frameBurst.answer with
      | error e => exact .inl ⟨e, rfl, by simp only [if_true, hb]⟩
      | ok r => exact .inr ⟨rfl, r.1, r.2, rfl, by simp only [if_true, hb], by simp only [if_true, hb]⟩

/-- The end of a frame is an affair of the timers, the afterglow and the
dirty mark. -/
theorem closeFrame_eq (s : Console) (ms : Float) (executed : Nat) (fault : Option Fault) :
    (s.closeFrame ms executed fault).1 =
      { s with machine := { s.machine with
        timers := if s.paused then s.machine.timers else (s.machine.timers.advance ms).1
        display := { s.machine.display.advanceFrame with dirty := false } } } := by
  obtain ⟨m, rom, n, paused, halted, lastFault, traceSteps, traceFaults⟩ := s
  cases paused <;> rfl

/-! ## Host calls -/

/-- The second console has the processor, the memory, the pixels and the
random source of the first, and its timers but for countdowns that are set. -/
structure Adjusted (s t : Console) : Prop where
  cpu : t.machine.cpu = s.machine.cpu
  memory : t.machine.memory = s.machine.memory
  pixels : t.machine.display.pixels = s.machine.display.pixels
  random : t.machine.random = s.machine.random
  timers : s.machine.timers.Rewritten t.machine.timers

theorem Adjusted.refl (s : Console) : Adjusted s s := ⟨rfl, rfl, rfl, rfl, .refl _⟩

/-- A restart is power-on with some program. -/
theorem perform_of_restarts {a : Action} (h : a.restarts = true) :
    ∃ rom, (s.perform a).console = { s with rom := rom }.reset := by
  cases a with
  | reset => exact ⟨s.rom, rfl⟩
  | loadRom data name =>
      have hd : data.length ≤ programCapacity := of_decide_eq_true h
      refine ⟨some ⟨data, name, hd⟩, ?_⟩
      simp only [perform, loadRom, Rom.parse, dif_pos hd]
      rfl
  | _ => cases h

/-- The other calls leave the machine to itself, but for what they set. -/
theorem perform_adjusted {a : Action} (ha : a.restarts = false)
    (hs : a = .skip → s.halted = false) (hx : a = .step → s.halted = true)
    (hf : ∀ ms, a ≠ .frame ms) : Adjusted s (s.perform a).console := by
  cases a with
  | reset => cases ha
  | loadRom data name =>
      have hd : ¬ data.length ≤ programCapacity := of_decide_eq_false ha
      simp only [perform, loadRom, Rom.parse, dif_neg hd]
      exact .refl s
  | skip =>
      have hskip : s.skip = s := if_neg (by rw [hs rfl]; exact Bool.false_ne_true)
      rw [perform, hskip]
      exact .refl s
  | step =>
      rw [perform, answering, stepInstruction, if_pos (hx rfl)]
      exact .refl s
  | frame ms => exact absurd rfl (hf ms)
  | setCycles n =>
      refine (s.setCyclesPerFrame_settles n).console (Q := Adjusted s) (.refl s) ?_
      rintro t ⟨k, -, rfl⟩
      exact ⟨rfl, rfl, rfl, rfl, .refl _⟩
  | setDecay d =>
      refine (s.setDecay_settles d).console (Q := Adjusted s) (.refl s) ?_
      rintro t ⟨x, -, rfl⟩
      exact ⟨rfl, rfl, rfl, rfl, .refl _⟩
  | setDelay v => exact ⟨rfl, rfl, rfl, rfl, .inr (Countdown.isByte_byte v), .inl rfl, rfl⟩
  | setSound v => exact ⟨rfl, rfl, rfl, rfl, .inl rfl, .inr (Countdown.isByte_byte v), rfl⟩
  | _ => exact ⟨rfl, rfl, rfl, rfl, .refl _⟩

/-- All that a host call can do. -/
theorem perform_cases (s : Console) (a : Action) :
    (a.restarts = true ∧ ∃ rom, (s.perform a).console = { s with rom := rom }.reset) ∨
    (a = .skip ∧ s.halted = true ∧ (s.perform a).console =
      { s with
        machine := { s.machine with cpu := s.machine.cpu.skip }
        halted := false
        lastFault := none }) ∨
    (a = .step ∧ s.halted = false ∧ (s.perform a).console = s.attempt.console) ∨
    (∃ ms, a = .frame ms ∧ (s.perform a).console = (s.runFrame ms).console) ∨
    (a.restarts = false ∧ (a = .skip → s.halted = false) ∧ (∀ ms, a ≠ .frame ms) ∧
      Adjusted s (s.perform a).console) := by
  cases ha : a.restarts with
  | true => exact .inl ⟨rfl, perform_of_restarts ha⟩
  | false =>
      by_cases hf : ∃ ms, a = .frame ms
      · obtain ⟨ms, rfl⟩ := hf
        exact .inr (.inr (.inr (.inl ⟨ms, rfl, rfl⟩)))
      have hf' : ∀ ms, a ≠ .frame ms := fun ms h => hf ⟨ms, h⟩
      by_cases hs : a = .skip → s.halted = false
      · by_cases hx : a = .step → s.halted = true
        · exact .inr (.inr (.inr (.inr ⟨rfl, hs, hf', perform_adjusted ha hs hx hf'⟩)))
        · obtain ⟨rfl, hh⟩ := Classical.not_imp.1 hx
          refine .inr (.inr (.inl ⟨rfl, Bool.eq_false_iff.2 hh, ?_⟩))
          rw [perform, answering, stepInstruction, if_neg hh]
      · obtain ⟨rfl, hh⟩ := Classical.not_imp.1 hs
        have hh' : s.halted = true := (Bool.not_eq_false _).mp hh
        exact .inr (.inl ⟨rfl, hh', by simp only [perform, quiet, skip, if_pos hh']⟩)

end Console
end Chip8
