/-
# `Chip8.Proofs.Frozen` — a halted machine is frozen and can be retried

A fault halts the machine.  Until the host lifts the halt, calls go on
arriving: frames, single instructions, keys, timers, settings.  The calls
fall into three kinds, by what they do to a halted console:

    idle     pause, step, frame, setCycles, setDecay, key, setDelay, setSound
             processor, memory, pixels, halt and last fault stay (`Frozen`)
    lifting  resume, skip, reset, loadRom
    ·        nothing else

That a halt can be retried is more than that nothing changes.  The last fault
survives `resume`, so it may be older than the state; what excludes a stale
one is the invariant `Justified`:

    halted  →  there is a last fault, and it is what stops the step to come

It holds of a new console for want of a halt, and every call preserves it.
Only two things make a console halted: a step that faults, which leaves the
machine as it was, and a call that finds it halted already.  In the second
case the call is idle, and what decides about a fault is among the things
that stay.  No timer and no key is (`Machine.stop?_congr`).
-/
import Chip8.Proofs.Reachable

namespace Chip8

/-- The calls that neither lift a halt nor start the program again. -/
def Action.Idle : Action → Prop
  | .loadRom .. | .reset | .resume | .skip => False
  | _ => True

namespace Console

/-- The second console has the processor, the memory, the pixels, the halt
and the last fault of the first. -/
structure Frozen (s t : Console) : Prop where
  cpu : t.machine.cpu = s.machine.cpu
  memory : t.machine.memory = s.machine.memory
  pixels : t.machine.display.pixels = s.machine.display.pixels
  halted : t.halted = s.halted
  lastFault : t.lastFault = s.lastFault

/-- If the console is halted, its last fault is what stops the step to
come. -/
def Justified (s : Console) : Prop :=
  s.halted = true → ∃ f, s.lastFault = some f ∧ s.machine.stop? = some f

variable {s t u : Console} {a : Action} {f : Fault}

theorem Frozen.refl (s : Console) : Frozen s s := ⟨rfl, rfl, rfl, rfl, rfl⟩

theorem Frozen.trans (h : Frozen s t) (h' : Frozen t u) : Frozen s u where
  cpu := h'.cpu.trans h.cpu
  memory := h'.memory.trans h.memory
  pixels := h'.pixels.trans h.pixels
  halted := h'.halted.trans h.halted
  lastFault := h'.lastFault.trans h.lastFault

/-- What decides about a fault is among the things that stay. -/
theorem Frozen.stop? (h : Frozen s t) : t.machine.stop? = s.machine.stop? :=
  Machine.stop?_congr (by rw [h.cpu]) (by rw [h.cpu]) (by rw [h.cpu]) h.memory

theorem Frozen.justified (h : Frozen s t) (hs : s.Justified) : t.Justified := by
  intro ht
  obtain ⟨f, hf, hstop⟩ := hs (h.halted.symm.trans ht)
  exact ⟨f, h.lastFault.trans hf, h.stop?.trans hstop⟩

/-! ## Idle calls -/

theorem setCyclesPerFrame_frozen (s : Console) (n : Argument) :
    Frozen s (s.setCyclesPerFrame n).console := by
  refine (s.setCyclesPerFrame_settles n).console (.refl s) ?_
  rintro t ⟨k, -, rfl⟩
  exact ⟨rfl, rfl, rfl, rfl, rfl⟩

theorem setDecay_frozen (s : Console) (d : Argument) : Frozen s (s.setDecay d).console := by
  refine (s.setDecay_settles d).console (.refl s) ?_
  rintro t ⟨x, -, rfl⟩
  exact ⟨rfl, rfl, rfl, rfl, rfl⟩

theorem closeFrame_frozen (s : Console) (ms : Float) (executed : Nat) (fault : Option Fault) :
    Frozen s (s.closeFrame ms executed fault).1 := by
  rw [closeFrame_eq]
  exact ⟨rfl, rfl, rfl, rfl, rfl⟩

theorem frameBurst_of_halted (h : s.halted = true) : s.frameBurst = ⟨s, .ok (0, none), #[]⟩ :=
  if_pos (by rw [h, Bool.or_true])

/-- A frame of a halted console executes nothing and reports no fault. -/
theorem runFrame_of_halted (h : s.halted = true) {ms : Float} (hms : ms.isFinite = true) :
    ∃ r : Frame, (s.runFrame ms).answer = .ok r ∧ r.executed = 0 ∧ r.fault = none := by
  refine ⟨(s.closeFrame ms 0 none).2, ?_, rfl, rfl⟩
  simp only [runFrame, if_pos hms, frameBurst_of_halted h]

theorem runFrame_frozen (h : s.halted = true) (ms : Float) :
    Frozen s (s.runFrame ms).console := by
  have hb := frameBurst_of_halted h
  rcases s.runFrame_cases ms with ⟨-, hc⟩ | ⟨e, he, -⟩ | ⟨-, executed, fault, -, hc, -⟩
  · rw [hc]; exact .refl s
  · rw [hb] at he; cases he
  · rw [hc, hb]; exact s.closeFrame_frozen ms executed fault

/-- An idle call leaves a halted console frozen. -/
theorem perform_frozen (h : s.halted = true) (ha : a.Idle) : Frozen s (s.perform a).console := by
  cases a with
  | step =>
      rw [perform, answering, stepInstruction, if_pos h]
      exact .refl s
  | frame ms => exact runFrame_frozen h ms
  | setCycles n => exact s.setCyclesPerFrame_frozen n
  | setDecay d => exact s.setDecay_frozen d
  | pause => exact ⟨rfl, rfl, rfl, rfl, rfl⟩
  | key k down => exact ⟨rfl, rfl, rfl, rfl, rfl⟩
  | setDelay v => exact ⟨rfl, rfl, rfl, rfl, rfl⟩
  | setSound v => exact ⟨rfl, rfl, rfl, rfl, rfl⟩
  | _ => exact ha.elim

theorem after_frozen {later : List Action} (h : s.halted = true) (hl : ∀ a ∈ later, a.Idle) :
    Frozen s (s.after later) :=
  after_invariant (P := Frozen s)
    (fun _ a ha hf => hf.trans (perform_frozen (hf.halted.trans h) (hl a ha))) (.refl s)

/-! ## A halt is justified -/

theorem justified_of_running (h : s.halted = false) : s.Justified :=
  fun ht => absurd (h.symm.trans ht) Bool.false_ne_true

/-- The one way into a halt: a step that faults, and changes nothing. -/
theorem attempt_justified (h : s.halted = false) : s.attempt.console.Justified := by
  rcases s.attempt_cases with ⟨f, hf, ha⟩ | ⟨w, ins, m', -, -, -, ha⟩ | ⟨-, -, ha⟩
  · rw [ha]; exact fun _ => ⟨f, rfl, hf⟩
  · rw [ha]; exact justified_of_running h
  · rw [ha]; exact justified_of_running h

theorem runFrame_justified (hs : s.Justified) (ms : Float) :
    (s.runFrame ms).console.Justified := by
  have hb : s.frameBurst.console.Justified :=
    frameBurst_invariant (fun _ hh _ => attempt_justified hh) hs
  rcases s.runFrame_cases ms with ⟨-, hc⟩ | ⟨e, -, hc⟩ | ⟨-, executed, fault, -, hc, -⟩
  · rw [hc]; exact hs
  · rw [hc]; exact hb
  · rw [hc]; exact (closeFrame_frozen _ ms executed fault).justified hb

theorem perform_justified (hs : s.Justified) (a : Action) : (s.perform a).console.Justified := by
  cases a with
  | loadRom data name =>
      refine (s.loadRom_settles data name).console (Q := Justified) hs ?_
      rintro t ⟨rom, rfl⟩
      exact justified_of_running rfl
  | reset => exact justified_of_running rfl
  | resume => exact justified_of_running rfl
  | skip =>
      cases hh : s.halted with
      | true => rw [perform, skip, if_pos hh]; exact justified_of_running rfl
      | false =>
          rw [perform, skip, if_neg (by rw [hh]; exact Bool.false_ne_true)]
          exact hs
  | step =>
      rw [perform, answering, stepInstruction]
      cases hh : s.halted with
      | true => exact hs
      | false => exact attempt_justified hh
  | frame ms => exact runFrame_justified hs ms
  | setCycles n => exact (s.setCyclesPerFrame_frozen n).justified hs
  | setDecay d => exact (s.setDecay_frozen d).justified hs
  | pause => exact hs
  | key k down => exact Frozen.justified ⟨rfl, rfl, rfl, rfl, rfl⟩ hs
  | setDelay v => exact Frozen.justified ⟨rfl, rfl, rfl, rfl, rfl⟩ hs
  | setSound v => exact Frozen.justified ⟨rfl, rfl, rfl, rfl, rfl⟩ hs

theorem after_justified {asked : Overrides} {env : Environment} {random : RandomSource}
    (h : create asked env random = .ok s) (actions : List Action) :
    (s.after actions).Justified := by
  obtain ⟨cycles, decay, traceSteps, traceFaults, rfl⟩ := create_eq_ok h
  exact after_invariant (fun _ a _ hs => perform_justified hs a) (justified_of_running rfl)

/-! ## Retrying -/

/-- Lifting a justified halt and stepping leads back to it. -/
theorem resume_stepInstruction (h : s.machine.stop? = some f) :
    s.resume.stepInstruction =
      ⟨s.resume.halt f, .ok (some f), s.resume.stepLog ++ s.resume.faultLog f⟩ := by
  rw [show s.resume.stepInstruction = s.resume.attempt from rfl]
  rcases s.resume.attempt_cases with ⟨g, hg, ha⟩ | ⟨w, ins, m', hn, -⟩ | ⟨hn, -⟩
  · rw [show s.resume.machine = s.machine from rfl, h] at hg
    cases hg
    exact ha
  · rw [show s.resume.machine = s.machine from rfl, h] at hn; cases hn
  · rw [show s.resume.machine = s.machine from rfl, h] at hn; cases hn

/-- In every console that host calls lead to, a halt has a last fault.  Idle
calls then change neither the processor nor the memory nor the pixels, frames
report no fault again and single instructions report that one, and whoever
resumes and steps meets the same fault in the same state. -/
theorem halted_is_frozen {asked : Overrides} {env : Environment} {random : RandomSource}
    {start : Console} (hc : create asked env random = .ok start) (actions : List Action)
    (hh : (start.after actions).halted = true) :
    ∃ f, (start.after actions).lastFault = some f ∧
      ∀ later : List Action, (∀ a ∈ later, a.Idle) →
        let s := start.after actions
        let t := s.after later
        t.machine.cpu = s.machine.cpu ∧ t.machine.memory = s.machine.memory ∧
          t.machine.display.pixels = s.machine.display.pixels ∧
          t.halted = true ∧ t.lastFault = some f ∧
          (∀ ms : Float, ms.isFinite = true →
            ∃ r, (t.runFrame ms).answer = .ok r ∧ r.executed = 0 ∧ r.fault = none) ∧
          t.stepInstruction.answer = .ok (some f) ∧
          let u := t.resume.stepInstruction
          u.answer = .ok (some f) ∧ u.console.halted = true ∧ u.console.lastFault = some f ∧
            u.console.machine = t.machine := by
  obtain ⟨f, hf, hstop⟩ := after_justified hc actions hh
  refine ⟨f, hf, fun later hl => ?_⟩
  have hz := after_frozen hh hl
  have ht := hz.halted.trans hh
  have hlast := hz.lastFault.trans hf
  have hretry := resume_stepInstruction (hz.stop?.trans hstop)
  refine ⟨hz.cpu, hz.memory, hz.pixels, ht, hlast, fun ms hms => runFrame_of_halted ht hms, ?_, ?_⟩
  · rw [stepInstruction, if_pos ht, hlast]
  · simp only [hretry]
    exact ⟨trivial, rfl, rfl, rfl⟩

/-- Without a program the first step finds the word 0, which is no
instruction.  Neither keys and timers nor a change of speed make it one. -/
theorem halted_is_frozen_without_a_program :
    let start := fresh 10 defaultDecay (RandomSource.cycle #[]) false false
    let later : List Action :=
      [.pause, .key 5 true, .setDelay (9 : Int), .setCycles (.number (.whole 3)), .frame 16]
    create .none .empty (RandomSource.cycle #[]) = .ok start ∧
      (start.after [.step]).halted = true ∧ (∀ a ∈ later, a.Idle) ∧
      ∃ f, (start.after [.step]).lastFault = some f ∧
        (((start.after [.step]).after later).resume.stepInstruction).answer = .ok (some f) := by
  intro start later
  have hc : create .none .empty (RandomSource.cycle #[]) = .ok start := rfl
  have hh : (start.after [.step]).halted = true := by
    simp only [start]
    decide +kernel
  have hl : ∀ a ∈ later, a.Idle := by
    simp only [later, List.forall_mem_cons, Action.Idle]
    exact ⟨trivial, trivial, trivial, trivial, trivial, nofun⟩
  obtain ⟨f, hf, hfrozen⟩ := halted_is_frozen hc [.step] hh
  obtain ⟨-, -, -, -, -, -, -, hretry, -⟩ := hfrozen later hl
  exact ⟨hc, hh, hl, f, hf, hretry⟩

end Console
end Chip8
