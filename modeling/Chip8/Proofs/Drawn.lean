/-
# `Chip8.Proofs.Drawn` — whether anything was drawn

A frame reports whether anything was drawn, so that a host may save itself the
trouble of showing the same picture again.  The report is a mark on the
screen, which is set in the depths of two instructions and taken off at the
end of every frame:

    clear, draw       set it
    frame             reports it, and takes it off
    reset, loadRom    take it off
    anything else     leaves it alone

So the mark is a matter of history.  It is set if and only if one of the two
instructions was completed after the last of the calls in the second and the
third line.  By whom it was completed does not matter: by a single
instruction of the host, by the frame itself, or by a frame that faulted
later on.  Nor does it matter whether the console was paused or halted in
between, because even then a frame comes to its end.

`Display.Marked` says for a list of completed instructions what becomes of the
mark and of the pixels.  It holds of a single instruction by cases, of any
number of them by induction (`steps_marked`), of a host call
(`perform_marked`), and of the calls between two frames (`after_marked`).
The pixels are part of it, since the pixels that a mark is about are those
that no instruction has changed without setting it.
-/
import Chip8.Proofs.Bounds
import Chip8.Proofs.PowerOn
import Mathlib.Data.List.DropRight

namespace Chip8

/-- The calls that take the mark off the screen. -/
def Action.unmarks : Action → Bool
  | .frame ms => ms.isFinite
  | a => a.restarts

/-- A list of calls up to the last one that takes the mark off. -/
def Action.untilUnmarked (actions : List Action) : List Action :=
  actions.rdropWhile fun a => !a.unmarks

/-- The calls behind the last one that takes the mark off. -/
def Action.sinceUnmarked (actions : List Action) : List Action :=
  actions.rtakeWhile fun a => !a.unmarks

theorem Action.unmarks_of_mem_since {actions : List Action} {a : Action}
    (ha : a ∈ Action.sinceUnmarked actions) : a.unmarks = false := by
  have hkept := List.mem_rtakeWhile_imp ha
  rwa [Bool.not_eq_true'] at hkept

/-- Of two screens the second is marked if the first is or if one of some
completed instructions draws; and if none does, its pixels are those of the
first. -/
structure Display.Marked (l : List (Instruction Int)) (d d' : Display Float) : Prop where
  dirty : d'.dirty = true ↔ d.dirty = true ∨ ∃ ins ∈ l, ins.Draws
  pixels : (∀ ins ∈ l, ¬ ins.Draws) → d'.pixels = d.pixels

namespace Display

variable {l l' : List (Instruction Int)} {d d' d'' : Display Float}

theorem marked_nil (hd : d'.dirty = d.dirty) (hp : d'.pixels = d.pixels) : Marked [] d d' := by
  refine ⟨?_, fun _ => hp⟩
  rw [hd]
  simp

theorem Marked.refl (d : Display Float) : Marked [] d d := marked_nil rfl rfl

theorem Marked.append (h : Marked l d d') (h' : Marked l' d' d'') : Marked (l ++ l') d d'' where
  dirty := by
    rw [h'.dirty, h.dirty, or_assoc]
    simp only [List.mem_append, or_and_right, exists_or]
  pixels hno :=
    (h'.pixels fun ins hins => hno ins (List.mem_append_right l hins)).trans
      (h.pixels fun ins hins => hno ins (List.mem_append_left l' hins))

end Display

/-! ## A completed instruction -/

namespace Machine

variable {m m' : Machine} {ins : Instruction Int}

theorem execute_dirty (h : m.execute ins = (m', none)) (hd : ins.Draws) :
    m'.display.dirty = true := by
  cases ins with
  | clear => cases h; rfl
  | draw x y n =>
      simp only [execute, drawRows] at h
      split at h
      · cases h
      · split at h <;> cases h <;> rfl
  | _ => exact hd.elim

theorem execute_marked (h : m.execute ins = (m', none)) :
    Display.Marked [ins] m.display m'.display := by
  by_cases hd : ins.Draws
  · refine ⟨⟨fun _ => .inr ⟨ins, List.mem_singleton_self ins, hd⟩, fun _ => execute_dirty h hd⟩, ?_⟩
    exact fun hno => absurd hd (hno ins (List.mem_singleton_self ins))
  · obtain ⟨memory, pixels, dirty, hm, -, hsame⟩ := execute_devices h
    obtain ⟨hpixels, hdirty⟩ := hsame hd
    rw [hm]
    refine ⟨?_, fun _ => hpixels⟩
    simp only [hdirty, List.mem_singleton, exists_eq_left, hd, or_false]

end Machine

namespace Console

variable {s : Console} {a : Action}

/-! ## Single instructions -/

/-- The instruction that a single instruction of the host completes, if it
completes one. -/
def completedNext (s : Console) : List (Instruction Int) :=
  if s.halted then [] else s.machine.step.2.toOption.toList

/-- The instructions that so many single instructions of the host complete, in
their order. -/
def completedIn (s : Console) (n : Nat) : List (Instruction Int) :=
  (List.range n).flatMap fun k => (s.steps k).completedNext

theorem completedIn_succ (s : Console) (n : Nat) :
    s.completedIn (n + 1) = s.completedNext ++ s.stepInstruction.console.completedIn n := by
  rw [completedIn, List.range_succ_eq_map, List.flatMap_cons, List.flatMap_map]
  rfl

theorem completedNext_of_halted (h : s.halted = true) : s.completedNext = [] := if_pos h

theorem completedIn_of_halted (h : s.halted = true) (n : Nat) : s.completedIn n = [] := by
  rw [completedIn, List.flatMap_eq_nil_iff]
  intro k _
  rw [steps_of_halted h, completedNext_of_halted h]

theorem completedNext_of_running (h : s.halted = false) :
    s.completedNext = s.machine.step.2.toOption.toList :=
  if_neg (by rw [h]; exact Bool.false_ne_true)

theorem stepInstruction_marked (hr : s.machine.random.Steady) :
    Display.Marked s.completedNext s.machine.display s.stepInstruction.console.machine.display := by
  cases hh : s.halted with
  | true =>
      rw [completedNext_of_halted hh, stepInstruction_of_halted hh]
      exact .refl _
  | false =>
      rw [completedNext_of_running hh, stepInstruction_of_running hh, attempt]
      rcases s.machine.step_cases with ⟨f, -, he⟩ | ⟨w, ins, m', -, -, hx, he⟩ | ⟨-, hn, -⟩
      · rw [he]
        exact .refl _
      · rw [he]
        have hm := Machine.execute_marked hx
        exact hm
      · exact absurd hn hr.next

/-- Any number of single instructions. -/
theorem steps_marked (hr : s.machine.random.Steady) (n : Nat) :
    Display.Marked (s.completedIn n) s.machine.display (s.steps n).machine.display := by
  induction n generalizing s with
  | zero => exact .refl _
  | succ n ih =>
      rw [completedIn_succ, steps_succ]
      exact (stepInstruction_marked hr).append (ih (stepInstruction_steady hr).2.2)

/-- These are the instructions that the report of a frame counts. -/
theorem length_completedIn (hh : s.halted = false) (hr : s.machine.random.Steady) (n : Nat) :
    (s.completedIn n).length = s.completed n := by
  induction n generalizing s with
  | zero => rfl
  | succ n ih =>
      have hstep := stepInstruction_of_running hh
      have hr' := (stepInstruction_steady hr).2.2
      rw [completedIn_succ, List.length_append, completed_succ, completedNext_of_running hh,
        faultAt, steps_zero]
      rw [hstep] at hr' ⊢
      rcases s.machine.step_cases with ⟨f, -, he⟩ | ⟨w, ins, m', -, -, -, he⟩ | ⟨-, hn, -⟩
      · -- the console is halted from here on
        have ha : s.attempt = ⟨s.halt f, .ok (some f), s.stepLog ++ s.faultLog f⟩ := by
          rw [attempt, he]
        rw [ha, he, completedIn_of_halted (s := s.halt f) rfl,
          completed_of_halted (s := s.halt f) rfl rfl]
        rfl
      · have ha : s.attempt = ⟨{ s with machine := m'.countCycle }, .ok none, s.stepLog⟩ := by
          rw [attempt, he]
        rw [ha] at hr' ⊢
        rw [he, ih (s := { s with machine := m'.countCycle }) hh hr', Nat.add_comm]
        rfl
      · exact absurd hn hr.next

/-! ## Host calls -/

/-- The instructions that a host call completes, in their order.  Those of a
frame are as many as the speed says, unless the console is paused. -/
def completedBy (s : Console) : Action → List (Instruction Int)
  | .step => s.completedNext
  | .frame ms => if ms.isFinite && !s.paused then s.completedIn s.cyclesPerFrame else []
  | _ => []

/-- The instructions that a list of host calls completes, in their order. -/
def completedAlong (s : Console) : List Action → List (Instruction Int)
  | [] => []
  | a :: rest => s.completedBy a ++ (s.perform a).console.completedAlong rest

theorem completedAlong_append (s : Console) (xs ys : List Action) :
    s.completedAlong (xs ++ ys) = s.completedAlong xs ++ (s.after xs).completedAlong ys := by
  induction xs generalizing s with
  | nil => rfl
  | cons a xs ih =>
      rw [List.cons_append, completedAlong, completedAlong, ih, List.append_assoc]
      rfl

/-- The burst of a frame completes these instructions and counts them. -/
theorem frameBurst_completed (hr : s.machine.random.Steady) {ms : Float}
    (hms : ms.isFinite = true) :
    (∃ fault, s.frameBurst.answer = .ok ((s.completedBy (.frame ms)).length, fault)) ∧
      Display.Marked (s.completedBy (.frame ms)) s.machine.display
        s.frameBurst.console.machine.display := by
  rw [completedBy, hms, Bool.true_and]
  rcases s.frameBurst_cases with ⟨hidle, hb⟩ | ⟨hp, hh, hb⟩
  · -- nothing is executed, whatever the reason
    have hnone : (if (!s.paused) = true then s.completedIn s.cyclesPerFrame else []) = [] := by
      rcases hidle with hp | hh
      · rw [hp]
        rfl
      · rw [completedIn_of_halted hh, ite_self]
    rw [hb, hnone]
    exact ⟨⟨none, rfl⟩, .refl _⟩
  · obtain ⟨hc, hans, -⟩ := burst_eq_steps hh hr 0 s.cyclesPerFrame #[]
    rw [hb, hp, Bool.not_false, if_pos rfl, hc, hans, length_completedIn hh hr, Nat.zero_add]
    exact ⟨⟨_, rfl⟩, steps_marked hr s.cyclesPerFrame⟩

theorem closeFrame_drew (s : Console) (ms : Float) (executed : Nat) (fault : Option Fault) :
    (s.closeFrame ms executed fault).2.drew = s.machine.display.dirty := by
  simp only [closeFrame, advanceTimers]
  split <;> rfl

/-- A frame reports the mark that its instructions leave, and takes it off. -/
theorem runFrame_drew (hr : s.machine.random.Steady) {ms : Float} (hms : ms.isFinite = true) :
    ∃ r, (s.runFrame ms).answer = .ok r ∧
      r.executed = (s.completedBy (.frame ms)).length ∧
      Display.Marked (s.completedBy (.frame ms)) s.machine.display
        { (s.runFrame ms).console.machine.display with dirty := r.drew } ∧
      (s.runFrame ms).console.machine.display.dirty = false := by
  obtain ⟨⟨fault, hb⟩, hm⟩ := frameBurst_completed hr hms
  rcases s.runFrame_cases ms with ⟨hno, -⟩ | ⟨e, he, -⟩ | ⟨-, executed, fault', hb', hc, hans⟩
  · rw [hms] at hno; cases hno
  · rw [hb] at he; cases he
  · rw [hb] at hb'
    cases hb'
    refine ⟨_, hans, rfl, ?_, by rw [hc, closeFrame_eq]⟩
    rw [hc, closeFrame_drew, closeFrame_eq]
    exact ⟨hm.dirty, hm.pixels⟩

theorem perform_marked (hr : s.machine.random.Steady) (ha : a.unmarks = false) :
    Display.Marked (s.completedBy a) s.machine.display (s.perform a).console.machine.display := by
  cases a with
  | step => exact stepInstruction_marked hr
  | frame ms =>
      have hms : ms.isFinite = false := ha
      rw [completedBy, hms, perform, answering, runFrame, hms]
      exact .refl _
  | loadRom data name =>
      have hd : ¬ data.length ≤ programCapacity := of_decide_eq_false ha
      rw [perform, loadRom, Rom.parse, dif_neg hd]
      exact .refl _
  | reset => cases ha
  | setCycles n =>
      refine (s.setCyclesPerFrame_settles n).console
        (Q := fun t => Display.Marked [] s.machine.display t.machine.display) (.refl _) ?_
      rintro t ⟨k, -, rfl⟩
      exact .refl _
  | setDecay d =>
      refine (s.setDecay_settles d).console
        (Q := fun t => Display.Marked [] s.machine.display t.machine.display) (.refl _) ?_
      rintro t ⟨x, -, rfl⟩
      exact Display.marked_nil rfl rfl
  | skip =>
      rw [perform, skip]
      split <;> exact .refl _
  | _ => exact .refl _

/-- A call that takes the mark off leaves an unmarked screen. -/
theorem perform_unmarked (hr : s.machine.random.Steady) (ha : a.unmarks = true) :
    (s.perform a).console.machine.display.dirty = false := by
  cases a with
  | frame ms =>
      have hms : ms.isFinite = true := ha
      obtain ⟨-, -, -, -, hdirty⟩ := runFrame_drew hr hms
      exact hdirty
  | loadRom data name =>
      obtain ⟨rom, hc⟩ := perform_of_restarts (s := s) (a := .loadRom data name) ha
      rw [hc]
      rfl
  | reset => rfl
  | _ => cases ha

/-- The calls between two that take the mark off. -/
theorem after_marked {k : Nat} (hb : s.Bounded k) {actions : List Action}
    (ha : ∀ a ∈ actions, a.unmarks = false) :
    Display.Marked (s.completedAlong actions) s.machine.display
      (s.after actions).machine.display := by
  induction actions generalizing s k with
  | nil => exact .refl _
  | cons a rest ih =>
      exact (perform_marked hb.random (ha a List.mem_cons_self)).append
        (ih (hb.perform a) fun b hmem => ha b (List.mem_cons_of_mem a hmem))

/-- After construction, and after a call that takes the mark off, the screen is
unmarked. -/
theorem after_untilUnmarked {k : Nat} (hb : s.Bounded k) (hd : s.machine.display.dirty = false)
    (actions : List Action) :
    (s.after (Action.untilUnmarked actions)).machine.display.dirty = false := by
  induction actions using List.reverseRecOn with
  | nil => exact hd
  | append_singleton rest a ih =>
      rw [Action.untilUnmarked, List.rdropWhile_concat]
      cases ha : a.unmarks with
      | true =>
          rw [if_neg (by rw [Bool.not_true]; exact Bool.false_ne_true), after_concat]
          exact perform_unmarked (hb.after rest).random ha
      | false => exact ih

theorem after_sinceUnmarked (s : Console) (actions : List Action) :
    s.after actions =
      (s.after (Action.untilUnmarked actions)).after (Action.sinceUnmarked actions) := by
  rw [← after_append, Action.untilUnmarked, Action.sinceUnmarked,
    List.rdropWhile_append_rtakeWhile]

/-- Of every frame in every list of host calls: it reports that something was
drawn if and only if one of the two drawing instructions was completed in it or
in the calls before it, back to the last restart, the last frame, or
construction; and if it reports that nothing was drawn, the pixels are those
that were there then. -/
theorem drew_is_exact {asked : Overrides} {env : Environment} {random : RandomSource}
    {start : Console} (hc : create asked env random = .ok start) (hr : random.Steady)
    (actions : List Action) {ms : Float} (hms : ms.isFinite = true) :
    let s := start.after actions
    let marked := start.after (Action.untilUnmarked actions)
    let since := Action.sinceUnmarked actions
    ∃ r, (s.runFrame ms).answer = .ok r ∧
      r.executed = (s.completedBy (.frame ms)).length ∧
      (r.drew = true ↔ ∃ ins ∈ marked.completedAlong (since ++ [.frame ms]), ins.Draws) ∧
      (r.drew = false →
        (s.runFrame ms).console.machine.display.pixels = marked.machine.display.pixels) := by
  intro s marked since
  have hb := create_bounded hc hr
  have hdark : start.machine.display.dirty = false := by
    obtain ⟨cycles, decay, traceSteps, traceFaults, rfl⟩ := create_eq_ok hc
    rfl
  have hs : s = marked.after since := start.after_sinceUnmarked actions
  obtain ⟨r, hans, hexecuted, hframe, -⟩ := runFrame_drew (s := s) (hb.after actions).random hms
  -- the calls before the frame, and then the frame itself
  have hbefore : Display.Marked (marked.completedAlong since) marked.machine.display
      s.machine.display := by
    rw [hs]
    exact after_marked (hb.after _) fun a => Action.unmarks_of_mem_since
  have hall : marked.completedAlong (since ++ [.frame ms]) =
      marked.completedAlong since ++ s.completedBy (.frame ms) := by
    rw [completedAlong_append, ← hs, completedAlong, completedAlong, List.append_nil]
  obtain ⟨hdrew, hpixels⟩ := hbefore.append hframe
  have hunmarked : marked.machine.display.dirty = false := after_untilUnmarked hb hdark actions
  rw [← hall, hunmarked] at hdrew
  rw [← hall] at hpixels
  simp only [Bool.false_eq_true, false_or] at hdrew
  refine ⟨r, hans, hexecuted, hdrew, fun hno => hpixels fun ins hins hdraws => ?_⟩
  rw [hdrew.mpr ⟨ins, hins, hdraws⟩] at hno
  cases hno

/-- The program clears the screen. -/
def clearing : Rom := ⟨[0x00, 0xE0], none, by decide⟩

/-- A new console with this program. -/
def clearingLoaded : Console :=
  { fresh 10 defaultDecay (RandomSource.cycle #[]) false false with
    rom := some clearing
    machine := { Machine.initial defaultDecay (RandomSource.cycle #[]) with
      memory := Memory.initial.put programStart clearing.data } }

theorem clearingLoaded_completedNext : clearingLoaded.completedNext = [.clear] := by
  decide +kernel

/-- A frame that executes nothing reports what a single instruction has drawn
before the pause. -/
theorem drew_is_exact_of_a_paused_frame :
    let start := fresh 10 defaultDecay (RandomSource.cycle #[]) false false
    let actions : List Action := [.loadRom clearing.data none, .step, .pause]
    create .none .empty (RandomSource.cycle #[]) = .ok start ∧ (RandomSource.cycle #[]).Steady ∧
      (16 : Float).isFinite = true ∧
      ∃ r, ((start.after actions).runFrame 16).answer = .ok r ∧ r.executed = 0 ∧
        r.drew = true := by
  intro start actions
  have hc : create .none .empty (RandomSource.cycle #[]) = .ok start := rfl
  have hr : (RandomSource.cycle #[]).Steady := RandomSource.cycle_steady (by decide)
  have hms : (16 : Float).isFinite = true := by decide +kernel
  have huntil : start.after (Action.untilUnmarked actions) = clearingLoaded := by
    rw [show Action.untilUnmarked actions = [.loadRom clearing.data none] from rfl, after_cons,
      perform, show (none : Option String) = clearing.name from rfl, fresh_loadRom]
    rfl
  have hpaused : (start.after actions).paused = true := rfl
  obtain ⟨r, hans, hexecuted, hdrew, -⟩ := drew_is_exact hc hr actions hms
  refine ⟨hc, hr, hms, r, hans, ?_, hdrew.mpr ⟨.clear, ?_, trivial⟩⟩
  · rw [hexecuted, completedBy, hpaused, Bool.not_true, Bool.and_false, if_neg Bool.false_ne_true]
    rfl
  · rw [huntil]
    refine List.mem_append_left _ ?_
    rw [completedBy, clearingLoaded_completedNext]
    exact List.mem_singleton_self _

end Console
end Chip8
