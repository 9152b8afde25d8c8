/-
# `Chip8.Proofs.SplitRun` — a run can be split

An unattended run of `a + b` frames is a run of `a` frames, followed by a run
of `b` frames on the console that the first one leaves.  The second knows
nothing of the first.  It counts its frames from zero, so it gets the events
that are still to come, `a` frames earlier than before, and sorts them again.

Two facts make up the proof.  Both are inductions along the loop.

* The loop can be left and entered again (`frames_add`), unless it was left
  because of a fault under `halt`.
* Where a run began makes no difference to what it does (`frames_after`): a
  progress that continues another one has its frame numbers moved, and its
  faults, frames with sound and lines put behind those of the other.

What links the loop to its schedule is that before frame `n` it holds exactly
`remaining events n`.

The frames of the events are moved exactly here.  What remains of this when a
host subtracts in doubles is said in `Chip8.Proofs.HostCues`.
-/
import Chip8.Proofs.FrameSteps
import Chip8.Proofs.Reachable
import Chip8.Proofs.Schedule

namespace Chip8

/-- The summary of two runs in a row. -/
def RunSummary.andThen (first second : RunSummary) : RunSummary :=
  { second with
    frames := first.frames + second.frames
    faults := first.faults ++ second.faults
    soundFrames := first.soundFrames + second.soundFrames }

namespace Run

/-- The events that a run of `a` frames leaves over, for a run after it, with
their frames moved exactly. -/
def leftOver (a : Nat) (events : List KeyEvent) : List KeyEvent :=
  (events.filter fun e => (a : Rat) - 1 < e.frame).map (earlier a)

variable {policy : FaultPolicy} {p q : Progress} {events : List KeyEvent} {n k : Nat}

/-! ## Leaving the loop and entering it again -/

namespace Progress

/-- The run was ended by a fault. -/
def stopped (p : Progress) (policy : FaultPolicy) : Bool := policy == .halt && !p.faults.isEmpty

theorem stopped_record (h : p.stopped policy = false) (s : Console) (fault : Option Fault)
    (log : Array String) :
    (p.record policy s fault log).stopped policy = (fault.isSome && policy == .halt) := by
  cases policy with
  | skip => exact (Bool.and_false _).symm
  | halt =>
      have hnil : p.faults = [] := by
        cases hf : p.faults with
        | nil => rfl
        | cons f rest => rw [stopped, hf] at h; cases h
      rw [stopped, record, hnil]
      cases fault <;> rfl

end Progress

/-- Running `a + b` frames is running `a` and then `b`, unless a fault puts an
end to it. -/
theorem frames_add (a b : Nat) (h : p.stopped policy = false) :
    frames policy p (a + b) =
      match frames policy p a with
      | .error e => .error e
      | .ok q => if q.stopped policy then .ok q else frames policy q b := by
  induction a generalizing p with
  | zero => simp only [Nat.zero_add, frames, h, Bool.false_eq_true, if_false]
  | succ a ih =>
      rw [Nat.succ_add]
      simp only [frames]
      cases p.pressKeys.console.runFrame frameMs with
      | mk s answer log =>
          cases answer with
          | error e => rfl
          | ok report =>
              have hp : p.pressKeys.stopped policy = false := h
              have hr := Progress.stopped_record hp s report.fault log
              cases hstop : report.fault.isSome && policy == .halt with
              | true =>
                  rw [hstop] at hr
                  simp only [hstop, if_true, hr]
              | false =>
                  rw [hstop] at hr
                  simp only [hstop, Bool.false_eq_true, if_false]
                  exact ih hr

/-! ## Where a run began makes no difference -/

namespace Progress

/-- The progress of a run that continues another one. -/
def after (p q : Progress) : Progress where
  console := p.console
  frame := q.frame + p.frame
  events := p.events.map (delayed q.frame)
  faults := q.faults ++ p.faults
  soundFrames := q.soundFrames + p.soundFrames
  log := q.log ++ p.log

/-- Moving frames does not change what an event does. -/
theorem applyKeys_delayed (s : Console) (a : Nat) (l : List KeyEvent) :
    applyKeys s (l.map (delayed a)) = applyKeys s l := by
  induction l generalizing s with
  | nil => rfl
  | cons e rest ih => exact ih (s.setKey e.key e.down)

theorem pressKeys_after (p q : Progress) : (p.after q).pressKeys = p.pressKeys.after q := by
  have hdue : due (q.frame + p.frame) ∘ delayed q.frame = due p.frame :=
    funext fun e => due_delayed q.frame p.frame e
  simp only [pressKeys, after, List.takeWhile_map, List.dropWhile_map, hdue, applyKeys_delayed]

theorem record_after (p q : Progress) (s : Console) (fault : Option Fault) (log : Array String) :
    (p.after q).record policy s fault log = (p.record policy s fault log).after q := by
  simp only [record, after, List.append_assoc, Array.append_assoc]
  cases s.soundActive <;> rfl

end Progress

theorem frames_after (p q : Progress) (n : Nat) :
    frames policy (p.after q) n =
      match frames policy p n with
      | .error (e, r) => .error (e, r.after q)
      | .ok r => .ok (r.after q) := by
  induction n generalizing p with
  | zero => rfl
  | succ n ih =>
      simp only [frames, Progress.pressKeys_after]
      rw [show (p.pressKeys.after q).console = p.pressKeys.console from rfl]
      cases p.pressKeys.console.runFrame frameMs with
      | mk s answer log =>
          cases answer with
          | error e => simp only [Progress.after, Array.append_assoc]
          | ok report =>
              simp only [Progress.record_after]
              cases report.fault.isSome && policy == .halt with
              | true => rfl
              | false => exact ih _

/-! ## The loop and its schedule -/

/-- What every frame takes along, the loop takes along, as long as nothing
puts an end to it. -/
theorem frames_invariant {P : Nat → Progress → Prop}
    (hframe : ∀ k p fault log, P k p →
      P (k + 1) (p.pressKeys.record policy (p.pressKeys.console.runFrame frameMs).console fault log))
    (h : P k p) (hp : p.stopped policy = false) (hq : frames policy p n = .ok q)
    (hstop : q.stopped policy = false) : P (k + n) q := by
  induction n generalizing p k with
  | zero =>
      cases hq
      exact h
  | succ n ih =>
      simp only [Run.frames] at hq
      split at hq
      · cases hq
      · rename_i report _
        have hrec := Progress.stopped_record (p := p.pressKeys) hp
          (p.pressKeys.console.runFrame frameMs).console report.fault
          (p.pressKeys.console.runFrame frameMs).log
        split at hq
        · rename_i hfault
          cases hq
          rw [hrec, hfault] at hstop
          cases hstop
        · rename_i hfault
          rw [Bool.not_eq_true] at hfault
          rw [hfault] at hrec
          rw [Nat.add_succ, ← Nat.succ_add]
          exact ih (hframe k p _ _ h) hrec hq

theorem Progress.At.frames (h : p.At events k) (hp : p.stopped policy = false)
    (hq : frames policy p n = .ok q) (hstop : q.stopped policy = false) :
    q.At events (k + n) :=
  frames_invariant (fun _ _ fault log hp => hp.record _ fault log) h hp hq hstop

/-- A run that has come to the end of its frames continues itself with the
events left over. -/
theorem Progress.At.eq_after {a : Nat} (h : q.At events a) (ha : 1 ≤ a) :
    q = (Progress.start q.console (leftOver a events)).after q := by
  obtain ⟨k, rfl⟩ : ∃ k, a = k + 1 := ⟨a - 1, by omega⟩
  have hpending : (fun e : KeyEvent => decide (((k + 1 : Nat) : Rat) - 1 < e.frame)) =
      pending (k + 1) := by
    funext e
    rw [pending, due, ← decide_not, decide_eq_decide]
    push_cast
    rw [add_sub_cancel_right, not_le]
  have hevents : q.events = ((Progress.start q.console (leftOver (k + 1) events)).events).map
      (delayed q.frame) := by
    rw [h.frame, h.events, Progress.start, leftOver, hpending, schedule_earlier, schedule_filter,
      map_delayed_earlier]
    rfl
  obtain ⟨console, frame, events', faults, sound, log⟩ := q
  simp only [Progress.after, Progress.mk.injEq]
  exact ⟨rfl, rfl, hevents, (List.append_nil _).symm, rfl, Array.append_empty.symm⟩

theorem Progress.reason_eq_fault (q : Progress) (policy : FaultPolicy) :
    policy = .halt ∧ (q.summary policy).reason = "fault" ↔ q.stopped policy = true := by
  cases policy with
  | skip => exact ⟨fun h => (by cases h.1), fun h => (by cases h)⟩
  | halt =>
      rw [RunSummary.reason, Progress.summary, Progress.stopped]
      cases q.faults with
      | nil => exact ⟨fun h => absurd h.2 (show "done" ≠ "fault" by decide), fun h => (by cases h)⟩
      | cons f rest => exact ⟨fun _ => rfl, fun _ => ⟨rfl, rfl⟩⟩

theorem summary_after (h : q.stopped policy = false) (p : Progress) :
    (p.after q).summary policy = (q.summary policy).andThen (p.summary policy) := by
  have hstop : (policy == .halt && !(q.faults ++ p.faults).isEmpty) =
      (policy == .halt && !p.faults.isEmpty) := by
    cases policy with
    | skip => rfl
    | halt =>
        cases hf : q.faults with
        | nil => rfl
        | cons f rest => rw [Progress.stopped, hf] at h; cases h
  simp only [Progress.summary, Progress.after, RunSummary.andThen, hstop]

/-! ## A steady source lets a run end -/

theorem record_random (p : Progress) (s : Console) (fault : Option Fault) (log : Array String) :
    (p.record policy s fault log).console.machine.random = s.machine.random := by
  simp only [Progress.record, Console.skip]
  split
  · split <;> rfl
  · rfl

theorem frames_steady (hr : p.console.machine.random.Steady) (policy : FaultPolicy) (n : Nat) :
    ∃ q, frames policy p n = .ok q ∧ q.console.machine.random.Steady := by
  induction n generalizing p with
  | zero => exact ⟨p, rfl, hr⟩
  | succ n ih =>
      have hpress : p.pressKeys.console.machine.random.Steady := by
        obtain ⟨pad, hpad⟩ := applyKeys_eq p.console (p.events.takeWhile (due p.frame))
        rw [Progress.pressKeys, hpad]
        exact hr
      obtain ⟨⟨report, hans⟩, hs⟩ := Console.runFrame_steady hpress Console.frameMs_isFinite
      have hrecord : (p.pressKeys.record policy (p.pressKeys.console.runFrame frameMs).console
          report.fault (p.pressKeys.console.runFrame frameMs).log).console.machine.random.Steady := by
        rw [record_random]
        exact hs
      simp only [frames, hans]
      split
      · exact ⟨_, rfl, hrecord⟩
      · exact ih hrecord

end Run

namespace Console

variable {s : Console} {policy : FaultPolicy} {events : List KeyEvent} {a : Nat}
  {q : Run.Progress}

theorem start_not_stopped (s : Console) (policy : FaultPolicy) (events : List KeyEvent) :
    (Run.Progress.start s events).stopped policy = false := by
  cases policy <;> rfl

/-- The whole run ends with the first part of it. -/
theorem run_add_of_stopped (h : Run.frames policy (Run.Progress.start s events) a = .ok q)
    (hstop : q.stopped policy = true) (b : Nat) :
    s.run (a + b) policy events = s.run a policy events := by
  have hadd := Run.frames_add a b (start_not_stopped s policy events)
  rw [h] at hadd
  simp only [hstop, if_true] at hadd
  rw [run_of_ok hadd, run_of_ok h]

/-- The rest of the whole run is the second run, seen from the first. -/
theorem run_add_of_going (h : Run.frames policy (Run.Progress.start s events) a = .ok q)
    (hstop : q.stopped policy = false) (ha : 1 ≤ a) (b : Nat) :
    let second := q.console.run b policy (Run.leftOver a events)
    s.run (a + b) policy events =
      ⟨second.console, second.answer.map (q.summary policy).andThen, q.log ++ second.log⟩ := by
  have hstart := start_not_stopped s policy events
  have hadd := Run.frames_add a b hstart
  rw [h] at hadd
  simp only [hstop, Bool.false_eq_true, if_false] at hadd
  have hat : q.At events a := by
    have hat := (Run.Progress.at_start s events).frames hstart h hstop
    rwa [Nat.zero_add] at hat
  rw [hat.eq_after ha, Run.frames_after] at hadd
  cases hb : Run.frames policy (Run.Progress.start q.console (Run.leftOver a events)) b with
  | error x =>
      obtain ⟨e, p⟩ := x
      rw [hb] at hadd
      rw [run_of_error hb]
      exact run_of_error hadd
  | ok p =>
      rw [hb] at hadd
      rw [run_of_ok hb, run_of_ok hadd, Run.summary_after hstop]
      rfl

/-- A run of `a + b` frames is a run of `a` frames and then one of `b` frames
with the events left over, unless the first is ended by a fault, or by its
random source.  Then it is the first run. -/
theorem run_add_exactly (s : Console) (policy : FaultPolicy) (a b : Nat) (ha : 1 ≤ a)
    (events : List KeyEvent) :
    let first := s.run a policy events
    let whole := s.run (a + b) policy events
    let second := first.console.run b policy (Run.leftOver a events)
    (s.machine.random.Steady → ∃ r, whole.answer = .ok r) ∧
      (∀ e, first.answer = .error e → whole = first) ∧
      ∀ r, first.answer = .ok r →
        (policy = .halt ∧ r.reason = "fault" → whole = first) ∧
        (¬ (policy = .halt ∧ r.reason = "fault") →
          whole = ⟨second.console, second.answer.map r.andThen, first.log ++ second.log⟩) := by
  intro first whole second
  refine ⟨?_, ?_⟩
  · intro hr
    obtain ⟨q, hq, -⟩ := Run.frames_steady (p := Run.Progress.start s events) hr policy (a + b)
    exact ⟨_, congrArg Call.answer (run_of_ok hq)⟩
  cases hf : Run.frames policy (Run.Progress.start s events) a with
  | error x =>
      obtain ⟨e, q⟩ := x
      have hfirst : first = ⟨q.console, .error e, q.log⟩ := run_of_error hf
      have hadd := Run.frames_add a b (start_not_stopped s policy events)
      rw [hf] at hadd
      refine ⟨fun _ _ => (run_of_error hadd).trans hfirst.symm, ?_⟩
      intro r hr
      rw [hfirst] at hr
      cases hr
  | ok q =>
      have hfirst : first = ⟨q.console, .ok (q.summary policy), q.log⟩ := run_of_ok hf
      have hsecond : second = q.console.run b policy (Run.leftOver a events) := by
        simp only [second, hfirst]
      refine ⟨?_, ?_⟩
      · intro e he
        rw [hfirst] at he
        cases he
      · intro r hr
        rw [hfirst] at hr
        cases hr
        rw [q.reason_eq_fault policy]
        refine ⟨fun hstop => run_add_of_stopped hf hstop b, ?_⟩
        intro hstop
        rw [hsecond, hfirst]
        exact run_add_of_going hf (Bool.eq_false_iff.2 hstop) ha b

end Console
end Chip8
