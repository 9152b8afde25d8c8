/-
# `Chip8.Proofs.Account` — the summary of a run accounts for its frames

Seen from outside a run is a sequence of frames: `before k` is the console
before frame `k`, and `callAt k` is the frame itself, with the keys pressed
that arrive in it.

    before 0        the console as it was given
    callAt k        the keys of frame k, and one frame
    before (k + 1)  what the frame left; past its fault, under `skip`

The summary can be computed from that sequence alone (`Account`).  The loop of
the run keeps its counts along the way, and the induction along it shows that
they are those of the frames so far (`Progress.Follows`).

What is known about the frames comes from an invariant of the consoles between
them (`Underway`).  Besides the bounds of the processor it says that nobody
waits for a key in vain, so that a skip changes the program counter and nothing
else, and that the timers count.  A frame of a run lasts a sixtieth of a
second, which is far from the time that makes timers lose count.
-/
import Chip8.Proofs.Bounds
import Chip8.Proofs.FaultFrame
import Chip8.Proofs.LostCount
import Chip8.Proofs.PowerOn
import Chip8.Proofs.Schedule

namespace Chip8

namespace Run

/-! ## The frames of a run -/

/-- The fault that a frame reports. -/
def reported (c : Call Frame) : Option Fault :=
  match c.answer with
  | .ok r => r.fault
  | .error _ => none

/-- The instructions that a frame reports. -/
def completed (c : Call Frame) : Nat :=
  match c.answer with
  | .ok r => r.executed
  | .error _ => 0

/-- The console after a frame, ready for the next one. -/
def moveOn (policy : FaultPolicy) (c : Call Frame) : Console :=
  if (reported c).isSome && policy == .skip then c.console.skip else c.console

/-- The console before a frame. -/
def before (s : Console) (policy : FaultPolicy) (events : List KeyEvent) : Nat → Console
  | 0 => s
  | k + 1 =>
      moveOn policy ((applyKeys (before s policy events k) (arriving events k)).runFrame frameMs)

/-- The frame with a number. -/
def callAt (s : Console) (policy : FaultPolicy) (events : List KeyEvent) (k : Nat) : Call Frame :=
  (applyKeys (before s policy events k) (arriving events k)).runFrame frameMs

/-- What holds of the consoles of a run that has had `k` frames. -/
structure Underway (k : Nat) (s : Console) : Prop where
  bounded : ∃ j ≤ k, s.Bounded j
  parked : s.machine.Parked
  counting : s.machine.timers.Counting
  bytes : s.machine.timers.Bytes

variable {s t : Console} {k : Nat}

theorem Underway.steady (h : Underway k s) : s.machine.random.Steady := by
  obtain ⟨j, -, hb⟩ := h.bounded
  exact hb.random

theorem Underway.mono (h : Underway k s) : Underway (k + 1) s := by
  obtain ⟨j, hj, hb⟩ := h.bounded
  exact ⟨⟨j, Nat.le_succ_of_le hj, hb⟩, h.parked, h.counting, h.bytes⟩

theorem Underway.applyKeys (h : Underway k s) (l : List KeyEvent) :
    Underway k (Run.applyKeys s l) := by
  obtain ⟨j, hj, hb⟩ := h.bounded
  obtain ⟨pad, hpad⟩ := applyKeys_eq s l
  rw [hpad]
  exact ⟨⟨j, hj, hb.congr rfl rfl⟩, h.parked.congr rfl rfl, h.counting, h.bytes⟩

theorem frameMs_not_overflows : ¬ Overflows frameMs := by
  unfold Overflows
  decide +kernel

/-- A frame keeps the invariant, for it is short. -/
theorem Underway.runFrame (h : Underway k s) : Underway k (s.runFrame frameMs).console := by
  obtain ⟨j, hj, hb⟩ := h.bounded
  have htimers : (s.runFrame frameMs).console.machine.timers.Counting ∧
      (s.runFrame frameMs).console.machine.timers.Bytes := by
    rcases Console.runFrame_timers h.steady frameMs with ⟨hl, t, hw, ht⟩ | ⟨-, hw⟩
    · have hc := hw.counting h.counting
      rw [ht]
      exact ⟨hc.advance hl.2.1 hl.2.2 frameMs_not_overflows,
        Console.advance_bytes hc (hw.bytes h.bytes) hl⟩
    · exact ⟨hw.counting h.counting, hw.bytes h.bytes⟩
  exact ⟨⟨j, hj, hb.runFrame frameMs⟩, Console.runFrame_parked h.parked frameMs,
    htimers.1, htimers.2⟩

theorem Underway.skip (h : Underway k s) : Underway (k + 1) s.skip := by
  obtain ⟨j, hj, hb⟩ := h.bounded
  rw [Console.skip]
  split
  · exact ⟨⟨j + 1, Nat.succ_le_succ hj, hb.skip⟩, Machine.parked_of_not_waiting rfl, h.counting,
      h.bytes⟩
  · exact h.mono

/-! ## The frames of a run, one after another -/

section Frames

variable (policy : FaultPolicy) (events : List KeyEvent) (hs : Underway 0 s)
include hs

theorem underway_before (k : Nat) : Underway k (before s policy events k) := by
  induction k with
  | zero => exact hs
  | succ k ih =>
      have hframe := (ih.applyKeys (arriving events k)).runFrame
      rw [before, moveOn]
      split
      · exact hframe.skip
      · exact hframe.mono

theorem callAt_answer (k : Nat) : ∃ report, (callAt s policy events k).answer = .ok report :=
  (Console.runFrame_steady ((underway_before policy events hs k).applyKeys _).steady
    Console.frameMs_isFinite).1

end Frames

/-! ## Under `skip` -/

/-- The loop stands before frame `k`, and has counted the frames so far. -/
structure Progress.Follows (s : Console) (policy : FaultPolicy) (events : List KeyEvent) (k : Nat)
    (p : Progress) : Prop where
  console : p.console = before s policy events k
  schedule : p.At events k
  faults : p.faults = (List.range k).filterMap fun i => reported (callAt s policy events i)
  soundFrames : p.soundFrames =
    (List.range k).countP fun i => (callAt s policy events i).console.soundActive

variable {policy : FaultPolicy} {events : List KeyEvent} {p : Progress} {n : Nat}

/-- The run ends with a frame. -/
def stops (s : Console) (policy : FaultPolicy) (events : List KeyEvent) (k : Nat) : Bool :=
  (reported (callAt s policy events k)).isSome && policy == .halt

/-- One more frame. -/
theorem Progress.Follows.frame (h : p.Follows s policy events k) (hs : Underway 0 s) :
    ∃ q : Progress, q.Follows s policy events (k + 1) ∧ ∀ n,
      frames policy p (n + 1) = if stops s policy events k then .ok q else frames policy q n := by
  obtain ⟨report, hans⟩ := callAt_answer policy events hs k
  have hcall : p.pressKeys.console.runFrame frameMs = callAt s policy events k := by
    rw [h.schedule.pressKeys.1, h.console, callAt]
  have hreport : reported (callAt s policy events k) = report.fault := by rw [reported, hans]
  refine ⟨p.pressKeys.record policy (callAt s policy events k).console report.fault
    (callAt s policy events k).log, ⟨?_, ?_, ?_, ?_⟩, ?_⟩
  · show _ = moveOn policy (callAt s policy events k)
    rw [moveOn, hreport]
    rfl
  · exact h.schedule.record _ _ _
  · rw [List.range_succ, List.filterMap_append, ← h.faults, List.filterMap_cons, hreport]
    cases report.fault <;> rfl
  · rw [List.range_succ, List.countP_append, ← h.soundFrames, List.countP_cons, List.countP_nil]
    simp only [Progress.record]
    cases (callAt s policy events k).console.soundActive <;> rfl
  · intro n
    rw [frames, stops, hreport]
    simp only [hcall, hans]

/-- Of `n` frames from frame `k` on a run has `m`: all of them, or those up to
the first that stops it. -/
def Ends (s : Console) (policy : FaultPolicy) (events : List KeyEvent) (k n m : Nat) : Prop :=
  (m = n ∧ ∀ i < n, stops s policy events (k + i) = false) ∨
    ∃ j < n, m = j + 1 ∧ stops s policy events (k + j) = true ∧
      ∀ i < j, stops s policy events (k + i) = false

theorem Progress.Follows.frames (h : p.Follows s policy events k) (hs : Underway 0 s) (n : Nat) :
    ∃ q m, Run.frames policy p n = .ok q ∧ q.Follows s policy events (k + m) ∧
      Ends s policy events k n m := by
  induction n generalizing p k with
  | zero => exact ⟨p, 0, rfl, h, .inl ⟨rfl, nofun⟩⟩
  | succ n ih =>
      obtain ⟨q, hq, hframe⟩ := h.frame hs
      rw [hframe n]
      cases hstop : stops s policy events k with
      | true => exact ⟨q, 1, rfl, hq, .inr ⟨0, Nat.succ_pos n, rfl, hstop, nofun⟩⟩
      | false =>
          -- the frames after this one are those of the induction, counted from `k + 1`
          have hshift : ∀ j, (∀ i < j, stops s policy events (k + 1 + i) = false) →
              ∀ i < j + 1, stops s policy events (k + i) = false := by
            intro j hj i hi
            cases i with
            | zero => exact hstop
            | succ i =>
                have hi' := hj i (Nat.lt_of_succ_lt_succ hi)
                rwa [Nat.add_right_comm] at hi'
          obtain ⟨q', m, hrun, hq', hend⟩ := ih hq
          refine ⟨q', m + 1, hrun, by rwa [Nat.add_right_comm] at hq', ?_⟩
          rcases hend with ⟨rfl, hgo⟩ | ⟨j, hj, rfl, hj', hgo⟩
          · exact .inl ⟨rfl, hshift m hgo⟩
          · rw [Nat.add_right_comm] at hj'
            exact .inr ⟨j + 1, Nat.succ_lt_succ hj, rfl, hj', hshift j hgo⟩

end Run

open Run

variable {s : Console} {policy : FaultPolicy} {events : List KeyEvent} {n : Nat}

namespace Console

end Console
end Chip8
