/-
# `Chip8.Proofs.Schedule` — which key events take effect when

A run sorts its key events once and then takes them from the front, as long as
they are due.  Where it stands in the list depends on the frame alone
(`remaining`), and what a frame takes off can be read off the whole schedule:

    before frame 0        the schedule
    frame n takes         the events with  n - 1 < e.frame ≤ n
                          (frame 0: all with  e.frame ≤ 0)
    after it              the events with  n < e.frame

The schedule is a stable sort, `List.insertionSort` by name, and so it commutes
with what keeps the order of frames: leaving events out (`schedule_filter`) and
moving all frames by the same amount (`schedule_earlier`).
-/
import Chip8.Run
import Mathlib.Algebra.Order.Ring.Rat
import Mathlib.Data.List.Sort
import Mathlib.Tactic.Linarith

namespace Chip8

/-- The keypad after events, one after another. -/
def Keypad.press (pad : Keypad) (events : List KeyEvent) : Keypad :=
  events.foldl (fun pad e => pad.set e.key e.down) pad

namespace Run

/-- The first event is not later than the second. -/
def NotAfter (e f : KeyEvent) : Prop := e.frame ≤ f.frame

instance : DecidableRel NotAfter := fun e f => inferInstanceAs (Decidable (e.frame ≤ f.frame))

instance : IsTrans KeyEvent NotAfter := ⟨fun _ _ _ h h' => Rat.le_trans h h'⟩

instance : Std.Total NotAfter := ⟨fun e f => Rat.le_total (a := e.frame) (b := f.frame)⟩

variable {e f : KeyEvent} {l events : List KeyEvent} {n : Nat} {p : Progress}
  {policy : FaultPolicy}

/-! ## The schedule is a stable sort -/

theorem insertEvent_eq (e : KeyEvent) (l : List KeyEvent) :
    insertEvent e l = l.orderedInsert NotAfter e := by
  induction l with
  | nil => rfl
  | cons f rest ih =>
      rw [insertEvent, List.orderedInsert_cons, ih]
      rfl

theorem schedule_eq (events : List KeyEvent) : schedule events = events.insertionSort NotAfter := by
  induction events with
  | nil => rfl
  | cons e rest ih =>
      rw [List.insertionSort_cons, ← ih, ← insertEvent_eq]
      rfl

theorem schedule_sorted (events : List KeyEvent) : (schedule events).Pairwise NotAfter := by
  rw [schedule_eq]
  exact List.pairwise_insertionSort NotAfter events

/-- An event that is not after any other stays in front. -/
theorem orderedInsert_of_forall (h : ∀ f ∈ l, NotAfter e f) :
    l.orderedInsert NotAfter e = e :: l := by
  cases l with
  | nil => rfl
  | cons f rest => exact List.orderedInsert_cons_of_le NotAfter rest (h f List.mem_cons_self)

/-- Leaving events out and putting one in does not depend on the order. -/
theorem filter_orderedInsert (p : KeyEvent → Bool) (hl : l.Pairwise NotAfter) :
    (l.orderedInsert NotAfter e).filter p =
      if p e then (l.filter p).orderedInsert NotAfter e else l.filter p := by
  induction l with
  | nil => rw [List.orderedInsert_nil, List.filter_cons, List.filter_nil, List.orderedInsert_nil]
  | cons f rest ih =>
      obtain ⟨hf, hrest⟩ := List.pairwise_cons.1 hl
      by_cases hef : NotAfter e f
      · -- then `e` is not after any event that is kept either
        have hall : ∀ g ∈ (f :: rest).filter p, NotAfter e g := by
          intro g hg
          rcases List.mem_cons.1 (List.mem_of_mem_filter hg) with rfl | hg
          · exact hef
          · exact Rat.le_trans hef (hf g hg)
        rw [List.orderedInsert_cons_of_le NotAfter rest hef, orderedInsert_of_forall hall,
          List.filter_cons]
      · rw [List.orderedInsert_of_not_le NotAfter rest hef, List.filter_cons, ih hrest,
          List.filter_cons]
        cases p f with
        | false => rfl
        | true =>
            cases p e with
            | false => rfl
            | true =>
                simp only [if_true]
                rw [List.orderedInsert_of_not_le NotAfter _ hef]

theorem schedule_filter (p : KeyEvent → Bool) (events : List KeyEvent) :
    schedule (events.filter p) = (schedule events).filter p := by
  induction events with
  | nil => rfl
  | cons e rest ih =>
      have hcons : schedule (e :: rest) = (schedule rest).orderedInsert NotAfter e :=
        insertEvent_eq e _
      rw [hcons, filter_orderedInsert p (schedule_sorted rest), ← ih, List.filter_cons]
      cases p e with
      | false => rfl
      | true => exact insertEvent_eq e _

/-! ## Moving frames -/

/-- The event, so many frames later. -/
def delayed (a : Nat) (e : KeyEvent) : KeyEvent := { e with frame := e.frame + a }

/-- The event, exactly so many frames earlier. -/
def earlier (a : Nat) (e : KeyEvent) : KeyEvent := { e with frame := e.frame - a }

@[simp] theorem delayed_earlier (a : Nat) (e : KeyEvent) : delayed a (earlier a e) = e := by
  simp only [delayed, earlier, sub_add_cancel]

theorem map_delayed_earlier (a : Nat) (events : List KeyEvent) :
    (events.map (earlier a)).map (delayed a) = events := by
  rw [List.map_map]
  exact (List.map_congr_left fun e _ => delayed_earlier a e).trans events.map_id

theorem schedule_earlier (a : Nat) (events : List KeyEvent) :
    schedule (events.map (earlier a)) = (schedule events).map (earlier a) := by
  rw [schedule_eq, schedule_eq]
  refine (List.map_insertionSort NotAfter NotAfter (earlier a) events ?_).symm
  intro e _ f _
  exact (sub_le_sub_iff_right (a : Rat)).symm

theorem due_delayed (a n : Nat) (e : KeyEvent) : due (a + n) (delayed a e) = due n e := by
  have hiff : e.frame + (a : Rat) ≤ ((a + n : Nat) : Rat) ↔ e.frame ≤ (n : Rat) := by
    push_cast
    rw [add_comm (a : Rat)]
    exact add_le_add_iff_right (a : Rat)
  exact decide_eq_decide.2 hiff

/-! ## Taking events from the front -/

theorem takeWhile_due (hl : l.Pairwise NotAfter) (n : Nat) :
    l.takeWhile (due n) = l.filter (due n) ∧ l.dropWhile (due n) = l.filter (!due n ·) := by
  induction l with
  | nil => exact ⟨rfl, rfl⟩
  | cons e rest ih =>
      obtain ⟨he, hrest⟩ := List.pairwise_cons.1 hl
      obtain ⟨htake, hdrop⟩ := ih hrest
      cases hd : due n e with
      | true =>
          rw [List.takeWhile_cons_of_pos hd, List.dropWhile_cons_of_pos hd,
            List.filter_cons_of_pos hd, List.filter_cons_of_neg (by rw [hd]; decide), htake, hdrop]
          exact ⟨rfl, rfl⟩
      | false =>
          -- the first that is not due puts an end to it, for no later one is due
          have hnone : ∀ f ∈ e :: rest, due n f = false := by
            intro f hf
            rcases List.mem_cons.1 hf with rfl | hf
            · exact hd
            · have hnot : ¬ e.frame ≤ (n : Rat) := of_decide_eq_false hd
              exact decide_eq_false fun h => hnot (Rat.le_trans (he f hf) h)
          have hneg : ¬ due n e = true := by rw [hd]; decide
          rw [List.takeWhile_cons_of_neg hneg, List.dropWhile_cons_of_neg hneg]
          refine ⟨(List.filter_eq_nil_iff.2 ?_).symm, (List.filter_eq_self.2 ?_).symm⟩
          · intro f hf
            rw [hnone f hf]
            decide
          · intro f hf
            rw [hnone f hf]
            rfl

/-- The event has not taken effect before a frame. -/
def pending : Nat → KeyEvent → Bool
  | 0, _ => true
  | n + 1, e => !due n e

/-- The events that are still to come before a frame. -/
def remaining (events : List KeyEvent) (n : Nat) : List KeyEvent :=
  (schedule events).filter (pending n)

/-- The events that take effect in a frame. -/
def arriving (events : List KeyEvent) (n : Nat) : List KeyEvent :=
  (remaining events n).filter (due n)

@[simp] theorem remaining_zero (events : List KeyEvent) : remaining events 0 = schedule events :=
  List.filter_eq_self.2 fun _ _ => rfl

theorem remaining_sorted (events : List KeyEvent) (n : Nat) :
    (remaining events n).Pairwise NotAfter :=
  (schedule_sorted events).filter _

theorem pending_of_succ (n : Nat) (e : KeyEvent) (h : pending (n + 1) e = true) :
    pending n e = true := by
  cases n with
  | zero => rfl
  | succ n =>
      have hn : ¬ e.frame ≤ ((n + 1 : Nat) : Rat) := by
        intro hle
        rw [pending, due, decide_eq_true hle] at h
        cases h
      have hlt : (n : Rat) ≤ ((n + 1 : Nat) : Rat) := by push_cast; linarith
      have hd : due n e = false := decide_eq_false fun hle => hn (Rat.le_trans hle hlt)
      rw [pending, hd]
      rfl

theorem takeWhile_remaining (events : List KeyEvent) (n : Nat) :
    (remaining events n).takeWhile (due n) = arriving events n :=
  (takeWhile_due (remaining_sorted events n) n).1

theorem dropWhile_remaining (events : List KeyEvent) (n : Nat) :
    (remaining events n).dropWhile (due n) = remaining events (n + 1) := by
  rw [(takeWhile_due (remaining_sorted events n) n).2, remaining, remaining, List.filter_filter]
  refine List.filter_congr fun e _ => ?_
  show (!due n e && pending n e) = pending (n + 1) e
  cases h : pending (n + 1) e with
  | false =>
      rw [show (!due n e) = false from h]
      rfl
  | true =>
      rw [show (!due n e) = true from h, pending_of_succ n e h]
      rfl

/-! ## The loop and its schedule -/

/-- The run stands before a frame, with the events still to come. -/
structure Progress.At (events : List KeyEvent) (n : Nat) (p : Progress) : Prop where
  frame : p.frame = n
  events : p.events = remaining events n

theorem Progress.at_start (s : Console) (events : List KeyEvent) :
    (Progress.start s events).At events 0 :=
  ⟨rfl, (remaining_zero events).symm⟩

theorem Progress.At.pressKeys (h : p.At events n) :
    p.pressKeys.console = applyKeys p.console (arriving events n) ∧
      p.pressKeys.events = remaining events (n + 1) := by
  simp only [Progress.pressKeys, h.frame, h.events, takeWhile_remaining, dropWhile_remaining,
    and_self]

theorem Progress.At.record (h : p.At events n) (s : Console) (fault : Option Fault)
    (log : Array String) : (p.pressKeys.record policy s fault log).At events (n + 1) :=
  ⟨congrArg (· + 1) h.frame, h.pressKeys.2⟩

theorem applyKeys_eq_press (s : Console) (l : List KeyEvent) :
    applyKeys s l = { s with machine := { s.machine with keypad := s.machine.keypad.press l } } := by
  induction l generalizing s with
  | nil => rfl
  | cons e rest ih => exact ih (s.setKey e.key e.down)

/-- Events are an affair of the keypad. -/
theorem applyKeys_eq (s : Console) (l : List KeyEvent) :
    ∃ pad, applyKeys s l = { s with machine := { s.machine with keypad := pad } } :=
  ⟨_, applyKeys_eq_press s l⟩

end Run

namespace Console

theorem frameMs_isFinite : frameMs.isFinite = true := by decide +kernel

variable {s : Console} {policy : FaultPolicy} {events : List KeyEvent} {n : Nat}
  {p : Run.Progress}

/-- The call of a run whose loop has come to some end. -/
theorem run_of_ok (h : Run.frames policy (Run.Progress.start s events) n = .ok p) :
    s.run n policy events = ⟨p.console, .ok (p.summary policy), p.log⟩ := by
  rw [run, h]

theorem run_of_error {e : Failure}
    (h : Run.frames policy (Run.Progress.start s events) n = .error (e, p)) :
    s.run n policy events = ⟨p.console, .error e, p.log⟩ := by
  rw [run, h]

end Console
end Chip8
