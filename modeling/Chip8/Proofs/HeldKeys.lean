/-
# `Chip8.Proofs.HeldKeys` — scheduled keys are what the program sees

A schedule is a list of events in any order.  What it means is said without
sorting it.  In frame `f` only the events with `e.frame ≤ f` count, and about
one key only those of its number:

    key k in frame f      the last event about k that counts, by frame and
                          then by place in the list, says down or up
                          no such event: the key is as it was before the run

This is what the program finds on the keypad, at every instruction of the
frame.  Three facts lead there.

* Of many events that are applied in a row the last one about a key decides
  (`isDown_press`).
* The last event of the sorted list is the last by frame and place
  (`latest_of_getLast?`).
* When frame `f` begins, exactly the events up to `f` have been applied
  (`Pressed.pressKeys`), and nothing but events touches the keypad.

So a run depends on the events about each key in the order of their frames,
and on no other order.  Lists that agree frame by frame and key by key give
the same run (`run_regrouped`).
-/
import Chip8.Proofs.KeySet
import Chip8.Proofs.SplitRun

namespace Chip8

/-! ## Many events in a row -/

namespace Keypad

theorem press_append (pad : Keypad) (l l' : List KeyEvent) :
    pad.press (l ++ l') = (pad.press l).press l' := List.foldl_append

/-- The event is about the key with a number. -/
def about (k : Nat) (e : KeyEvent) : Bool := number e.key == k

theorem about_eq (k : Nat) (e : KeyEvent) : about k e = decide (e.key % 16 = (k : Int)) := by
  rw [about, number, Bool.eq_iff_iff, decide_eq_true_iff, beq_iff_eq]
  omega

/-- The call that an event makes. -/
def callOf (e : KeyEvent) : KeyCall := ⟨e.key, e.down⟩

theorem press_eq_setAll (pad : Keypad) (l : List KeyEvent) :
    pad.press l = pad.setAll (l.map callOf) := by
  rw [setAll, List.foldl_map]
  rfl

/-- The last event about a key decides. -/
theorem isDown_press (pad : Keypad) (l : List KeyEvent) (q : Int) :
    (pad.press l).isDown q =
      match (l.filter (about (number q))).getLast? with
      | some e => e.down
      | none => pad.isDown q := by
  have hfilter : (l.map callOf).filter (KeyCall.about (number q)) =
      (l.filter (about (number q))).map callOf := List.filter_map
  rw [press_eq_setAll, isDown_setAll, hfilter, List.getLast?_map]
  cases (l.filter (about (number q))).getLast? <;> rfl

/-- A keypad is known by its keys. -/
theorem eq_of_isDown {pad pad' : Keypad} (h : ∀ q, pad.isDown q = pad'.isDown q) : pad = pad' := by
  obtain ⟨mask⟩ := pad
  obtain ⟨mask'⟩ := pad'
  refine congrArg mk (BitVec.eq_of_getLsbD_eq fun k hk => ?_)
  have hq := h k
  rwa [isDown_natCast _ hk, isDown_natCast _ hk] at hq

/-- Only the order of the events about one key matters. -/
theorem press_congr {l l' : List KeyEvent} (h : ∀ k, l.filter (about k) = l'.filter (about k))
    (pad : Keypad) : pad.press l = pad.press l' :=
  eq_of_isDown fun q => by rw [isDown_press, isDown_press, h]

end Keypad

namespace Run

open Keypad (about about_eq)

/-! ## The last event by frame and place -/

/-- Of the events that satisfy `p`, the one at place `i` is the last by frame
and place. -/
structure Latest (p : KeyEvent → Bool) (events : List KeyEvent) (i : Nat) (e : KeyEvent) :
    Prop where
  place : events[i]? = some e
  counts : p e = true
  last : ∀ j g, events[j]? = some g → p g = true →
    g.frame < e.frame ∨ (g.frame = e.frame ∧ j ≤ i)

variable {p : KeyEvent → Bool} {e g : KeyEvent} {events events' l l' rest : List KeyEvent}

theorem Latest.unique {i j : Nat} (h : Latest p events i e) (h' : Latest p events j g) : e = g := by
  have hle : j ≤ i := by
    rcases h.last j g h'.place h'.counts with hlt | ⟨-, hle⟩
    · rcases h'.last i e h.place h.counts with hlt' | ⟨heq, -⟩
      · exact absurd hlt (not_lt.2 (le_of_lt hlt'))
      · exact absurd heq (ne_of_gt hlt)
    · exact hle
  have hle' : i ≤ j := by
    rcases h'.last i e h.place h.counts with hlt | ⟨-, hle⟩
    · rcases h.last j g h'.place h'.counts with hlt' | ⟨heq, -⟩
      · exact absurd hlt (not_lt.2 (le_of_lt hlt'))
      · exact absurd heq (ne_of_gt hlt)
    · exact hle
  have hplace := h.place
  rw [Nat.le_antisymm hle' hle, h'.place] at hplace
  exact (Option.some.inj hplace).symm

/-- An event in front that does not count. -/
theorem Latest.cons_of_not {i : Nat} (h : Latest p rest i g) (he : p e = false) :
    Latest p (e :: rest) (i + 1) g := by
  refine ⟨h.place, h.counts, fun j d hd hp => ?_⟩
  cases j with
  | zero =>
      cases hd
      rw [he] at hp
      cases hp
  | succ j => exact (h.last j d hd hp).imp_right fun h => ⟨h.1, Nat.succ_le_succ h.2⟩

/-- An event in front that is not later gives way to the last one. -/
theorem Latest.cons_of_le {i : Nat} (h : Latest p rest i g) (he : e.frame ≤ g.frame) :
    Latest p (e :: rest) (i + 1) g := by
  refine ⟨h.place, h.counts, fun j d hd hp => ?_⟩
  cases j with
  | zero =>
      cases hd
      exact (lt_or_eq_of_le he).imp_right fun h => ⟨h, Nat.zero_le _⟩
  | succ j => exact (h.last j d hd hp).imp_right fun h => ⟨h.1, Nat.succ_le_succ h.2⟩

/-- An event in front that is later than all others is the last one. -/
theorem latest_cons (hp : p e = true) (h : ∀ d ∈ rest, p d = true → d.frame < e.frame) :
    Latest p (e :: rest) 0 e := by
  refine ⟨rfl, hp, fun j d hd hpd => ?_⟩
  cases j with
  | zero =>
      cases hd
      exact .inr ⟨rfl, Nat.le_refl 0⟩
  | succ j => exact .inl (h d (List.mem_of_getElem? hd) hpd)

theorem frame_le_getLast (hl : l.Pairwise NotAfter) (hg : l.getLast? = some g) :
    ∀ e ∈ l, e.frame ≤ g.frame := by
  obtain ⟨init, rfl⟩ := List.getLast?_eq_some_iff.1 hg
  intro e he
  rcases List.mem_append.1 he with he | he
  · exact (List.pairwise_append.1 hl).2.2 e he g List.mem_cons_self
  · rw [List.mem_singleton.1 he]

/-- The last event after one more has been put in. -/
theorem getLast?_orderedInsert (hl : l.Pairwise NotAfter) :
    (l.orderedInsert NotAfter e).getLast? =
      match l.getLast? with
      | none => some e
      | some g => if e.frame ≤ g.frame then some g else some e := by
  induction l with
  | nil => rfl
  | cons f rest ih =>
      obtain ⟨hf, hrest⟩ := List.pairwise_cons.1 hl
      by_cases hef : NotAfter e f
      · rw [List.orderedInsert_cons_of_le NotAfter rest hef, List.getLast?_cons_cons]
        cases hg : (f :: rest).getLast? with
        | none => cases List.getLast?_eq_none_iff.1 hg
        | some g =>
            have hle := frame_le_getLast hl hg f List.mem_cons_self
            exact (if_pos (Rat.le_trans hef hle)).symm
      · rw [List.orderedInsert_of_not_le NotAfter rest hef, List.getLast?_cons, ih hrest,
          List.getLast?_cons]
        cases rest.getLast? with
        | none => exact (if_neg hef).symm
        | some g =>
            show some (Option.getD (if e.frame ≤ g.frame then some g else some e) f) =
              if e.frame ≤ g.frame then some g else some e
            split <;> rfl

/-- The last event of the schedule is the last by frame and place. -/
theorem latest_of_getLast? (h : ((schedule events).filter p).getLast? = some e) :
    ∃ i, Latest p events i e := by
  induction events generalizing e with
  | nil => cases h
  | cons d rest ih =>
      have hsorted := (schedule_sorted rest).filter p
      rw [show schedule (d :: rest) = (schedule rest).orderedInsert NotAfter d from
        insertEvent_eq d _, filter_orderedInsert p (schedule_sorted rest)] at h
      cases hd : p d with
      | false =>
          rw [hd] at h
          obtain ⟨i, hi⟩ := ih h
          exact ⟨i + 1, hi.cons_of_not hd⟩
      | true =>
          rw [if_pos hd, getLast?_orderedInsert hsorted] at h
          -- the last of the others, if there is one, is not earlier than any of them
          cases hg : ((schedule rest).filter p).getLast? with
          | none =>
              rw [hg] at h
              cases h
              refine ⟨0, latest_cons hd fun c hc hp => ?_⟩
              have hmem : c ∈ (schedule rest).filter p :=
                List.mem_filter.2 ⟨(schedule_perm rest).mem_iff.2 hc, hp⟩
              rw [List.getLast?_eq_none_iff.1 hg] at hmem
              cases hmem
          | some g =>
              rw [hg] at h
              by_cases hle : d.frame ≤ g.frame
              · have hge : g = e := Option.some.inj ((if_pos hle).symm.trans h)
                obtain ⟨i, hi⟩ := ih (hge ▸ hg)
                exact ⟨i + 1, hi.cons_of_le (hge ▸ hle)⟩
              · have hde : d = e := Option.some.inj ((if_neg hle).symm.trans h)
                subst hde
                refine ⟨0, latest_cons hd fun c hc hp => ?_⟩
                have hmem : c ∈ (schedule rest).filter p :=
                  List.mem_filter.2 ⟨(schedule_perm rest).mem_iff.2 hc, hp⟩
                exact lt_of_le_of_lt (frame_le_getLast hsorted hg c hmem) (not_le.1 hle)

/-! ## What the schedule says about a key -/

/-- The event is about key `k`, and takes effect by frame `f`. -/
def concerns (f k : Nat) (e : KeyEvent) : Bool :=
  decide (e.frame ≤ (f : Rat)) && decide (e.key % 16 = k)

/-- Key `k` is held in frame `f`: its last event says so, or it has none and
was held to begin with. -/
def Held (pad : Keypad) (events : List KeyEvent) (f k : Nat) : Prop :=
  (∃ i e, Latest (concerns f k) events i e ∧ e.down = true) ∨
    ((∀ e ∈ events, concerns f k e = false) ∧ pad.mask.getLsbD k = true)

theorem concerns_eq {f k : Nat} (e : KeyEvent) : concerns f k e = (due f e && about k e) := by
  rw [concerns, about_eq, due]

/-- The keypad after all events up to a frame. -/
theorem getLsbD_press_due (pad : Keypad) (events : List KeyEvent) (f : Nat) {k : Nat}
    (hk : k < 16) :
    (pad.press ((schedule events).filter (due f))).mask.getLsbD k = true ↔
      Held pad events f k := by
  have hfilter : ((schedule events).filter (due f)).filter (about k) =
      (schedule events).filter (concerns f k) := by
    rw [List.filter_filter]
    exact List.filter_congr fun e _ => by rw [concerns_eq, Bool.and_comm]
  rw [← Keypad.isDown_natCast _ hk, Keypad.isDown_press, Keypad.number_natCast hk, hfilter,
    Keypad.isDown_natCast _ hk]
  cases hlast : ((schedule events).filter (concerns f k)).getLast? with
  | none =>
      have hnone : ∀ e ∈ events, concerns f k e = false := by
        intro e he
        have hempty := List.filter_eq_nil_iff.1 (List.getLast?_eq_none_iff.1 hlast)
        exact Bool.eq_false_iff.2 (hempty e ((schedule_perm events).mem_iff.2 he))
      refine ⟨fun h => .inr ⟨hnone, h⟩, ?_⟩
      rintro (⟨i, e, he, -⟩ | ⟨-, h⟩)
      · have hc := he.counts
        rw [hnone e (List.mem_of_getElem? he.place)] at hc
        cases hc
      · exact h
  | some e =>
      obtain ⟨i, hi⟩ := latest_of_getLast? hlast
      refine ⟨fun h => .inl ⟨i, e, hi, h⟩, ?_⟩
      rintro (⟨j, g, hg, hdown⟩ | ⟨hnone, -⟩)
      · rw [hi.unique hg]
        exact hdown
      · have hc := hi.counts
        rw [hnone e (List.mem_of_getElem? hi.place)] at hc
        cases hc

end Run

/-! ## Nothing but events touches the keypad -/

namespace Console

variable {s : Console}

theorem attempt_keypad (s : Console) : s.attempt.console.machine.keypad = s.machine.keypad := by
  rcases s.attempt_cases with ⟨f, -, ha⟩ | ⟨w, ins, m', -, -, hx, ha⟩ | ⟨-, -, ha⟩
  · rw [ha]; rfl
  · obtain ⟨memory, pixels, dirty, hm, -⟩ := Machine.execute_devices hx
    rw [ha]
    show m'.keypad = _
    rw [hm]
    rfl
  · rw [ha]; rfl

theorem stepInstruction_keypad (s : Console) :
    s.stepInstruction.console.machine.keypad = s.machine.keypad := by
  unfold stepInstruction
  split
  · rfl
  · exact s.attempt_keypad

theorem steps_keypad (s : Console) (n : Nat) : (s.steps n).machine.keypad = s.machine.keypad := by
  induction n with
  | zero => rfl
  | succ n ih => rw [steps_succ', stepInstruction_keypad, ih]

theorem runFrame_keypad (s : Console) (ms : Float) :
    (s.runFrame ms).console.machine.keypad = s.machine.keypad := by
  have hb : s.frameBurst.console.machine.keypad = s.machine.keypad :=
    frameBurst_invariant (P := fun t => t.machine.keypad = s.machine.keypad)
      (fun t _ h => t.attempt_keypad.trans h) rfl
  rcases s.runFrame_cases ms with ⟨-, hc⟩ | ⟨e, -, hc⟩ | ⟨-, executed, fault, -, hc, -⟩
  · rw [hc]
  · rw [hc]; exact hb
  · rw [hc, closeFrame_eq]; exact hb

theorem skip_keypad (s : Console) : s.skip.machine.keypad = s.machine.keypad := by
  unfold skip
  split <;> rfl

/-- Somewhere in the frame that begins with `start`: after some of its
instructions, or at its end. -/
def Within (start c : Console) : Prop :=
  (∃ j, c = start.steps j) ∨ c = (start.runFrame frameMs).console

theorem Within.keypad {start c : Console} (h : start.Within c) :
    c.machine.keypad = start.machine.keypad := by
  rcases h with ⟨j, rfl⟩ | rfl
  · exact start.steps_keypad j
  · exact start.runFrame_keypad frameMs

end Console

namespace Run

open Keypad (about about_eq)

variable {policy : FaultPolicy} {events events' l l' : List KeyEvent} {p q : Progress}
  {s : Console} {k n : Nat}

/-! ## The keypad along the loop -/

/-- The events that have taken effect before a frame. -/
def taken (events : List KeyEvent) (n : Nat) : List KeyEvent :=
  (schedule events).filter fun e => !pending n e

/-- A sorted list is what is due and then what is not. -/
theorem taken_append_remaining (events : List KeyEvent) (n : Nat) :
    taken events n ++ remaining events n = schedule events := by
  cases n with
  | zero =>
      rw [remaining_zero, taken]
      exact congrArg (· ++ schedule events) (List.filter_eq_nil_iff.2 fun e _ => by simp [pending])
  | succ n =>
      obtain ⟨htake, hdrop⟩ := takeWhile_due (schedule_sorted events) n
      have hdue : (fun e => !pending (n + 1) e) = due n := funext fun e => Bool.not_not _
      have hnot : pending (n + 1) = fun e => !due n e := rfl
      rw [taken, remaining, hdue, hnot, ← htake, ← hdrop]
      exact List.takeWhile_append_dropWhile

theorem taken_append_arriving (events : List KeyEvent) (n : Nat) :
    taken events n ++ arriving events n = (schedule events).filter (due n) := by
  have hdue : taken events (n + 1) = (schedule events).filter (due n) :=
    List.filter_congr fun e _ => Bool.not_not _
  have hremaining : arriving events n ++ remaining events (n + 1) = remaining events n := by
    rw [← takeWhile_remaining, ← dropWhile_remaining]
    exact List.takeWhile_append_dropWhile
  have hboth := (taken_append_remaining events (n + 1)).trans (taken_append_remaining events n).symm
  rw [← hremaining, ← List.append_assoc] at hboth
  rw [← hdue]
  exact (List.append_cancel_right hboth).symm

/-- The loop stands before a frame, and the events before it have been
applied to `pad`. -/
structure Progress.Pressed (pad : Keypad) (events : List KeyEvent) (n : Nat) (p : Progress) :
    Prop where
  schedule : p.At events n
  keypad : p.console.machine.keypad = pad.press (taken events n)

variable {pad : Keypad}

/-- When a frame begins, the events up to it have been applied. -/
theorem Progress.Pressed.pressKeys (h : p.Pressed pad events n) :
    p.pressKeys.console.machine.keypad = pad.press ((Run.schedule events).filter (due n)) := by
  rw [h.schedule.pressKeys.1, applyKeys_eq_press, ← taken_append_arriving, Keypad.press_append,
    ← h.keypad]

theorem Progress.Pressed.record (h : p.Pressed pad events n) (fault : Option Fault)
    (log : Array String) :
    (p.pressKeys.record policy (p.pressKeys.console.runFrame frameMs).console fault log).Pressed
      pad events (n + 1) := by
  refine ⟨h.schedule.record _ _ _, ?_⟩
  have htaken : taken events (n + 1) = (Run.schedule events).filter (due n) :=
    List.filter_congr fun e _ => Bool.not_not _
  rw [htaken, ← h.pressKeys]
  simp only [Progress.record]
  split
  · rw [Console.skip_keypad, Console.runFrame_keypad]
  · exact Console.runFrame_keypad _ _

/-- A run from `s` comes to frame `f`, with the progress `p`. -/
structure Reaches (s : Console) (policy : FaultPolicy) (events : List KeyEvent) (f : Nat)
    (p : Progress) : Prop where
  frames : frames policy (Progress.start s events) f = .ok p
  going : p.stopped policy = false

theorem Reaches.pressed (h : Reaches s policy events n p) :
    p.Pressed s.machine.keypad events n := by
  have hstart : (Progress.start s events).Pressed s.machine.keypad events 0 := by
    refine ⟨Progress.at_start s events, ?_⟩
    have hnone : taken events 0 = [] := List.filter_eq_nil_iff.2 fun e _ => by simp [pending]
    rw [hnone]
    rfl
  have hn := frames_invariant (fun _ _ fault log hp => hp.record fault log) hstart
    (Console.start_not_stopped s policy events) h.frames h.going
  rwa [Nat.zero_add] at hn

/-- A run that no fault ends applies the events up to its last frame. -/
theorem run_skip_keypad (hr : s.machine.random.Steady) (events : List KeyEvent) (n : Nat) :
    let call := s.run n .skip events
    (∃ r, call.answer = .ok r) ∧ call.console.machine.random.Steady ∧
      call.console.machine.keypad = s.machine.keypad.press (taken events n) := by
  obtain ⟨q, hq, hsteady⟩ := frames_steady (p := Progress.start s events) hr .skip n
  have hreach : Reaches s .skip events n q := ⟨hq, rfl⟩
  rw [Console.run_of_ok hq]
  exact ⟨⟨_, rfl⟩, hsteady, hreach.pressed.keypad⟩

theorem run_run_skip_keypad (hr : s.machine.random.Steady) (events events' : List KeyEvent)
    (n n' : Nat) :
    ((s.run n .skip events).console.run n' .skip events').console.machine.keypad =
      (s.machine.keypad.press (taken events n)).press (taken events' n') := by
  obtain ⟨-, hsteady, hfirst⟩ := run_skip_keypad hr events n
  obtain ⟨-, -, hsecond⟩ := run_skip_keypad hsteady events' n'
  rw [hsecond, hfirst]

/-! ## Lists that agree frame by frame and key by key -/

/-- In both lists the events of one frame about one key are the same, in the
same order. -/
def SameGroups (events events' : List KeyEvent) : Prop :=
  ∀ (x : Rat) (k : Int), events'.filter (fun e => e.frame = x ∧ e.key % 16 = k) =
    events.filter (fun e => e.frame = x ∧ e.key % 16 = k)

/-- The event is one of a frame. -/
def ofFrame (x : Rat) (e : KeyEvent) : Bool := e.frame = x

theorem ofFrame_self (e : KeyEvent) : ofFrame e.frame e = true := decide_eq_true rfl

/-- Sorted lists are the same if they agree frame by frame. -/
theorem eq_of_filter_ofFrame (hl : l.Pairwise NotAfter) (hl' : l'.Pairwise NotAfter)
    (h : ∀ x, l.filter (ofFrame x) = l'.filter (ofFrame x)) : l = l' := by
  induction l generalizing l' with
  | nil =>
      cases l' with
      | nil => rfl
      | cons b rest' =>
          have hb := h b.frame
          rw [List.filter_nil, List.filter_cons_of_pos (ofFrame_self b)] at hb
          cases hb
  | cons a rest ih =>
      cases l' with
      | nil =>
          have ha := h a.frame
          rw [List.filter_nil, List.filter_cons_of_pos (ofFrame_self a)] at ha
          cases ha
      | cons b rest' =>
          obtain ⟨ha, hrest⟩ := List.pairwise_cons.1 hl
          obtain ⟨hb, hrest'⟩ := List.pairwise_cons.1 hl'
          -- each of the two first events occurs in the other list, so neither is earlier
          have hba : b.frame ≤ a.frame := by
            have hmem : a ∈ (b :: rest').filter (ofFrame a.frame) := by
              rw [← h a.frame]
              exact List.mem_filter.2 ⟨List.mem_cons_self, ofFrame_self a⟩
            rcases List.mem_cons.1 (List.mem_of_mem_filter hmem) with rfl | hm
            · exact le_refl _
            · exact hb a hm
          have hab : a.frame ≤ b.frame := by
            have hmem : b ∈ (a :: rest).filter (ofFrame b.frame) := by
              rw [h b.frame]
              exact List.mem_filter.2 ⟨List.mem_cons_self, ofFrame_self b⟩
            rcases List.mem_cons.1 (List.mem_of_mem_filter hmem) with rfl | hm
            · exact le_refl _
            · exact ha b hm
          have hframe : ofFrame a.frame b = true := decide_eq_true (le_antisymm hba hab)
          have hhead := h a.frame
          rw [List.filter_cons_of_pos (ofFrame_self a), List.filter_cons_of_pos hframe] at hhead
          obtain rfl : a = b := (List.cons.inj hhead).1
          refine congrArg (a :: ·) (ih hrest hrest' fun x => ?_)
          have hx := h x
          simp only [List.filter_cons] at hx
          split at hx
          · exact (List.cons.inj hx).2
          · exact hx

/-- Then the events about one key are scheduled in the same order. -/
theorem SameGroups.schedule_about (h : SameGroups events events') (k : Nat) :
    (schedule events).filter (about k) = (schedule events').filter (about k) := by
  refine eq_of_filter_ofFrame ((schedule_sorted events).filter _)
    ((schedule_sorted events').filter _) fun x => ?_
  have hgroup : ∀ es : List KeyEvent,
      ((schedule es).filter (about k)).filter (ofFrame x) =
        schedule (es.filter fun e => e.frame = x ∧ e.key % 16 = (k : Int)) := by
    intro es
    rw [schedule_filter, List.filter_filter]
    exact List.filter_congr fun e _ => by rw [about_eq, ofFrame, ← Bool.decide_and]
  rw [hgroup, hgroup, h x k]

theorem SameGroups.press_arriving (h : SameGroups events events') (n : Nat) (pad : Keypad) :
    pad.press (arriving events' n) = pad.press (arriving events n) := by
  refine Keypad.press_congr (fun k => ?_) pad
  have hkey : ∀ es : List KeyEvent, (arriving es n).filter (about k) =
      (((schedule es).filter (about k)).filter (pending n)).filter (due n) := by
    intro es
    simp only [arriving, remaining, List.filter_filter]
    refine List.filter_congr fun e _ => ?_
    rw [Bool.and_left_comm, Bool.and_comm (about k e), ← Bool.and_assoc]
  rw [hkey, hkey, h.schedule_about k]

/-- Two outcomes of the loop that differ in the events still to come at
most. -/
inductive SameOutcome : Except (Failure × Progress) Progress →
    Except (Failure × Progress) Progress → Prop
  | ok (p : Progress) (l : List KeyEvent) : SameOutcome (.ok p) (.ok { p with events := l })
  | error (e : Failure) (p : Progress) (l : List KeyEvent) :
      SameOutcome (.error (e, p)) (.error (e, { p with events := l }))

/-- What takes effect in the next frames, from frame `k` on, leaves any keypad
alike with both lists. -/
def PressAlike (events events' : List KeyEvent) (k n : Nat) : Prop :=
  ∀ i < n, ∀ pad : Keypad,
    pad.press (arriving events' (k + i)) = pad.press (arriving events (k + i))

/-- The loop does the same with either list. -/
theorem Progress.At.frames_alike (hp : p.At events k) (h : PressAlike events events' k n) :
    SameOutcome (Run.frames policy p n)
      (Run.frames policy { p with events := remaining events' k } n) := by
  induction n generalizing p k with
  | zero => exact .ok p _
  | succ n ih =>
      have hq : ({ p with events := remaining events' k } : Progress).At events' k :=
        ⟨hp.frame, rfl⟩
      have hnow : ∀ pad : Keypad, pad.press (arriving events' k) = pad.press (arriving events k) :=
        h 0 (Nat.succ_pos n)
      have hpress : ({ p with events := remaining events' k } : Progress).pressKeys =
          { p.pressKeys with events := remaining events' (k + 1) } := by
        have hc := hq.pressKeys.1
        rw [applyKeys_eq_press, hnow, ← applyKeys_eq_press] at hc
        have hc' := hc.trans hp.pressKeys.1.symm
        have he := hq.pressKeys.2
        simp only [Progress.pressKeys] at hc' he ⊢
        rw [hc', he]
      have hrest : PressAlike events events' (k + 1) n := fun i hi pad => by
        rw [Nat.add_assoc, Nat.add_comm 1 i]
        exact h (i + 1) (Nat.succ_lt_succ hi) pad
      simp only [Run.frames, hpress]
      cases p.pressKeys.console.runFrame frameMs with
      | mk s answer log =>
          cases answer with
          | error e => exact .error e _ _
          | ok report =>
              simp only
              split
              · exact .ok _ _
              · exact ih (hp.record s report.fault log) hrest

theorem run_alike (h : PressAlike events events' 0 n) (s : Console) (policy : FaultPolicy) :
    s.run n policy events' = s.run n policy events := by
  have hsame : SameOutcome (frames policy (Progress.start s events) n) _ :=
    (Progress.at_start s events).frames_alike h
  rw [remaining_zero] at hsame
  have hstart : ({ Progress.start s events with events := schedule events' } : Progress) =
      Progress.start s events' := rfl
  rw [hstart] at hsame
  cases hf : frames policy (Progress.start s events) n with
  | ok p =>
      rw [hf] at hsame
      generalize hf' : frames policy (Progress.start s events') n = r at hsame
      cases hsame with
      | ok p l => rw [Console.run_of_ok hf, Console.run_of_ok hf']; rfl
  | error x =>
      rw [hf] at hsame
      generalize hf' : frames policy (Progress.start s events') n = r at hsame
      cases hsame with
      | error e p l => rw [Console.run_of_error hf, Console.run_of_error hf']

theorem run_regrouped (h : SameGroups events events') (s : Console) (policy : FaultPolicy)
    (n : Nat) : s.run n policy events' = s.run n policy events :=
  run_alike (fun i _ pad => h.press_arriving (0 + i) pad) s policy

/-- In every frame that a run executes, whatever else the run does, a key is
held exactly if the schedule says so, from the first instruction of the frame
to its end.  So a list with the same events about each key in each frame gives
the same run. -/
theorem keys_held_as_scheduled (s : Console) (policy : FaultPolicy) (events : List KeyEvent) :
    (∀ f p, Reaches s policy events f p →
      (∀ n, frames policy (Progress.start s events) (f + n) = frames policy p n) ∧
      ∀ c, p.pressKeys.console.Within c → ∀ k < 16,
        (c.machine.keypad.mask.getLsbD k = true ↔ Held s.machine.keypad events f k)) ∧
    ∀ events', SameGroups events events' → ∀ n, s.run n policy events' = s.run n policy events := by
  refine ⟨fun f p hp => ⟨fun n => ?_, fun c hc k hk => ?_⟩, fun events' h n => ?_⟩
  · rw [frames_add f n (Console.start_not_stopped s policy events), hp.frames]
    simp only [hp.going, Bool.false_eq_true, if_false]
  · rw [hc.keypad, hp.pressed.pressKeys]
    exact getLsbD_press_due s.machine.keypad events f hk
  · exact run_regrouped h s policy n

/-- Key 21 is key 5, and key -9 is key 7.  In frame 1 the second event about
key 5 wins, though it is not the last of the list.  It does not matter where
among the others the event about key 7 stands. -/
theorem keys_held_as_scheduled_in_frame_one :
    let s := Console.fresh 10 defaultDecay (RandomSource.cycle #[]) false false
    let events : List KeyEvent := [⟨1, 5, true⟩, ⟨1, 21, false⟩, ⟨1 / 2, -9, true⟩]
    let events' : List KeyEvent := [⟨1 / 2, -9, true⟩, ⟨1, 5, true⟩, ⟨1, 21, false⟩]
    SameGroups events events' ∧ s.run 2 .skip events' = s.run 2 .skip events ∧
      ∃ p, Reaches s .skip events 1 p ∧
        p.pressKeys.console.Within (p.pressKeys.console.steps 3) ∧
        (p.pressKeys.console.steps 3).machine.keypad.mask.getLsbD 7 = true ∧
        (p.pressKeys.console.steps 3).machine.keypad.mask.getLsbD 5 = false := by
  intro s events events'
  have hgroups : SameGroups events events' := by
    intro x k
    simp only [events, events', List.filter_cons, List.filter_nil]
    by_cases hx : (1 / 2 : Rat) = x
    · have hx' : (1 : Rat) ≠ x := by rw [← hx]; norm_num
      simp only [hx', false_and, decide_false, Bool.false_eq_true, if_false]
    · simp only [hx, false_and, decide_false, Bool.false_eq_true, if_false]
  have hr : s.machine.random.Steady := RandomSource.cycle_steady (by decide)
  obtain ⟨p, hp, -⟩ := frames_steady (p := Progress.start s events) hr .skip 1
  have hreach : Reaches s .skip events 1 p := ⟨hp, rfl⟩
  have hwithin : p.pressKeys.console.Within (p.pressKeys.console.steps 3) := .inl ⟨3, rfl⟩
  have hseven : Latest (concerns 1 7) events 2 ⟨1 / 2, -9, true⟩ := by
    refine ⟨rfl, by decide +kernel, fun j g hj hg => ?_⟩
    match j, hj with
    | 0, rfl => exact absurd hg (by decide +kernel)
    | 1, rfl => exact absurd hg (by decide +kernel)
    | 2, rfl => exact .inr ⟨rfl, Nat.le_refl 2⟩
  have hfive : Latest (concerns 1 5) events 1 ⟨1, 21, false⟩ := by
    refine ⟨rfl, by decide +kernel, fun j g hj hg => ?_⟩
    match j, hj with
    | 0, rfl => exact .inr ⟨rfl, by decide⟩
    | 1, rfl => exact .inr ⟨rfl, Nat.le_refl 1⟩
    | 2, rfl => exact absurd hg (by decide +kernel)
  obtain ⟨hframes, hruns⟩ := keys_held_as_scheduled s .skip events
  obtain ⟨-, hkeys⟩ := hframes 1 p hreach
  refine ⟨hgroups, hruns events' hgroups 2, p, hreach, hwithin, ?_, ?_⟩
  · exact (hkeys _ hwithin 7 (by decide)).2 (.inl ⟨2, _, hseven, rfl⟩)
  · rw [← Bool.not_eq_true, hkeys _ hwithin 5 (by decide)]
    rintro (⟨i, e, he, hdown⟩ | ⟨hnone, -⟩)
    · rw [← hfive.unique he] at hdown
      cases hdown
    · exact absurd hfive.counts (by rw [hnone _ (List.mem_of_getElem? hfive.place)]; decide)

end Run
end Chip8
