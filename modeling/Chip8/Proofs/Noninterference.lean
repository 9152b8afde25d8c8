/-
# `Chip8.Proofs.Noninterference` — the afterglow is only looked at

The screen is kept twice, as pixels and as an afterglow.  A program sees and
changes the pixels.  The intensities, their factor and the frame number are
there for a renderer, and the claim is that nothing else ever depends on
them: whatever a host does with two consoles that differ in these three
alone, it gets the same answers from both, and afterwards they differ in
these three alone.

This is a statement about two runs.  The relation that carries it along is
`Twins`: all is equal but the display, and of the display the pixels are.
There is a fourth field of the display, the mark of something drawn, and it
is on the border.  A program does not see it, but a frame reports it.  So the
relation comes in two strengths:

    Twins true     the marks agree, and so do the answers
    Twins false    the marks may differ, and so may `drew`, in a frame's report

The stronger one is for the afterglow.  The weaker one is what a pause leads
to.  A paused frame leaves the machine alone but for the afterglow, and but
for the mark, which it takes away (`runFrame_of_paused`).

Only the two instructions that draw need a look at the display, and they look
at its pixels.  For the others the display is a parameter that is handed on
(`execute_withDisplay`).
-/
import Chip8.Proofs.Reachable
import Chip8.Proofs.Schedule

namespace Chip8

/-! ## Displays -/

namespace Display

/-- The displays show the same pixels, and with `marks` they agree on whether
anything was drawn. -/
structure Twins (marks : Bool) (d d' : Display Float) : Prop where
  pixels : d'.pixels = d.pixels
  dirty : (marks && d'.dirty) = (marks && d.dirty)

variable {marks : Bool} {d d' : Display Float}

theorem Twins.touch (h : d.Twins marks d') : d.touch.Twins marks d'.touch := ⟨h.pixels, rfl⟩

/-- Drawing looks at the pixels. -/
theorem Twins.draw (h : d.Twins marks d') (x y : Int) (rows : List UInt8) :
    (d.draw x y rows).1.Twins marks (d'.draw x y rows).1 ∧
      (d'.draw x y rows).2 = (d.draw x y rows).2 := by
  simp only [Display.draw, h.pixels]
  exact ⟨⟨rfl, rfl⟩, trivial⟩

/-- The display at the end of a frame. -/
def closed (d : Display Float) : Display Float := d.advanceFrame.consumeDirty.1

theorem Twins.closed (h : d.Twins marks d') : d.closed.Twins marks d'.closed := ⟨h.pixels, rfl⟩

end Display

/-! ## Machines -/

namespace Machine

/-- The machine with another display. -/
def withDisplay (m : Machine) (d : Display Float) : Machine := { m with display := d }

/-- The machines are the same but for the display. -/
def Twins (marks : Bool) (m m' : Machine) : Prop :=
  ∃ d, m.display.Twins marks d ∧ m' = m.withDisplay d

variable {marks : Bool} {m m' : Machine} {ins : Instruction Int}

/-- An instruction that does not draw hands the display on. -/
theorem execute_withDisplay (h : ¬ ins.Draws) (m : Machine) (d : Display Float) :
    (m.withDisplay d).execute ins = ((m.execute ins).1.withDisplay d, (m.execute ins).2) := by
  cases ins with
  | clear => exact absurd trivial h
  | draw x y n => exact absurd trivial h
  | ret =>
      have hsp : (m.withDisplay d).cpu.sp = m.cpu.sp := rfl
      simp only [execute, returnFromCall, hsp]
      split <;> rfl
  | call addr =>
      have hsp : (m.withDisplay d).cpu.sp = m.cpu.sp := rfl
      simp only [execute, callAddress, hsp]
      split <;> rfl
  | random x nn =>
      simp only [execute, rollInto, withDisplay]
      split <;> rfl
  | storeDecimal x =>
      simp only [execute, storeDigits, storeThree, withDisplay]
      split <;> rfl
  | loadRegs x =>
      simp only [execute, loadFirst, withDisplay]
      split
      · rfl
      · split <;> rfl
  | _ => rfl

theorem execute_keeps_display (h : ¬ ins.Draws) (m : Machine) :
    (m.execute ins).1.display = m.display := by
  have hx := execute_withDisplay h m m.display
  rw [show m.withDisplay m.display = m from rfl] at hx
  rw [hx]
  rfl

theorem Twins.drawRows (h : m.Twins marks m') (x y n : Int) :
    (m.drawRows x y n).1.Twins marks (m'.drawRows x y n).1 ∧
      (m'.drawRows x y n).2 = (m.drawRows x y n).2 := by
  obtain ⟨d, hd, rfl⟩ := h
  simp only [Machine.drawRows, withDisplay]
  cases m.memory.readRange m.cpu.i n with
  | error f => exact ⟨⟨d, hd, rfl⟩, rfl⟩
  | ok rows =>
      cases m.cpu.reg? x with
      | none => exact ⟨⟨d.touch, hd.touch, rfl⟩, rfl⟩
      | some a =>
          cases m.cpu.reg? y with
          | none => exact ⟨⟨d.touch, hd.touch, rfl⟩, rfl⟩
          | some b =>
              obtain ⟨hdraw, hflag⟩ := hd.draw a.toNat b.toNat rows
              simp only [hflag]
              exact ⟨⟨_, hdraw, rfl⟩, rfl⟩

theorem Twins.execute (h : m.Twins marks m') (ins : Instruction Int) :
    (m.execute ins).1.Twins marks (m'.execute ins).1 ∧ (m'.execute ins).2 = (m.execute ins).2 := by
  by_cases hdraws : ins.Draws
  · cases ins with
    | clear =>
        obtain ⟨d, hd, rfl⟩ := h
        exact ⟨⟨d.clear, ⟨rfl, rfl⟩, rfl⟩, rfl⟩
    | draw x y n => exact h.drawRows x y n
    | _ => exact hdraws.elim
  · obtain ⟨d, hd, rfl⟩ := h
    rw [execute_withDisplay hdraws]
    refine ⟨⟨d, ?_, rfl⟩, rfl⟩
    rw [execute_keeps_display hdraws]
    exact hd

/-- Twins take the same step. -/
theorem Twins.step (h : m.Twins marks m') :
    m.step.1.Twins marks m'.step.1 ∧ m'.step.2 = m.step.2 := by
  have hmove : (m.movePc 2).Twins marks (m'.movePc 2) := by
    obtain ⟨d, hd, rfl⟩ := h
    exact ⟨d, hd, rfl⟩
  refine step_related (R := Twins marks) h ?_ ?_ ?_ ?_ ?_
  · obtain ⟨d, -, rfl⟩ := h
    rfl
  · obtain ⟨d, -, rfl⟩ := h
    rfl
  · intro ins
    exact hmove.execute ins
  · rintro a _ pc ⟨d, hd, rfl⟩
    exact ⟨d, hd, rfl⟩
  · rintro a _ ⟨d, hd, rfl⟩
    exact ⟨d, hd, rfl⟩

end Machine

/-! ## Consoles -/

/-- The report without `drew`, unless marks count. -/
def Frame.masked (marks : Bool) (r : Frame) : Frame := { r with drew := marks && r.drew }

theorem Frame.fault_of_masked {marks : Bool} {r r' : Frame}
    (h : r'.masked marks = r.masked marks) : r'.fault = r.fault :=
  (congrArg Frame.fault h :)

/-- The reply without `drew`, unless marks count. -/
def Reply.masked (marks : Bool) : Reply → Reply
  | .frame r => .frame (r.masked marks)
  | r => r

namespace Console

/-- The console with another display. -/
def withDisplay (s : Console) (d : Display Float) : Console :=
  { s with machine := s.machine.withDisplay d }

@[simp] theorem withDisplay_cpu (s : Console) (d : Display Float) :
    (s.withDisplay d).machine.cpu = s.machine.cpu := rfl

/-- The consoles are the same but for the display. -/
def Twins (marks : Bool) (s t : Console) : Prop :=
  ∃ d, s.machine.display.Twins marks d ∧ t = s.withDisplay d

end Console

namespace Call

variable {α β : Type}

/-- The call with another form of its answer. -/
def map (f : α → β) (c : Call α) : Call β := ⟨c.console, c.answer.map f, c.log⟩

/-- The calls leave twins behind, and answer and log the same. -/
structure Twins (marks : Bool) (c c' : Call α) : Prop where
  console : c.console.Twins marks c'.console
  answer : c'.answer = c.answer
  log : c'.log = c.log

variable {marks : Bool} {c c' : Call α}

theorem Twins.map (h : c.Twins marks c') (f : α → β) : (c.map f).Twins marks (c'.map f) :=
  ⟨h.console, congrArg (Except.map f) h.answer, h.log⟩

end Call

namespace Console

variable {marks : Bool} {s t : Console}

theorem Twins.refl (marks : Bool) (s : Console) : s.Twins marks s :=
  ⟨s.machine.display, ⟨rfl, rfl⟩, rfl⟩

theorem Twins.trans {u : Console} (h : s.Twins marks t) (h' : t.Twins marks u) :
    s.Twins marks u := by
  obtain ⟨d, hd, rfl⟩ := h
  obtain ⟨d', hd', rfl⟩ := h'
  exact ⟨d', ⟨hd'.pixels.trans hd.pixels, hd'.dirty.trans hd.dirty⟩, rfl⟩

theorem Twins.machine (h : s.Twins marks t) : s.machine.Twins marks t.machine := by
  obtain ⟨d, hd, rfl⟩ := h
  exact ⟨d, hd, rfl⟩

/-- A write that hands the display on. -/
theorem Twins.write (h : s.Twins marks t) {f : Console → Console}
    (hf : ∀ d, f (s.withDisplay d) = (f s).withDisplay d)
    (hd : (f s).machine.display = s.machine.display) : (f s).Twins marks (f t) := by
  obtain ⟨d, hd', rfl⟩ := h
  rw [hf]
  refine ⟨d, ?_, rfl⟩
  rw [hd]
  exact hd'

/-! ### Instructions -/

theorem Twins.attempt (h : s.Twins marks t) : s.attempt.Twins marks t.attempt := by
  obtain ⟨⟨d', hd', hm⟩, hans⟩ := h.machine.step
  obtain ⟨d, -, rfl⟩ := h
  cases hs : s.machine.step with
  | mk m r =>
      rw [hs] at hd' hm hans
      have ht : (s.withDisplay d).machine.step = (m.withDisplay d', r) := Prod.ext hm hans
      unfold Console.attempt
      rw [hs, ht]
      cases r with
      | ok ins => exact ⟨⟨d', hd', rfl⟩, rfl, rfl⟩
      | error e =>
          cases e with
          | fault f => exact ⟨⟨d', hd', rfl⟩, rfl, rfl⟩
          | _ => exact ⟨⟨d', hd', rfl⟩, rfl, rfl⟩

theorem Twins.halted (h : s.Twins marks t) : t.halted = s.halted := by
  obtain ⟨d, -, rfl⟩ := h
  rfl

theorem Twins.stepInstruction (h : s.Twins marks t) :
    s.stepInstruction.Twins marks t.stepInstruction := by
  unfold Console.stepInstruction
  rw [h.halted]
  split
  · obtain ⟨d, hd, rfl⟩ := h
    exact ⟨⟨d, hd, rfl⟩, rfl, rfl⟩
  · exact h.attempt

/-- The loops of a frame are left at the same place. -/
theorem Twins.burst (h : s.Twins marks t) (k n : Nat) (log : Array String) :
    (s.burst k log n).Twins marks (t.burst k log n) := by
  induction n generalizing s t k log with
  | zero => exact ⟨h, rfl, rfl⟩
  | succ n ih =>
      obtain ⟨hcon, hans, hlog⟩ := h.attempt
      simp only [Console.burst, hans, hlog]
      split
      · exact ih hcon (k + 1) (log ++ s.attempt.log)
      · exact ⟨hcon, rfl, rfl⟩
      · exact ⟨hcon, rfl, rfl⟩

theorem Twins.frameBurst (h : s.Twins marks t) : s.frameBurst.Twins marks t.frameBurst := by
  have hb := h.burst 0 s.cyclesPerFrame #[]
  obtain ⟨d, hd, rfl⟩ := h
  unfold Console.frameBurst
  rw [show (s.withDisplay d).paused = s.paused from rfl,
    show (s.withDisplay d).halted = s.halted from rfl]
  split
  · exact ⟨⟨d, hd, rfl⟩, rfl, rfl⟩
  · exact hb

/-! ### Frames -/

theorem Twins.closeFrame (h : s.Twins marks t) (ms : Float) (executed : Nat)
    (fault : Option Fault) :
    (s.closeFrame ms executed fault).1.Twins marks (t.closeFrame ms executed fault).1 ∧
      (t.closeFrame ms executed fault).2.masked marks =
        (s.closeFrame ms executed fault).2.masked marks := by
  obtain ⟨d, hd, rfl⟩ := h
  have hdrew : (marks && d.dirty) = (marks && s.machine.display.dirty) := hd.dirty
  obtain ⟨m, rom, n, paused, halted, lastFault, traceSteps, traceFaults⟩ := s
  -- paused or not, `drew` is the mark that the end of the frame takes away
  cases paused with
  | true => exact ⟨⟨d.closed, hd.closed, rfl⟩, congrArg (Frame.mk _ _ · _) hdrew⟩
  | false => exact ⟨⟨d.closed, hd.closed, rfl⟩, congrArg (Frame.mk _ _ · _) hdrew⟩

theorem Twins.runFrame (h : s.Twins marks t) (ms : Float) :
    ((s.runFrame ms).map (Frame.masked marks)).Twins marks
      ((t.runFrame ms).map (Frame.masked marks)) := by
  unfold Console.runFrame
  split
  · obtain ⟨hcon, hans, hlog⟩ := h.frameBurst
    simp only [hans, hlog]
    split
    · exact ⟨hcon, rfl, rfl⟩
    · rename_i executed fault _
      obtain ⟨hclose, hreport⟩ := hcon.closeFrame ms executed fault
      exact ⟨hclose, congrArg Except.ok hreport, rfl⟩
  · exact ⟨h, rfl, rfl⟩

/-- Frames of twins fail alike, or their reports agree but for `drew`. -/
theorem Twins.runFrame_answer (h : s.Twins marks t) (ms : Float) :
    (∃ e, (s.runFrame ms).answer = .error e ∧ (t.runFrame ms).answer = .error e) ∨
    (∃ r r', (s.runFrame ms).answer = .ok r ∧ (t.runFrame ms).answer = .ok r' ∧
      r'.masked marks = r.masked marks) := by
  have hans := (h.runFrame ms).answer
  simp only [Call.map] at hans
  cases hs : (s.runFrame ms).answer with
  | error e =>
      cases ht : (t.runFrame ms).answer with
      | error e' => rw [hs, ht] at hans; cases hans; exact .inl ⟨e, rfl, rfl⟩
      | ok r' => rw [hs, ht] at hans; cases hans
  | ok r =>
      cases ht : (t.runFrame ms).answer with
      | error e' => rw [hs, ht] at hans; cases hans
      | ok r' => rw [hs, ht] at hans; exact .inr ⟨r, r', rfl, rfl, Except.ok.inj hans⟩

/-! ### Host calls -/

theorem Twins.reset (h : s.Twins marks t) : s.reset.Twins marks t.reset := by
  obtain ⟨d, -, rfl⟩ := h
  exact ⟨d.reset, ⟨rfl, rfl⟩, rfl⟩

theorem Twins.skip (h : s.Twins marks t) : s.skip.Twins marks t.skip := by
  unfold Console.skip
  rw [h.halted]
  split
  · obtain ⟨d, hd, rfl⟩ := h
    exact ⟨d, hd, rfl⟩
  · exact h

theorem Twins.quiet (h : s.Twins marks t) : s.quiet.Twins marks t.quiet := ⟨h, rfl, rfl⟩

theorem Twins.granted (h : s.Twins marks t) : s.granted.Twins marks t.granted := ⟨h, rfl, rfl⟩

theorem Twins.refused (h : s.Twins marks t) (e : Failure) :
    (s.refused e).Twins marks (t.refused e) := ⟨h, rfl, rfl⟩

theorem Twins.loadRom (h : s.Twins marks t) (data : List UInt8) (name : Option String) :
    (s.loadRom data name).Twins marks (t.loadRom data name) := by
  unfold Console.loadRom
  cases Rom.parse data name with
  | error f => exact h.refused _
  | ok rom =>
      have hrom : ({ s with rom := some rom } : Console).Twins marks { t with rom := some rom } :=
        h.write (f := fun s => { s with rom := some rom }) (fun _ => rfl) rfl
      exact hrom.reset.granted

theorem Twins.setCyclesPerFrame (h : s.Twins marks t) (n : Argument) :
    (s.setCyclesPerFrame n).Twins marks (t.setCyclesPerFrame n) := by
  unfold Console.setCyclesPerFrame
  cases Settings.admitCycles n with
  | error e => exact h.refused e
  | ok k => exact (h.write (f := fun s => { s with cyclesPerFrame := k }) (fun _ => rfl) rfl).granted

theorem setDecay_of_admitted {f : Argument} {x : Float} (hf : admitDecay f = .ok x)
    (s : Console) :
    s.setDecay f = (s.withDisplay { s.machine.display with decay := x }).granted := by
  unfold Console.setDecay Display.setDecay
  rw [hf]
  rfl

/-- Two factors that are admitted need not agree. -/
theorem Twins.setDecay (h : s.Twins marks t) {f f' : Argument} {x x' : Float}
    (hf : admitDecay f = .ok x) (hf' : admitDecay f' = .ok x') :
    (s.setDecay f).Twins marks (t.setDecay f') := by
  rw [setDecay_of_admitted hf, setDecay_of_admitted hf']
  refine Twins.granted ?_
  obtain ⟨d, hd, rfl⟩ := h
  exact ⟨{ d with decay := x' }, ⟨hd.pixels, hd.dirty⟩, rfl⟩

theorem setDecay_of_refused {f : Argument} {e : Failure} (hf : admitDecay f = .error e)
    (s : Console) : s.setDecay f = s.refused e := by
  unfold Console.setDecay Display.setDecay
  rw [hf]
  rfl

/-- Host calls leave twins behind, and the answers agree but for `drew`. -/
theorem Twins.perform (h : s.Twins marks t) (a : Action) :
    ((s.perform a).map (Reply.masked marks)).Twins marks
      ((t.perform a).map (Reply.masked marks)) := by
  cases a with
  | loadRom data name => exact ((h.loadRom data name).map _).map _
  | reset => exact h.reset.quiet.map _
  | skip => exact h.skip.quiet.map _
  | step =>
      obtain ⟨hcon, hans, hlog⟩ := h.stepInstruction
      exact ⟨hcon, congrArg (fun r => (r.map Reply.step).map (Reply.masked marks)) hans, hlog⟩
  | frame ms =>
      obtain ⟨hcon, -, hlog⟩ := h.runFrame ms
      refine ⟨hcon, ?_, hlog⟩
      simp only [Call.map, Console.perform, answering]
      rcases h.runFrame_answer ms with ⟨e, hs, ht⟩ | ⟨r, r', hs, ht, hmask⟩
      · rw [hs, ht]
      · rw [hs, ht]
        exact congrArg (fun r => Except.ok (Reply.frame r)) hmask
  | setCycles n => exact ((h.setCyclesPerFrame n).map _).map _
  | setDecay f =>
      cases hf : admitDecay f with
      | error e =>
          simp only [Console.perform, setDecay_of_refused hf]
          exact ⟨h, rfl, rfl⟩
      | ok x => exact ((h.setDecay hf hf).map _).map _
  | pause => exact (h.write (f := pause) (fun _ => rfl) rfl).quiet.map _
  | resume => exact (h.write (f := resume) (fun _ => rfl) rfl).quiet.map _
  | key k down => exact (h.write (f := (setKey · k down)) (fun _ => rfl) rfl).quiet.map _
  | setDelay v => exact (h.write (f := (setDelayTimer · v)) (fun _ => rfl) rfl).quiet.map _
  | setSound v => exact (h.write (f := (setSoundTimer · v)) (fun _ => rfl) rfl).quiet.map _

end Console

/-! ## Unattended runs -/

namespace Run

/-- The runs under way are the same but for the displays. -/
def Progress.Twins (marks : Bool) (p q : Progress) : Prop :=
  ∃ t, p.console.Twins marks t ∧ q = { p with console := t }

variable {marks : Bool} {p q : Progress}

theorem Progress.Twins.pressKeys (h : p.Twins marks q) : p.pressKeys.Twins marks q.pressKeys := by
  obtain ⟨t, ht, rfl⟩ := h
  refine ⟨applyKeys t (p.events.takeWhile (due p.frame)), ?_, rfl⟩
  obtain ⟨d, hd, rfl⟩ := ht
  simp only [Progress.pressKeys, applyKeys_eq_press]
  exact ⟨d, hd, rfl⟩

theorem Progress.Twins.record (h : p.Twins marks q) {s t : Console} (hst : s.Twins marks t)
    (policy : FaultPolicy) (fault : Option Fault) (log : Array String) :
    (p.record policy s fault log).Twins marks (q.record policy t fault log) := by
  obtain ⟨u, -, rfl⟩ := h
  have hsound : t.soundActive = s.soundActive := by
    obtain ⟨d, -, rfl⟩ := hst
    rfl
  simp only [Progress.record, hsound]
  refine ⟨_, ?_, rfl⟩
  split
  · exact hst.skip
  · exact hst

/-- The loops are left at the same frame and for the same reason. -/
theorem Progress.Twins.frames (h : p.Twins marks q) (policy : FaultPolicy) (n : Nat) :
    (∃ e p' q', Run.frames policy p n = .error (e, p') ∧
      Run.frames policy q n = .error (e, q') ∧ p'.Twins marks q') ∨
    (∃ p' q', Run.frames policy p n = .ok p' ∧ Run.frames policy q n = .ok q' ∧
      p'.Twins marks q') := by
  induction n generalizing p q with
  | zero => exact .inr ⟨p, q, rfl, rfl, h⟩
  | succ n ih =>
      have hkeys := h.pressKeys
      simp only [Run.frames]
      generalize p.pressKeys = p at hkeys
      generalize q.pressKeys = q at hkeys
      obtain ⟨t, ht, rfl⟩ := hkeys
      have hcon := (ht.runFrame frameMs).console
      have hlog : (t.runFrame frameMs).log = (p.console.runFrame frameMs).log :=
        (ht.runFrame frameMs).log
      rcases ht.runFrame_answer frameMs with ⟨e, hs, hs'⟩ | ⟨r, r', hs, hs', hmask⟩
      · simp only [hs, hs', hlog]
        exact .inl ⟨e, _, _, rfl, rfl, (t.runFrame frameMs).console, hcon, rfl⟩
      · have hfault : r'.fault = r.fault := Frame.fault_of_masked hmask
        have hrec := Progress.Twins.record ⟨t, ht, rfl⟩ hcon policy r.fault
          (p.console.runFrame frameMs).log
        simp only [hs, hs', hlog, hfault]
        split
        · exact .inr ⟨_, _, rfl, rfl, hrec⟩
        · exact ih hrec

theorem Progress.Twins.summary (h : p.Twins marks q) (policy : FaultPolicy) :
    q.summary policy = p.summary policy := by
  obtain ⟨t, ⟨d, hd, rfl⟩, rfl⟩ := h
  simp only [Progress.summary, Console.withDisplay, Machine.withDisplay, hd.pixels]

end Run

theorem Console.Twins.run {marks : Bool} {s t : Console} (h : s.Twins marks t) (limit : Nat)
    (policy : FaultPolicy) (events : List KeyEvent) :
    (s.run limit policy events).Twins marks (t.run limit policy events) := by
  have hstart : (Run.Progress.start s events).Twins marks (Run.Progress.start t events) :=
    ⟨t, h, rfl⟩
  rcases hstart.frames policy limit with ⟨e, p, q, hp, hq, htw⟩ | ⟨p, q, hp, hq, htw⟩
  · rw [Console.run_of_error hp, Console.run_of_error hq]
    obtain ⟨u, hu, rfl⟩ := htw
    exact ⟨hu, rfl, rfl⟩
  · rw [Console.run_of_ok hp, Console.run_of_ok hq, htw.summary policy]
    obtain ⟨u, hu, rfl⟩ := htw
    exact ⟨hu, rfl, rfl⟩

/-! ## Lists of operations -/

/-- A host call or an unattended run. -/
inductive Operation where
  | call (a : Action)
  | run (limit : Nat) (policy : FaultPolicy) (events : List KeyEvent)

namespace Operation

/-- What an operation answers. -/
inductive Answer where
  | reply (r : Reply)
  | summary (r : RunSummary)

/-- The answer without `drew`, unless marks count. -/
def Answer.masked (marks : Bool) : Answer → Answer
  | .reply r => .reply (r.masked marks)
  | .summary r => .summary r

/-- What an operation answers and logs. -/
abbrev Report := Except Failure Answer × Array String

/-- The report without `drew`, unless marks count. -/
def Report.masked (marks : Bool) (r : Report) : Report := (r.1.map (Answer.masked marks), r.2)

/-- With marks, nothing is left out. -/
theorem Report.masked_true : Report.masked true = id := by
  funext r
  obtain ⟨answer, log⟩ := r
  cases answer with
  | error e => rfl
  | ok o =>
      cases o with
      | reply r => cases r <;> rfl
      | summary r => rfl

/-- The operations are the same, or they set two factors of the afterglow
that are both admitted. -/
inductive Matches : Operation → Operation → Prop where
  | same (o : Operation) : Matches o o
  | decay {f f' : Argument} {x x' : Float} (hf : admitDecay f = .ok x)
      (hf' : admitDecay f' = .ok x') : Matches (.call (.setDecay f)) (.call (.setDecay f'))

theorem map_reply_masked (marks : Bool) (c : Call Reply) :
    (c.map Answer.reply).map (Answer.masked marks) =
      (c.map (Reply.masked marks)).map Answer.reply := by
  obtain ⟨s, answer, log⟩ := c
  cases answer <;> rfl

end Operation

/-- Any number sets a factor. -/
theorem admitDecay_number {v : Number} (hv : v.toFloat.isNaN = false) :
    admitDecay (.number v) = .ok (clampDecay v.toFloat) := by
  show (if v.toFloat.isNaN then _ else _ : Except Failure Float) = _
  rw [hv]
  rfl

namespace Console

open Operation (Report Answer)

/-- Carries out an operation. -/
def operate (s : Console) : Operation → Call Answer
  | .call a => (s.perform a).map .reply
  | .run limit policy events => (s.run limit policy events).map .summary

/-- The console after a list of operations. -/
def through (s : Console) (ops : List Operation) : Console :=
  ops.foldl (fun s o => (s.operate o).console) s

/-- What the operations answer and log, one after another. -/
def outcomes (s : Console) : List Operation → List Report
  | [] => []
  | o :: rest => ((s.operate o).answer, (s.operate o).log) :: outcomes (s.operate o).console rest

variable {marks : Bool} {s t : Console}

theorem Twins.operate (h : s.Twins marks t) {o o' : Operation} (ho : o.Matches o') :
    ((s.operate o).map (Answer.masked marks)).Twins marks
      ((t.operate o').map (Answer.masked marks)) := by
  cases ho with
  | same =>
      cases o with
      | call a =>
          have hp := (h.perform a).map Answer.reply
          rw [← Operation.map_reply_masked, ← Operation.map_reply_masked] at hp
          exact hp
      | run limit policy events => exact ((h.run limit policy events).map _).map _
  | decay hf hf' => exact (((h.setDecay hf hf').map _).map _).map _

/-- Twins answer a list of operations alike and are twins at its end. -/
theorem Twins.through (h : s.Twins marks t) {xs ys : List Operation}
    (hm : List.Forall₂ Operation.Matches xs ys) :
    (t.outcomes ys).map (Report.masked marks) = (s.outcomes xs).map (Report.masked marks) ∧
      (s.through xs).Twins marks (t.through ys) := by
  induction hm generalizing s t with
  | nil => exact ⟨rfl, h⟩
  | cons ho _ ih =>
      obtain ⟨hcon, hans, hlog⟩ := h.operate ho
      obtain ⟨hrest, hend⟩ := ih hcon
      exact ⟨congrArg₂ List.cons (Prod.ext hans hlog) hrest, hend⟩

/-! ## A pause -/

/-- A paused frame leaves twins behind, and takes the mark away. -/
theorem runFrame_of_paused (hp : s.paused = true) {ms : Float} (hms : ms.isFinite = true) :
    s.Twins false (s.runFrame ms).console := by
  have hb : s.frameBurst = ⟨s, .ok (0, none), #[]⟩ := by
    rw [frameBurst, hp]
    rfl
  rw [runFrame, if_pos hms, hb]
  simp only [closeFrame_eq]
  refine ⟨s.machine.display.closed, ⟨rfl, rfl⟩, ?_⟩
  rw [if_pos hp]
  rfl

theorem frames_of_paused (hp : s.paused = true) {times : List Float}
    (hms : ∀ ms ∈ times, ms.isFinite = true) :
    s.Twins false (s.after (times.map Action.frame)) := by
  -- a frame does not end the pause, and that is carried along with the twins
  have hkeeps : ∀ t : Console, ∀ a ∈ times.map Action.frame,
      t.paused = true ∧ s.Twins false t →
        (t.perform a).console.paused = true ∧ s.Twins false (t.perform a).console := by
    rintro t a ha ⟨hpt, hst⟩
    obtain ⟨ms, hmem, rfl⟩ := List.mem_map.1 ha
    have hframe : t.Twins false (t.perform (.frame ms)).console :=
      runFrame_of_paused hpt (hms ms hmem)
    refine ⟨?_, hst.trans hframe⟩
    obtain ⟨d, -, hd⟩ := hframe
    rw [hd]
    exact hpt
  exact (after_invariant (P := fun t => t.paused = true ∧ s.Twins false t) hkeeps
    ⟨hp, .refl false s⟩).2

/-- A console that is paused and resumed has not been touched in between, but
for the afterglow and the mark. -/
theorem interlude (hp : s.paused = false) (hh : s.halted = false) {times : List Float}
    (hms : ∀ ms ∈ times, ms.isFinite = true) :
    s.Twins false (s.after (.pause :: times.map Action.frame ++ [.resume])) := by
  -- `resume` also takes back a halt, of which there is none
  have hresume : s.pause.resume = s := by
    obtain ⟨m, rom, n, paused, halted, lastFault, traceSteps, traceFaults⟩ := s
    cases hp
    cases hh
    rfl
  have hframes := frames_of_paused (s := s.pause) rfl hms
  rw [after_concat, after_cons]
  have hend := (hframes.perform .resume).console
  exact Eq.mp (congrArg (Console.Twins false · _) hresume) hend

/-! ## Looking on changes nothing -/

/-- The second console is the first with another afterglow: its intensities,
their factor and the frame number. -/
def SameButGlow (s t : Console) : Prop :=
  ∃ glow decay frame,
    t = s.withDisplay { s.machine.display with glow := glow, decay := decay, frame := frame }

theorem sameButGlow_iff : s.SameButGlow t ↔ s.Twins true t := by
  constructor
  · rintro ⟨glow, decay, frame, rfl⟩
    exact ⟨{ s.machine.display with glow := glow, decay := decay, frame := frame },
      ⟨rfl, rfl⟩, rfl⟩
  · rintro ⟨⟨pixels, glow, decay, dirty, frame⟩, ⟨hpixels, hdirty⟩, rfl⟩
    refine ⟨glow, decay, frame, ?_⟩
    cases hpixels
    cases hdirty
    rfl

/-- The afterglow and pauses never interfere.  Two consoles with different
afterglows answer any operations alike, also where these set different
factors, and remain the same but for the afterglow.  A pause of any number of
frames, put in where the console is neither paused nor halted, leaves all of
it as it was but the afterglow and the mark of something drawn, and whatever
follows is answered as without the pause, up to `drew`. -/
theorem afterglow_and_pauses_never_interfere :
    (∀ s t : Console, s.SameButGlow t →
      ∀ xs ys : List Operation, List.Forall₂ Operation.Matches xs ys →
        t.outcomes ys = s.outcomes xs ∧ (s.through xs).SameButGlow (t.through ys)) ∧
    (∀ s : Console, s.paused = false → s.halted = false →
      ∀ times : List Float, (∀ ms ∈ times, ms.isFinite = true) →
        let u := s.after (.pause :: times.map Action.frame ++ [.resume])
        u = s.withDisplay u.machine.display ∧
          u.machine.display.pixels = s.machine.display.pixels ∧
          ∀ ops : List Operation,
            (u.outcomes ops).map (Report.masked false) =
                (s.outcomes ops).map (Report.masked false) ∧
              (s.through ops).Twins false (u.through ops)) := by
  refine ⟨?_, ?_⟩
  · intro s t hst xs ys hm
    rw [sameButGlow_iff] at hst
    obtain ⟨hout, hend⟩ := hst.through hm
    rw [Report.masked_true, List.map_id, List.map_id] at hout
    exact ⟨hout, sameButGlow_iff.2 hend⟩
  · intro s hp hh times hms u
    have hu : s.Twins false u := interlude hp hh hms
    refine ⟨?_, ?_, fun ops => hu.through (List.forall₂_same.2 fun o _ => .same o)⟩
    · obtain ⟨d, -, hd⟩ := hu
      rw [hd]
      rfl
    · obtain ⟨d, hpix, hd⟩ := hu
      rw [hd]
      exact hpix.pixels

/-- The program draws a digit, over and over. -/
def drawingDigit : Rom := ⟨[0xD0, 0x05, 0x12, 0x00], none, by decide⟩

/-- A console with this program, on a screen that glows all over. -/
def glowing (glow decay : Float) : Console :=
  { fresh 1 decay (RandomSource.cycle #[]) false false with
    rom := some drawingDigit
    machine := { Machine.initial decay (RandomSource.cycle #[]) with
      memory := Memory.initial.put programStart drawingDigit.data
      cpu := { Cpu.initial programStart with i := fontBase }
      display := { Display.initial decay with glow := Vector.replicate 2048 glow } } }

theorem glowing_sameButGlow (glow glow' decay decay' : Float) :
    (glowing glow decay).SameButGlow (glowing glow' decay') :=
  ⟨Vector.replicate 2048 glow', decay', 0, rfl⟩

/-- The first step draws, and leaves the afterglow as it was. -/
theorem glowing_step :
    let drawn := (glowing 0.75 0.5).after [.step]
    drawn.machine.display.pixels[0]? = some true ∧
      drawn.machine.display.glow[100]? = some 0.75 ∧
      drawn.paused = false ∧ drawn.halted = false := by
  decide +kernel

theorem glowing_dim_step :
    ((glowing 0.25 0.9).after [.step]).machine.display.glow[100]? = some 0.25 := by
  decide +kernel

/-- The screen glows with three quarters in one console and with one quarter in
the other, and fades with other factors, while a digit is drawn.  Then the
factors are set to zero and one, and a run follows.  The pause lasts one frame,
with the digit on the screen. -/
theorem afterglow_and_pauses_never_interfere_while_drawing :
    let s := glowing 0.75 0.5
    let t := glowing 0.25 0.9
    let drawn := s.after [.step]
    let paused := drawn.after [.pause, .frame frameMs, .resume]
    let xs := [.call .step, .call (.frame frameMs), .call (.setDecay (.number (.whole 0))),
      .run 3 .skip []]
    let ys := [.call .step, .call (.frame frameMs), .call (.setDecay (.number (.whole 1))),
      .run 3 .skip []]
    s.SameButGlow t ∧ List.Forall₂ Operation.Matches xs ys ∧
      drawn.machine.display.pixels[0]? = some true ∧
      drawn.machine.display.glow[100]? = some 0.75 ∧
      (t.after [.step]).machine.display.glow[100]? = some 0.25 ∧
      t.outcomes ys = s.outcomes xs ∧
      drawn.paused = false ∧ drawn.halted = false ∧ frameMs.isFinite = true ∧
      paused.machine.display.pixels[0]? = some true ∧ paused.machine.cpu = drawn.machine.cpu := by
  have hst := glowing_sameButGlow 0.75 0.25 0.5 0.9
  have hdim := glowing_dim_step
  obtain ⟨hlit, hglow, hpaused, hhalted⟩ := glowing_step
  -- nothing else is needed of the two consoles
  generalize glowing 0.75 0.5 = s at *
  generalize glowing 0.25 0.9 = t at *
  intro s t drawn paused xs ys
  have hm : List.Forall₂ Operation.Matches xs ys :=
    .cons (.same _) (.cons (.same _) (.cons
      (.decay (admitDecay_number (by decide +kernel)) (admitDecay_number (by decide +kernel)))
      (.cons (.same _) .nil)))
  obtain ⟨hout, -⟩ := afterglow_and_pauses_never_interfere.1 s t hst xs ys hm
  obtain ⟨hu, hpixels, -⟩ := afterglow_and_pauses_never_interfere.2 drawn hpaused hhalted
    [frameMs] (by intro ms hms; rw [List.mem_singleton.1 hms]; exact frameMs_isFinite)
  refine ⟨hst, hm, hlit, hglow, hdim, hout, hpaused, hhalted, frameMs_isFinite, ?_, ?_⟩
  · exact (congrArg (fun g : Grid => g[0]?) hpixels).trans hlit
  · exact (congrArg (fun c : Console => c.machine.cpu) hu).trans (withDisplay_cpu drawn _)

end Console
end Chip8
