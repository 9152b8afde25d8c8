/-
# `Chip8.Proofs.Waiting` — waiting for a key parks the machine

`waitKey` is the one instruction that takes more than one step.  As long as no
key is held, it sets a flag and puts the program counter back on itself; the
first step that finds a key stores its number and goes on:

    no key held      waiting, pc stays              cycles + 1
    key k is the     Vx := k, pc + 2, not waiting   cycles + 1
    lowest held

The flag can be trusted.  In every console that host calls lead to, it says
that the machine is not halted and stands on this instruction (`after_parked`).
What could make it stale is taken care of in different places: a reset and a
skip clear it, a fault leaves a machine that was not waiting, and nothing else
gets executed while the instruction is the one at the program counter, so the
program cannot overwrite it.

How long the wait is does not matter.  All that adds up is the count of
instructions and the time of the timers (`Rests`).
-/
import Chip8.Proofs.FaultFrame
import Chip8.Proofs.PowerOn
import Mathlib.Algebra.GroupWithZero.Nat

namespace Chip8

namespace Cpu

/-- The processor after the step that finds a key. -/
def receive (c : Cpu) (x : Int) (key : Nat) : Cpu :=
  { c.setReg x (UInt8.ofNat key) with
    pc := c.pc + 2
    cycles := c.cycles + 1
    waiting := false }

/-- The second processor is the first after it received a key: one register
has its number, the program counter is behind the instruction, the processor
does not wait any more, and the step is counted. -/
structure Received (c : Cpu) (x : Int) (key : Nat) (c' : Cpu) : Prop where
  stored : c'.reg? x = some (UInt8.ofNat key)
  others : ∀ y, y ≠ x → c'.reg? y = c.reg? y
  rest : c' = { c with
    v := c'.v
    pc := c.pc + 2
    cycles := c.cycles + 1
    waiting := false }

theorem received (c : Cpu) {x : Int} (hx : Instruction.IsDigit x) (key : Nat) :
    c.Received x key (c.receive x key) := by
  have hreg : ∀ y, (c.receive x key).reg? y =
      if y = x ∧ 0 ≤ x ∧ x < 16 then some (UInt8.ofNat key) else c.reg? y :=
    fun y => c.reg?_setReg x y (UInt8.ofNat key)
  refine ⟨?_, ?_, ?_⟩
  · rw [hreg, if_pos ⟨rfl, hx.1, hx.2⟩]
  · intro y hy
    rw [hreg, if_neg fun h => hy h.1]
  · rw [receive, setReg, if_pos hx.1]

end Cpu

namespace Machine

/-- The machine waits for a key, and a register is to receive it. -/
structure Awaits (m : Machine) (x : Int) : Prop where
  waiting : m.cpu.waiting = true
  fetched : ∃ w, m.fetchDecode = .ok (w, .waitKey x)

/-- The machine with so many more instructions counted. -/
def rest (m : Machine) (n : Nat) : Machine :=
  { m with cpu := { m.cpu with cycles := m.cpu.cycles + n } }

variable {m m' : Machine} {x : Int}

@[simp] theorem rest_zero (m : Machine) : m.rest 0 = m := rfl

theorem rest_rest (m : Machine) (a b : Nat) : (m.rest a).rest b = m.rest (a + b) := by
  simp only [rest, Nat.add_assoc]

theorem Awaits.rest (h : m.Awaits x) (n : Nat) : (m.rest n).Awaits x := ⟨h.waiting, h.fetched⟩

theorem Awaits.isDigit (h : m.Awaits x) : Instruction.IsDigit x := by
  obtain ⟨w, hd⟩ := h.fetched
  exact fetchDecode_inRange hd

/-- Without a key the step is counted, and nothing else happens. -/
theorem Awaits.step_of_none (h : m.Awaits x) (hk : m.keypad.firstDown = none) :
    m.step = (m.rest 1, .ok (.waitKey x)) := by
  obtain ⟨w, hd⟩ := h.fetched
  have hback := pcPlus_movePc hd
  rw [step_of_waitKey hd]
  simp only [takeKey, hk, hback]
  rw [← h.waiting]
  rfl

/-- With a key the machine goes on. -/
theorem Awaits.step_of_some (h : m.Awaits x) {key : Nat} (hk : m.keypad.firstDown = some key) :
    m.step = ({ m with cpu := m.cpu.receive x key }, .ok (.waitKey x)) := by
  obtain ⟨w, hd⟩ := h.fetched
  have hpc := movePc_pc hd
  have hx : 0 ≤ x := h.isDigit.1
  rw [step_of_waitKey hd]
  simp only [takeKey, hk, Cpu.receive, Cpu.setReg, if_pos hx, countCycle, hpc]
  rfl

end Machine

namespace Console

variable {s t u : Console} {x : Int} {a : Action}

/-! ## The flag can be trusted -/

/-- Host calls keep a waiting processor on the instruction that waits. -/
theorem perform_parked (h : s.machine.Parked) (a : Action) :
    (s.perform a).console.machine.Parked := by
  rcases s.perform_cases a with ⟨-, rom, hc⟩ | ⟨-, -, hc⟩ | ⟨-, -, hc⟩ | ⟨ms, -, hc⟩ | ⟨-, -, -, hadj⟩
  · rw [hc]; exact Machine.parked_of_not_waiting rfl
  · rw [hc]; exact Machine.parked_of_not_waiting rfl
  · rw [hc]; exact attempt_parked h
  · rw [hc]; exact runFrame_parked h ms
  · exact h.congr hadj.cpu hadj.memory

theorem after_parked {asked : Overrides} {env : Environment} {random : RandomSource}
    (h : create asked env random = .ok s) (actions : List Action) :
    (s.after actions).machine.Parked := by
  obtain ⟨cycles, decay, traceSteps, traceFaults, rfl⟩ := create_eq_ok h
  exact after_invariant (P := fun s => s.machine.Parked) (fun _ a _ hs => perform_parked hs a)
    (Machine.parked_of_not_waiting rfl)

/-- A console that waits is not halted, for no fault leaves a processor that
waits. -/
theorem halted_of_waiting (hp : s.machine.Parked) (hj : s.Justified)
    (hw : s.machine.cpu.waiting = true) : s.halted = false := by
  cases hh : s.halted with
  | false => rfl
  | true =>
      obtain ⟨f, -, hstop⟩ := hj hh
      rw [hp.waiting_of_stop hstop] at hw
      cases hw

/-! ## Resting -/

/-- Whether the timers run in a frame. -/
def ticking (s : Console) (ms : Float) : Bool := !s.paused && ms.isFinite

/-- The instructions of a call, if none of them faults. -/
def turns (s : Console) : Action → Nat
  | .step => 1
  | .frame ms => if s.ticking ms then s.cyclesPerFrame else 0
  | _ => 0

/-- The timers after a call, if no instruction sets them. -/
def elapse (s : Console) (timers : Timers Float) : Action → Timers Float
  | .frame ms => if s.ticking ms then (timers.advance ms).1 else timers
  | _ => timers

/-- The second console is the first with so many more instructions counted
and with these timers.  Its afterglow may be another, and so may the mark of
something drawn. -/
def Rests (s : Console) (n : Nat) (timers : Timers Float) (t : Console) : Prop :=
  ∃ d, d.pixels = s.machine.display.pixels ∧
    t = { s with machine := { s.machine.rest n with timers := timers, display := d } }

theorem Rests.refl (s : Console) : s.Rests 0 s.machine.timers s := ⟨s.machine.display, rfl, rfl⟩

theorem Rests.trans {n k : Nat} {timers timers' : Timers Float} (h : s.Rests n timers t)
    (h' : t.Rests k timers' u) : s.Rests (n + k) timers' u := by
  obtain ⟨d, hd, rfl⟩ := h
  obtain ⟨d', hd', rfl⟩ := h'
  refine ⟨d', hd'.trans hd, ?_⟩
  rw [← Machine.rest_rest]
  rfl

theorem Rests.awaits {n : Nat} {timers : Timers Float} (h : s.Rests n timers t)
    (ha : s.machine.Awaits x) : t.machine.Awaits x := by
  obtain ⟨d, -, rfl⟩ := h
  exact ⟨ha.waiting, ha.fetched⟩

theorem Rests.halted {n : Nat} {timers : Timers Float} (h : s.Rests n timers t) :
    t.halted = s.halted := by
  obtain ⟨d, -, rfl⟩ := h
  rfl

theorem Rests.keypad {n : Nat} {timers : Timers Float} (h : s.Rests n timers t) :
    t.machine.keypad = s.machine.keypad := by
  obtain ⟨d, -, rfl⟩ := h
  rfl

/-! ## Calls without a key -/

section Unheld

variable (h : s.machine.Awaits x) (hk : s.machine.keypad.firstDown = none)
include h hk

theorem attempt_of_awaits :
    s.attempt = ⟨{ s with machine := s.machine.rest 1 }, .ok none, s.stepLog⟩ := by
  rw [attempt, h.step_of_none hk]

/-- A burst runs to its end. -/
theorem burst_of_awaits (k n : Nat) (log : Array String) :
    (s.burst k log n).console = { s with machine := s.machine.rest n } ∧
      (s.burst k log n).answer = .ok (k + n, none) := by
  induction n generalizing s k log with
  | zero => exact ⟨rfl, rfl⟩
  | succ n ih =>
      simp only [burst, attempt_of_awaits h hk]
      obtain ⟨hcon, hans⟩ := ih (s := { s with machine := s.machine.rest 1 }) (h.rest 1) hk (k + 1)
        (log ++ s.stepLog)
      rw [hcon, hans, Machine.rest_rest, Nat.add_comm 1 n, Nat.add_assoc, Nat.add_comm 1 n]
      exact ⟨rfl, rfl⟩

theorem frameBurst_of_awaits (hh : s.halted = false) {ms : Float} (hms : ms.isFinite = true) :
    s.frameBurst.console = { s with machine := s.machine.rest (s.turns (.frame ms)) } ∧
      s.frameBurst.answer = .ok (s.turns (.frame ms), none) := by
  rcases s.frameBurst_cases with ⟨hp | hp, hb⟩ | ⟨hp, -, hb⟩
  · have hnone : s.turns (.frame ms) = 0 := if_neg (by rw [ticking, hp]; exact Bool.false_ne_true)
    rw [hb, hnone]
    exact ⟨rfl, rfl⟩
  · rw [hh] at hp
    cases hp
  · have hall : s.turns (.frame ms) = s.cyclesPerFrame := if_pos (by rw [ticking, hp, hms]; rfl)
    obtain ⟨hcon, hans⟩ := burst_of_awaits h hk 0 s.cyclesPerFrame #[]
    rw [hb, hall, hcon, hans, Nat.zero_add]
    exact ⟨rfl, rfl⟩

/-- A frame executes all its instructions, and its timers and its afterglow
go on. -/
theorem runFrame_of_awaits (hh : s.halted = false) {ms : Float} (hms : ms.isFinite = true) :
    (∃ r, (s.runFrame ms).answer = .ok r ∧ r.executed = s.turns (.frame ms) ∧ r.fault = none) ∧
      s.Rests (s.turns (.frame ms)) (s.elapse s.machine.timers (.frame ms))
        (s.runFrame ms).console := by
  obtain ⟨hcon, hans⟩ := frameBurst_of_awaits h hk hh hms
  rcases s.runFrame_cases ms with ⟨hms', -⟩ | ⟨e, he, -⟩ | ⟨-, executed, fault, hb, hc, ha⟩
  · rw [hms] at hms'; cases hms'
  · rw [hans] at he; cases he
  · rw [hans] at hb
    cases hb
    refine ⟨⟨_, ha, rfl, rfl⟩, ?_⟩
    rw [hc, closeFrame_eq, hcon]
    refine ⟨{ s.machine.display.advanceFrame with dirty := false }, rfl, ?_⟩
    simp only [elapse, ticking, hms, Bool.and_true]
    cases s.paused <;> rfl

/-- Single instructions and frames let the console rest. -/
theorem perform_of_awaits (hh : s.halted = false) (ha : a = .step ∨ ∃ ms, a = .frame ms) :
    s.Rests (s.turns a) (s.elapse s.machine.timers a) (s.perform a).console := by
  rcases ha with rfl | ⟨ms, rfl⟩
  · rw [perform, answering, stepInstruction_of_running hh, attempt_of_awaits h hk]
    exact ⟨s.machine.display, rfl, rfl⟩
  · cases hms : ms.isFinite with
    | true => exact (runFrame_of_awaits h hk hh hms).2
    | false =>
        -- such a frame is refused, and takes no time
        have hstill : s.ticking ms = false := by rw [ticking, hms, Bool.and_false]
        rw [perform, answering, runFrame, if_neg (by rw [hms]; decide), turns, elapse, hstill]
        exact .refl s

/-- However long the wait is, the console rests. -/
theorem after_of_awaits (hh : s.halted = false) {calls : List Action}
    (hc : ∀ a ∈ calls, a = .step ∨ ∃ ms, a = .frame ms) :
    s.Rests (calls.map s.turns).sum (calls.foldl s.elapse s.machine.timers) (s.after calls) := by
  induction calls generalizing s with
  | nil => exact .refl s
  | cons a rest ih =>
      have hfirst := perform_of_awaits h hk hh (hc a List.mem_cons_self)
      have hrest := fun b hb => hc b (List.mem_cons_of_mem a hb)
      rw [after_cons, List.map_cons, List.sum_cons, List.foldl_cons]
      -- the machine still waits, so the other calls find what the first one found
      have hawaits := hfirst.awaits h
      generalize (s.perform a).console = t at hfirst hawaits ⊢
      obtain ⟨d, hd, rfl⟩ := hfirst
      exact Rests.trans ⟨d, hd, rfl⟩ (ih hawaits hk hh hrest)

end Unheld

/-! ## With a key -/

/-- The console with other keys held. -/
def withKeypad (s : Console) (pad : Keypad) : Console :=
  { s with machine := { s.machine with keypad := pad } }

/-- The step that finds a key stores the lowest one and goes on. -/
theorem stepInstruction_of_held (h : s.machine.Awaits x) (hh : s.halted = false)
    (hk : s.machine.keypad.mask ≠ 0#16) :
    ∃ key : Nat, key < 16 ∧ s.machine.keypad.isDown key = true ∧
      (∀ k : Nat, k < key → s.machine.keypad.isDown k = false) ∧
      ∃ c, s.machine.cpu.Received x key c ∧
        s.machine.step = ({ s.machine with cpu := c }, .ok (.waitKey x)) ∧
        s.stepInstruction =
          ⟨{ s with machine := { s.machine with cpu := c } }, .ok none, s.stepLog⟩ := by
  cases hf : s.machine.keypad.firstDown with
  | none => exact absurd (Keypad.firstDown_eq_none.1 hf) hk
  | some key =>
      obtain ⟨hlt, hdown, hbelow⟩ := Keypad.firstDown_eq_some hf
      have hstep := h.step_of_some hf
      refine ⟨key, hlt, hdown, hbelow, _, s.machine.cpu.received h.isDigit key, hstep, ?_⟩
      rw [stepInstruction_of_running hh, attempt, hstep]

/-- In every console that host calls lead to, the flag means that the machine
is not halted and stands on the instruction that waits.  Single instructions
and frames, in any number, then leave it as it is, but for the count of
instructions, the time of the timers and the afterglow.  The first step that
finds keys stores the lowest of them and goes on. -/
theorem waiting_is_parked {asked : Overrides} {env : Environment} {random : RandomSource}
    {start : Console} (hc : create asked env random = .ok start) (actions : List Action)
    (hw : (start.after actions).machine.cpu.waiting = true) :
    let s := start.after actions
    s.halted = false ∧ ∃ x, 0 ≤ x ∧ x < 16 ∧
      (∃ w, s.machine.fetchDecode = .ok (w, .waitKey x)) ∧
      ∀ calls : List Action, (∀ a ∈ calls, a = .step ∨ ∃ ms, a = .frame ms) →
        (calls = [] ∨ s.machine.keypad.mask = 0#16) →
        let t := s.after calls
        s.Rests (calls.map s.turns).sum (calls.foldl s.elapse s.machine.timers) t ∧
          (s.machine.keypad.mask = 0#16 → t.stepInstruction.answer = .ok none ∧
            ∀ ms : Float, ms.isFinite = true → ∃ r, (t.runFrame ms).answer = .ok r ∧
              r.executed = t.turns (.frame ms) ∧ r.fault = none) ∧
          ∀ pad : Keypad, pad.mask ≠ 0#16 →
            ∃ key : Nat, key < 16 ∧ pad.isDown key = true ∧
              (∀ k : Nat, k < key → pad.isDown k = false) ∧
              let u := t.withKeypad pad
              ∃ c, t.machine.cpu.Received x key c ∧
                u.machine.step = ({ u.machine with cpu := c }, .ok (.waitKey x)) ∧
                u.stepInstruction =
                  ⟨{ u with machine := { u.machine with cpu := c } }, .ok none, u.stepLog⟩ := by
  intro s
  have hparked : s.machine.Parked := after_parked hc actions
  obtain ⟨w, x, hd⟩ := hparked hw
  have hh : s.halted = false := halted_of_waiting hparked (after_justified hc actions) hw
  have hawaits : s.machine.Awaits x := ⟨hw, w, hd⟩
  have hx := hawaits.isDigit
  refine ⟨hh, x, hx.1, hx.2, ⟨w, hd⟩, ?_⟩
  intro calls hcalls hkeys t
  have hrests : s.Rests (calls.map s.turns).sum (calls.foldl s.elapse s.machine.timers) t := by
    rcases hkeys with rfl | hmask
    · exact .refl s
    · exact after_of_awaits hawaits (Keypad.firstDown_eq_none.2 hmask) hh hcalls
  have ht := hrests.awaits hawaits
  have hth : t.halted = false := hrests.halted.trans hh
  refine ⟨hrests, ?_, ?_⟩
  · intro hmask
    have hk : t.machine.keypad.firstDown = none := by
      rw [hrests.keypad]
      exact Keypad.firstDown_eq_none.2 hmask
    refine ⟨?_, fun ms hms => (runFrame_of_awaits ht hk hth hms).1⟩
    rw [stepInstruction_of_running hth, attempt_of_awaits ht hk]
  · intro pad hpad
    exact stepInstruction_of_held (s := t.withKeypad pad) ⟨ht.waiting, ht.fetched⟩ hth hpad

/-- The program waits for a key. -/
def keyWait : Rom := ⟨[0xF0, 0x0A], none, by decide⟩

/-- A new console with this program. -/
def keyWaitLoaded : Console :=
  { fresh 10 defaultDecay (RandomSource.cycle #[]) false false with
    rom := some keyWait
    machine := { Machine.initial defaultDecay (RandomSource.cycle #[]) with
      memory := Memory.initial.put programStart keyWait.data } }

theorem after_keyWait :
    (fresh 10 defaultDecay (RandomSource.cycle #[]) false false).after
      [.loadRom keyWait.data none, .step] = keyWaitLoaded.stepInstruction.console := by
  rw [after_cons, perform, show (none : Option String) = keyWait.name from rfl, fresh_loadRom]
  simp only [granted, after_cons, after_nil, perform, answering]
  unfold keyWaitLoaded
  rfl

theorem keyWaitLoaded_waiting :
    keyWaitLoaded.stepInstruction.console.machine.cpu.waiting = true ∧
      keyWaitLoaded.stepInstruction.console.machine.keypad.mask = 0#16 := by
  decide +kernel

/-- After two more steps and a frame the keys 7 and 5 are pressed, and the
step finds the 5. -/
theorem waiting_is_parked_until_pressed :
    let start := fresh 10 defaultDecay (RandomSource.cycle #[]) false false
    let actions : List Action := [.loadRom keyWait.data none, .step]
    let calls : List Action := [.step, .step, .frame frameMs]
    let pad := (Keypad.initial.set 7 true).set 5 true
    create .none .empty (RandomSource.cycle #[]) = .ok start ∧
      (start.after actions).machine.cpu.waiting = true ∧
      (∀ a ∈ calls, a = .step ∨ ∃ ms, a = .frame ms) ∧
      (start.after actions).machine.keypad.mask = 0#16 ∧
      ((start.after actions).after calls).halted = false ∧
      pad.mask ≠ 0#16 ∧
      ∃ x c, ((start.after actions).after calls).machine.cpu.Received x 5 c ∧
        (((start.after actions).after calls).withKeypad pad).stepInstruction.answer = .ok none := by
  intro start actions calls pad
  have hc : create .none .empty (RandomSource.cycle #[]) = .ok start := rfl
  have hs : start.after actions = keyWaitLoaded.stepInstruction.console := after_keyWait
  have hwait : (start.after actions).machine.cpu.waiting = true := by
    rw [hs]
    exact keyWaitLoaded_waiting.1
  have hmask : (start.after actions).machine.keypad.mask = 0#16 := by
    rw [hs]
    exact keyWaitLoaded_waiting.2
  have hcalls : ∀ a ∈ calls, a = .step ∨ ∃ ms, a = .frame ms :=
    List.forall_mem_cons.2 ⟨.inl rfl, List.forall_mem_cons.2 ⟨.inl rfl,
      List.forall_mem_singleton.2 (.inr ⟨frameMs, rfl⟩)⟩⟩
  have hpad : pad.mask ≠ 0#16 := by decide
  obtain ⟨hh, x, -, -, -, hparked⟩ := waiting_is_parked hc actions hwait
  obtain ⟨hrests, -, hheld⟩ := hparked calls hcalls (.inr hmask)
  obtain ⟨key, hlt, hdown, hbelow, c, hrec, -, hstep⟩ := hheld pad hpad
  have hkey : key = 5 := by
    have hall : ∀ k < 16, pad.isDown (k : Nat) = true → (∀ j < k, pad.isDown (j : Nat) = false) →
        k = 5 := by decide
    exact hall key hlt hdown hbelow
  rw [hkey] at hrec
  exact ⟨hc, hwait, hcalls, hmask, hrests.halted.trans hh, hpad, x, c, hrec,
    congrArg Call.answer hstep⟩

end Console
end Chip8
