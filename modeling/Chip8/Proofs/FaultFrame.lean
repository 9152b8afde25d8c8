/-
# `Chip8.Proofs.FaultFrame` — what a frame reports and what it leaves

A frame reports how many instructions it completed and the fault that ended
them.  What it leaves agrees with the report:

    report                 console after it
    executed = n           n more cycles than before
    fault = none           not halted
    fault = some f         halted, f is the last fault, and f is what stops the
                           instruction at the program counter

The processor that a fault leaves is not waiting for a key.  It could only be
waiting if the instruction at its program counter were the one that waits, and
that one never faults.  This is an invariant of a processor that a host does
not write to (`Machine.Parked`).
-/
import Chip8.Proofs.FrameSteps
import Chip8.Proofs.Frozen

namespace Chip8

/-! ## A waiting processor stands on the instruction that waits -/

theorem Cpu.Moves.waiting {c c' : Cpu} {ins : Instruction Int} (h : c.Moves ins c')
    (hw : ∀ x, ins ≠ .waitKey x) : c'.waiting = c.waiting := by
  cases h with
  | park => exact absurd rfl (hw _)
  | take v => exact absurd rfl (hw _)
  | _ => rfl

namespace Machine

variable {m m' : Machine} {f : Fault}

/-- A processor that waits for a key stands on the instruction that does. -/
def Parked (m : Machine) : Prop :=
  m.cpu.waiting = true → ∃ w x, m.fetchDecode = .ok (w, .waitKey x)

theorem parked_of_not_waiting (h : m.cpu.waiting = false) : m.Parked :=
  fun hw => absurd (h.symm.trans hw) Bool.false_ne_true

theorem Parked.congr (h : m.Parked) (hc : m'.cpu = m.cpu) (hm : m'.memory = m.memory) :
    m'.Parked := by
  rw [Parked, fetchDecode, hc, hm]
  exact h

theorem parked_of_waitKey {w : Nat} {x : Int} (hd : m.fetchDecode = .ok (w, .waitKey x))
    (hx : (m.movePc 2).execute (.waitKey x) = (m', none)) : m'.countCycle.Parked := by
  have hback := pcPlus_movePc hd
  simp only [execute, takeKey] at hx
  cases hk : (m.movePc 2).keypad.firstDown with
  | none =>
      rw [hk] at hx
      cases hx
      refine fun _ => ⟨w, x, ?_⟩
      rw [← hd]
      simp only [fetchDecode, countCycle, hback]
      rfl
  | some key =>
      rw [hk] at hx
      cases hx
      obtain ⟨v, hv⟩ :=
        ({ (m.movePc 2).cpu with waiting := false } : Cpu).setReg_eq x (UInt8.ofNat key)
      refine parked_of_not_waiting ?_
      show (({ (m.movePc 2).cpu with waiting := false } : Cpu).setReg x (UInt8.ofNat key)).waiting =
        false
      rw [hv]

/-- The instruction that waits completes, whatever the keys. -/
theorem step_of_waitKey {w : Nat} {x : Int} (hd : m.fetchDecode = .ok (w, .waitKey x)) :
    m.step = (({ m.movePc 2 with cpu := takeKey (m.movePc 2).cpu m.keypad x } : Machine).countCycle,
      .ok (.waitKey x)) := by
  rw [step, hd]
  rfl

/-- Every instruction that completes keeps to it: the one that waits stays
where it is, and all others begin with a processor that does not wait. -/
theorem Parked.countCycle {w : Nat} {ins : Instruction Int} (h : m.Parked)
    (hd : m.fetchDecode = .ok (w, ins)) (hx : (m.movePc 2).execute ins = (m', none)) :
    m'.countCycle.Parked := by
  by_cases hw : ∃ x, ins = .waitKey x
  · obtain ⟨x, rfl⟩ := hw
    exact parked_of_waitKey hd hx
  · have hn : ∀ x, ins ≠ .waitKey x := fun x hx => hw ⟨x, hx⟩
    have hstill : m.cpu.waiting = false := by
      cases hwait : m.cpu.waiting with
      | false => rfl
      | true =>
          obtain ⟨w', x, hd'⟩ := h hwait
          rw [hd] at hd'
          cases hd'
          exact absurd rfl (hn x)
    exact parked_of_not_waiting (((execute_moves hx).waiting hn).trans hstill)

/-- A fault leaves no waiting processor. -/
theorem Parked.waiting_of_stop (h : m.Parked) (hs : m.stop? = some f) : m.cpu.waiting = false := by
  cases hw : m.cpu.waiting with
  | false => rfl
  | true =>
      obtain ⟨w, x, hd⟩ := h hw
      rw [stop?_of_fetchDecode_ok hd] at hs
      cases hs

end Machine

namespace Console

variable {s : Console} {r : Frame} {ms : Float} {f : Fault}

theorem attempt_parked (h : s.machine.Parked) : s.attempt.console.machine.Parked := by
  rcases s.attempt_cases with ⟨f, -, ha⟩ | ⟨w, ins, m', -, hd, hx, ha⟩ | ⟨-, -, ha⟩
  · rw [ha]; exact h
  · rw [ha]; exact h.countCycle hd hx
  · -- the instruction that waits asks for no random number
    rw [ha]
    intro hw
    obtain ⟨w, x, hd⟩ := h hw
    have hnone : s.attempt.answer = .ok none := by
      rw [attempt, Machine.step_of_waitKey hd]
    rw [ha] at hnone
    cases hnone

/-- A frame keeps to it as well. -/
theorem runFrame_parked (h : s.machine.Parked) (ms : Float) :
    (s.runFrame ms).console.machine.Parked := by
  have hb : s.frameBurst.console.machine.Parked :=
    frameBurst_invariant (P := fun t => t.machine.Parked) (fun _ _ ht => attempt_parked ht) h
  rcases s.runFrame_cases ms with ⟨-, hc⟩ | ⟨e, -, hc⟩ | ⟨-, executed, fault, -, hc, -⟩
  · rw [hc]; exact h
  · rw [hc]; exact hb
  · rw [hc]
    have hz := closeFrame_frozen s.frameBurst.console ms executed fault
    exact hb.congr hz.cpu hz.memory

/-! ## The report -/

/-- The console is halted by the fault of a report, or not at all. -/
structure Marked (s : Console) (fault : Option Fault) : Prop where
  halted : s.halted = fault.isSome
  lastFault : ∀ f, fault = some f → s.lastFault = some f
  stop? : ∀ f, fault = some f → s.machine.stop? = some f

end Console
end Chip8
