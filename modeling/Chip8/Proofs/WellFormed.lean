/-
# `Chip8.Proofs.WellFormed` — machines that host calls lead to

Whatever program is loaded and whatever a host calls in whatever order, the
machine stays within these bounds (`Machine.WellFormed`), where `k` counts the
instructions that the host has skipped since power-on:

    registers           0 … 0xFF
    i                   0 … 0xFFF
    sp                  0 … 16
    return addresses    0 … 0x1000, pushed as they are
    pc                  0 … 0x1002 + 2k
    pixels              0, 1
    keys                0 … 0xFFFF

and a step that does not complete ends in one of four faults.

The delay and the sound timer are not in the table.  They were meant to be,
but a frame of finite time may be so long that sixty times its milliseconds
are infinite, and then the next frame makes both timers no numbers
(`frames_lose_count`).  `run_wellFormed` gives the runs in which this happens,
and only in those a timer is ever no byte.
-/
import Chip8.Proofs.CallStack
import Chip8.Proofs.LostCount

namespace Chip8

namespace Machine

variable {m m' : Machine} {k : Nat}

/-- The names of the faults that can stop a step. -/
def stepFaults : List String :=
  ["DecodeFault", "MemoryBoundsFault", "StackOverflowFault", "StackUnderflowFault"]

/-- A machine of which the host has skipped `k` instructions since
power-on. -/
structure WellFormed (k : Nat) (m : Machine) : Prop where
  registers : ∀ x, (m.cpu.v.get x).toNat ≤ 0xFF
  index : 0 ≤ m.cpu.i ∧ m.cpu.i ≤ 0xFFF
  depth : m.cpu.sp ≤ 16
  returns : ∀ a ∈ m.cpu.returns, a.toNat ≤ 0x1000
  pc : 0 ≤ m.cpu.pc ∧ m.cpu.pc ≤ 0x1002 + 2 * k
  pixels : ∀ b ∈ m.display.pixels.bytes, b = 0 ∨ b = 1
  keys : m.keypad.mask.toNat ≤ 0xFFFF
  /-- A call pushes the address behind it, all of it. -/
  pushed : ∀ addr, m.step.2 = .ok (.call addr) →
    m.step.1.cpu.returns.map (fun a => (a.toNat : Int)) =
      m.cpu.returns.map (fun a => (a.toNat : Int)) ++ [m.cpu.pc + 2]
  stopped : ∀ e, m.step.2 = .error e → ∃ f, e = .fault f ∧ f.name ∈ stepFaults

theorem name_mem_stepFaults {f : Fault} (h : m.stop? = some f) : f.name ∈ stepFaults := by
  rcases stop?_eq_some h with ⟨a, access, rfl⟩ | ⟨w, rfl⟩ | rfl | rfl
  · exact .tail _ (.head _)
  · exact .head _
  · exact .tail _ (.tail _ (.head _))
  · exact .tail _ (.tail _ (.tail _ (.head _)))

/-- With a steady random source only the faults are left. -/
theorem step_error {e : Failure} (hr : m.random.Steady) (h : m.step.2 = .error e) :
    ∃ f, e = .fault f ∧ f.name ∈ stepFaults := by
  rcases m.step_cases with ⟨f, hf, he⟩ | ⟨w, ins, m', -, -, -, he⟩ | ⟨-, hn, -⟩
  · rw [he] at h
    cases h
    exact ⟨f, rfl, name_mem_stepFaults hf⟩
  · rw [he] at h; cases h
  · exact absurd hn hr.next

end Machine

namespace Console

variable {s start : Console} {k : Nat}

theorem Bounded.wellFormed (h : s.Bounded k) : s.machine.WellFormed k where
  registers _ := Nat.le_of_lt_succ (UInt8.toNat_lt _)
  index := ⟨h.cpu.index_nonneg, h.cpu.index_le⟩
  depth := h.cpu.depth_le
  returns := h.cpu.returns_le
  pc := ⟨h.pc_nonneg, h.pc_le⟩
  pixels := Grid.bytes_le_one _
  keys := Nat.le_of_lt_succ (BitVec.isLt _)
  pushed _ := Machine.step_call
  stopped _ := Machine.step_error h.random

/-- Every list of host calls leads to a well-formed machine, and the timers
are bytes all along it if and only if it does not lose count. -/
theorem run_wellFormed {asked : Overrides} {env : Environment} {random : RandomSource}
    (hc : create asked env random = .ok start) (hr : random.Steady) (actions : List Action) :
    (start.after actions).machine.WellFormed (start.skips 0 actions) ∧
      ((∀ before, before <+: actions → (start.after before).machine.timers.Bytes) ↔
        ¬ start.LosesCount actions) := by
  have hb := create_bounded hc hr
  have ht : start.machine.timers = Timers.initial := by
    obtain ⟨cycles, decay, traceSteps, traceFaults, rfl⟩ := create_eq_ok hc
    rfl
  exact ⟨(hb.after actions).wellFormed, bytes_iff_not_losesCount hb ht actions⟩

/-- Without a program the first step faults, and one instruction is
skipped. -/
theorem run_wellFormed_without_a_program :
    let start := fresh 10 defaultDecay (RandomSource.cycle #[]) false false
    let actions : List Action := [.step, .skip, .frame 16]
    create .none .empty (RandomSource.cycle #[]) = .ok start ∧
      (RandomSource.cycle #[]).Steady ∧ start.skips 0 actions = 1 ∧
      (start.after actions).machine.WellFormed 1 := by
  intro start actions
  have hc : create .none .empty (RandomSource.cycle #[]) = .ok start := rfl
  have hr : (RandomSource.cycle #[]).Steady := RandomSource.cycle_steady (by decide)
  have hk : start.skips 0 actions = 1 := by
    simp only [start, actions]
    decide +kernel
  obtain ⟨hw, -⟩ := run_wellFormed hc hr actions
  rw [hk] at hw
  exact ⟨hc, hr, hk, hw⟩

/-- Two frames in a row lose count if the first of them is very long. -/
theorem unknown_after_frames (hb : s.Bounded k) (ht : s.machine.timers = Timers.initial)
    (hp : s.paused = false) {ms ms' : Float} (hms : ms.isFinite = true)
    (hpos : ¬ ms ≤ Scalar.ofInt 0) (ho : Overflows ms) (hms' : ms'.isFinite = true)
    (hpos' : ¬ ms' ≤ Scalar.ofInt 0) :
    (s.after [.frame ms, .frame ms']).machine.timers.delay = .unknown ∧
      (s.after [.frame ms, .frame ms']).machine.timers.sound = .unknown := by
  have hl : (s.after []).LetsPass ms := ⟨hp, hms, hpos⟩
  have hl' : (s.after ([] ++ .frame ms :: [])).LetsPass ms' :=
    ⟨(s.runFrame_paused ms).trans hp, hms', hpos'⟩
  exact unknown_after hb ht hl ho (List.forall_mem_nil _) hl'

/-- Twice a frame of a finite time, but sixty times that is infinite. -/
theorem frames_lose_count :
    let random := RandomSource.cycle #[]
    let start := fresh 10 defaultDecay random false false
    let actions : List Action := [.loadRom [] none, .frame 1e308, .frame 16]
    create .none .empty random = .ok start ∧ random.Steady ∧
      (1e308 : Float).isFinite = true ∧ (16 : Float).isFinite = true ∧
      (start.after actions).machine.timers.delay = .unknown ∧
      (start.after actions).machine.timers.sound = .unknown ∧
      ¬ (start.after actions).machine.timers.Bytes := by
  intro random start actions
  have hr : random.Steady := RandomSource.cycle_steady (by decide)
  have hc : create .none .empty random = .ok start := rfl
  have hb := (create_bounded hc hr).perform (.loadRom [] none)
  have hms : (1e308 : Float).isFinite = true := by decide +kernel
  have hms' : (16 : Float).isFinite = true := by decide +kernel
  have ho : Overflows 1e308 := by
    unfold Overflows
    decide +kernel
  obtain ⟨hd, hs⟩ :=
    unknown_after_frames hb rfl rfl hms (by decide +kernel) ho hms' (by decide +kernel)
  rw [← after_cons] at hd hs
  simp only [actions]
  refine ⟨hc, hr, hms, hms', hd, hs, fun h => ?_⟩
  obtain ⟨n, -, hn⟩ := h.1
  rw [hd] at hn
  cases hn

end Console
end Chip8
