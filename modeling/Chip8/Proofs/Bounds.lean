/-
# `Chip8.Proofs.Bounds` — how far the processor can get

The index and the program counter are integers, and a stack cell holds
sixteen bits of whatever is pushed.  Nothing in the types keeps them small.
What does is the following invariant, which has to be joint, since each
bound rests on another:

    0 ≤ i ≤ 0xFFF                    every write to the index is wrapped
    sp ≤ 16                          a call checks first
    live return addresses ≤ 0x1000   a call pushes the pc behind it, and it was
                                     fetched from at most 4094
    0 ≤ pc ≤ 0x1002 + 2k             a return takes a live return address

`k` is the number of times that the host has skipped a faulting instruction
since power-on.  A completed instruction leaves the program counter at 0x1002
at most: it was fetched from inside the memory, and it skips at most once.
Only the host can go on skipping out there, by two each time.

Up to `2 ^ 53`, that is.  The program counter is a double, and beyond, adding
two is rounded.  The bound survives because it is rounded *down* in the two
places where it is rounded at all: at `2 ^ 53 + 1`, which goes to `2 ^ 53`,
and at `2 ^ 54 + 2`, which goes to `2 ^ 54` and stays there
(`Double.TwoStep`).
-/
import Chip8.Proofs.FrameSteps
import Chip8.Proofs.Reachable

namespace Chip8

/-! ## Steps of two in doubles -/

namespace Double

/-- What steps of two lead to: small numbers, then even ones. -/
def TwoStep (n : Int) : Prop := n ≤ 2 ^ 53 ∨ (n ≤ 2 ^ 54 ∧ n % 2 = 0)

/-- Between `2 ^ 53` and `2 ^ 54` the even integers are doubles. -/
theorem nearest_even {n : Int} (h₀ : 2 ^ 53 < n) (h₁ : n < 2 ^ 54) (he : n % 2 = 0) :
    nearest n = n := by
  have hlog : Nat.log2 n.natAbs = 53 := (Nat.log2_eq_iff (by omega)).2 ⟨by omega, by omega⟩
  have hmod : n.natAbs % 2 ^ 1 = 0 := by omega
  rw [nearest, if_neg (by omega), hlog]
  simp only [halfEven, hmod, signed, decide_eq_true_eq]
  rw [if_neg (by omega), if_pos (.inl (by decide))]
  omega

/-- A step of two goes two up, or less. -/
theorem nearest_add_two {n : Int} (h₀ : 0 ≤ n) (h : TwoStep n) :
    0 ≤ nearest (n + 2) ∧ nearest (n + 2) ≤ n + 2 ∧ TwoStep (nearest (n + 2)) := by
  by_cases hs : n + 2 ≤ 2 ^ 53
  · rw [nearest_eq_self (by omega)]
    exact ⟨by omega, by omega, .inl hs⟩
  by_cases hodd : n = 2 ^ 53 - 1
  · subst hodd
    rw [show nearest (2 ^ 53 - 1 + 2) = 2 ^ 53 by decide +kernel]
    exact ⟨by decide, by decide, .inl (by decide)⟩
  by_cases htop : n = 2 ^ 54
  · subst htop
    rw [show nearest (2 ^ 54 + 2) = 2 ^ 54 by decide +kernel]
    exact ⟨by decide, by decide, .inr (by decide)⟩
  by_cases hlast : n = 2 ^ 54 - 2
  · subst hlast
    rw [show nearest (2 ^ 54 - 2 + 2) = 2 ^ 54 by decide +kernel]
    exact ⟨by decide, by decide, .inr (by decide)⟩
  have he : n % 2 = 0 ∧ n ≤ 2 ^ 54 := by
    rcases h with h | ⟨h, he⟩
    · exact ⟨by omega, by omega⟩
    · exact ⟨he, h⟩
  rw [nearest_even (by omega) (by omega) (by omega)]
  exact ⟨by omega, by omega, .inr ⟨by omega, by omega⟩⟩

end Double

/-! ## The processor -/

namespace Cpu

/-- The bounds of the index and of the stack. -/
structure Bounded (c : Cpu) : Prop where
  index_nonneg : 0 ≤ c.i
  index_le : c.i ≤ 0xFFF
  depth_le : c.sp ≤ stackDepth
  returns_le : ∀ a ∈ c.returns, a.toNat ≤ 0x1000

variable {c c' : Cpu} {ins : Instruction Int}

theorem initial_bounded (pc : Int) : (initial pc).Bounded :=
  ⟨Int.le_refl 0, (by decide : (0 : Int) ≤ 0xFFF), Nat.zero_le _, nofun⟩

/-- The last live return address, which a return goes to. -/
theorem last_mem_returns (h : 0 < c.sp) (hs : c.sp ≤ stackDepth) :
    c.stack[c.sp - 1]?.getD 0 ∈ c.returns := by
  have hl : c.sp - 1 < 16 := by simp only [stackDepth] at hs; omega
  rw [returns, Vector.getElem?_eq_getElem hl, Option.getD_some, List.mem_take_iff_getElem]
  exact ⟨c.sp - 1, by rw [Vector.length_toList]; omega, Vector.getElem_toList _⟩

/-- A call puts its return address behind the live ones. -/
theorem returns_push (h : c.sp < stackDepth) (a : UInt16) (pc : Int) :
    ({ c with stack := c.stack.setIfInBounds c.sp a, sp := c.sp + 1, pc := pc } : Cpu).returns =
      c.returns ++ [a] := by
  have hl : c.sp < c.stack.toList.length := by rw [Vector.length_toList]; exact h
  simp only [returns, Vector.toList_setIfInBounds]
  rw [List.take_succ_eq_append_getElem (by rw [List.length_set]; exact hl),
    List.take_set_of_le (Nat.le_refl _), List.getElem_set_self]

/-- A program counter that fits sixteen bits is pushed as it is. -/
theorem pushed_toNat {pc : Int} (h₀ : 0 ≤ pc) (h₁ : pc ≤ 0x1000) :
    ((UInt16.ofNat (pc % 65536).toNat).toNat : Int) = pc := by
  rw [UInt16.toNat_ofNat']
  omega

/-- Every instruction keeps the bounds, if it was fetched from the memory. -/
theorem Moves.bounded (h : c.Moves ins c') (hc : c.Bounded) (h₀ : 0 ≤ c.pc)
    (h₁ : c.pc ≤ 0x1000) : c'.Bounded := by
  cases h with
  | index v i _ hi₀ hi₁ => exact ⟨hi₀, hi₁, hc.depth_le, hc.returns_le⟩
  | ret hs =>
      refine ⟨hc.index_nonneg, hc.index_le, by have := hc.depth_le; simp only; omega, ?_⟩
      intro a ha
      exact hc.returns_le a ((List.take_subset_take_left _ (Nat.sub_le c.sp 1)) ha)
  | call hs =>
      refine ⟨hc.index_nonneg, hc.index_le, hs, ?_⟩
      intro a ha
      rw [returns_push hs] at ha
      rcases List.mem_append.1 ha with ha | ha
      · exact hc.returns_le a ha
      · have hp := pushed_toNat h₀ h₁
        rw [List.mem_singleton.1 ha]
        omega
  | _ => exact ⟨hc.index_nonneg, hc.index_le, hc.depth_le, hc.returns_le⟩

/-- No instruction leads below the memory. -/
theorem Moves.pc_nonneg (h : c.Moves ins c') (h₀ : 2 ≤ c.pc) (h₁ : c.pc ≤ 0x1000) :
    0 ≤ c'.pc := by
  cases h with
  | goTo pc _ hp₀ _ => exact hp₀
  | skip _ => rw [pcPlus_eq (by omega)]; simp only; omega
  | park => rw [pcPlus_eq (by omega)]; simp only; omega
  | ret hs => exact Int.natCast_nonneg _
  | call hs => exact wrapAddress_nonneg _
  | _ => simp only; omega

/-- No instruction leads farther than two behind the memory. -/
theorem Moves.pc_le (h : c.Moves ins c') (hc : c.Bounded) (h₀ : 2 ≤ c.pc)
    (h₁ : c.pc ≤ 0x1000) : 0 ≤ c'.pc ∧ c'.pc ≤ 0x1002 := by
  refine ⟨h.pc_nonneg h₀ h₁, ?_⟩
  cases h with
  | goTo pc _ _ hp₁ => simp only; omega
  | skip _ => rw [pcPlus_eq (by omega)]; simp only; omega
  | park => rw [pcPlus_eq (by omega)]; simp only; omega
  | ret hs =>
      have hr := hc.returns_le _ (last_mem_returns hs hc.depth_le)
      simp only
      omega
  | call hs => have := wrapAddress_le ‹Int›; simp only; omega
  | _ => simp only; omega

end Cpu

/-! ## The console -/

namespace Console

variable {s : Console} {k : Nat}

/-- How often a call skips an instruction: once, if it is a skip and the
console is halted. -/
def skipped (s : Console) : Action → Nat
  | .skip => if s.halted then 1 else 0
  | _ => 0

/-- The skips since power-on, after one more call. -/
def skipsNext (s : Console) (k : Nat) (a : Action) : Nat :=
  if a.restarts then 0 else k + s.skipped a

/-- The skips since power-on, after a list of calls. -/
def skips (s : Console) (k : Nat) : List Action → Nat
  | [] => k
  | a :: rest => (s.perform a).console.skips (s.skipsNext k a) rest

/-- The bounds of the processor after `k` skips. -/
structure Bounded (k : Nat) (s : Console) : Prop where
  cpu : s.machine.cpu.Bounded
  pc_nonneg : 0 ≤ s.machine.cpu.pc
  pc_le : s.machine.cpu.pc ≤ 0x1002 + 2 * k
  twoStep : Double.TwoStep s.machine.cpu.pc
  random : s.machine.random.Steady

theorem bounded_of_initial (hc : s.machine.cpu = Cpu.initial programStart)
    (hr : s.machine.random.Steady) : s.Bounded 0 := by
  have hpc : s.machine.cpu.pc = 0x200 := by rw [hc]; rfl
  refine ⟨?_, ?_, ?_, .inl ?_, hr⟩
  · rw [hc]; exact Cpu.initial_bounded programStart
  · rw [hpc]; decide
  · rw [hpc]; decide
  · rw [hpc]; decide

theorem Bounded.congr {t : Console} (h : s.Bounded k) (hc : t.machine.cpu = s.machine.cpu)
    (hr : t.machine.random = s.machine.random) : t.Bounded k := by
  obtain ⟨h₁, h₂, h₃, h₄, h₅⟩ := h
  refine ⟨?_, ?_, ?_, ?_, ?_⟩
  · rw [hc]; exact h₁
  · rw [hc]; exact h₂
  · rw [hc]; exact h₃
  · rw [hc]; exact h₄
  · rw [hr]; exact h₅

/-- A completed instruction needs no skips. -/
theorem Bounded.countCycle {w : Nat} {ins : Instruction Int} {m' : Machine} (h : s.Bounded k)
    (hd : s.machine.fetchDecode = .ok (w, ins))
    (hx : (s.machine.movePc 2).execute ins = (m', none)) :
    ({ s with machine := m'.countCycle } : Console).Bounded k := by
  have hpc := Machine.fetchDecode_pc hd
  have hmv := Machine.movePc_pc hd
  have hmoves := Machine.execute_moves hx
  obtain ⟨hi₀, hi₁, hsp, hret⟩ := h.cpu
  -- the fetch bounds the program counter anew, so the old bound is not needed
  have hb : (s.machine.movePc 2).cpu.Bounded := ⟨hi₀, hi₁, hsp, hret⟩
  have hle := hmoves.pc_le hb (by omega) (by omega)
  obtain ⟨hi₀', hi₁', hsp', hret'⟩ := hmoves.bounded hb (by omega) (by omega)
  refine ⟨⟨hi₀', hi₁', hsp', hret'⟩, hle.1, ?_, .inl ?_, Machine.countCycle_steady h.random hx⟩
  · simp only [Machine.countCycle]; omega
  · simp only [Machine.countCycle]; omega

theorem Bounded.attempt (h : s.Bounded k) : s.attempt.console.Bounded k := by
  rcases attempt_steady h.random with ⟨f, -, ha⟩ | ⟨w, ins, m', -, hd, hx, ha⟩
  · rw [ha]; exact h.congr rfl rfl
  · rw [ha]; exact h.countCycle hd hx

theorem Bounded.runFrame (h : s.Bounded k) (ms : Float) : (s.runFrame ms).console.Bounded k := by
  have hb : s.frameBurst.console.Bounded k := frameBurst_invariant (fun _ _ h => h.attempt) h
  rcases s.runFrame_cases ms with ⟨-, hc⟩ | ⟨e, -, hc⟩ | ⟨-, executed, fault, -, hc, -⟩
  · rw [hc]; exact h
  · rw [hc]; exact hb
  · rw [hc, closeFrame_eq]; exact hb.congr rfl rfl

/-- A skip moves the program counter by two, or rounds it down. -/
theorem Bounded.skip (h : s.Bounded k) :
    ({ s with
      machine := { s.machine with cpu := s.machine.cpu.skip }
      halted := false
      lastFault := none } : Console).Bounded (k + 1) := by
  obtain ⟨hp₀, hp₁, hp₂⟩ := Double.nearest_add_two h.pc_nonneg h.twoStep
  have hle := h.pc_le
  refine ⟨⟨h.cpu.index_nonneg, h.cpu.index_le, h.cpu.depth_le, h.cpu.returns_le⟩, hp₀, ?_, hp₂,
    h.random⟩
  simp only [Cpu.skip, Cpu.pcPlus]
  omega

theorem Bounded.perform (h : s.Bounded k) (a : Action) :
    (s.perform a).console.Bounded (s.skipsNext k a) := by
  rcases s.perform_cases a with ⟨ha, rom, hc⟩ | ⟨rfl, hh, hc⟩ | ⟨rfl, -, hc⟩ | ⟨ms, rfl, hc⟩ |
    ⟨ha, hs, -, hc⟩
  · rw [hc, skipsNext, if_pos ha]
    exact bounded_of_initial rfl h.random
  · have hk : s.skipsNext k .skip = k + 1 := by
      simp only [skipsNext, Action.restarts, skipped, hh, Bool.false_eq_true, if_false, if_true]
    rw [hc, hk]
    exact h.skip
  · rw [hc]
    exact h.attempt
  · rw [hc]
    exact h.runFrame ms
  · have hk : s.skipsNext k a = k := by
      rw [skipsNext, if_neg (by rw [ha]; exact Bool.false_ne_true)]
      cases a with
      | skip => simp only [skipped, hs rfl, Bool.false_eq_true, if_false, Nat.add_zero]
      | _ => rfl
    rw [hk]
    exact h.congr hc.cpu hc.random

theorem Bounded.after (h : s.Bounded k) (actions : List Action) :
    (s.after actions).Bounded (s.skips k actions) := by
  induction actions generalizing s k with
  | nil => exact h
  | cons a rest ih => exact ih (h.perform a)

theorem create_bounded {asked : Overrides} {env : Environment} {random : RandomSource}
    (hc : create asked env random = .ok s) (hr : random.Steady) : s.Bounded 0 := by
  obtain ⟨cycles, decay, traceSteps, traceFaults, rfl⟩ := create_eq_ok hc
  exact bounded_of_initial rfl hr

end Console
end Chip8
