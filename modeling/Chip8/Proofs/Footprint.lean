/-
# `Chip8.Proofs.Footprint` — what an instruction leaves alone

A completed step changes what its instruction is about and nothing else.

| part | changes only under |
| :-- | :-- |
| memory | `storeDecimal`, `storeRegs` |
| pixels, dirty | `clear`, `draw` |
| afterglow, decay factor, frame number | — |
| delay timer, sound timer | `setDelay`, `setSound` |
| carried fraction, number of ticks, keypad | — |
| random source | `random`, by one roll |
| stack, `sp` | `call`, `ret` |
| index | `setIndex`, `addIndex`, `pointGlyph` |
| waiting | `waitKey` |
| a register | the instructions that write it (`Instruction.Writes`) |
| program counter, but for going on by two | skips, `waitKey`, jumps, `call`, `ret` |
| cycles | every instruction, by one |

A skip goes on by four, and `waitKey` may stay where it is.

The registers are the part that `Cpu.Moves` does not speak of.  An instruction
writes the register of its result, VF if it has a flag, and under `loadRegs` all
registers up to the one it names.  Most of the 34 instructions end in the write
of a register, of VF, or of both, so there are only these few ways to go
through (`execute_registers`).
-/
import Chip8.Proofs.CallStack
import Chip8.Proofs.FaultFrame

namespace Chip8

namespace Instruction

/-- The register that receives the result. -/
def result? : Instruction Int → Option Int
  | setByte x _ | addByte x _ | copy x _ | or x _ | and x _ | xor x _ | add x _ | sub x _
  | subReversed x _ | shiftRight x _ | shiftLeft x _ | random x _ | readDelay x
  | waitKey x => some x
  | _ => none

/-- The instructions that tell something in VF. -/
def Flags : Instruction Int → Prop
  | add .. | sub .. | subReversed .. | shiftRight .. | shiftLeft .. | addIndex _
  | draw .. => True
  | _ => False

/-- The registers that an instruction may change. -/
def Writes (ins : Instruction Int) (q : Int) : Prop :=
  ins.result? = some q ∨ (q = 15 ∧ ins.Flags) ∨ ∃ x, ins = loadRegs x ∧ q ≤ x

theorem not_writes {ins : Instruction Int} {q : Int} (h : ¬ ins.Writes q) :
    (∀ x, ins.result? = some x → q ≠ x) ∧ (ins.Flags → q ≠ 15) ∧
      ∀ x, ins = loadRegs x → x < q := by
  refine ⟨?_, ?_, ?_⟩
  · rintro x hx rfl
    exact h (.inl hx)
  · rintro hf rfl
    exact h (.inr (.inl ⟨rfl, hf⟩))
  · intro x hx
    by_contra hq
    exact h (.inr (.inr ⟨x, hx, by omega⟩))

end Instruction

/-! ## Registers -/

namespace Cpu

variable {c : Cpu} {x y q : Int} {b : UInt8} {on : Bool}

theorem reg?_skipIf (c : Cpu) (on : Bool) (q : Int) : (c.skipIf on).reg? q = c.reg? q := by
  cases on <;> rfl

theorem reg?_setRegFlag_of_ne (hx : q ≠ x) (hf : q ≠ 15) :
    (c.setRegFlag x b on).reg? q = c.reg? q := by
  rw [setRegFlag, setFlag, reg?_setReg_of_ne hf, reg?_setReg_of_ne hx]

theorem reg?_combineFlag_of_ne {op : UInt8 → UInt8 → UInt8} {flag : UInt8 → UInt8 → Bool}
    (hx : q ≠ x) (hf : q ≠ 15) :
    (Machine.combineFlag c x y op flag).reg? q = c.reg? q := by
  unfold Machine.combineFlag
  split
  · exact reg?_setRegFlag_of_ne hx hf
  · exact reg?_setRegFlag_of_ne hx hf

theorem reg?_addToIndex_of_ne (hf : q ≠ 15) : (Machine.addToIndex c x).reg? q = c.reg? q := by
  unfold Machine.addToIndex
  split
  · exact reg?_setReg_of_ne hf
  · exact reg?_setReg_of_ne hf

theorem reg?_takeKey_of_ne {keypad : Keypad} (hx : q ≠ x) :
    (Machine.takeKey c keypad x).reg? q = c.reg? q := by
  unfold Machine.takeKey
  split
  · rfl
  · exact reg?_setReg_of_ne hx

end Cpu

namespace Machine

variable {m m' : Machine} {ins : Instruction Int} {q : Int}

/-- Loading reaches no register behind the last. -/
theorem reg?_loadFirst_of_lt {x : Int} (hx : Instruction.IsDigit x)
    (h : m.loadFirst x = (m', none)) (hq : x < q) : m'.cpu.reg? q = m.cpu.reg? q := by
  unfold loadFirst at h
  cases hr : m.memory.readRange m.cpu.i (x + 1) with
  | error f => rw [hr] at h; cases h
  | ok bytes =>
      have h₀ := hx.1
      have hlen := Memory.length_of_readRange (by omega) hr
      simp only [hr] at h
      split at h <;> cases h
      exact m.cpu.reg?_setFirstRegs_of_le (by omega)

/-- A completed instruction changes only registers that it writes. -/
theorem execute_registers (hr : ins.InRange) (h : m.execute ins = (m', none))
    (hq : ¬ ins.Writes q) :
    m'.cpu.reg? q = m.cpu.reg? q := by
  obtain ⟨hresult, hflag, hload⟩ := Instruction.not_writes hq
  cases ins with
  | add x y | sub x y | subReversed x y =>
      cases h
      exact Cpu.reg?_combineFlag_of_ne (hresult x rfl) (hflag trivial)
  | shiftRight x y | shiftLeft x y =>
      cases h
      exact Cpu.reg?_setRegFlag_of_ne (hresult x rfl) (hflag trivial)
  | setByte x _ | addByte x _ | copy x _ | or x _ | and x _ | xor x _ | readDelay x =>
      cases h
      exact Cpu.reg?_setReg_of_ne (hresult x rfl)
  | addIndex x => cases h; exact Cpu.reg?_addToIndex_of_ne (hflag trivial)
  | waitKey x => cases h; exact Cpu.reg?_takeKey_of_ne (hresult x rfl)
  | random x nn =>
      simp only [execute, rollInto] at h
      split at h <;> cases h
      exact Cpu.reg?_setReg_of_ne (hresult x rfl)
  | draw x y n =>
      simp only [execute, drawRows] at h
      split at h
      · cases h
      · split at h <;> cases h <;> exact Cpu.reg?_setReg_of_ne (hflag trivial)
  | loadRegs x => exact reg?_loadFirst_of_lt hr h (hload x rfl)
  | ret =>
      simp only [execute, returnFromCall] at h
      split at h <;> cases h
      rfl
  | call addr =>
      simp only [execute, callAddress] at h
      split at h <;> cases h
      rfl
  | storeDecimal x =>
      obtain ⟨memory, rfl⟩ := storeDigits_eq h
      rfl
  | storeRegs x =>
      obtain ⟨memory, rfl⟩ := storeBytes_eq h
      rfl
  | clear | jump | jumpOffset | setIndex | pointGlyph | setDelay | setSound => cases h; rfl
  | skipEqByte | skipNeByte | skipEqReg | skipNeReg | skipIfKey | skipUnlessKey =>
      cases h
      exact Cpu.reg?_skipIf _ _ _

/-! ## A step -/

/-- All that a completed step of an instruction may change. -/
structure Footprint (m : Machine) (ins : Instruction Int) (m' : Machine) : Prop where
  memory : ¬ ins.Stores → m'.memory = m.memory
  pixels : ¬ ins.Draws → m'.display.pixels = m.display.pixels
  dirty : ¬ ins.Draws → m'.display.dirty = m.display.dirty
  glow : m'.display.glow = m.display.glow
  decay : m'.display.decay = m.display.decay
  frame : m'.display.frame = m.display.frame
  delay : (∀ x, ins ≠ .setDelay x) → m'.timers.delay = m.timers.delay
  sound : (∀ x, ins ≠ .setSound x) → m'.timers.sound = m.timers.sound
  pending : m'.timers.pending = m.timers.pending
  ticks : m'.timers.ticks = m.timers.ticks
  keypad : m'.keypad = m.keypad
  random : (∀ x nn, ins ≠ .random x nn) → m'.random = m.random
  roll : (∃ x nn, ins = .random x nn) → m'.random = m.random.advance
  stack : ¬ ins.UsesStack → m'.cpu.stack = m.cpu.stack ∧ m'.cpu.sp = m.cpu.sp
  index : ¬ ins.SetsIndex → m'.cpu.i = m.cpu.i
  waiting : (∀ x, ins ≠ .waitKey x) → m'.cpu.waiting = m.cpu.waiting
  registers : ∀ q, ¬ ins.Writes q → m'.cpu.reg? q = m.cpu.reg? q
  named : m'.cpu.extra = m.cpu.extra
  pc : ¬ ins.Jumps → ¬ ins.UsesStack →
    m'.cpu.pc = m.cpu.pc + 2 ∨ (ins.Skips ∧ m'.cpu.pc = m.cpu.pc + 4) ∨
      ((∃ x, ins = .waitKey x) ∧ m'.cpu.pc = m.cpu.pc)
  cycles : m'.cpu.cycles = m.cpu.cycles + 1

/-- Where an instruction ends that does not say where to go on. -/
theorem pc_cases {w : Nat} {c : Cpu} (hd : m.fetchDecode = .ok (w, ins))
    (h : (m.movePc 2).cpu.Moves ins c) (hj : ¬ ins.Jumps) (hs : ¬ ins.UsesStack) :
    c.pc = m.cpu.pc + 2 ∨ (ins.Skips ∧ c.pc = m.cpu.pc + 4) ∨
      ((∃ x, ins = .waitKey x) ∧ c.pc = m.cpu.pc) := by
  have hbehind := movePc_pc hd
  have hback := pcPlus_movePc hd
  have hfetched := fetchDecode_pc hd
  cases h with
  | goTo pc hg => exact absurd hg hj
  | ret => exact absurd trivial hs
  | call => exact absurd trivial hs
  | skip hskip =>
      refine .inr (.inl ⟨hskip, ?_⟩)
      simp only
      rw [Cpu.pcPlus_eq (by omega), hbehind]
      omega
  | park => exact .inr (.inr ⟨⟨_, rfl⟩, hback⟩)
  | _ => exact .inl hbehind

end Machine

/-- Every step that completes keeps to the footprint of its instruction. -/
theorem step_keeps_footprint {m m' : Machine} {ins : Instruction Int}
    (h : m.step = (m', .ok ins)) : m.Footprint ins m' := by
  obtain ⟨w, done, -, hd, hx, hstep⟩ := Machine.step_of_ok (congrArg Prod.snd h)
  have hm' : m' = done.countCycle := by rw [← hstep, h]
  -- The processor without its registers, then the stack and the registers, and
  -- last the devices: each has its own frame fact about `execute`.
  have hmoves := Machine.execute_moves hx
  have hpc := Machine.pc_cases hd hmoves
  have hstack (hn : ¬ ins.UsesStack) := Machine.execute_keeps_calls hn (m.movePc 2)
  rw [hx] at hstack
  have hregisters (q : Int) (hn : ¬ ins.Writes q) :=
    Machine.execute_registers (Machine.fetchDecode_inRange hd) hx hn
  obtain ⟨hdelay, hsound, hpending, hticks⟩ := (m.movePc 2).timersAfter_eq ins
  obtain ⟨memory, pixels, dirty, hdone, hmemory, hdraws⟩ := Machine.execute_devices hx
  rw [hm', Machine.countCycle, hdone]
  exact {
    memory := hmemory
    pixels := fun hn => (hdraws hn).1
    dirty := fun hn => (hdraws hn).2
    glow := rfl
    decay := rfl
    frame := rfl
    delay := fun hn => hdelay.resolve_left (not_exists.2 hn)
    sound := fun hn => hsound.resolve_left (not_exists.2 hn)
    pending := hpending
    ticks := hticks
    keypad := rfl
    random := (m.movePc 2).randomAfter_eq
    roll := by rintro ⟨x, nn, rfl⟩; rfl
    stack := hstack
    index := hmoves.index_eq
    waiting := hmoves.waiting
    registers := hregisters
    named := hmoves.extra
    pc := hpc
    cycles := congrArg (· + 1) hmoves.cycles }

/-- A roll is masked into V3: one roll is gone, VF and the other registers are
as they were, and the program counter stands behind the instruction. -/
theorem step_keeps_footprint_of_random :
    let m : Machine :=
      { Machine.initial 0 (RandomSource.cycle #[.value 0xAB, .value 0xCD]) with
        memory := Memory.initial.put 0 [0xC3, 0x0F]
        cpu := (Cpu.initial 0).setReg 15 7 }
    m.step = (m.step.1, .ok (.random 3 0x0F)) ∧ m.step.1.random.drawn = 1 ∧
      m.step.1.cpu.reg? 15 = some 7 ∧ m.step.1.cpu.pc = 2 := by
  intro m
  have hok : m.step.2 = .ok (.random 3 0x0F) := by
    have h : m.step.2.toOption = some (.random 3 0x0F) := by
      simp only [m]
      decide +kernel
    cases hs : m.step.2 with
    | error e => rw [hs] at h; cases h
    | ok ins => rw [hs] at h; cases h; rfl
  have hstep : m.step = (m.step.1, .ok (.random 3 0x0F)) := by rw [← hok]
  have hfoot := step_keeps_footprint hstep
  refine ⟨hstep, ?_, ?_, ?_⟩
  · rw [hfoot.roll ⟨3, 0x0F, rfl⟩]
    rfl
  · rw [hfoot.registers 15 (by simp [Instruction.Writes, Instruction.result?, Instruction.Flags])]
    decide
  · rcases hfoot.pc id id with hpc | ⟨hskip, -⟩ | ⟨⟨x, hx⟩, -⟩
    · exact hpc
    · exact hskip.elim
    · cases hx

end Chip8
