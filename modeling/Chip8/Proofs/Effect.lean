/-
# `Chip8.Proofs.Effect` — what a completed instruction changes

The 34 instructions are gone through once per device, and never again.

**The processor.**  Seen from everything but the registers there are only
eight things that an instruction does (`Cpu.Moves`):

    regs     registers                               most instructions
    index    i, within the memory; registers         setIndex, addIndex, pointGlyph
    goTo     pc, within the memory                   jump, jumpOffset
    skip     pc by two                               the skips, if their condition holds
    park     pc back by two, waiting                 waitKey without a key
    take     not waiting any more; registers         waitKey with a key
    ret      sp down by one, pc from the stack       ret
    call     pc onto the stack, sp up by one, pc     call

An instruction that is not named in a row does not do what the row says.  An
invariant of the processor that does not speak about registers is a case
analysis over these eight rows.

**The devices** are no less separate (`execute_devices`).  The memory changes
only under the two stores, the pixels only under the two instructions that
draw, a countdown only under the instruction that sets it, and the random
source loses its next roll under `random` and nowhere else.  Afterglow,
ticks and keypad belong to the host.
-/
import Chip8.Proofs.Atomicity

namespace Chip8

namespace Instruction

/-- The conditional skips. -/
def Skips : Instruction Int → Prop
  | skipEqByte .. | skipNeByte .. | skipEqReg .. | skipNeReg .. | skipIfKey _
  | skipUnlessKey _ => True
  | _ => False

/-- The jumps that remember nothing. -/
def Jumps : Instruction Int → Prop
  | jump _ | jumpOffset _ => True
  | _ => False

/-- The instructions that point the index somewhere. -/
def SetsIndex : Instruction Int → Prop
  | setIndex _ | addIndex _ | pointGlyph _ => True
  | _ => False

/-- The instructions that write to the memory. -/
def Stores : Instruction Int → Prop
  | storeDecimal _ | storeRegs _ => True
  | _ => False

/-- The instructions that a program sees on the screen. -/
def Draws : Instruction Int → Prop
  | clear | draw .. => True
  | _ => False

end Instruction

/-! ## The processor -/

namespace Cpu

/-- The way from one processor to another with a completed instruction, the
program counter standing behind the instruction to begin with. -/
inductive Moves (c : Cpu) : Instruction Int → Cpu → Prop
  | regs {ins : Instruction Int} (v : Vector UInt8 16) : Moves c ins { c with v := v }
  | index {ins : Instruction Int} (v : Vector UInt8 16) (i : Int) :
      ins.SetsIndex → 0 ≤ i → i ≤ 0xFFF → Moves c ins { c with v := v, i := i }
  | goTo {ins : Instruction Int} (pc : Int) :
      ins.Jumps → 0 ≤ pc → pc ≤ 0xFFF → Moves c ins { c with pc := pc }
  | skip {ins : Instruction Int} : ins.Skips → Moves c ins { c with pc := c.pcPlus 2 }
  | park {x : Int} : Moves c (.waitKey x) { c with waiting := true, pc := c.pcPlus (-2) }
  | take {x : Int} (v : Vector UInt8 16) :
      Moves c (.waitKey x) { c with v := v, waiting := false }
  | ret : 0 < c.sp →
      Moves c .ret { c with sp := c.sp - 1, pc := (c.stack[c.sp - 1]?.getD 0).toNat }
  | call {addr : Int} : c.sp < stackDepth →
      Moves c (.call addr)
        { c with
          stack := c.stack.setIfInBounds c.sp (UInt16.ofNat (c.pc % 65536).toNat)
          sp := c.sp + 1
          pc := wrapAddress addr }

/-- Cycles are counted by the step, not by an instruction. -/
theorem Moves.cycles {c c' : Cpu} {ins : Instruction Int} (h : c.Moves ins c') :
    c'.cycles = c.cycles := by
  cases h <;> rfl

/-- The registers that a host has named are out of reach. -/
theorem Moves.extra {c c' : Cpu} {ins : Instruction Int} (h : c.Moves ins c') :
    c'.extra = c.extra := by
  cases h <;> rfl

/-- Only the instructions that say so move the index. -/
theorem Moves.index_eq {c c' : Cpu} {ins : Instruction Int} (h : c.Moves ins c')
    (hs : ¬ ins.SetsIndex) : c'.i = c.i := by
  cases h with
  | index v i hi _ _ => exact absurd hi hs
  | _ => rfl

theorem wrapAddress_nonneg (n : Int) : 0 ≤ wrapAddress n := by unfold wrapAddress; omega

theorem wrapAddress_le (n : Int) : wrapAddress n ≤ 0xFFF := by unfold wrapAddress; omega

/-! ### Writing registers writes nothing else -/

variable {c : Cpu} {x y : Int} {b : UInt8} {on : Bool}

theorem setReg_eq (c : Cpu) (x : Int) (b : UInt8) : ∃ v, c.setReg x b = { c with v := v } := by
  unfold setReg
  split
  · exact ⟨_, rfl⟩
  · exact ⟨c.v, rfl⟩

theorem setFlag_eq (c : Cpu) (on : Bool) : ∃ v, c.setFlag on = { c with v := v } :=
  c.setReg_eq 15 _

theorem setRegFlag_eq (c : Cpu) (x : Int) (b : UInt8) (on : Bool) :
    ∃ v, c.setRegFlag x b on = { c with v := v } := by
  obtain ⟨v, hv⟩ := c.setReg_eq x b
  obtain ⟨v', hv'⟩ := (c.setReg x b).setFlag_eq on
  exact ⟨v', by rw [setRegFlag, hv', hv]⟩

theorem combineFlag_eq (c : Cpu) (x y : Int) (op : UInt8 → UInt8 → UInt8)
    (flag : UInt8 → UInt8 → Bool) : ∃ v, Machine.combineFlag c x y op flag = { c with v := v } := by
  unfold Machine.combineFlag
  split
  · exact c.setRegFlag_eq x _ _
  · exact c.setRegFlag_eq x _ _

theorem moves_setReg {ins : Instruction Int} : c.Moves ins (c.setReg x b) := by
  obtain ⟨v, hv⟩ := c.setReg_eq x b
  rw [hv]; exact .regs v

theorem moves_setFlag {ins : Instruction Int} : c.Moves ins (c.setFlag on) := moves_setReg

theorem moves_setRegFlag {ins : Instruction Int} : c.Moves ins (c.setRegFlag x b on) := by
  obtain ⟨v, hv⟩ := c.setRegFlag_eq x b on
  rw [hv]; exact .regs v

theorem moves_combineFlag {ins : Instruction Int} {op : UInt8 → UInt8 → UInt8}
    {flag : UInt8 → UInt8 → Bool} : c.Moves ins (Machine.combineFlag c x y op flag) := by
  obtain ⟨v, hv⟩ := c.combineFlag_eq x y op flag
  rw [hv]; exact .regs v

/-! ### The other rows -/

theorem moves_skipIf {ins : Instruction Int} (h : ins.Skips) : c.Moves ins (c.skipIf on) := by
  cases on with
  | false => exact .regs c.v
  | true => exact .skip h

theorem moves_goTo {ins : Instruction Int} {a : Int} (h : ins.Jumps) : c.Moves ins (c.goTo a) :=
  .goTo _ h (wrapAddress_nonneg a) (wrapAddress_le a)

theorem moves_addToIndex : c.Moves (.addIndex x) (Machine.addToIndex c x) := by
  unfold Machine.addToIndex
  cases c.reg? x with
  | none =>
      obtain ⟨v, hv⟩ := ({ c with i := 0 } : Cpu).setFlag_eq false
      simp only [hv]
      exact .index v 0 trivial (by decide) (by decide)
  | some b =>
      let sum := Double.nearest (c.i + b.toNat)
      obtain ⟨v, hv⟩ := ({ c with i := wrapAddress sum } : Cpu).setFlag_eq (4095 < sum)
      simp only [sum] at hv
      simp only [hv]
      exact .index v _ trivial (wrapAddress_nonneg _) (wrapAddress_le _)

theorem moves_takeKey {keypad : Keypad} : c.Moves (.waitKey x) (Machine.takeKey c keypad x) := by
  unfold Machine.takeKey
  cases keypad.firstDown with
  | none => exact .park
  | some key =>
      obtain ⟨v, hv⟩ := ({ c with waiting := false } : Cpu).setReg_eq x (UInt8.ofNat key)
      simp only [hv]
      exact .take v

end Cpu

namespace Machine

variable {m m' : Machine} {ins : Instruction Int}

theorem moves_rollInto {x nn : Int} (h : m.rollInto x nn = (m', none)) :
    m.cpu.Moves (.random x nn) m'.cpu := by
  unfold rollInto at h
  cases hn : m.random.next with
  | value n => rw [hn] at h; cases h; exact Cpu.moves_setReg
  | failed => rw [hn] at h; cases h

theorem moves_drawRows {x y n : Int} (h : m.drawRows x y n = (m', none)) :
    m.cpu.Moves (.draw x y n) m'.cpu := by
  unfold drawRows at h
  split at h
  · cases h
  · split at h <;> cases h <;> exact Cpu.moves_setFlag

/-- Storing bytes is an affair of the memory. -/
theorem storeBytes_eq {bytes : List UInt8} (h : m.storeBytes bytes = (m', none)) :
    ∃ memory, m' = { m with memory := memory } :=
  ⟨_, (congrArg Prod.fst h).symm⟩

theorem storeDigits_eq {x : Int} (h : m.storeDigits x = (m', none)) :
    ∃ memory, m' = { m with memory := memory } := by
  unfold storeDigits storeThree at h
  split at h
  · cases h
  · exact ⟨_, (congrArg Prod.fst h).symm⟩

theorem loadFirst_eq {x : Int} (h : m.loadFirst x = (m', none)) :
    ∃ v, m' = { m with cpu := { m.cpu with v := v } } := by
  unfold loadFirst at h
  split at h
  · cases h
  · split at h
    · cases h
    · cases h; exact ⟨_, rfl⟩

/-- What a completed instruction does to the processor. -/
theorem execute_moves (h : m.execute ins = (m', none)) : m.cpu.Moves ins m'.cpu := by
  cases ins with
  | clear => cases h; exact .regs m.cpu.v
  | ret =>
      simp only [execute, returnFromCall] at h
      split at h
      · cases h
      · cases h; exact .ret (Nat.pos_of_ne_zero ‹_›)
  | call addr =>
      simp only [execute, callAddress] at h
      split at h
      · cases h
      · cases h; exact .call (Nat.lt_of_not_le ‹_›)
  | jump addr => cases h; exact Cpu.moves_goTo trivial
  | jumpOffset addr => cases h; exact Cpu.moves_goTo trivial
  | skipEqByte x nn => cases h; exact Cpu.moves_skipIf trivial
  | skipNeByte x nn => cases h; exact Cpu.moves_skipIf trivial
  | skipEqReg x y => cases h; exact Cpu.moves_skipIf trivial
  | skipNeReg x y => cases h; exact Cpu.moves_skipIf trivial
  | skipIfKey x => cases h; exact Cpu.moves_skipIf trivial
  | skipUnlessKey x => cases h; exact Cpu.moves_skipIf trivial
  | setIndex addr =>
      cases h
      exact .index m.cpu.v _ trivial (Cpu.wrapAddress_nonneg _) (Cpu.wrapAddress_le _)
  | addIndex x => cases h; exact Cpu.moves_addToIndex
  | pointGlyph x =>
      cases h
      refine .index m.cpu.v _ trivial ?_ ?_ <;> simp only [fontBase, glyphRows] <;> omega
  | random x nn => exact moves_rollInto h
  | draw x y n => exact moves_drawRows h
  | waitKey x => cases h; exact Cpu.moves_takeKey
  | setDelay x => cases h; exact .regs m.cpu.v
  | setSound x => cases h; exact .regs m.cpu.v
  | storeDecimal x =>
      obtain ⟨memory, hm⟩ := storeDigits_eq h
      rw [hm]; exact .regs m.cpu.v
  | storeRegs x =>
      obtain ⟨memory, hm⟩ := storeBytes_eq h
      rw [hm]; exact .regs m.cpu.v
  | loadRegs x =>
      obtain ⟨v, hm⟩ := loadFirst_eq h
      rw [hm]; exact .regs v
  | add x y => cases h; exact Cpu.moves_combineFlag
  | sub x y => cases h; exact Cpu.moves_combineFlag
  | subReversed x y => cases h; exact Cpu.moves_combineFlag
  | shiftRight x y => cases h; exact Cpu.moves_setRegFlag
  | shiftLeft x y => cases h; exact Cpu.moves_setRegFlag
  | _ => cases h; exact Cpu.moves_setReg

/-! ## The devices -/

/-- The timers after an instruction. -/
def timersAfter (m : Machine) : Instruction Int → Timers Float
  | .setDelay x => m.timers.setDelay ((m.cpu.reg x).toNat : Int)
  | .setSound x => m.timers.setSound ((m.cpu.reg x).toNat : Int)
  | _ => m.timers

/-- The random source after an instruction. -/
def randomAfter (m : Machine) : Instruction Int → RandomSource
  | .random _ _ => m.random.advance
  | _ => m.random

/-- What a completed instruction does to the devices.  The afterglow, its
factor, the frame number and the keypad are out of its reach. -/
theorem execute_devices (h : m.execute ins = (m', none)) :
    ∃ memory pixels dirty,
      m' = ⟨m'.cpu, memory, { m.display with pixels := pixels, dirty := dirty },
        m.timersAfter ins, m.keypad, m.randomAfter ins⟩ ∧
      (¬ ins.Stores → memory = m.memory) ∧
      (¬ ins.Draws → pixels = m.display.pixels ∧ dirty = m.display.dirty) := by
  cases ins with
  | clear => cases h; exact ⟨_, _, _, rfl, fun _ => rfl, fun hd => absurd trivial hd⟩
  | ret =>
      simp only [execute, returnFromCall] at h
      split at h <;> cases h
      exact ⟨_, _, _, rfl, fun _ => rfl, fun _ => ⟨rfl, rfl⟩⟩
  | call addr =>
      simp only [execute, callAddress] at h
      split at h <;> cases h
      exact ⟨_, _, _, rfl, fun _ => rfl, fun _ => ⟨rfl, rfl⟩⟩
  | random x nn =>
      simp only [execute, rollInto] at h
      split at h <;> cases h
      exact ⟨_, _, _, rfl, fun _ => rfl, fun _ => ⟨rfl, rfl⟩⟩
  | draw x y n =>
      simp only [execute, drawRows] at h
      split at h
      · cases h
      · split at h <;> cases h <;>
          exact ⟨_, _, _, rfl, fun _ => rfl, fun hd => absurd trivial hd⟩
  | storeDecimal x =>
      obtain ⟨memory, hm⟩ := storeDigits_eq h
      subst hm
      exact ⟨_, _, _, rfl, fun hs => absurd trivial hs, fun _ => ⟨rfl, rfl⟩⟩
  | storeRegs x =>
      obtain ⟨memory, hm⟩ := storeBytes_eq h
      subst hm
      exact ⟨_, _, _, rfl, fun hs => absurd trivial hs, fun _ => ⟨rfl, rfl⟩⟩
  | loadRegs x =>
      obtain ⟨v, hm⟩ := loadFirst_eq h
      subst hm
      exact ⟨_, _, _, rfl, fun _ => rfl, fun _ => ⟨rfl, rfl⟩⟩
  | _ => cases h; exact ⟨_, _, _, rfl, fun _ => rfl, fun _ => ⟨rfl, rfl⟩⟩

theorem execute_timers (h : m.execute ins = (m', none)) : m'.timers = m.timersAfter ins := by
  obtain ⟨memory, pixels, dirty, hm, -⟩ := execute_devices h
  rw [hm]

theorem execute_random (h : m.execute ins = (m', none)) : m'.random = m.randomAfter ins := by
  obtain ⟨memory, pixels, dirty, hm, -⟩ := execute_devices h
  rw [hm]

theorem countCycle_timers (h : (m.movePc 2).execute ins = (m', none)) :
    m'.countCycle.timers = m.timersAfter ins := by
  have ht := execute_timers h
  exact ht

/-- Only one instruction rolls. -/
theorem randomAfter_eq (m : Machine) {ins : Instruction Int} (h : ∀ x nn, ins ≠ .random x nn) :
    m.randomAfter ins = m.random := by
  cases ins with
  | random x nn => exact absurd rfl (h x nn)
  | _ => rfl

/-- The rolls of a source never change, only how many are drawn. -/
theorem randomAfter_roll (m : Machine) (ins : Instruction Int) :
    (m.randomAfter ins).roll = m.random.roll := by
  cases ins <;> rfl

/-- An instruction writes at most one countdown, and neither the carried
fraction nor the number of ticks. -/
theorem timersAfter_eq (m : Machine) (ins : Instruction Int) :
    ((∃ x, ins = .setDelay x) ∨ (m.timersAfter ins).delay = m.timers.delay) ∧
      ((∃ x, ins = .setSound x) ∨ (m.timersAfter ins).sound = m.timers.sound) ∧
      (m.timersAfter ins).pending = m.timers.pending ∧
      (m.timersAfter ins).ticks = m.timers.ticks := by
  cases ins with
  | setDelay x => exact ⟨.inl ⟨x, rfl⟩, .inr rfl, rfl, rfl⟩
  | setSound x => exact ⟨.inr rfl, .inl ⟨x, rfl⟩, rfl, rfl⟩
  | _ => exact ⟨.inr rfl, .inr rfl, rfl, rfl⟩

end Machine
end Chip8
