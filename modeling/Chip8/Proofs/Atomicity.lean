/-
# `Chip8.Proofs.Atomicity` — a fault leaves no trace

## What can stop a step

A step is stopped by a fault in one of five places, and in each of them the
state that decides is small:

    fetch      pc            outside 0 … 4094
    decode     memory        the word at pc is no instruction
    ret        sp = 0
    call       sp ≥ 16
    transfer   i, length     [i, i + length) leaves the memory
               draw n        length n
               storeDecimal  length 3
               storeRegs x   length x + 1
               loadRegs x    length x + 1

`Machine.stop?` computes the fault from that state, without executing
anything.  The registers, the display, the timers, the keypad and the random
source do not occur in it (`stop?_congr`), and this is what makes a fault
repeatable.

## What a step is

`step_cases` says all that a step can do: a fault, and then the machine is
*equal* to what it was; a completed instruction; or a random source that gave
out, which is the one failure that strikes after the program counter has
moved.  Everything about steps is derived from it, so that no later proof
opens `Machine.step`.

The program counter is put back by the step.  All else is untouched because
every instruction checks before it writes (`execute_hindered`), which is a
fact about each of the 34.
-/
import Chip8.Proofs.Decoding
import Chip8.Console.Action

namespace Chip8

/-- The address of the instruction that a fault names, if it names one. -/
def Fault.pc? : Fault → Option Number
  | .decode _ pc | .stackOverflow pc | .stackUnderflow pc => some pc
  | .memoryBounds .. | .romCapacity .. => none

/-! ## Ranges that leave the memory -/

namespace Memory

/-- The fault of a range that is not inside the memory. -/
def outside? (addr : Number) (len : Int) (access : Access) : Option Fault :=
  match check addr len access with
  | .error f => some f
  | .ok _ => none

variable {m : Memory} {addr : Number} {len : Int} {access : Access} {f : Fault}

theorem check_of_outside (h : outside? addr len access = some f) :
    check addr len access = .error f := by
  unfold outside? at h
  split at h
  · cases h; assumption
  · cases h

theorem check_of_inside (h : outside? addr len access = none) :
    ∃ i, check addr len access = .ok i := by
  unfold outside? at h
  split at h
  · cases h
  · exact ⟨_, ‹_›⟩

theorem outside?_eq_some (h : outside? addr len access = some f) :
    ∃ a, f = .memoryBounds a access := by
  have hc := check_of_outside h
  cases addr with
  | other x => cases hc; exact ⟨_, rfl⟩
  | whole a =>
      simp only [check] at hc
      split at hc
      · cases hc; exact ⟨_, rfl⟩
      · split at hc
        · cases hc; exact ⟨_, rfl⟩
        · cases hc

theorem readRange_of_outside (h : outside? addr len .read = some f) :
    m.readRange addr len = .error f := by
  rw [readRange, check_of_outside h]; rfl

theorem readRange_of_inside (h : outside? addr len .read = none) :
    ∃ i, check addr len .read = .ok i ∧ m.readRange addr len = .ok (m.slice i (i + len)) := by
  obtain ⟨i, hi⟩ := check_of_inside h
  exact ⟨i, hi, by rw [readRange, hi]; rfl⟩

theorem load_of_outside {data : List UInt8} (h : outside? addr data.length .write = some f) :
    m.load data addr = (m, some (.fault f)) := by
  rw [load, check_of_outside h]

/-- A copy that is not empty is refused by the check or not at all. -/
theorem load_of_inside {data : List UInt8} (hd : data ≠ [])
    (h : outside? addr data.length .write = none) :
    ∃ i, check addr data.length .write = .ok i ∧ m.load data addr = (m.put i data, none) := by
  obtain ⟨i, hi⟩ := check_of_inside h
  exact ⟨i, hi, load_of_ok hd hi⟩

/-- The access is named in a fault, and decides about nothing else. -/
theorem check_access {i : Nat} (h : check addr len access = .ok i) (access' : Access) :
    check addr len access' = .ok i := by
  cases addr with
  | other x => cases h
  | whole a =>
      simp only [check] at h ⊢
      by_cases ha : a < 0
      · rw [if_pos ha] at h; cases h
      · by_cases hl : 0 < len ∧ (memorySize : Int) < a + len
        · rw [if_neg ha, if_pos hl] at h; cases h
        · rw [if_neg ha, if_neg hl] at h ⊢; exact h

end Memory

/-! ## What hinders an instruction -/

namespace Cpu

/-- The fault that keeps the instruction at an address from being executed.
Only the index and the number of live return addresses matter. -/
def hindrance? (c : Cpu) (pc : Int) : Instruction Int → Option Fault
  | .ret => if c.sp = 0 then some (.stackUnderflow pc) else none
  | .call _ => if stackDepth ≤ c.sp then some (.stackOverflow pc) else none
  | .draw _ _ n => Memory.outside? c.i n .read
  | .storeDecimal _ => Memory.outside? c.i 3 .read
  | .storeRegs x => Memory.outside? c.i (x + 1) .write
  | .loadRegs x => Memory.outside? c.i (x + 1) .read
  | _ => none

/-- What hinders an instruction is its range, in reading or in writing, or the
stack. -/
theorem hindrance?_eq_some {c : Cpu} {pc : Int} {ins : Instruction Int} {f : Fault}
    (h : c.hindrance? pc ins = some f) :
    (∃ a, f = .memoryBounds a .read) ∨ (∃ a, f = .memoryBounds a .write) ∨
      f = .stackOverflow pc ∨ f = .stackUnderflow pc := by
  cases ins with
  | ret => simp only [hindrance?] at h; split at h <;> cases h; exact .inr (.inr (.inr rfl))
  | call addr => simp only [hindrance?] at h; split at h <;> cases h; exact .inr (.inr (.inl rfl))
  | draw x y n => exact .inl (Memory.outside?_eq_some h)
  | storeDecimal x => exact .inl (Memory.outside?_eq_some h)
  | storeRegs x => exact .inr (.inl (Memory.outside?_eq_some h))
  | loadRegs x => exact .inl (Memory.outside?_eq_some h)
  | _ => cases h

theorem length_firstRegs (c : Cpu) {x : Int} (hx : Instruction.IsDigit x) :
    ((c.firstRegs (x + 1)).length : Int) = x + 1 := by
  obtain ⟨h₀, h₁⟩ := hx
  simp only [firstRegs, List.length_take, Vector.length_toList]
  rw [if_neg (by omega)]
  omega

theorem firstRegs_ne_nil (c : Cpu) {x : Int} (hx : Instruction.IsDigit x) :
    c.firstRegs (x + 1) ≠ [] := by
  intro h
  have hl := c.length_firstRegs hx
  rw [h] at hl
  have := hx.1
  simp only [List.length_nil] at hl
  omega

end Cpu

/-! ## Checks come before writes

Each instruction that can be hindered gets one lemma for the case that it is
and one for the case that it is not.  The second says only that nothing
stops it; what it does then is a matter of `Chip8.Proofs.Effect`. -/

namespace Machine

variable {m : Machine} {f : Fault} {ins : Instruction Int} {x y n : Int}

theorem drawRows_of_outside (h : Memory.outside? m.cpu.i n .read = some f) :
    m.drawRows x y n = m.stop f := by
  rw [drawRows, Memory.readRange_of_outside h]

theorem drawRows_of_inside (h : Memory.outside? m.cpu.i n .read = none) :
    (m.drawRows x y n).2 = none := by
  obtain ⟨i, -, hr⟩ := Memory.readRange_of_inside (m := m.memory) h
  rw [drawRows, hr]
  cases m.cpu.reg? x with
  | none => rfl
  | some a => cases m.cpu.reg? y <;> rfl

theorem storeDigits_of_outside (h : Memory.outside? m.cpu.i 3 .read = some f) :
    m.storeDigits x = m.stop f := by
  rw [storeDigits, storeThree, Memory.readRange_of_outside h]

/-- Three writes in a range that was probed are one write of three bytes. -/
theorem writeThree_of_ok {memory : Memory} {addr : Number} {i : Nat}
    (h : Memory.check addr 3 .read = .ok i) (a b c : Number) :
    writeThree memory addr a b c = (memory.put i [a.byte, b.byte, c.byte], none) := by
  obtain ⟨rfl, hfit⟩ := Memory.check_eq_ok h
  have hi : (i : Int) + 3 ≤ memorySize := hfit (by decide)
  simp only [memorySize] at hi
  have hwrite : ∀ (m : Memory) (k : Nat) (v : Number), k < 3 →
      m.write (.whole (i + k : Nat)) v = (m.put (i + k) [v.byte], none) := fun m k v hk =>
    Memory.write_of_ok (Memory.check_of_le .write (Int.natCast_nonneg _)
      (by simp only [memorySize]; omega))
  have haddr : ∀ k : Nat, k < 3 → Number.whole i + Number.whole k = .whole (i + k : Nat) :=
    fun k hk => Number.whole_add_whole (by omega)
  have hfirst := hwrite memory 0 a (by decide)
  rw [Nat.add_zero] at hfirst
  simp only [writeThree, hfirst]
  rw [show (1 : Number) = .whole (1 : Nat) from rfl, show (2 : Number) = .whole (2 : Nat) from rfl,
    haddr 1 (by decide), haddr 2 (by decide), hwrite _ 1 b (by decide)]
  simp only [hwrite _ 2 c (by decide)]
  rfl

/-- The probe is a read, but it admits exactly the ranges that can be
written. -/
theorem storeThree_of_ok {i : Nat} (h : Memory.check m.cpu.i 3 .read = .ok i) (a b c : Number) :
    m.storeThree a b c =
      done { m with memory := m.memory.put i [a.byte, b.byte, c.byte] } := by
  have hread : m.memory.readRange m.cpu.i 3 = .ok (m.memory.slice i (i + 3)) := by
    rw [Memory.readRange, h]
    rfl
  simp only [storeThree, hread, writeThree_of_ok h]
  rfl

theorem storeDigits_of_inside (h : Memory.outside? m.cpu.i 3 .read = none) :
    (m.storeDigits x).2 = none := by
  obtain ⟨i, hi⟩ := Memory.check_of_inside h
  rw [storeDigits, storeThree_of_ok hi]
  rfl

theorem storeRegs_of_outside (hx : Instruction.IsDigit x)
    (h : Memory.outside? m.cpu.i (x + 1) .write = some f) :
    m.storeBytes (m.cpu.firstRegs (x + 1)) = m.stop f := by
  rw [← m.cpu.length_firstRegs hx] at h
  rw [storeBytes, Memory.load_of_outside h]
  rfl

theorem storeRegs_of_inside (hx : Instruction.IsDigit x)
    (h : Memory.outside? m.cpu.i (x + 1) .write = none) :
    (m.storeBytes (m.cpu.firstRegs (x + 1))).2 = none := by
  rw [← m.cpu.length_firstRegs hx] at h
  obtain ⟨i, -, hl⟩ := Memory.load_of_inside (m := m.memory) (m.cpu.firstRegs_ne_nil hx) h
  rw [storeBytes, hl]

theorem loadFirst_of_outside (h : Memory.outside? m.cpu.i (x + 1) .read = some f) :
    m.loadFirst x = m.stop f := by
  rw [loadFirst, Memory.readRange_of_outside h]

/-- A register number below sixteen never asks for more registers than there
are. -/
theorem loadFirst_of_inside (hx : Instruction.IsDigit x)
    (h : Memory.outside? m.cpu.i (x + 1) .read = none) : (m.loadFirst x).2 = none := by
  obtain ⟨i, hi, hr⟩ := Memory.readRange_of_inside (m := m.memory) h
  obtain ⟨h₀, h₁⟩ := hx
  have hlen := Memory.length_of_readRange (by omega) hr
  have hl : (m.memory.slice i (i + (x + 1))).length ≤ 16 := by omega
  rw [loadFirst, hr]
  simp only [if_neg (Nat.not_lt.2 hl)]
  rfl

/-- A hindered instruction is stopped before its first write. -/
theorem execute_hindered {pc : Int} (hr : ins.InRange) (hpc : m.cpu.pcPlus (-2) = pc)
    (h : m.cpu.hindrance? pc ins = some f) : m.execute ins = m.stop f := by
  cases ins with
  | ret =>
      simp only [Cpu.hindrance?] at h
      split at h
      · cases h
        simp only [execute, returnFromCall, if_pos ‹m.cpu.sp = 0›, hpc]
      · cases h
  | call addr =>
      simp only [Cpu.hindrance?] at h
      split at h
      · cases h
        simp only [execute, callAddress, if_pos ‹stackDepth ≤ m.cpu.sp›, hpc]
      · cases h
  | draw x y n => exact drawRows_of_outside h
  | storeDecimal x => exact storeDigits_of_outside h
  | storeRegs x => exact storeRegs_of_outside hr h
  | loadRegs x => exact loadFirst_of_outside h
  | _ => cases h

/-- Only a random source can stop an instruction that nothing hinders. -/
theorem execute_unhindered {pc : Int} (hr : ins.InRange) (h : m.cpu.hindrance? pc ins = none) :
    (m.execute ins).2 = none ∨
      (m.random.next = .failed ∧
        m.execute ins = ({ m with random := m.random.advance }, some .randomSource)) := by
  cases ins with
  | ret =>
      left
      simp only [Cpu.hindrance?] at h
      split at h
      · cases h
      · simp only [execute, returnFromCall, if_neg ‹¬m.cpu.sp = 0›]; rfl
  | call addr =>
      left
      simp only [Cpu.hindrance?] at h
      split at h
      · cases h
      · simp only [execute, callAddress, if_neg ‹¬stackDepth ≤ m.cpu.sp›]; rfl
  | random x nn =>
      cases hn : m.random.next with
      | value n => left; simp only [execute, rollInto, hn]; rfl
      | failed => right; exact ⟨rfl, by simp only [execute, rollInto, hn]⟩
  | draw x y n => exact .inl (drawRows_of_inside h)
  | storeDecimal x => exact .inl (storeDigits_of_inside h)
  | storeRegs x => exact .inl (storeRegs_of_inside hr h)
  | loadRegs x => exact .inl (loadFirst_of_inside hr h)
  | _ => exact .inl rfl

/-! ## What stops a step, and what a step is -/

/-- The fault that stops the step to come. -/
def stop? (m : Machine) : Option Fault :=
  match m.fetchDecode with
  | .error f => some f
  | .ok (_, ins) => m.cpu.hindrance? m.cpu.pc ins

theorem stop?_of_fetchDecode_error (h : m.fetchDecode = .error f) : m.stop? = some f := by
  rw [stop?, h]

theorem stop?_of_fetchDecode_ok {w : Nat} (h : m.fetchDecode = .ok (w, ins)) :
    m.stop? = m.cpu.hindrance? m.cpu.pc ins := by
  rw [stop?, h]

/-- The program counter, the index, the stack depth and the memory decide
about faults, and nothing else does. -/
theorem stop?_congr {m' : Machine} (hpc : m'.cpu.pc = m.cpu.pc) (hi : m'.cpu.i = m.cpu.i)
    (hsp : m'.cpu.sp = m.cpu.sp) (hm : m'.memory = m.memory) : m'.stop? = m.stop? := by
  have hf : m'.fetchDecode = m.fetchDecode := by rw [fetchDecode, fetchDecode, hpc, hm]
  have hh : ∀ ins, m'.cpu.hindrance? m'.cpu.pc ins = m.cpu.hindrance? m.cpu.pc ins := by
    intro ins
    cases ins <;> simp only [Cpu.hindrance?, hpc, hi, hsp]
  cases hd : m.fetchDecode with
  | error f => rw [stop?_of_fetchDecode_error hd, stop?_of_fetchDecode_error (hf.trans hd)]
  | ok r => rw [stop?_of_fetchDecode_ok hd, stop?_of_fetchDecode_ok (hf.trans hd), hh]

theorem fetchDecode_error (h : m.fetchDecode = .error f) :
    (∃ a, f = .memoryBounds a .fetch) ∨ ∃ w, f = .decode w m.cpu.pc := by
  unfold fetchDecode at h
  cases hf : m.memory.fetch m.cpu.pc with
  | error g =>
      rw [hf] at h
      cases h
      unfold Memory.fetch at hf
      cases hc : Memory.check m.cpu.pc 2 .fetch with
      | error g =>
          rw [hc] at hf
          cases hf
          exact .inl (Memory.outside?_eq_some (by rw [Memory.outside?, hc]))
      | ok i => rw [hc] at hf; cases hf
  | ok w =>
      simp only [hf, Instruction.decode] at h
      cases hw : Instruction.ofWord? (Instruction.lowWord w) with
      | none => simp only [hw, Except.map] at h; cases h; exact .inr ⟨_, rfl⟩
      | some ins => simp only [hw, Except.map] at h; cases h

/-- A step is stopped by one of four kinds of fault; those about an
instruction name the address of the step. -/
theorem stop?_eq_some (h : m.stop? = some f) :
    (∃ a access, f = .memoryBounds a access) ∨ (∃ w, f = .decode w m.cpu.pc) ∨
      f = .stackOverflow m.cpu.pc ∨ f = .stackUnderflow m.cpu.pc := by
  cases hd : m.fetchDecode with
  | error g =>
      rw [stop?_of_fetchDecode_error hd] at h
      cases h
      rcases fetchDecode_error hd with ⟨a, rfl⟩ | hw
      · exact .inl ⟨a, _, rfl⟩
      · exact .inr (.inl hw)
  | ok r =>
      rw [stop?_of_fetchDecode_ok hd] at h
      rcases Cpu.hindrance?_eq_some h with ⟨a, rfl⟩ | ⟨a, rfl⟩ | rfl | rfl
      · exact .inl ⟨a, _, rfl⟩
      · exact .inl ⟨a, _, rfl⟩
      · exact .inr (.inr (.inl rfl))
      · exact .inr (.inr (.inr rfl))

/-- The program counter behind an instruction leads back to it. -/
theorem pcPlus_movePc {w : Nat} (h : m.fetchDecode = .ok (w, ins)) :
    (m.movePc 2).cpu.pcPlus (-2) = m.cpu.pc := by
  have hpc := fetchDecode_pc h
  have hmv := movePc_pc h
  rw [Cpu.pcPlus_eq (by omega), hmv]
  omega

/-- All that a step can do. -/
theorem step_cases (m : Machine) :
    (∃ f, m.stop? = some f ∧ m.step = (m, .error (.fault f))) ∨
    (∃ w ins m', m.stop? = none ∧ m.fetchDecode = .ok (w, ins) ∧
      (m.movePc 2).execute ins = (m', none) ∧ m.step = (m'.countCycle, .ok ins)) ∨
    (m.stop? = none ∧ m.random.next = .failed ∧
      m.step = ({ m.movePc 2 with random := m.random.advance }, .error .randomSource)) := by
  cases hd : m.fetchDecode with
  | error f =>
      refine .inl ⟨f, stop?_of_fetchDecode_error hd, ?_⟩
      rw [step, hd]
  | ok r =>
      obtain ⟨w, ins⟩ := r
      have hr := fetchDecode_inRange hd
      have hstop := stop?_of_fetchDecode_ok hd
      cases hh : m.cpu.hindrance? m.cpu.pc ins with
      | some f =>
          have hx : (m.movePc 2).execute ins = (m.movePc 2).stop f :=
            execute_hindered hr (pcPlus_movePc hd) hh
          refine .inl ⟨f, hstop.trans hh, ?_⟩
          simp only [step, hd, hx, stop]
          rw [setPc_movePc]
      | none =>
          have hh' : (m.movePc 2).cpu.hindrance? m.cpu.pc ins = none := hh
          rcases execute_unhindered hr hh' with hx | ⟨hn, hx⟩
          · refine .inr (.inl ⟨w, ins, ((m.movePc 2).execute ins).1, hstop.trans hh, rfl, ?_, ?_⟩)
            · rw [← hx]
            · simp only [step, hd]
              rw [show (m.movePc 2).execute ins = (((m.movePc 2).execute ins).1, none) by rw [← hx]]
          · refine .inr (.inr ⟨hstop.trans hh, hn, ?_⟩)
            simp only [step, hd, hx]
            rfl

theorem step_of_stop (h : m.stop? = some f) : m.step = (m, .error (.fault f)) := by
  rcases m.step_cases with ⟨g, hg, he⟩ | ⟨w, ins, m', hn, -⟩ | ⟨hn, -⟩
  · rw [h] at hg
    cases hg
    exact he
  · rw [h] at hn; cases hn
  · rw [h] at hn; cases hn

theorem stop?_of_step (h : m.step.2 = .error (.fault f)) : m.stop? = some f := by
  rcases m.step_cases with ⟨g, hg, he⟩ | ⟨w, ins, m', -, -, -, he⟩ | ⟨-, -, he⟩
  · rw [he] at h; cases h; exact hg
  · rw [he] at h; cases h
  · rw [he] at h; cases h

/-- A step that completes an instruction has fetched and executed it. -/
theorem step_of_ok (h : m.step.2 = .ok ins) :
    ∃ w m', m.stop? = none ∧ m.fetchDecode = .ok (w, ins) ∧
      (m.movePc 2).execute ins = (m', none) ∧ m.step.1 = m'.countCycle := by
  rcases m.step_cases with ⟨f, -, he⟩ | ⟨w, ins', m', hs, hd, hx, he⟩ | ⟨-, -, he⟩
  · rw [he] at h; cases h
  · rw [he] at h
    cases h
    exact ⟨w, m', hs, hd, hx, by rw [he]⟩
  · rw [he] at h; cases h

/-- Two machines that fetch alike take steps with the same result, and a
relation between them is kept if executing keeps it. -/
theorem step_related {R : Machine → Machine → Prop} {m' : Machine} (h : R m m')
    (hpc : m'.cpu.pc = m.cpu.pc) (hfetch : m'.fetchDecode = m.fetchDecode)
    (hexec : ∀ ins, R ((m.movePc 2).execute ins).1 ((m'.movePc 2).execute ins).1 ∧
      ((m'.movePc 2).execute ins).2 = ((m.movePc 2).execute ins).2)
    (hset : ∀ a b pc, R a b → R (a.setPc pc) (b.setPc pc))
    (hcount : ∀ a b, R a b → R a.countCycle b.countCycle) :
    R m.step.1 m'.step.1 ∧ m'.step.2 = m.step.2 := by
  cases hd : m.fetchDecode with
  | error f =>
      rw [Machine.step, hd, Machine.step, hfetch, hd]
      exact ⟨h, rfl⟩
  | ok r =>
      obtain ⟨w, ins⟩ := r
      obtain ⟨hx, he⟩ := hexec ins
      rw [Machine.step, hd, Machine.step, hfetch, hd]
      simp only
      generalize (m.movePc 2).execute ins = r at hx he
      generalize (m'.movePc 2).execute ins = r' at hx he
      obtain ⟨a, e⟩ := r
      obtain ⟨a', e'⟩ := r'
      subst he
      cases e' with
      | none => exact ⟨hcount a a' hx, rfl⟩
      | some e =>
          cases e with
          | fault f =>
              rw [hpc]
              exact ⟨hset a a' m.cpu.pc hx, rfl⟩
          | _ => exact ⟨hx, rfl⟩

end Machine

/-! ## Host calls

A fault of the machine becomes an answer, so what is left to fail in a host
call is an argument that is refused, a program that does not fit, and the
random source.  The first two are found out before anything is done. -/

/-- The calls that no state of the console admits. -/
def Action.Inadmissible : Action → Prop
  | .loadRom data _ => programCapacity < data.length
  | .frame ms => ms.isFinite = false
  | .setCycles n => ∀ k : Int, 1 ≤ k → n ≠ .number (.whole k)
  | .setDecay d => ∃ x : Float, x.isNaN = true ∧ d = .number (.other x)
  | _ => False

namespace Console

variable {s : Console} {e : Failure}

/-- All that a single instruction of a console can do. -/
theorem attempt_cases (s : Console) :
    (∃ f, s.machine.stop? = some f ∧
      s.attempt = ⟨s.halt f, .ok (some f), s.stepLog ++ s.faultLog f⟩) ∨
    (∃ w ins m', s.machine.stop? = none ∧ s.machine.fetchDecode = .ok (w, ins) ∧
      (s.machine.movePc 2).execute ins = (m', none) ∧
      s.attempt = ⟨{ s with machine := m'.countCycle }, .ok none, s.stepLog⟩) ∨
    (s.machine.stop? = none ∧ s.machine.random.next = .failed ∧
      s.attempt = ⟨{ s with machine := { s.machine.movePc 2 with
        random := s.machine.random.advance } }, .error .randomSource, s.stepLog⟩) := by
  rcases s.machine.step_cases with ⟨f, hf, he⟩ | ⟨w, ins, m', hs, hd, hx, he⟩ | ⟨hs, hn, he⟩
  · refine .inl ⟨f, hf, ?_⟩
    rw [attempt, he]
  · refine .inr (.inl ⟨w, ins, m', hs, hd, hx, ?_⟩)
    rw [attempt, he]
  · refine .inr (.inr ⟨hs, hn, ?_⟩)
    rw [attempt, he]

theorem attempt_error (h : s.attempt.answer = .error e) : e = .randomSource := by
  rcases s.attempt_cases with ⟨f, -, ha⟩ | ⟨w, ins, m', -, -, -, ha⟩ | ⟨-, -, ha⟩
  · rw [ha] at h; cases h
  · rw [ha] at h; cases h
  · rw [ha] at h; cases h; rfl

theorem stepInstruction_error (h : s.stepInstruction.answer = .error e) : e = .randomSource := by
  unfold stepInstruction at h
  split at h
  · cases h
  · exact attempt_error h

theorem burst_error {n k : Nat} {log : Array String}
    (h : (s.burst k log n).answer = .error e) : e = .randomSource := by
  induction n generalizing s k log with
  | zero => cases h
  | succ n ih =>
      simp only [burst] at h
      split at h
      · exact ih h
      · cases h
      · rename_i e' ha
        cases h
        exact attempt_error ha

/-- The instructions of a frame are a burst, or there are none. -/
theorem frameBurst_cases (s : Console) :
    ((s.paused = true ∨ s.halted = true) ∧ s.frameBurst = ⟨s, .ok (0, none), #[]⟩) ∨
    (s.paused = false ∧ s.halted = false ∧
      s.frameBurst = s.burst 0 #[] s.cyclesPerFrame) := by
  unfold frameBurst
  cases hp : s.paused with
  | true => exact .inl ⟨.inl rfl, rfl⟩
  | false =>
      cases hh : s.halted with
      | true => exact .inl ⟨.inr rfl, rfl⟩
      | false => exact .inr ⟨rfl, rfl, rfl⟩

/-- A frame fails with its burst, or is refused with nothing done. -/
theorem runFrame_error {ms : Float} (h : (s.runFrame ms).answer = .error e) :
    e = .randomSource ∨
      s.runFrame ms = ⟨s, .error (.rejected (.elapsed (Number.ofFloat ms))), #[]⟩ := by
  unfold runFrame at h ⊢
  by_cases hms : ms.isFinite = true
  · left
    simp only [if_pos hms] at h
    split at h
    · rename_i e' hb
      cases h
      rcases s.frameBurst_cases with ⟨-, hs⟩ | ⟨-, -, hs⟩
      · rw [hs] at hb; cases hb
      · rw [hs] at hb; exact burst_error hb
    · cases h
  · exact .inr (if_neg hms)

/-- A call is refused with nothing done, or leaves a console with a property. -/
inductive Settles (s : Console) (P : Console → Prop) : Call Unit → Prop
  | refused (e : Failure) : Settles s P (s.refused e)
  | granted (t : Console) : P t → Settles s P t.granted

section Settles
variable {P : Console → Prop} {c : Call Unit}

theorem Settles.error {f : Unit → Reply} (h : s.Settles P c)
    (he : (answering c f).answer = .error e) : answering c f = ⟨s, .error e, #[]⟩ := by
  cases h with
  | refused e' => cases he; rfl
  | granted t ht => cases he

theorem Settles.console {Q : Console → Prop} (h : s.Settles P c) (hs : Q s)
    (ht : ∀ t, P t → Q t) : Q c.console := by
  cases h with
  | refused e => exact hs
  | granted t hp => exact ht t hp

theorem setCyclesPerFrame_settles (s : Console) (n : Argument) :
    s.Settles (fun t => ∃ k, Settings.admitCycles n = .ok k ∧ t = { s with cyclesPerFrame := k })
      (s.setCyclesPerFrame n) := by
  unfold setCyclesPerFrame
  cases Settings.admitCycles n with
  | error e => exact .refused e
  | ok k => exact .granted _ ⟨k, rfl, rfl⟩

theorem setDecay_settles (s : Console) (d : Argument) :
    s.Settles (fun t => ∃ x, admitDecay d = .ok x ∧ t = { s with machine := { s.machine with
      display := { s.machine.display with decay := x } } }) (s.setDecay d) := by
  unfold setDecay Display.setDecay
  cases admitDecay d with
  | error e => exact .refused e
  | ok x => exact .granted _ ⟨x, rfl, rfl⟩

theorem loadRom_settles (s : Console) (data : List UInt8) (name : Option String) :
    s.Settles (fun t => ∃ rom, t = ({ s with rom := some rom } : Console).reset)
      (s.loadRom data name) := by
  unfold loadRom
  split
  · exact .refused _
  · exact .granted _ ⟨_, rfl⟩

end Settles

/-- A call that is refused leaves everything as it was. -/
theorem perform_error {a : Action} (h : (s.perform a).answer = .error e) :
    e = .randomSource ∨ s.perform a = ⟨s, .error e, #[]⟩ := by
  cases a with
  | loadRom data name => exact .inr ((s.loadRom_settles data name).error h)
  | setCycles n => exact .inr ((s.setCyclesPerFrame_settles n).error h)
  | setDecay d => exact .inr ((s.setDecay_settles d).error h)
  | step =>
      left
      cases ha : s.stepInstruction.answer with
      | ok r => simp only [perform, answering, ha] at h; cases h
      | error e' =>
          simp only [perform, answering, ha] at h
          cases h
          exact stepInstruction_error ha
  | frame ms =>
      cases ha : (s.runFrame ms).answer with
      | ok r => simp only [perform, answering, ha] at h; cases h
      | error e' =>
          simp only [perform, answering, ha] at h
          cases h
          rcases runFrame_error ha with he | hs
          · exact .inl he
          · right
            rw [hs] at ha
            cases ha
            simp only [perform, answering, hs]
            rfl
  | _ => cases h

theorem setCyclesPerFrame_inadmissible {n : Argument}
    (h : (Action.setCycles n).Inadmissible) :
    s.setCyclesPerFrame n = s.refused (.rejected (.cyclesPerFrame n)) := by
  cases n with
  | number v =>
      cases v with
      | whole k =>
          have hk : ¬ 1 ≤ k := fun hk => h k hk rfl
          simp only [setCyclesPerFrame, Settings.admitCycles, if_neg hk]
      | other x => rfl
  | _ => rfl

/-- An inadmissible call is refused, whatever the console. -/
theorem perform_inadmissible (s : Console) {a : Action} (h : a.Inadmissible) :
    ∃ e, e.name ∈ ["RomCapacityFault", "RangeError"] ∧ s.perform a = ⟨s, .error e, #[]⟩ := by
  cases a with
  | loadRom data name =>
      have hl : ¬ data.length ≤ programCapacity := Nat.not_le.2 h
      refine ⟨.fault (.romCapacity (Number.whole data.length) (Number.whole programCapacity)),
        List.mem_cons_self, ?_⟩
      simp only [perform, loadRom, Rom.parse, dif_neg hl]
      rfl
  | frame ms =>
      refine ⟨.rejected (.elapsed (Number.ofFloat ms)), List.mem_cons_of_mem _ List.mem_cons_self, ?_⟩
      have hms : ¬ ms.isFinite = true := by rw [show ms.isFinite = false from h]; decide
      simp only [perform, answering, runFrame, if_neg hms]
      rfl
  | setCycles n =>
      refine ⟨.rejected (.cyclesPerFrame n), List.mem_cons_of_mem _ List.mem_cons_self, ?_⟩
      rw [perform, setCyclesPerFrame_inadmissible h]
      rfl
  | setDecay d =>
      obtain ⟨x, hx, rfl⟩ := h
      refine ⟨.rejected .decay, List.mem_cons_of_mem _ List.mem_cons_self, ?_⟩
      simp only [perform, setDecay, Display.setDecay, admitDecay, Argument.toNumber,
        Number.toFloat, hx, if_true]
      rfl
  | _ => exact h.elim

end Console

/-- A fault leaves the whole machine as it was, and those about an
instruction name the address at which the step began.  A host call that is
not admitted is refused, and a refused call leaves the whole console as it
was. -/
theorem fault_leaves_no_trace :
    (∀ (m : Machine) (f : Fault), m.step.2 = .error (.fault f) →
      m.stop? = some f ∧ m.step.1 = m ∧ ∀ p ∈ f.pc?, p = .whole m.cpu.pc) ∧
    (∀ (s : Console) (a : Action), a.Inadmissible →
      ∃ e, e.name ∈ ["RomCapacityFault", "RangeError"] ∧ s.perform a = ⟨s, .error e, #[]⟩) ∧
    (∀ (s : Console) (a : Action) (e : Failure), (s.perform a).answer = .error e →
      e = .randomSource ∨ s.perform a = ⟨s, .error e, #[]⟩) := by
  refine ⟨fun m f h => ?_, fun s a ha => s.perform_inadmissible ha,
    fun s a e he => Console.perform_error he⟩
  have hf := Machine.stop?_of_step h
  refine ⟨hf, by rw [Machine.step_of_stop hf], fun p hp => ?_⟩
  rcases Machine.stop?_eq_some hf with ⟨a, access, rfl⟩ | ⟨w, rfl⟩ | rfl | rfl
  · cases hp
  all_goals cases hp; rfl

/-- The digits of a register would go to 4094, 4095 and 4096: nothing is
written and the program counter stays.  A program of 3585 bytes is one byte
too long. -/
theorem fault_leaves_no_trace_at_the_end :
    let m : Machine :=
      { Machine.initial 0 (RandomSource.cycle #[]) with
        memory := ⟨(Vector.replicate 4096 0).set 0 0xF0 |>.set 1 0x33⟩
        cpu := { Cpu.initial 0 with i := 4094 } }
    let s : Console := ⟨m, none, 10, true, true, some (.stackUnderflow 0x200), false, false⟩
    m.step.2 = .error (.fault (.memoryBounds 4096 .read)) ∧ m.step.1 = m ∧
      programCapacity < (List.replicate 3585 (7 : UInt8)).length ∧
      (s.perform (.loadRom (List.replicate 3585 7) none)).console = s := by
  intro m s
  have hstep : m.step.2 = .error (.fault (.memoryBounds 4096 .read)) := by
    simp only [m]
    rfl
  have hlong : programCapacity < (List.replicate 3585 (7 : UInt8)).length := by
    rw [List.length_replicate]; decide
  obtain ⟨-, hsame, -⟩ := fault_leaves_no_trace.1 m _ hstep
  obtain ⟨e, -, hcall⟩ := fault_leaves_no_trace.2.1 s (.loadRom (List.replicate 3585 7) none) hlong
  exact ⟨hstep, hsame, hlong, by rw [hcall]⟩

end Chip8
