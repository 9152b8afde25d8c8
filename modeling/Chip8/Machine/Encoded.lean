/-
# `Chip8.Machine.Encoded` — records of encoded instructions

The rules for the instructions of a host look much wider than those of the
machine.  Where a word encodes the instruction they are the same rules, and
`executeRecord_record` says so: to execute the record of an instruction is to
execute the instruction.

The reason is the same in each case.  A register that a word names is a
numbered one and holds a byte; a byte is its own word; and what is put back
is cut to a byte anyway.  Only the index needs a bound, because beyond
`2 ^ 52` the end of a copy is rounded.
-/
import Chip8.Machine.Operand

namespace Chip8

/-! ## Bytes as numbers -/

namespace Number

theorem word_whole (n : Int) : (whole n).word = (n % 2 ^ 32).toNat := rfl

theorem word_byte (b : UInt8) : (whole b.toNat).word = b.toNat := by
  have := b.toNat_lt
  rw [word_whole]
  omega

theorem byte_whole (n : Int) : (whole n).byte = Cpu.lowByte n := by
  apply UInt8.toNat_inj.1
  simp only [byte, word_whole, Cpu.lowByte, UInt8.toNat_ofNat']
  omega

theorem byte_byte (b : UInt8) : (whole b.toNat).byte = b := by
  rw [byte, word_byte, UInt8.ofNat_toNat]

end Number

namespace Argument

theorem byte_ofByte (bits : Nat) : (ofByte bits).byte = UInt8.ofNat bits := by
  apply UInt8.toNat_inj.1
  simp only [ofByte, byte, toNumber, Number.byte, Number.word_whole, UInt8.toNat_ofNat']
  omega

theorem byte_ofWord (bits : Nat) : (ofWord bits).byte = UInt8.ofNat bits := by
  apply UInt8.toNat_inj.1
  have h : Int.bmod bits 4294967296 % 4294967296 = (bits : Int) % 4294967296 :=
    Int.bmod_emod
  simp only [ofWord, byte, toNumber, Number.byte, Number.word_whole, UInt8.toNat_ofNat',
    Nat.reducePow, Int.reducePow] at h ⊢
  omega

theorem same_number (a b : Int) : (number a).same (number b) = (a == b) := by
  have : (number a).same (number b) = (decide (a ≤ b) && decide (b ≤ a)) := rfl
  rw [this, Bool.eq_iff_iff]
  simp
  omega

end Argument

/-! ## Registers that a word names -/

namespace Cpu

variable {c : Cpu} {x y : Int}

theorem ofArgument_digit (h : Instruction.IsDigit x) :
    Register.ofArgument (.number x) = .numbered ⟨x.toNat, by have := h.2; omega⟩ := dif_pos h

theorem value_digit (h : Instruction.IsDigit x) :
    c.value (.number x) = .number (.whole (c.reg x).toNat) := by
  have hl : x.toNat < 16 := by have := h.2; omega
  simp [value, ofArgument_digit h, held, reg, reg?, h.1, hl]

theorem assign_digit (h : Instruction.IsDigit x) (a : Argument) :
    c.assign (.number x) a = c.setReg x a.byte := by
  have hl : x.toNat < 16 := by have := h.2; omega
  simp [assign, ofArgument_digit h, hold, setReg, h.1, Vector.setIfInBounds, Vector.set,
    Array.setIfInBounds, hl]

theorem assignFlag_digit (h : Instruction.IsDigit x) (a : Argument) (on : Bool) :
    c.assignFlag (.number x) a on = c.setRegFlag x a.byte on := by
  rw [assignFlag, assign_digit h, setRegFlag]

theorem reg?_digit (h : Instruction.IsDigit x) : c.reg? x = some (c.reg x) := by
  have hl : x.toNat < 16 := by have := h.2; omega
  simp [reg, reg?, h.1, hl]

end Cpu

/-! ## Arithmetic -/

namespace Cpu

variable {c : Cpu} {x y : Int}

/-- Bits of bytes are combined as bytes. -/
theorem combineBits_digit (hx : Instruction.IsDigit x) (hy : Instruction.IsDigit y)
    {op : Nat → Nat → Nat} {op' : UInt8 → UInt8 → UInt8}
    (h : ∀ a b, UInt8.ofNat (op a.toNat b.toNat) = op' a b) :
    c.combineBits (.number x) (.number y) op = Machine.combine c x y op' := by
  have hw : ∀ b : UInt8, (Argument.number (.whole b.toNat)).word = b.toNat := Number.word_byte
  rw [combineBits, value_digit hx, value_digit hy, hw, hw, assign_digit hx,
    Argument.byte_ofWord, h, Machine.combine]

theorem addValues_digit (hx : Instruction.IsDigit x) (hy : Instruction.IsDigit y) :
    c.addValues (.number x) (.number y) =
      Machine.combineFlag c x y (· + ·) Machine.carries := by
  have ha := (c.reg x).toNat_lt
  have hb := (c.reg y).toNat_lt
  have hs : Argument.number (.whole (c.reg x).toNat) + .number (.whole (c.reg y).toNat) =
      .number (.whole ((c.reg x).toNat + (c.reg y).toNat)) :=
    congrArg Argument.number (Number.whole_add_whole (by omega))
  simp only [addValues, Machine.combineFlag, value_digit hx, value_digit hy, reg?_digit hx,
    reg?_digit hy, hs, assignFlag_digit hx, Argument.byte_ofByte]
  congr 1
  · apply UInt8.toNat_inj.1
    simp only [Argument.word, Argument.toNumber, Number.word_whole, UInt8.toNat_ofNat',
      UInt8.toNat_add]
    omega
  · change decide ((255 : Int) < _) = decide _
    exact decide_eq_decide.2 (by omega)

/-- The difference of two bytes, which is not below zero if nothing is
borrowed. -/
theorem takeAway_bytes (hx : Instruction.IsDigit x) (a b : UInt8) :
    c.takeAway (.number x) (.number (.whole a.toNat)) (.number (.whole b.toNat)) =
      c.setRegFlag x (a - b) (Machine.fitsIn b a) := by
  have ha := a.toNat_lt
  have hb := b.toNat_lt
  have hd : Number.whole a.toNat - Number.whole b.toNat = .whole (a.toNat - b.toNat) :=
    Number.whole_sub_whole (by omega)
  simp only [takeAway, Argument.toNumber, hd, assignFlag_digit hx, Argument.byte_ofByte]
  congr 1
  · apply UInt8.toNat_inj.1
    simp only [Number.word_whole, UInt8.toNat_ofNat', UInt8.toNat_sub]
    omega
  · exact decide_eq_decide.2 (by omega)

theorem halve_digit (hx : Instruction.IsDigit x) :
    c.halve (.number x) =
      c.setRegFlag x (c.reg x >>> 1) (Machine.lowBit (c.reg x)) := by
  have ha := (c.reg x).toNat_lt
  have hw : (Argument.number (.whole (c.reg x).toNat)).word = (c.reg x).toNat :=
    Number.word_byte _
  have hm : Int.bmod ↑(c.reg x).toNat (2 ^ 32) = (c.reg x).toNat :=
    Int.bmod_eq_of_le (by omega) (by omega)
  have hv : (Argument.number (.whole (↑(c.reg x).toNat / 2))).byte = c.reg x >>> 1 := by
    apply UInt8.toNat_inj.1
    simp only [Argument.byte, Argument.toNumber, Number.byte, Number.word_whole,
      UInt8.toNat_ofNat', UInt8.toNat_shiftRight, UInt8.toNat_one, Nat.shiftRight_eq_div_pow,
      Nat.reduceMod, Nat.pow_one]
    omega
  rw [halve, value_digit hx, hw, hm, assignFlag_digit hx, Nat.testBit_zero, hv]
  rfl

theorem double_digit (hx : Instruction.IsDigit x) :
    c.double (.number x) =
      c.setRegFlag x (c.reg x <<< 1) (Machine.highBit (c.reg x)) := by
  have ha := (c.reg x).toNat_lt
  have hw : (Argument.number (.whole (c.reg x).toNat)).word = (c.reg x).toNat :=
    Number.word_byte _
  have hv : UInt8.ofNat (2 * (c.reg x).toNat) = c.reg x <<< 1 := by
    apply UInt8.toNat_inj.1
    simp only [UInt8.toNat_ofNat', UInt8.toNat_shiftLeft, UInt8.toNat_one, Nat.shiftLeft_eq,
      Nat.reduceMod, Nat.pow_one]
    omega
  have hf : (c.reg x).toNat.testBit 7 = Machine.highBit (c.reg x) := by
    rw [Nat.testBit_eq_decide_div_mod_eq]
    exact decide_eq_decide.2 (by omega)
  rw [double, value_digit hx, hw, assignFlag_digit hx, Argument.byte_ofByte, hv, hf]

theorem addToIndex_digit (hx : Instruction.IsDigit x) :
    c.addToIndex (.number x) = Machine.addToIndex c x := by
  have hs : Argument.number c.i + .number (.whole (c.reg x).toNat) =
      .number (.whole (Double.nearest (c.i + (c.reg x).toNat))) := rfl
  simp only [addToIndex, Machine.addToIndex, value_digit hx, reg?_digit hx, hs]
  congr 2
  simp only [Argument.word, Argument.toNumber, Number.word_whole, wrapAddress]
  omega

end Cpu

/-! ## Transfers -/

namespace Machine

variable {m : Machine} {x y n : Int}

/-- A short length and the length of the copy read the same. -/
theorem readRange_copyLength (hi : m.cpu.i.natAbs ≤ 2 ^ 52) (hn : 0 ≤ n ∧ n ≤ 16) :
    m.memory.readRange m.cpu.i (m.copyLength (.number n)) = m.memory.readRange m.cpu.i n := by
  have hs : Argument.number m.cpu.i + .number (.whole n) = .number (.whole (m.cpu.i + n)) :=
    congrArg Argument.number (Number.whole_add_whole (by omega))
  have hl : m.copyLength (.number n) =
      if 0 < n ∧ (memorySize : Int) < m.cpu.i + n then (memorySize : Int) + 1 else n := by
    have hc : m.copyLength (.number n) =
        if (decide (0 < n) && decide ((memorySize : Int) < m.cpu.i + n)) = true
        then (memorySize : Int) + 1 else m.cpu.i + n - m.cpu.i := by
      unfold copyLength
      rw [hs]
      rfl
    rw [hc, show m.cpu.i + n - m.cpu.i = n by omega]
    simp only [Bool.and_eq_true, decide_eq_true_eq]
  rw [hl]
  by_cases h : 0 < n ∧ (memorySize : Int) < m.cpu.i + n
  · rw [if_pos h]
    by_cases hneg : m.cpu.i < 0
    · simp only [Memory.readRange, Memory.check, hneg, if_true, Except.map]
    · have h' : 0 < (memorySize : Int) + 1 ∧
          (memorySize : Int) < m.cpu.i + ((memorySize : Int) + 1) := by
        simp only [memorySize]; omega
      simp only [Memory.readRange, Memory.check, hneg, if_false, if_pos h, if_pos h',
        Except.map]
  · rw [if_neg h]

/-- A copy is not longer than the memory. -/
theorem length_le_of_readRange {i : Number} {len : Int} {rows : List UInt8}
    (h : m.memory.readRange i len = .ok rows) : rows.length ≤ 2 ^ 52 := by
  unfold Memory.readRange at h
  cases hc : Memory.check i len .read with
  | error f => simp [hc, Except.map] at h
  | ok start =>
    simp only [hc, Except.map, Except.ok.injEq] at h
    rw [← h]
    simp only [Memory.slice, Vector.length_toList]
    have := Nat.min_le_right (Memory.endIndex (start + len)) 4096
    omega

theorem drawValues_digit (hi : m.cpu.i.natAbs ≤ 2 ^ 52) (hx : Instruction.IsDigit x)
    (hy : Instruction.IsDigit y) (hn : Instruction.IsDigit n) :
    m.drawValues (.number x) (.number y) (.number n) = m.drawRows x y n := by
  have hr := readRange_copyLength hi ⟨hn.1, Int.le_of_lt hn.2⟩
  unfold drawValues drawRows
  rw [hr, Cpu.value_digit hx, Cpu.value_digit hy, Cpu.reg?_digit hx, Cpu.reg?_digit hy]
  cases h : m.memory.readRange m.cpu.i n with
  | error f => rfl
  | ok rows =>
    simp only [Argument.toNumber]
    rw [Display.drawAt_whole _ _ _ (length_le_of_readRange h)]

theorem storeValueDigits_digit (hx : Instruction.IsDigit x) :
    m.storeValueDigits (.number x) = m.storeDigits x := by
  have hb := (m.cpu.reg x).toNat_lt
  have hquotient : ∀ k : Nat, Number.quotient (.whole (m.cpu.reg x).toNat) k =
      .whole ((m.cpu.reg x).toNat / k : Nat) := fun k => if_pos (by omega)
  have hrem : ∀ n k : Nat, Number.rem (.whole n) k = .whole (n % k : Nat) := fun _ _ => rfl
  simp only [storeValueDigits, storeDigits, Cpu.value_digit hx, Argument.toNumber, hquotient, hrem]

theorem rollUnder_digit (hx : Instruction.IsDigit x) (nn : Int) :
    m.rollUnder (.number x) (.number nn) = m.rollInto x nn := by
  unfold rollUnder rollInto
  cases m.random.next with
  | failed => rfl
  | value r =>
    have hb : UInt8.ofNat ((Number.whole r).word &&& (Number.whole nn).word) =
        Cpu.lowByte r &&& Cpu.lowByte nn := by
      rw [UInt8.ofNat_and, ← Number.byte_whole, ← Number.byte_whole]
      rfl
    simp only [Cpu.assign_digit hx, Argument.byte_ofByte]
    exact congrArg (fun b => doneCpu _ (Cpu.setReg _ x b)) hb

theorem awaitKey_digit (c : Cpu) (keypad : Keypad) (hx : Instruction.IsDigit x) :
    awaitKey c keypad (.number x) = takeKey c keypad x := by
  unfold awaitKey takeKey
  cases keypad.firstDown with
  | none => rfl
  | some key =>
    have hb : (Argument.number (key : Number)).byte = UInt8.ofNat key := by
      apply UInt8.toNat_inj.1
      simp only [Argument.byte, Argument.toNumber, Number.byte, Number.word_whole,
        UInt8.toNat_ofNat']
      omega
    simp only [Cpu.assign_digit hx, hb]

theorem byte_toNumber (c : Countdown) : (Argument.number c.toNumber).byte = c.byte := by
  cases c with
  | unknown => rfl
  | left n =>
    apply UInt8.toNat_inj.1
    simp only [Argument.byte, Argument.toNumber, Number.byte, Countdown.toNumber,
      Countdown.byte, Number.word_whole, UInt8.toNat_ofNat']
    omega

/-! ## All instructions -/

/-- An address that is cut off to a word wraps to the same address. -/
theorem wrapAddress_word (n : Int) : Cpu.wrapAddress (Number.whole n).word = Cpu.wrapAddress n := by
  simp only [Cpu.wrapAddress, Number.word_whole]
  omega

theorem word_number_byte (b : UInt8) : (Argument.number (.whole b.toNat)).word = b.toNat :=
  Number.word_byte b

theorem successor_number (hx : Instruction.IsDigit x) :
    (Argument.number x).successor = .number (.whole (x + 1)) :=
  congrArg Argument.number (Number.whole_add_whole (by
    have := hx.1
    have := hx.2
    change (x + 1).natAbs ≤ 2 ^ 53
    omega))

theorem jumpOffset_addr {addr : Int} (h : Instruction.IsAddr addr) :
    m.executeArguments (.jumpOffset (.number addr)) = m.execute (.jumpOffset addr) := by
  have hb := (m.cpu.reg 0).toNat_lt
  have hv : m.cpu.value (.number 0) = .number (.whole (m.cpu.reg 0).toNat) :=
    Cpu.value_digit (by decide)
  have hs : Argument.number addr + .number (.whole (m.cpu.reg 0).toNat) =
      .number (.whole (addr + (m.cpu.reg 0).toNat)) :=
    congrArg Argument.number (Number.whole_add_whole (by have := h.1; have := h.2; omega))
  have hw := wrapAddress_word (addr + (m.cpu.reg 0).toNat)
  simp only [executeArguments, execute, hv, hs, Cpu.goTo]
  exact congrArg (fun pc => m.doneCpu { m.cpu with pc := pc }) hw

theorem addByte_digit (hx : Instruction.IsDigit x) {nn : Int} (hn : Instruction.IsByte nn) :
    m.executeArguments (.addByte (.number x) (.number nn)) = m.execute (.addByte x nn) := by
  have hb := (m.cpu.reg x).toNat_lt
  have hs : Argument.number (.whole (m.cpu.reg x).toNat) + .number nn =
      .number (.whole ((m.cpu.reg x).toNat + nn)) :=
    congrArg Argument.number (Number.whole_add_whole (by have := hn.1; have := hn.2; omega))
  have hv : UInt8.ofNat (Number.whole ((m.cpu.reg x).toNat + nn)).word =
      m.cpu.reg x + Cpu.lowByte nn := by
    apply UInt8.toNat_inj.1
    simp only [Number.word_whole, UInt8.toNat_ofNat', UInt8.toNat_add, Cpu.lowByte]
    have := hn.1
    omega
  simp only [executeArguments, execute, Cpu.value_digit hx, Cpu.assign_digit hx, hs,
    Argument.byte_ofByte]
  exact congrArg (fun b => m.doneCpu (m.cpu.setReg x b)) hv

theorem same_bytes (a b : UInt8) :
    (Argument.number (.whole a.toNat)).same (.number (.whole b.toNat)) = (some a == some b) := by
  rw [Argument.same_number, Bool.eq_iff_iff]
  simp only [beq_iff_eq, Option.some.injEq, ← UInt8.toNat_inj]
  omega

theorem same_byte (a : UInt8) (n : Int) :
    (Argument.number (.whole a.toNat)).same (.number n) =
      ((some a).map (fun b => (b.toNat : Int)) == some n) :=
  Argument.same_number _ _

/-- To execute the record of an instruction is to execute the instruction. -/
theorem executeRecord_record (m : Machine) {ins : Instruction Int} (h : ins.InRange)
    (hi : m.cpu.i.natAbs ≤ 2 ^ 52) : m.executeRecord ins.record = m.execute ins := by
  cases ins with
  | clear => rfl
  | ret => rfl
  | jump addr =>
    exact congrArg (fun pc => m.doneCpu { m.cpu with pc := pc }) (wrapAddress_word addr)
  | call addr =>
    change m.callAddress (Number.whole addr).word = m.callAddress addr
    simp only [callAddress, wrapAddress_word]
  | skipEqByte x nn =>
    change m.doneCpu (m.cpu.skipIf ((m.cpu.value (.number x)).same (.number nn))) =
      m.execute (.skipEqByte x nn)
    rw [Cpu.value_digit h.1, same_byte, execute, Cpu.reg?_digit h.1]
  | skipNeByte x nn =>
    change m.doneCpu (m.cpu.skipIf (!(m.cpu.value (.number x)).same (.number nn))) =
      m.execute (.skipNeByte x nn)
    rw [Cpu.value_digit h.1, same_byte, execute, Cpu.reg?_digit h.1]
    rfl
  | skipEqReg x y =>
    change m.doneCpu (m.cpu.skipIf
      ((m.cpu.value (.number x)).same (m.cpu.value (.number y)))) = m.execute (.skipEqReg x y)
    rw [Cpu.value_digit h.1, Cpu.value_digit h.2, same_bytes, execute, Cpu.reg?_digit h.1,
      Cpu.reg?_digit h.2]
  | skipNeReg x y =>
    change m.doneCpu (m.cpu.skipIf
      (!(m.cpu.value (.number x)).same (m.cpu.value (.number y)))) = m.execute (.skipNeReg x y)
    rw [Cpu.value_digit h.1, Cpu.value_digit h.2, same_bytes, execute, Cpu.reg?_digit h.1,
      Cpu.reg?_digit h.2]
    rfl
  | setByte x nn =>
    change m.doneCpu (m.cpu.assign (.number x) (.number nn)) = _
    rw [Cpu.assign_digit h.1, execute, ← Number.byte_whole]
    rfl
  | addByte x nn => exact addByte_digit h.1 h.2
  | copy x y =>
    change m.doneCpu (m.cpu.assign (.number x) (m.cpu.value (.number y))) = _
    rw [Cpu.assign_digit h.1, Cpu.value_digit h.2, execute]
    exact congrArg (fun b => m.doneCpu (m.cpu.setReg x b)) (Number.byte_byte _)
  | or x y =>
    exact congrArg m.doneCpu (Cpu.combineBits_digit h.1 h.2 fun a b => by simp [UInt8.ofNat_or])
  | and x y =>
    exact congrArg m.doneCpu (Cpu.combineBits_digit h.1 h.2 fun a b => by simp [UInt8.ofNat_and])
  | xor x y =>
    exact congrArg m.doneCpu (Cpu.combineBits_digit h.1 h.2 fun a b => by simp [UInt8.ofNat_xor])
  | add x y => exact congrArg m.doneCpu (Cpu.addValues_digit h.1 h.2)
  | sub x y =>
    change m.doneCpu (m.cpu.takeAway (.number x) (m.cpu.value (.number x))
      (m.cpu.value (.number y))) = _
    rw [Cpu.value_digit h.1, Cpu.value_digit h.2, Cpu.takeAway_bytes h.1, execute, combineFlag,
      Cpu.reg?_digit h.1, Cpu.reg?_digit h.2]
  | subReversed x y =>
    change m.doneCpu (m.cpu.takeAway (.number x) (m.cpu.value (.number y))
      (m.cpu.value (.number x))) = _
    rw [Cpu.value_digit h.1, Cpu.value_digit h.2, Cpu.takeAway_bytes h.1, execute, combineFlag,
      Cpu.reg?_digit h.1, Cpu.reg?_digit h.2]
  | shiftRight x y => exact congrArg m.doneCpu (Cpu.halve_digit h.1)
  | shiftLeft x y => exact congrArg m.doneCpu (Cpu.double_digit h.1)
  | setIndex addr =>
    exact congrArg (fun i => m.doneCpu { m.cpu with i := i }) (wrapAddress_word addr)
  | jumpOffset addr => exact jumpOffset_addr h
  | random x nn => exact rollUnder_digit h.1 nn
  | draw x y n => exact drawValues_digit hi h.1 h.2.1 h.2.2
  | skipIfKey x =>
    change m.doneCpu (m.cpu.skipIf (m.keypad.isDown (m.cpu.value (.number x)).word)) = _
    rw [Cpu.value_digit h, word_number_byte, execute]
  | skipUnlessKey x =>
    change m.doneCpu (m.cpu.skipIf (!m.keypad.isDown (m.cpu.value (.number x)).word)) = _
    rw [Cpu.value_digit h, word_number_byte, execute]
  | readDelay x =>
    change m.doneCpu (m.cpu.assign (.number x) m.timers.delay.toNumber) = _
    rw [Cpu.assign_digit h, byte_toNumber, execute]
  | waitKey x => exact congrArg m.doneCpu (awaitKey_digit m.cpu m.keypad h)
  | setDelay x =>
    change done { m with timers := m.timers.setDelay (m.cpu.value (.number x)).toNumber } = _
    rw [Cpu.value_digit h, execute]
    rfl
  | setSound x =>
    change done { m with timers := m.timers.setSound (m.cpu.value (.number x)).toNumber } = _
    rw [Cpu.value_digit h, execute]
    rfl
  | addIndex x => exact congrArg m.doneCpu (Cpu.addToIndex_digit h)
  | pointGlyph x =>
    change m.doneCpu { m.cpu with
      i := fontBase + glyphRows * ((m.cpu.value (.number x)).word % 16) } = _
    rw [Cpu.value_digit h, word_number_byte, execute]
  | storeDecimal x => exact storeValueDigits_digit h
  | storeRegs x =>
    change m.execute (.storeRegs ((Argument.number x).successor.toNumber.extent - 1)) = _
    rw [successor_number h, show (Argument.number (.whole (x + 1))).toNumber.extent - 1 = x from
      Int.add_sub_cancel x 1]
  | loadRegs x =>
    change m.loadFirst (m.copyLength (Argument.number x).successor - 1) = m.loadFirst x
    have hr := readRange_copyLength hi (n := x + 1) (by have := h.1; have := h.2; omega)
    unfold loadFirst
    rw [successor_number h, Int.sub_add_cancel, hr]

end Machine
end Chip8
