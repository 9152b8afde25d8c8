/-
# `Chip8.Proofs.Arithmetic` — results and flags

An instruction with a flag turns the operands `a` and `b` into a byte `r` and
a bit `f`, and loses nothing between them:

    add            r + 256·f = a + b
    sub            r = a − b + 256·(1 − f)
    subReversed    r = b − a + 256·(1 − f)
    shiftRight     a = 2·r + f
    shiftLeft      2·a = r + 256·f
    addIndex       i' + 4096·f = i + a

Since `r` is a byte and `f` a bit, each line determines both.

Which register receives what is the same for all of them (`Cpu.Flagged`).  The
operands are the registers before the instruction, VF not excepted.  The
result goes to the first register and the flag to VF, which comes last: where
VF is the first register the result is lost.  All other registers stay.  An
instruction without a flag writes the first register and no other
(`Cpu.Assigned`), so VF stays unless it is that one.
-/
import Chip8.Machine.Encoded
import Chip8.Proofs.Effect

namespace Chip8

/-! ## What the registers receive -/

namespace Cpu

/-- A byte went to a register, and nothing else has changed. -/
structure Assigned (c c' : Cpu) (x : Int) (r : UInt8) : Prop where
  result : c'.reg? x = some r
  others : ∀ q, q ≠ x → c'.reg? q = c.reg? q
  rest : c' = { c with v := c'.v }

/-- A byte went to a register and a bit to VF, which wins if it is that
register, and nothing else has changed. -/
structure Flagged (c c' : Cpu) (x : Int) (r f : UInt8) : Prop where
  bit : f = 0 ∨ f = 1
  result : x ≠ 15 → c'.reg? x = some r
  flag : c'.reg? 15 = some f
  others : ∀ q, q ≠ x → q ≠ 15 → c'.reg? q = c.reg? q
  rest : c' = { c with v := c'.v }

/-- The index moved within the memory and a bit went to VF, and nothing else has
changed. -/
structure Indexed (c c' : Cpu) (f : UInt8) : Prop where
  index_nonneg : 0 ≤ c'.i
  index_le : c'.i ≤ 0xFFF
  bit : f = 0 ∨ f = 1
  flag : c'.reg? 15 = some f
  others : ∀ q, q ≠ 15 → c'.reg? q = c.reg? q
  rest : c' = { c with v := c'.v, i := c'.i }

variable {c : Cpu} {x y : Int} {b : UInt8} {on : Bool}

theorem assigned_setReg (hx : Instruction.IsDigit x) : c.Assigned (c.setReg x b) x b := by
  refine ⟨reg?_setReg_self hx, fun q hq => reg?_setReg_of_ne hq, ?_⟩
  obtain ⟨v, hv⟩ := c.setReg_eq x b
  rw [hv]

/-- A bit as a byte. -/
def bit (on : Bool) : UInt8 := if on then 1 else 0

theorem bit_cases (on : Bool) : bit on = 0 ∨ bit on = 1 := by
  cases on with
  | false => exact .inl rfl
  | true => exact .inr rfl

theorem toNat_bit (on : Bool) : (bit on).toNat = if on then 1 else 0 := by
  cases on <;> rfl

theorem reg?_setFlag_self (c : Cpu) (on : Bool) : (c.setFlag on).reg? 15 = some (bit on) :=
  reg?_setReg_self (by decide)

theorem reg?_setFlag_of_ne {q : Int} (h : q ≠ 15) : (c.setFlag on).reg? q = c.reg? q :=
  reg?_setReg_of_ne h

theorem flagged_setRegFlag (hx : Instruction.IsDigit x) :
    c.Flagged (c.setRegFlag x b on) x b (bit on) := by
  refine ⟨bit_cases on, fun h => ?_, reg?_setFlag_self _ on, fun q hq hf => ?_, ?_⟩
  · rw [setRegFlag, reg?_setFlag_of_ne h, reg?_setReg_self hx]
  · rw [setRegFlag, reg?_setFlag_of_ne hf, reg?_setReg_of_ne hq]
  · obtain ⟨v, hv⟩ := c.setRegFlag_eq x b on
    rw [hv]

/-- Registers that exist are combined as bytes. -/
theorem flagged_combineFlag (hx : Instruction.IsDigit x) (hy : Instruction.IsDigit y)
    (op : UInt8 → UInt8 → UInt8) (flag : UInt8 → UInt8 → Bool) :
    c.Flagged (Machine.combineFlag c x y op flag) x (op (c.reg x) (c.reg y))
      (bit (flag (c.reg x) (c.reg y))) := by
  rw [Machine.combineFlag, reg?_digit hx, reg?_digit hy]
  exact flagged_setRegFlag hx

/-- A sum of an index and a byte is small, so it is not rounded. -/
theorem addToIndex_eq (hx : Instruction.IsDigit x) (h₀ : 0 ≤ c.i) (h₁ : c.i ≤ 0xFFF) :
    Machine.addToIndex c x =
      ({ c with i := wrapAddress (c.i + (c.reg x).toNat) } : Cpu).setFlag
        (4095 < c.i + (c.reg x).toNat) := by
  have hb := (c.reg x).toNat_lt
  have hsum : Double.nearest (c.i + (c.reg x).toNat) = c.i + (c.reg x).toNat :=
    Double.nearest_eq_self (by omega)
  rw [Machine.addToIndex, reg?_digit hx]
  simp only [hsum]

theorem indexed_addToIndex (hx : Instruction.IsDigit x) (h₀ : 0 ≤ c.i) (h₁ : c.i ≤ 0xFFF) :
    ∃ f, c.Indexed (Machine.addToIndex c x) f ∧
      c.i + (c.reg x).toNat = (Machine.addToIndex c x).i + 4096 * f.toNat := by
  have hb := (c.reg x).toNat_lt
  obtain ⟨v, hv⟩ := ({ c with i := wrapAddress (c.i + (c.reg x).toNat) } : Cpu).setFlag_eq
    (4095 < c.i + (c.reg x).toNat)
  have hindex : (Machine.addToIndex c x).i = wrapAddress (c.i + (c.reg x).toNat) := by
    rw [addToIndex_eq hx h₀ h₁, hv]
  refine ⟨bit (4095 < c.i + (c.reg x).toNat), ⟨?_, ?_, bit_cases _, ?_, fun q hq => ?_, ?_⟩, ?_⟩
  · rw [hindex]; exact wrapAddress_nonneg _
  · rw [hindex]; exact wrapAddress_le _
  · rw [addToIndex_eq hx h₀ h₁]; exact reg?_setFlag_self _ _
  · rw [addToIndex_eq hx h₀ h₁]; exact reg?_setFlag_of_ne hq
  · rw [addToIndex_eq hx h₀ h₁, hv]
  · simp only [hindex, wrapAddress, toNat_bit, decide_eq_true_eq]
    split <;> omega

end Cpu

/-! ## Bytes and their flags -/

namespace Machine

variable (a b : UInt8)

theorem add_carries : (a + b).toNat + 256 * (Cpu.bit (carries a b)).toNat = a.toNat + b.toNat := by
  have ha := a.toNat_lt
  have hb := b.toNat_lt
  simp only [Cpu.toNat_bit, carries, decide_eq_true_eq, UInt8.toNat_add]
  split <;> omega

theorem sub_fitsIn :
    ((a - b).toNat : Int) = a.toNat - b.toNat + 256 * (1 - (Cpu.bit (fitsIn b a)).toNat) := by
  have ha := a.toNat_lt
  have hb := b.toNat_lt
  simp only [Cpu.toNat_bit, fitsIn, decide_eq_true_eq, UInt8.toNat_sub]
  split <;> omega

theorem shiftRight_lowBit : a.toNat = 2 * (a >>> 1).toNat + (Cpu.bit (lowBit a)).toNat := by
  have hhalf : (a >>> 1).toNat = a.toNat / 2 := by
    rw [UInt8.toNat_shiftRight]
    exact Nat.shiftRight_eq_div_pow a.toNat 1
  simp only [Cpu.toNat_bit, lowBit, decide_eq_true_eq, hhalf]
  split <;> omega

theorem shiftLeft_highBit : 2 * a.toNat = (a <<< 1).toNat + 256 * (Cpu.bit (highBit a)).toNat := by
  have ha := a.toNat_lt
  have hdouble : (a <<< 1).toNat = a.toNat * 2 % 256 := by
    rw [UInt8.toNat_shiftLeft]
    exact congrArg (· % 256) (Nat.shiftLeft_eq a.toNat 1)
  simp only [Cpu.toNat_bit, highBit, decide_eq_true_eq, hdouble]
  split <;> omega

/-! ## The instructions -/

/-- An instruction completes with a result and a flag that obey a law. -/
def Computes (m : Machine) (ins : Instruction Int) (x : Int) (law : Nat → Nat → Prop) : Prop :=
  ∃ c' r f, m.execute ins = m.doneCpu c' ∧ m.cpu.Flagged c' x r f ∧ law r.toNat f.toNat

/-- An instruction completes with a result that obeys a law, and has no
flag. -/
def Assigns (m : Machine) (ins : Instruction Int) (x : Int) (law : Nat → Prop) : Prop :=
  ∃ c' r, m.execute ins = m.doneCpu c' ∧ m.cpu.Assigned c' x r ∧ law r.toNat

variable {m : Machine} {ins : Instruction Int} {x y : Int}

theorem computes_combineFlag {op : UInt8 → UInt8 → UInt8} {flag : UInt8 → UInt8 → Bool}
    {law : Nat → Nat → Prop} (hx : Instruction.IsDigit x) (hy : Instruction.IsDigit y)
    (he : m.execute ins = m.doneCpu (combineFlag m.cpu x y op flag))
    (hl : law (op (m.cpu.reg x) (m.cpu.reg y)).toNat
      (Cpu.bit (flag (m.cpu.reg x) (m.cpu.reg y))).toNat) : m.Computes ins x law :=
  ⟨_, _, _, he, Cpu.flagged_combineFlag hx hy op flag, hl⟩

theorem computes_setRegFlag {r : UInt8} {on : Bool} {law : Nat → Nat → Prop}
    (hx : Instruction.IsDigit x) (he : m.execute ins = m.doneCpu (m.cpu.setRegFlag x r on))
    (hl : law r.toNat (Cpu.bit on).toNat) : m.Computes ins x law :=
  ⟨_, _, _, he, Cpu.flagged_setRegFlag hx, hl⟩

theorem assigns_setReg {r : UInt8} {law : Nat → Prop} (hx : Instruction.IsDigit x)
    (he : m.execute ins = m.doneCpu (m.cpu.setReg x r)) (hl : law r.toNat) :
    m.Assigns ins x law :=
  ⟨_, _, he, Cpu.assigned_setReg hx, hl⟩

end Machine

/-- The equations between operands, result and flag, whichever of the registers
VF is; the registers that an instruction writes; and that it writes nothing
else. -/
theorem arithmetic_is_exact (m : Machine) {x y : Int} (nn : UInt8) (hx : Instruction.IsDigit x)
    (hy : Instruction.IsDigit y) (h₀ : 0 ≤ m.cpu.i) (h₁ : m.cpu.i ≤ 0xFFF) :
    let a := (m.cpu.reg x).toNat
    let b := (m.cpu.reg y).toNat
    m.Computes (.add x y) x (fun r f => r + 256 * f = a + b) ∧
    m.Computes (.sub x y) x (fun r f => (r : Int) = a - b + 256 * (1 - f)) ∧
    m.Computes (.subReversed x y) x (fun r f => (r : Int) = b - a + 256 * (1 - f)) ∧
    m.Computes (.shiftRight x y) x (fun r f => a = 2 * r + f) ∧
    m.Computes (.shiftLeft x y) x (fun r f => 2 * a = r + 256 * f) ∧
    (∃ c' f, m.execute (.addIndex x) = m.doneCpu c' ∧ m.cpu.Indexed c' f ∧
      m.cpu.i + a = c'.i + 4096 * f.toNat) ∧
    m.Assigns (.addByte x nn.toNat) x (· = (a + nn.toNat) % 256) ∧
    m.Assigns (.setByte x nn.toNat) x (· = nn.toNat) ∧
    m.Assigns (.copy x y) x (· = b) ∧
    m.Assigns (.or x y) x (· = a ||| b) ∧
    m.Assigns (.and x y) x (· = a &&& b) ∧
    m.Assigns (.xor x y) x (· = a ^^^ b) := by
  have hnn : Cpu.lowByte nn.toNat = nn := by
    have := nn.toNat_lt
    apply UInt8.toNat_inj.1
    rw [Cpu.lowByte, UInt8.toNat_ofNat']
    omega
  refine ⟨?_, ?_, ?_, ?_, ?_, ?_, ?_, ?_, ?_, ?_, ?_, ?_⟩
  · exact Machine.computes_combineFlag hx hy rfl (Machine.add_carries _ _)
  · exact Machine.computes_combineFlag hx hy rfl (Machine.sub_fitsIn _ _)
  · exact Machine.computes_combineFlag hx hy rfl (Machine.sub_fitsIn _ _)
  · exact Machine.computes_setRegFlag hx rfl (Machine.shiftRight_lowBit _)
  · exact Machine.computes_setRegFlag hx rfl (Machine.shiftLeft_highBit _)
  · obtain ⟨f, hf, hsum⟩ := Cpu.indexed_addToIndex hx h₀ h₁
    exact ⟨_, f, rfl, hf, hsum⟩
  · refine Machine.assigns_setReg hx rfl ?_
    rw [hnn, UInt8.toNat_add]
  · exact Machine.assigns_setReg hx rfl (congrArg UInt8.toNat hnn)
  · exact Machine.assigns_setReg hx rfl rfl
  · exact Machine.assigns_setReg hx rfl (UInt8.toNat_or _ _)
  · exact Machine.assigns_setReg hx rfl (UInt8.toNat_and _ _)
  · exact Machine.assigns_setReg hx rfl (UInt8.toNat_xor _ _)

/-- VF added to itself: 200 and 200 are 144 and a carry, of which VF keeps the
carry.  The last address and VF are beyond the memory by 199. -/
theorem arithmetic_is_exact_of_flag :
    let m : Machine :=
      { Machine.initial 0 (RandomSource.cycle #[]) with
        cpu := { (Cpu.initial 0).setReg 15 200 with i := 0xFFF } }
    Instruction.IsDigit 15 ∧ 0 ≤ m.cpu.i ∧ m.cpu.i ≤ 0xFFF ∧
      (m.execute (.add 15 15)).1.cpu.reg? 15 = some 1 ∧
      (m.execute (.addIndex 15)).1.cpu.i = 199 := by
  intro m
  have h₁₅ : Instruction.IsDigit 15 := by decide
  have h₀ : 0 ≤ m.cpu.i := by decide
  have h₁ : m.cpu.i ≤ 0xFFF := by decide
  obtain ⟨⟨c, r, f, he, hc, hsum⟩, -, -, -, -, ⟨c', f', he', hc', hsum'⟩, -⟩ :=
    arithmetic_is_exact m 0 h₁₅ h₁₅ h₀ h₁
  have ha : (m.cpu.reg 15).toNat = 200 := by decide
  have hi : m.cpu.i = 4095 := rfl
  rw [ha] at hsum hsum'
  refine ⟨h₁₅, h₀, h₁, ?_, ?_⟩
  · have hr := r.toNat_lt
    have hf : f = 1 := UInt8.toNat_inj.1 (by rw [show (1 : UInt8).toNat = 1 from rfl]; omega)
    rw [he]
    exact hf ▸ hc.flag
  · have hn := hc'.index_nonneg
    have hle := hc'.index_le
    rw [he']
    show c'.i = 199
    omega

end Chip8
