/-
# `Chip8.Proofs.Transfer` — bytes between the registers and the memory

Four instructions reach into the memory at the index.  `i` stands for the
index, which lies within the memory, and `x` for a register number.

| instruction | range | bytes |
| :-- | :-- | :-- |
| `storeDecimal x` | `i … i + 2` | three digits of Vx go to the memory |
| `storeRegs x` | `i … i + x` | V0 … Vx go to the memory |
| `loadRegs x` | `i … i + x` | V0 … Vx come from the memory |
| `draw _ _ n` | `i … i + n − 1`, none if `n = 0` | rows for the screen |

The boundary is decided by a probe, by the check of a copy and by the check of
a read.  They agree, for all three ask `Memory.check`: the instruction stops if
its range reaches 4096 and not otherwise, and the fault names 4096
(`FaultsIff`).

What moves is said with both sides at once: which bytes arrive, and that all
others stay.  From this the two round trips follow without opening an
instruction again.  To store and to load restores the registers, whatever they
were in between; to load and to store changes nothing in the memory.
-/
import Chip8.Machine.Encoded
import Chip8.Proofs.Effect

namespace Chip8

/-! ## The range -/

namespace Memory

variable {i : Nat} {len : Int} {access : Access}

/-- A range that begins inside leaves the memory at its end, if at all. -/
theorem outside?_of_le (h : i ≤ 0xFFF) : outside? (i : Int) len access =
    if 0 < len ∧ (memorySize : Int) < i + len then some (.memoryBounds 0x1000 access)
    else none := by
  have hmax : max (i : Int) memorySize = 0x1000 := by simp only [memorySize]; omega
  simp only [outside?, check, hmax]
  rw [if_neg (by omega : ¬ (i : Int) < 0)]
  by_cases hl : 0 < len ∧ (memorySize : Int) < i + len
  · rw [if_pos hl, if_pos hl]
    rfl
  · rw [if_neg hl, if_neg hl]

/-- A range that ends inside is admitted. -/
theorem check_of_fits {n : Nat} (h : i + n ≤ memorySize) :
    check (i : Int) n access = .ok i := by
  have hlow : (0 : Int) ≤ i := Int.natCast_nonneg i
  have hhigh : (i : Int) + n ≤ memorySize := by exact_mod_cast h
  exact check_of_le access hlow hhigh

theorem readRange_of_fits (m : Memory) {n : Nat} (h : i + n ≤ memorySize) :
    m.readRange (i : Int) n = .ok (m.slice i (i + n)) := by
  rw [readRange, check_of_fits h]
  rfl

theorem load_of_fits (m : Memory) {bytes : List UInt8} (h₁ : i ≤ 0xFFF)
    (h : i + bytes.length ≤ memorySize) : m.load bytes (i : Int) = (m.put i bytes, none) := by
  have hle : ¬ memorySize < i := by simp only [memorySize]; omega
  simp only [load, check_of_fits h, decide_eq_false hle, Bool.and_false, Bool.false_eq_true,
    if_false]

end Memory

namespace Machine

variable {m : Machine} {ins : Instruction Int} {p : Prop} {access : Access} {i : Nat}

/-- An instruction stops if a condition holds, with a fault at the end of the
memory and nothing changed, and completes if it does not hold. -/
def FaultsIff (m : Machine) (ins : Instruction Int) (p : Prop) (access : Access) : Prop :=
  (p → m.execute ins = m.stop (.memoryBounds 0x1000 access)) ∧
    (¬ p → (m.execute ins).2 = none)

theorem faultsIff_of_outside (len : Int) (hi : m.cpu.i = i) (h₁ : i ≤ 0xFFF)
    (hp : p ↔ 0 < len ∧ (memorySize : Int) < i + len)
    (hout : ∀ f, Memory.outside? m.cpu.i len access = some f → m.execute ins = m.stop f)
    (hin : Memory.outside? m.cpu.i len access = none → (m.execute ins).2 = none) :
    m.FaultsIff ins p access := by
  rw [hi, Memory.outside?_of_le h₁] at hout hin
  constructor
  · intro h
    exact hout _ (if_pos (hp.1 h))
  · intro h
    exact hin (if_neg (mt hp.2 h))

end Machine

/-! ## The bytes -/

namespace Memory

/-- The bytes from an index on, up to the one with the number `last`, are given,
and all others are those of an older memory. -/
structure Overwritten (old new : Memory) (i last : Nat) (byte : Nat → UInt8) : Prop where
  inside : ∀ j ≤ last, new.byteAt (i + j) = byte j
  outside : ∀ k, k < i ∨ i + last < k → new.byteAt k = old.byteAt k

variable {m old new : Memory} {i last : Nat} {byte : Nat → UInt8}

theorem overwritten_put {bytes : List UInt8} (hl : bytes.length = last + 1)
    (hb : ∀ j ≤ last, bytes[j]? = some (byte j)) (h : i + last < memorySize) :
    m.Overwritten (m.put i bytes) i last byte := by
  have hfit : i + bytes.length ≤ memorySize := by omega
  constructor
  · intro j hj
    rw [byteAt_put _ _ _ hfit, if_pos (by omega), Nat.add_sub_cancel_left,
      List.getD_eq_getElem?_getD, hb j hj, Option.getD_some]
  · intro k hk
    rw [byteAt_put _ _ _ hfit, if_neg (by omega)]

/-- To write what stands there already is to write nothing. -/
theorem Overwritten.eq_of_same (h : old.Overwritten new i last byte)
    (hsame : ∀ j ≤ last, byte j = old.byteAt (i + j)) : new = old := by
  refine ext_byteAt fun k => ?_
  by_cases hk : k < i ∨ i + last < k
  · exact h.outside k hk
  · obtain ⟨j, rfl⟩ : ∃ j, k = i + j := ⟨k - i, by omega⟩
    have hj : j ≤ last := by omega
    rw [h.inside j hj, hsame j hj]

end Memory

namespace Cpu

/-- The registers up to the one with the number `last` are given, and nothing
else has changed. -/
structure Loaded (c c' : Cpu) (last : Nat) (byte : Nat → UInt8) : Prop where
  inside : ∀ j ≤ last, c'.reg? j = some (byte j)
  outside : ∀ q : Int, q < 0 ∨ last < q → c'.reg? q = c.reg? q
  rest : c' = { c with v := c'.v }

variable {c c' : Cpu} {last j : Nat} {byte : Nat → UInt8}

theorem isDigit_of_le (hx : last < 16) (hj : j ≤ last) : Instruction.IsDigit (j : Int) :=
  ⟨by omega, by omega⟩

theorem loaded_setFirstRegs {bytes : List UInt8} (hx : last < 16) (hl : bytes.length = last + 1)
    (hb : ∀ j ≤ last, bytes[j]? = some (byte j)) :
    c.Loaded (c.setFirstRegs bytes) last byte := by
  refine ⟨fun j hj => ?_, fun q hq => ?_, rfl⟩
  · rw [reg?_setFirstRegs, reg?_digit (isDigit_of_le hx hj), Option.map_some, Int.toNat_natCast,
      List.getD_eq_getElem?_getD, hb j hj, Option.getD_some]
  · rcases hq with hq | hq
    · rw [reg?, if_neg (by omega), reg?, if_neg (by omega)]
    · exact reg?_setFirstRegs_of_le _ (by omega)

/-- What a loaded register holds. -/
theorem Loaded.reg (h : c.Loaded c' last byte) (hj : j ≤ last) : c'.reg j = byte j := by
  rw [Cpu.reg, h.inside j hj, Option.getD_some]

end Cpu

/-- The low eight bits of a digit are the digit. -/
theorem Number.toNat_byte_natCast {n : Nat} (h : n < 256) :
    (Number.byte (n : Number)).toNat = n := by
  simp only [Number.byte, Number.word, UInt8.toNat_ofNat']
  omega

namespace Machine

variable {m : Machine} {i x : Nat}

/-- The digits of a register are written behind one another. -/
theorem execute_storeDecimal (hi : m.cpu.i = i) (h : i + 2 ≤ 0xFFF) :
    ∃ (memory : Memory) (h t o : UInt8),
      m.execute (.storeDecimal x) = done { m with memory := memory } ∧
      h.toNat ≤ 9 ∧ t.toNat ≤ 9 ∧ o.toNat ≤ 9 ∧
      100 * h.toNat + 10 * t.toNat + o.toNat = (m.cpu.reg x).toNat ∧
      m.memory.Overwritten memory i 2 ([h, t, o].getD · 0) := by
  let n := (m.cpu.reg x).toNat
  have hn : n < 256 := (m.cpu.reg x).toNat_lt
  have hprobe : Memory.check m.cpu.i 3 .read = .ok i := by
    rw [hi]
    exact Memory.check_of_fits (n := 3) (by simp only [memorySize]; omega)
  have hlast : i + 2 < memorySize := by simp only [memorySize]; omega
  have hstore : m.execute (.storeDecimal x) = m.storeDigits x := rfl
  rw [hstore, storeDigits, storeThree_of_ok hprobe]
  have hhundreds := Number.toNat_byte_natCast (n := n / 100) (by omega)
  have htens := Number.toNat_byte_natCast (n := n / 10 % 10) (by omega)
  have hones := Number.toNat_byte_natCast (n := n % 10) (by omega)
  refine ⟨_, Number.byte (n / 100 : Nat), Number.byte (n / 10 % 10 : Nat),
    Number.byte (n % 10 : Nat), rfl, by omega, by omega, by omega, ?_,
    Memory.overwritten_put rfl ?_ hlast⟩
  · rw [hhundreds, htens, hones]
    omega
  · intro j hj
    rcases (by omega : j = 0 ∨ j = 1 ∨ j = 2) with rfl | rfl | rfl <;> rfl

/-- The registers are written behind one another. -/
theorem execute_storeRegs (hi : m.cpu.i = i) (hx : x < 16) (h : i + x ≤ 0xFFF) :
    ∃ memory, m.execute (.storeRegs x) = done { m with memory := memory } ∧
      m.memory.Overwritten memory i x (m.cpu.reg ·) := by
  have hlen : (m.cpu.firstRegs (x + 1 : Nat)).length = x + 1 :=
    Int.ofNat.inj (m.cpu.length_firstRegs (Cpu.isDigit_of_le hx (Nat.le_refl x)))
  have hlast : i + x < memorySize := by simp only [memorySize]; omega
  have hload : m.memory.load (m.cpu.firstRegs (x + 1 : Nat)) m.cpu.i =
      (m.memory.put i (m.cpu.firstRegs (x + 1 : Nat)), none) := by
    rw [hi]
    exact m.memory.load_of_fits (by omega) (by omega)
  refine ⟨m.memory.put i (m.cpu.firstRegs (x + 1 : Nat)), ?_,
    Memory.overwritten_put hlen ?_ hlast⟩
  · show m.storeBytes (m.cpu.firstRegs (x + 1 : Nat)) = _
    rw [storeBytes, hload]
    rfl
  · intro j hj
    rw [m.cpu.getElem?_firstRegs (by omega), Cpu.reg?_digit (Cpu.isDigit_of_le hx hj)]

/-- The registers are read behind one another. -/
theorem execute_loadRegs (hi : m.cpu.i = i) (hx : x < 16) (h : i + x ≤ 0xFFF) :
    ∃ c, m.execute (.loadRegs x) = m.doneCpu c ∧
      m.cpu.Loaded c x (fun j => m.memory.byteAt (i + j)) := by
  have hfit : i + (x + 1) ≤ memorySize := by simp only [memorySize]; omega
  have hread : m.memory.readRange m.cpu.i (x + 1 : Nat) =
      .ok (m.memory.slice i (i + (x + 1 : Nat))) := by
    rw [hi]
    exact m.memory.readRange_of_fits hfit
  have hlen : (m.memory.slice i (i + (x + 1 : Nat))).length = x + 1 :=
    Int.ofNat.inj (Memory.length_of_readRange (Int.natCast_nonneg _) hread)
  refine ⟨m.cpu.setFirstRegs (m.memory.slice i (i + (x + 1 : Nat))), ?_,
    Cpu.loaded_setFirstRegs hx hlen fun j hj => m.memory.getElem?_slice hfit (by omega)⟩
  show m.loadFirst x = _
  rw [loadFirst, show ((x : Int) + 1) = (x + 1 : Nat) from rfl, hread]
  exact if_neg (by omega)

/-! ## Round trips -/

/-- What was stored is loaded again, whatever the registers were in between. -/
theorem store_then_load (hi : m.cpu.i = i) (hx : x < 16) (h : i + x ≤ 0xFFF)
    (v : Vector UInt8 16) :
    let stored := (m.execute (.storeRegs x)).1
    let changed : Machine := { stored with cpu := { stored.cpu with v := v } }
    ∃ c, changed.execute (.loadRegs x) = changed.doneCpu c ∧
      changed.cpu.Loaded c x (m.cpu.reg ·) := by
  intro stored changed
  obtain ⟨memory, hstore, hwritten⟩ := execute_storeRegs hi hx h
  have hstored : stored = { m with memory := memory } := congrArg Prod.fst hstore
  have hi' : changed.cpu.i = i := by simp only [changed, hstored, hi]
  obtain ⟨c, hload, hc⟩ := execute_loadRegs hi' hx h
  refine ⟨c, hload, fun j hj => ?_, hc.outside, hc.rest⟩
  have hmem : changed.memory = memory := by simp only [changed, hstored]
  rw [hc.inside j hj, hmem, hwritten.inside j hj]

/-- What was loaded is there already. -/
theorem load_then_store (hi : m.cpu.i = i) (hx : x < 16) (h : i + x ≤ 0xFFF) :
    let loaded := (m.execute (.loadRegs x)).1
    loaded.memory = m.memory ∧ loaded.execute (.storeRegs x) = done loaded := by
  intro loaded
  obtain ⟨c, hload, hc⟩ := execute_loadRegs hi hx h
  have hloaded : loaded = { m with cpu := c } := congrArg Prod.fst hload
  have hmem : loaded.memory = m.memory := by rw [hloaded]
  have hi' : loaded.cpu.i = i := by
    rw [hloaded]
    exact (congrArg Cpu.i hc.rest).trans hi
  obtain ⟨memory, hstore, hwritten⟩ := execute_storeRegs hi' hx h
  have hsame : memory = loaded.memory := by
    refine hwritten.eq_of_same fun j hj => ?_
    rw [hmem, hloaded]
    exact hc.reg hj
  exact ⟨hmem, by rw [hstore, hsame]⟩

/-! ## The boundary -/

theorem storeDecimal_faultsIff (hi : m.cpu.i = i) (h₁ : i ≤ 0xFFF) :
    m.FaultsIff (.storeDecimal x) (0xFFF < i + 2) .read := by
  refine faultsIff_of_outside 3 hi h₁ ?_ (fun _ => storeDigits_of_outside)
    storeDigits_of_inside
  simp only [memorySize]
  omega

theorem storeRegs_faultsIff (hi : m.cpu.i = i) (h₁ : i ≤ 0xFFF) (hx : x < 16) :
    m.FaultsIff (.storeRegs x) (0xFFF < i + x) .write := by
  have hdigit := Cpu.isDigit_of_le hx (Nat.le_refl x)
  refine faultsIff_of_outside (x + 1) hi h₁ ?_ (fun _ => storeRegs_of_outside hdigit)
    (storeRegs_of_inside hdigit)
  simp only [memorySize]
  omega

theorem loadRegs_faultsIff (hi : m.cpu.i = i) (h₁ : i ≤ 0xFFF) (hx : x < 16) :
    m.FaultsIff (.loadRegs x) (0xFFF < i + x) .read := by
  have hdigit := Cpu.isDigit_of_le hx (Nat.le_refl x)
  refine faultsIff_of_outside (x + 1) hi h₁ ?_ (fun _ => loadFirst_of_outside)
    (loadFirst_of_inside hdigit)
  simp only [memorySize]
  omega

/-- A sprite without rows has no range to leave the memory. -/
theorem draw_faultsIff (hi : m.cpu.i = i) (h₁ : i ≤ 0xFFF) (a b : Int) (n : Nat) :
    m.FaultsIff (.draw a b n) (0 < n ∧ 0xFFF < i + n - 1) .read := by
  refine faultsIff_of_outside n hi h₁ ?_ (fun _ => drawRows_of_outside)
    drawRows_of_inside
  simp only [memorySize]
  omega

end Machine

/-- The instructions at the index stop exactly if their range leaves the
memory.  Otherwise they move the bytes of the range, and nothing else; the
index stays; and to store and to load undo each other. -/
theorem transfers_are_exact (m : Machine) {i x : Nat} (hi : m.cpu.i = i) (h₁ : i ≤ 0xFFF)
    (hx : x < 16) :
    (m.FaultsIff (.storeDecimal x) (0xFFF < i + 2) .read ∧
      m.FaultsIff (.storeRegs x) (0xFFF < i + x) .write ∧
      m.FaultsIff (.loadRegs x) (0xFFF < i + x) .read ∧
      ∀ (a b : Int) (n : Nat), m.FaultsIff (.draw a b n) (0 < n ∧ 0xFFF < i + n - 1) .read ∧
        (m.execute (.draw a b n)).1.cpu.i = m.cpu.i) ∧
    (i + 2 ≤ 0xFFF →
      ∃ (memory : Memory) (h t o : UInt8),
        m.execute (.storeDecimal x) = Machine.done { m with memory := memory } ∧
        h.toNat ≤ 9 ∧ t.toNat ≤ 9 ∧ o.toNat ≤ 9 ∧
        100 * h.toNat + 10 * t.toNat + o.toNat = (m.cpu.reg x).toNat ∧
        m.memory.Overwritten memory i 2 ([h, t, o].getD · 0)) ∧
    (i + x ≤ 0xFFF →
      (∃ memory, m.execute (.storeRegs x) = Machine.done { m with memory := memory } ∧
        m.memory.Overwritten memory i x (m.cpu.reg ·)) ∧
      (∃ c, m.execute (.loadRegs x) = m.doneCpu c ∧
        m.cpu.Loaded c x (fun j => m.memory.byteAt (i + j))) ∧
      (∀ v : Vector UInt8 16,
        let stored := (m.execute (.storeRegs x)).1
        let changed : Machine := { stored with cpu := { stored.cpu with v := v } }
        ∃ c, changed.execute (.loadRegs x) = changed.doneCpu c ∧
          changed.cpu.Loaded c x (m.cpu.reg ·)) ∧
      let loaded := (m.execute (.loadRegs x)).1
      loaded.memory = m.memory ∧ loaded.execute (.storeRegs x) = Machine.done loaded) := by
  refine ⟨⟨Machine.storeDecimal_faultsIff hi h₁, Machine.storeRegs_faultsIff hi h₁ hx,
    Machine.loadRegs_faultsIff hi h₁ hx, fun a b n => ?_⟩, Machine.execute_storeDecimal hi,
    fun h => ?_⟩
  · have hf := Machine.draw_faultsIff hi h₁ a b n
    refine ⟨hf, ?_⟩
    by_cases hp : 0 < n ∧ 0xFFF < i + n - 1
    · rw [hf.1 hp]
      rfl
    · have hdone : m.execute (.draw a b n) = ((m.execute (.draw a b n)).1, none) := by
        rw [← hf.2 hp]
      exact (Machine.execute_moves hdone).index_eq id
  · exact ⟨Machine.execute_storeRegs hi hx h, Machine.execute_loadRegs hi hx h,
      Machine.store_then_load hi hx h, Machine.load_then_store hi hx h⟩

/-- From the last address but one, two registers fit and three digits do not. -/
theorem transfers_are_exact_at_the_end :
    let m : Machine :=
      { Machine.initial 0 (RandomSource.cycle #[]) with
        cpu := { (Cpu.initial 0).setReg 1 9 with i := 0xFFE } }
    m.cpu.i = (0xFFE : Nat) ∧ 0xFFE ≤ 0xFFF ∧ 1 < 16 ∧
      m.execute (.storeDecimal 1) = m.stop (.memoryBounds 0x1000 .read) ∧
      ∃ memory, m.execute (.storeRegs 1) = Machine.done { m with memory := memory } ∧
        memory.byteAt 0xFFF = 9 := by
  intro m
  have hi : m.cpu.i = (0xFFE : Nat) := rfl
  have h₁ : 0xFFE ≤ 0xFFF := by decide
  have hx : 1 < 16 := by decide
  obtain ⟨⟨hdigits, -⟩, -, hbytes⟩ := transfers_are_exact m hi h₁ hx
  obtain ⟨⟨memory, hstore, hwritten⟩, -⟩ := hbytes (by decide)
  exact ⟨hi, h₁, hx, hdigits.1 (by decide), memory, hstore, hwritten.inside 1 (Nat.le_refl 1)⟩

end Chip8
