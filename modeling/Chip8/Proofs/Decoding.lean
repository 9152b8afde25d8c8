/-
# `Chip8.Proofs.Decoding` — what comes out of a word fits the fields

The operands of an instruction are integers of any size, because a host may
hand in any.  An instruction that was decoded is more tame: a register
number is a digit, an immediate is a byte, and an address is below 4096.
`fetchDecode` is how the machine comes by its instructions, so whatever a
step executes is `InRange`, and the word it came from stood inside the
memory.
-/
import Chip8.Machine.Step

namespace Chip8

namespace Instruction

/-! ## Operands of a decoded word -/

variable {x y : Int} {ins : Instruction Int}

theorem isDigit_mod (n : Nat) : IsDigit ((n % 16 : Nat) : Int) := by
  constructor <;> omega

theorem isByte_mod (n : Nat) : IsByte ((n % 256 : Nat) : Int) := by
  constructor <;> omega

theorem isAddr_mod (n : Nat) : IsAddr ((n % 4096 : Nat) : Int) := by
  constructor <;> omega

theorem ofArithmetic?_inRange {n : Nat} (hx : IsDigit x) (hy : IsDigit y)
    (h : ofArithmetic? n x y = some ins) : ins.InRange := by
  unfold ofArithmetic? at h
  split at h <;> cases h <;> exact ⟨hx, hy⟩

theorem ofKeyTest?_inRange {nn : Nat} (hx : IsDigit x)
    (h : ofKeyTest? nn x = some ins) : ins.InRange := by
  unfold ofKeyTest? at h
  split at h <;> cases h <;> exact hx

theorem ofDevice?_inRange {nn : Nat} (hx : IsDigit x)
    (h : ofDevice? nn x = some ins) : ins.InRange := by
  unfold ofDevice? at h
  split at h <;> cases h <;> exact hx

/-- A decoded instruction fits its fields. -/
theorem ofWord?_inRange {w : Nat} (h : ofWord? w = some ins) : ins.InRange := by
  have hx := isDigit_mod (w / 256)
  have hy := isDigit_mod (w / 16)
  have hn := isDigit_mod w
  have hnn := isByte_mod w
  have ha := isAddr_mod w
  simp only [ofWord?] at h
  -- one case per family; the families of a second selector have lemmas of their own
  split at h
  case h_1 =>
    split at h
    · cases h; trivial
    · split at h <;> cases h; trivial
  case h_9 => exact ofArithmetic?_inRange hx hy h
  case h_15 => exact ofKeyTest?_inRange hx h
  case h_16 => exact ofDevice?_inRange hx h
  case h_6 | h_10 => split at h <;> cases h; exact ⟨hx, hy⟩
  case h_14 => cases h; exact ⟨hx, hy, hn⟩
  case h_4 | h_5 | h_7 | h_8 | h_13 => cases h; exact ⟨hx, hnn⟩
  case h_17 => cases h
  all_goals cases h; exact ha

theorem lowWord_natCast {w : Nat} (hw : w < 65536) : lowWord w = w := by
  unfold lowWord
  omega

theorem decode_inRange {word : Int} {pc : Number}
    (h : decode word pc = .ok ins) : ins.InRange := by
  unfold decode at h
  cases hw : ofWord? (lowWord word) with
  | none => rw [hw] at h; cases h
  | some _ => rw [hw] at h; cases h; exact ofWord?_inRange hw

end Instruction

/-! ## What a step fetches -/

namespace Memory

theorem check_of_le {a : Int} {len : Int} (access : Access) (h₀ : 0 ≤ a)
    (h₁ : a + len ≤ memorySize) : check a len access = .ok a.toNat := by
  simp only [check]
  rw [if_neg (by omega), if_neg (by omega)]

theorem check_of_lt {a : Int} {len : Int} (access : Access) (h₀ : 0 ≤ a) (hl : 0 < len)
    (h₁ : memorySize < a + len) :
    check a len access = .error (.memoryBounds (.whole (max a memorySize)) access) := by
  simp only [check]
  rw [if_neg (by omega), if_pos ⟨hl, h₁⟩]

/-- To load something is refused by the check, or not at all. -/
theorem load_of_ok {m : Memory} {data : List UInt8} {addr : Number} {i : Nat} (hdata : data ≠ [])
    (h : check addr data.length .write = .ok i) : m.load data addr = (m.put i data, none) := by
  have hsome : data.isEmpty = false := List.isEmpty_eq_false_iff.2 hdata
  simp only [load, h, hsome, Bool.false_and]
  rfl

theorem write_of_ok {m : Memory} {addr value : Number} {i : Nat} (h : check addr 1 .write = .ok i) :
    m.write addr value = (m.put i [value.byte], none) := by
  rw [write, h]

theorem read_of_le (m : Memory) {a : Int} (h₀ : 0 ≤ a) (h₁ : a ≤ 0xFFF) :
    m.read a = .ok (m.byteAt a.toNat) := by
  rw [read, check_of_le .read h₀ (by simp only [memorySize]; omega)]
  rfl

/-- A word is fetched if its second byte is inside. -/
theorem fetch_of_le (m : Memory) {a : Int} (h₀ : 0 ≤ a) (h₁ : a + 1 ≤ 0xFFF) :
    m.fetch a = .ok (m.wordAt a.toNat) := by
  rw [fetch, check_of_le .fetch h₀ (by simp only [memorySize]; omega)]
  rfl

/-- A word comes from two bytes inside the memory. -/
theorem fetch_eq_ok {m : Memory} {a : Int} {w : Nat} (h : m.fetch a = .ok w) :
    0 ≤ a ∧ a + 2 ≤ memorySize ∧ w = m.wordAt a.toNat := by
  unfold fetch at h
  cases hc : check a 2 .fetch with
  | error f => rw [hc] at h; cases h
  | ok i =>
      rw [hc] at h
      obtain ⟨ha, hi⟩ := check_eq_ok hc
      have hai : a = i := by injection ha
      have hle := hi (by decide)
      cases h
      refine ⟨by omega, by omega, ?_⟩
      rw [hai]; rfl

end Memory

namespace Machine

variable {m : Machine} {w : Nat} {ins : Instruction Int}

theorem fetchDecode_eq_ok (h : m.fetchDecode = .ok (w, ins)) :
    m.memory.fetch m.cpu.pc = .ok w ∧ Instruction.decode w m.cpu.pc = .ok ins := by
  unfold fetchDecode at h
  cases hf : m.memory.fetch m.cpu.pc with
  | error f => rw [hf] at h; cases h
  | ok w' =>
      rw [hf] at h
      cases hd : Instruction.decode w' m.cpu.pc with
      | error f => simp only [hd, Except.map] at h; cases h
      | ok ins' =>
          simp only [hd, Except.map, Except.ok.injEq, Prod.mk.injEq] at h
          obtain ⟨rfl, rfl⟩ := h
          exact ⟨rfl, hd⟩

theorem fetchDecode_inRange (h : m.fetchDecode = .ok (w, ins)) : ins.InRange :=
  Instruction.decode_inRange (fetchDecode_eq_ok h).2

/-- An instruction that is executed begins at an address of the memory. -/
theorem fetchDecode_pc (h : m.fetchDecode = .ok (w, ins)) :
    0 ≤ m.cpu.pc ∧ m.cpu.pc ≤ 4094 := by
  obtain ⟨h₀, h₁, -⟩ := Memory.fetch_eq_ok (fetchDecode_eq_ok h).1
  simp only [memorySize] at h₁
  omega

/-- Behind the instruction the program counter is not rounded. -/
theorem movePc_pc (h : m.fetchDecode = .ok (w, ins)) : (m.movePc 2).cpu.pc = m.cpu.pc + 2 := by
  have hpc := fetchDecode_pc h
  exact Cpu.pcPlus_eq (by omega)

end Machine
end Chip8
