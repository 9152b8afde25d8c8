/-
# `Chip8.Proofs.Encoding` — every instruction has a word, and gets it back

`encode` writes an instruction as four hexadecimal digits, by one of three
layouts; `ofWord?` takes the digits of a word apart again:

    family x nn       a register and a byte
    family x y n      two registers and a digit
    family addr       an address

The two are inverse to each other, between the instructions whose operands
fit their fields and the words that are instructions.  One direction
(`ofWord?_encode`) reads the digits of each layout, the other
(`encode_of_ofWord?`) puts them together.  That the words form overlapping
groups, some selected by one digit and some by three, does not matter: an
instruction is where its word says, and every other word is a fault.

For a program this means that loading its words and fetching them one by one
gives the program back.  The loaded bytes stand in the memory from the
program start on, whatever stood there before, and the last word of the
longest program is the last word of the memory.
-/
import Chip8.Proofs.PowerOn

namespace Chip8

namespace Instruction

variable {x y n nn addr : Int} {ins : Instruction Int} {w : Nat}

/-! ## The digits of a word -/

/-- Bits above the sixteenth do not count. -/
theorem lowWord_emod (word : Int) : lowWord (word % 65536) = lowWord word := by
  unfold lowWord
  omega

theorem natCast_lowWord (word : Int) : (lowWord word : Int) = word % 65536 := by
  unfold lowWord
  omega

/-- The parts of a word in the layout of a register and a byte. -/
theorem parts_wordXNN {family : Nat} (hf : family < 16) (hx : IsDigit x) (hnn : IsByte nn) :
    lowWord (wordXNN family x nn) / 4096 = family ∧
      ((lowWord (wordXNN family x nn) / 256 % 16 : Nat) : Int) = x ∧
      lowWord (wordXNN family x nn) % 256 = nn.toNat := by
  obtain ⟨hx₀, hx₁⟩ := hx
  obtain ⟨hn₀, hn₁⟩ := hnn
  simp only [lowWord, wordXNN]
  omega

/-- The parts of a word in the layout of two registers and a digit. -/
theorem parts_wordXYN {family : Nat} (hf : family < 16) (hx : IsDigit x) (hy : IsDigit y)
    (hn : IsDigit n) :
    lowWord (wordXYN family x y n) / 4096 = family ∧
      ((lowWord (wordXYN family x y n) / 256 % 16 : Nat) : Int) = x ∧
      ((lowWord (wordXYN family x y n) / 16 % 16 : Nat) : Int) = y ∧
      lowWord (wordXYN family x y n) % 16 = n.toNat := by
  obtain ⟨hx₀, hx₁⟩ := hx
  obtain ⟨hy₀, hy₁⟩ := hy
  obtain ⟨hn₀, hn₁⟩ := hn
  simp only [lowWord, wordXYN]
  omega

/-- The parts of a word in the layout of an address. -/
theorem parts_wordAddr {family : Nat} (hf : family < 16) (ha : IsAddr addr) :
    lowWord (wordAddr family addr) / 4096 = family ∧
      ((lowWord (wordAddr family addr) % 4096 : Nat) : Int) = addr := by
  obtain ⟨ha₀, ha₁⟩ := ha
  simp only [lowWord, wordAddr]
  omega

/-! ## From an instruction to its word and back -/

theorem ofWord?_encode (h : ins.InRange) : ofWord? (lowWord ins.encode) = some ins := by
  cases ins with
  | clear | ret => rfl
  | jump addr | call addr | setIndex addr | jumpOffset addr =>
      have ha : IsAddr addr := h
      simp (disch := first | assumption | decide) only [encode, ofWord?, parts_wordAddr]
  | skipEqByte x nn | skipNeByte x nn | setByte x nn | addByte x nn | random x nn =>
      obtain ⟨hx, hnn⟩ := h
      have hself := Int.toNat_of_nonneg hnn.1
      simp (disch := first | assumption | decide) only [encode, ofWord?, parts_wordXNN, hself]
  | draw x y n =>
      obtain ⟨hx, hy, hn⟩ := h
      have hself := Int.toNat_of_nonneg hn.1
      simp (disch := first | assumption | decide) only [encode, ofWord?, parts_wordXYN, hself]
  | skipEqReg x y | skipNeReg x y | copy x y | or x y | and x y | xor x y | add x y | sub x y
  | subReversed x y | shiftRight x y | shiftLeft x y =>
      obtain ⟨hx, hy⟩ := h
      simp (disch := first | assumption | decide) only [encode, ofWord?, parts_wordXYN]
      rfl
  | _ x =>
      have hx : IsDigit x := h
      simp (disch := first | assumption | decide) only [encode, ofWord?, parts_wordXNN]
      rfl

/-! ## From a word to its instruction and back -/

theorem encode_of_ofArithmetic? {k : Nat} (h : ofArithmetic? k x y = some ins) :
    ins.encode = wordXYN 0x8 x y k := by
  unfold ofArithmetic? at h
  split at h <;> cases h <;> rfl

theorem encode_of_ofKeyTest? {k : Nat} (h : ofKeyTest? k x = some ins) :
    ins.encode = wordXNN 0xE x k := by
  unfold ofKeyTest? at h
  split at h <;> cases h <;> rfl

theorem encode_of_ofDevice? {k : Nat} (h : ofDevice? k x = some ins) :
    ins.encode = wordXNN 0xF x k := by
  unfold ofDevice? at h
  split at h <;> cases h <;> rfl

theorem encode_of_ofWord? (h : ofWord? w = some ins) : ins.encode = w := by
  simp only [ofWord?] at h
  -- one case per family, each of which leaves the first digit of `w` in the context
  split at h
  case h_1 =>
    split at h
    case isTrue hw => cases h; rw [hw]; rfl
    case isFalse =>
      split at h
      case isTrue hw => cases h; rw [hw]; rfl
      case isFalse => cases h
  case h_9 hf => rw [encode_of_ofArithmetic? h, wordXYN]; omega
  case h_15 hf => rw [encode_of_ofKeyTest? h, wordXNN]; omega
  case h_16 hf => rw [encode_of_ofDevice? h, wordXNN]; omega
  case h_6 hf | h_10 hf =>
    split at h
    case isTrue hn => cases h; simp only [encode, wordXYN]; omega
    case isFalse => cases h
  case h_17 => cases h
  all_goals
    cases h
    simp only [encode, wordXNN, wordXYN, wordAddr]
    omega

/-! ## The outcome of decoding -/

theorem decode_emod (word : Int) (pc : Number) : decode (word % 65536) pc = decode word pc := by
  simp only [decode, lowWord_emod]

/-- A word is decoded, into the instruction that it is the word of, or it is
a fault. -/
theorem decode_cases (word : Int) (pc : Number) :
    (∃ ins, decode word pc = .ok ins ∧ ins.InRange ∧ ins.encode = word % 65536) ∨
    (decode word pc = .error (.decode (.whole (word % 65536)) pc) ∧
      ofWord? (lowWord word) = none) := by
  cases hw : ofWord? (lowWord word) with
  | some ins =>
      refine .inl ⟨ins, ?_, ofWord?_inRange hw, ?_⟩
      · rw [decode, hw]
      · rw [encode_of_ofWord? hw, natCast_lowWord]
  | none =>
      refine .inr ⟨?_, rfl⟩
      rw [decode, hw, natCast_lowWord]

/-- Decoding fails on the words that encode nothing, and on no others. -/
theorem decode_fails_iff (word : Int) (pc : Number) :
    decode word pc = .error (.decode (.whole (word % 65536)) pc) ↔
      ¬ ∃ ins : Instruction Int, ins.InRange ∧ ins.encode = word % 65536 := by
  constructor
  · rintro herr ⟨ins, hins, hword⟩
    have hok : ofWord? (lowWord word) = some ins := by
      rw [← lowWord_emod, ← hword]
      exact ofWord?_encode hins
    rw [decode, hok] at herr
    cases herr
  · intro hnone
    rcases decode_cases word pc with ⟨ins, -, hins, hword⟩ | ⟨herr, -⟩
    · exact absurd ⟨ins, hins, hword⟩ hnone
    · exact herr

/-! ## Programs as bytes -/

theorem length_assemble (program : List (Instruction Int)) :
    (assemble program).length = 2 * program.length := by
  induction program with
  | nil => rfl
  | cons ins rest ih =>
      simp only [assemble, List.flatMap_cons, List.length_append, List.length_cons] at ih ⊢
      rw [ih]
      simp only [wordBytes, List.length_cons, List.length_nil]
      omega

/-- Two bytes of an assembled program are the word of an instruction, the
high one first. -/
theorem assemble_word (program : List (Instruction Int)) (k : Nat) (hk : k < program.length) :
    ((assemble program).getD (2 * k) 0).toNat * 256 +
      ((assemble program).getD (2 * k + 1) 0).toNat = lowWord program[k].encode := by
  induction program generalizing k with
  | nil => exact absurd hk (Nat.not_lt_zero k)
  | cons ins rest ih =>
      cases k with
      | zero =>
          have hlt := lowWord_lt ins.encode
          simp only [assemble, List.flatMap_cons, wordBytes, List.cons_append, Nat.mul_zero,
            List.getD_cons_zero, List.getD_cons_succ, List.getElem_cons_zero, UInt8.toNat_ofNat']
          omega
      | succ k => exact ih k (Nat.lt_of_succ_lt_succ hk)

end Instruction

/-! ## Programs in the memory -/

namespace Memory

/-- From the program start on, the memory holds the program and zeros behind
it, whatever it held before. -/
theorem byteAt_boot (m : Memory) (rom : Rom) {i : Nat} (hi : i < programCapacity) :
    (Console.bootMemory m (some rom)).byteAt (programStart + i) = rom.data.getD i 0 := by
  have hfit := rom.fits
  have hfont : ¬ InFont (programStart + i) := by
    simp only [InFont, programStart, fontBase, font, List.length_cons, List.length_nil]
    omega
  have hcleared : m.reset.byteAt (programStart + i) = 0 := by
    rw [reset, byteAt_installFont, if_neg hfont, byteAt_clearProgram, if_neg (by omega)]
  simp only [programCapacity] at hi hfit
  rw [Console.bootMemory, byteAt_put _ _ _ (by simp only [programStart, memorySize]; omega)]
  split
  case isTrue h => rw [Nat.add_sub_cancel_left]
  case isFalse h =>
    have hbehind : rom.data[i]? = none := List.getElem?_eq_none (by omega)
    rw [hcleared, List.getD_eq_getElem?_getD, hbehind, Option.getD_none]

theorem wordAt_boot (m : Memory) (rom : Rom) {k : Nat} (hk : 2 * k + 1 < programCapacity) :
    (Console.bootMemory m (some rom)).wordAt (programStart + 2 * k) =
      (rom.data.getD (2 * k) 0).toNat * 256 + (rom.data.getD (2 * k + 1) 0).toNat := by
  rw [wordAt, byteAt_boot m rom (Nat.lt_of_succ_lt hk), Nat.add_assoc, byteAt_boot m rom hk]

end Memory

namespace Instruction

open Memory

/-- The words of a loaded program are fetched at its addresses. -/
theorem fetch_boot (m : Memory) {program : List (Instruction Int)} {rom : Rom}
    (hrom : rom.data = assemble program) {k : Nat} (hk : k < program.length) :
    (Console.bootMemory m (some rom)).fetch (programStart + 2 * k : Nat) =
      .ok (lowWord program[k].encode) := by
  have hfits := rom.fits
  rw [hrom, length_assemble, programCapacity] at hfits
  have hword := wordAt_boot m rom (k := k) (by rw [programCapacity]; omega)
  have haddr : ((programStart + 2 * k : Nat) : Int).toNat = programStart + 2 * k := by omega
  have hfetch := fetch_of_le (Console.bootMemory m (some rom)) (a := (programStart + 2 * k : Nat))
    (by omega) (by simp only [programStart]; omega)
  rw [haddr, hword, hrom, assemble_word program k hk] at hfetch
  exact hfetch

/-- A program is what its words, loaded and fetched again, decode to.  The
other way round, what a word decodes to encodes to this word, of which only
the low sixteen bits count, and a word that no instruction encodes to is a
fault. -/
theorem decode_inverts_encode :
    (∀ program : List (Instruction Int), program.length ≤ 1792 → (∀ ins ∈ program, ins.InRange) →
      ∀ (s : Console) (name : Option String), ∃ t : Console,
        s.loadRom (assemble program) name = t.granted ∧
        ∀ (k : Nat) (hk : k < program.length), ∃ word : Nat,
          t.machine.memory.fetch (programStart + 2 * k : Nat) = .ok word ∧
          decode word (programStart + 2 * k : Nat) = .ok program[k]) ∧
    ∀ (word : Int) (pc : Number),
      decode word pc = decode (word % 65536) pc ∧
      ((∃ ins, decode word pc = .ok ins ∧ ins.InRange ∧ ins.encode = word % 65536) ∨
        decode word pc = .error (.decode (.whole (word % 65536)) pc)) ∧
      (decode word pc = .error (.decode (.whole (word % 65536)) pc) ↔
        ¬ ∃ ins : Instruction Int, ins.InRange ∧ ins.encode = word % 65536) := by
  refine ⟨?_, fun word pc => ⟨(decode_emod word pc).symm, ?_, decode_fails_iff word pc⟩⟩
  · intro program hlen hrange s name
    have hfits : (assemble program).length ≤ programCapacity := by
      rw [length_assemble, programCapacity]
      omega
    refine ⟨_, s.loadRom_eq ⟨assemble program, name, hfits⟩, fun k hk => ?_⟩
    refine ⟨lowWord program[k].encode, fetch_boot s.machine.memory rfl hk, ?_⟩
    have hins := ofWord?_encode (hrange program[k] (List.getElem_mem hk))
    rw [decode, lowWord_natCast (lowWord_lt _), hins]
  · rcases decode_cases word pc with hok | ⟨herr, -⟩
    · exact .inl hok
    · exact .inr herr

/-- A program that fills the memory. -/
def longestProgram : List (Instruction Int) := List.replicate 1791 clear ++ [draw 15 14 15]

theorem length_longestProgram : longestProgram.length = 1792 := by
  rw [longestProgram, List.length_append, List.length_replicate]
  rfl

theorem longestProgram_inRange : ∀ ins ∈ longestProgram, ins.InRange := by
  intro ins hins
  rcases List.mem_append.mp hins with hrep | hlast
  · rw [List.eq_of_mem_replicate hrep]
    trivial
  · rw [List.mem_singleton.mp hlast]
    exact ⟨by decide, by decide, by decide⟩

theorem longestProgram_last (h : 1791 < longestProgram.length) :
    longestProgram[1791] = draw 15 14 15 := by
  simp only [longestProgram]
  rw [List.getElem_append_right (Nat.le_of_eq List.length_replicate)]
  simp only [List.length_replicate, Nat.sub_self, List.getElem_cons_zero]

/-- The last word of the memory, on a console whose own program has been
running, is the last instruction of the longest program. -/
theorem decode_inverts_encode_at_the_end :
    longestProgram.length ≤ 1792 ∧ (∀ ins ∈ longestProgram, ins.InRange) ∧
      ∃ t : Console, Console.lowStored.loadRom (assemble longestProgram) none = t.granted ∧
        ∃ word : Nat, t.machine.memory.fetch 0xFFE = .ok word ∧
          decode word 0xFFE = .ok (draw 15 14 15) := by
  have hlen : longestProgram.length ≤ 1792 := Nat.le_of_eq length_longestProgram
  obtain ⟨t, ht, hfetched⟩ := decode_inverts_encode.1 longestProgram hlen longestProgram_inRange
    Console.lowStored none
  have hlast : 1791 < longestProgram.length := by rw [length_longestProgram]; decide
  obtain ⟨word, hfetch, hdecode⟩ := hfetched 1791 hlast
  rw [longestProgram_last] at hdecode
  exact ⟨hlen, longestProgram_inRange, t, ht, word, hfetch, hdecode⟩

end Instruction
end Chip8
