/-
# `Chip8.Proofs.Listed` — the listing of an image is the listing of the memory

There are two ways to a listing.  `listing` walks over the image of a
program and supplies zeros behind its end.  The tracer reads the memory of a
machine, byte by byte, and the memory refuses what is outside.  After a
program has been loaded, both give the same lines:

    line k                       bytes 2k and 2k + 1 of the image
    at the address 0x200 + 2k    the bytes that were loaded there

The two agree on the last byte of an odd image because loading clears what
an earlier program may have left behind it, and on an image of full length
because its last word is the last word of the memory.

The walk over an image has a closed form (`lines_eq`).  Addresses are
doubles, so it holds as long as the addresses of all bytes that are listed
are at most `2 ^ 53`; there sums are exact, but for the one sum behind the
last byte, which may be rounded down and still ends the walk.
-/
import Chip8.Proofs.Encoding
import Chip8.Proofs.Tracing

namespace Chip8

/-! ## Sums of addresses -/

/-- One number above the exact ones is rounded down. -/
theorem Double.nearest_eq_min {n : Int} (h₀ : 0 ≤ n) (h₁ : n ≤ 2 ^ 53 + 1) :
    nearest n = min n (2 ^ 53) := by
  by_cases h : n ≤ 2 ^ 53
  · rw [nearest_eq_self (by omega), Int.min_eq_left h]
  · have htop : n = 2 ^ 53 + 1 := by omega
    rw [htop]
    decide +kernel

theorem Number.add_eq_min {a b : Int} (h₀ : 0 ≤ a + b) (h₁ : a + b ≤ 2 ^ 53 + 1) :
    ∃ c, Number.whole a + Number.whole b = .whole c ∧ c = min (a + b) (2 ^ 53) :=
  ⟨_, congrArg Number.whole (Double.nearest_eq_min h₀ h₁), rfl⟩

/-! ## The lines of an image -/

/-- Half as many lines as bytes, rounded up. -/
def lineCount (image : List UInt8) : Nat := (image.length + 1) / 2

/-- The line about the bytes `2 * k` and `2 * k + 1` of an image. -/
def Line.ofImage (image : List UInt8) (o k : Nat) : Line :=
  .of (o + 2 * k : Nat) (image.getD (2 * k) 0).toNat (image.getD (2 * k + 1) 0).toNat

theorem imageByte_eq (image : List UInt8) {o k : Nat} (h : o + k ≤ 2 ^ 53) :
    imageByte image.toArray (o : Number) (o + k : Nat) = (image.getD k 0).toNat := by
  have hdiff : ((o + k : Nat) : Number) - (o : Number) = .whole k := by
    have hk : ((o + k : Nat) : Int) - o = k := by omega
    have hsub := Number.whole_sub_whole (a := (o + k : Nat)) (b := o) (by omega)
    rw [hk] at hsub
    exact hsub
  rw [imageByte, hdiff]
  simp only [Int.natCast_nonneg, if_true, Int.toNat_natCast, Array.getD_eq_getD_getElem?,
    List.getElem?_toArray, List.getD_eq_getElem?_getD]

/-- The addresses of all bytes that the lines of an image show are exact. -/
def Locatable (image : List UInt8) (o : Nat) : Prop :=
  ∀ i, i < 2 * lineCount image → o + i ≤ 2 ^ 53

/-- The line that a step of the walk produces. -/
theorem ofReader_eq (image : List UInt8) {o k : Nat} (h : o + (2 * k + 1) ≤ 2 ^ 53) :
    Line.ofReader (imageByte image.toArray o) (o + 2 * k : Nat) = Line.ofImage image o k := by
  have hnext : ((o + 2 * k : Nat) : Number) + 1 = ((o + (2 * k + 1) : Nat) : Number) := by
    have hsum := Number.whole_add_whole (a := (o + 2 * k : Nat)) (b := 1) (by omega)
    rw [show ((o + 2 * k : Nat) : Int) + 1 = (o + (2 * k + 1) : Nat) by omega] at hsum
    exact hsum
  rw [Line.ofReader, hnext, imageByte_eq image (by omega), imageByte_eq image h, Line.ofImage]

/-- The walk from line `k` on.  Behind the last line its address `p` may have
been rounded. -/
theorem linesFrom_eq {image : List UInt8} {o : Nat}
    (hends : o + 2 * lineCount image ≤ 2 ^ 53 + 1) {k n : Nat} {p : Int}
    (hp : p = min (o + 2 * k : Int) (2 ^ 53)) (hk : k ≤ lineCount image)
    (hn : lineCount image ≤ k + n) :
    linesFrom image.toArray o (.whole p) n =
      (List.range' k (lineCount image - k)).map (Line.ofImage image o) := by
  have hcount : 2 * lineCount image = image.length + image.length % 2 := by
    rw [lineCount]
    omega
  induction n generalizing k p with
  | zero =>
      have hdone : lineCount image - k = 0 := by omega
      rw [hdone]
      rfl
  | succ n ih =>
      obtain ⟨stop, hsum, hstop⟩ := Number.add_eq_min (a := o) (b := image.length)
        (by omega) (by omega)
      by_cases hlast : k < lineCount image
      · have hpc : p = (o + 2 * k : Nat) := by omega
        have hbelow : (Number.whole p).lt (o + image.toArray.size) = true := by
          rw [List.size_toArray, hsum, Number.lt, decide_eq_true_eq]
          omega
        obtain ⟨next, hstep, hnext⟩ := Number.add_eq_min (a := p) (b := 2) (by omega) (by omega)
        have hpos : p + 2 = o + 2 * (k + 1 : Nat) := by omega
        rw [hpos] at hnext
        have hrest := ih hnext hlast (by omega)
        rw [linesFrom, if_pos hbelow, show (Number.whole p) + 2 = .whole next from hstep, hrest,
          show lineCount image - k = (lineCount image - (k + 1)) + 1 by omega, List.range'_succ,
          List.map_cons, hpc]
        exact congrArg (· :: _) (ofReader_eq image (by omega))
      · have habove : ¬ (Number.whole p).lt (o + image.toArray.size) = true := by
          rw [List.size_toArray, hsum, Number.lt, decide_eq_true_eq]
          omega
        rw [linesFrom, if_neg habove, show lineCount image - k = 0 by omega]
        rfl

section Walk

variable {image : List UInt8} {o : Nat} (h : Locatable image o)
include h

/-- The lines of an image, one for every two bytes. -/
theorem lines_eq :
    lines o image = (List.range (lineCount image)).map (Line.ofImage image o) := by
  cases hempty : image.length with
  | zero =>
      rw [lines, hempty, lineCount, hempty]
      rfl
  | succ n =>
      have hends := h (2 * lineCount image - 1) (by rw [lineCount]; omega)
      have hwalk : linesFrom image.toArray o (.whole o) image.length =
          (List.range' 0 (lineCount image - 0)).map (Line.ofImage image o) :=
        linesFrom_eq (by omega) (by omega) (Nat.zero_le _) (by rw [lineCount]; omega)
      rw [Nat.sub_zero, ← List.range_eq_range'] at hwalk
      exact hwalk

theorem length_listing : (listing image o).length = lineCount image := by
  rw [listing, lines_eq h, List.length_map, List.length_map, List.length_range]

theorem getElem?_listing {k : Nat} (hk : k < lineCount image) :
    (listing image o)[k]? = some (Line.ofImage image o k).format := by
  rw [listing, lines_eq h, List.getElem?_map, List.getElem?_map, List.getElem?_range hk]
  rfl

end Walk

/-! ## The lines of a memory -/

theorem locatable_rom (rom : Rom) : Locatable rom.data programStart := by
  intro i hi
  have hfits := rom.fits
  simp only [lineCount, programCapacity, programStart] at hi hfits ⊢
  omega

section Loaded

variable (m : Memory) (rom : Rom) {k : Nat} (hk : k < lineCount rom.data)
include hk

theorem address_lt : programStart + 2 * k + 1 ≤ 0xFFF := by
  have hfits := rom.fits
  simp only [lineCount, programCapacity, programStart] at hk hfits ⊢
  omega

/-- The word that was loaded is the word that the image holds. -/
theorem wordAt_loaded :
    (Console.bootMemory m (some rom)).wordAt (programStart + 2 * k) =
      Line.wordOf (rom.data.getD (2 * k) 0).toNat (rom.data.getD (2 * k + 1) 0).toNat := by
  have hin := address_lt rom hk
  simp only [programStart] at hin
  have hword := Memory.wordAt_boot m rom (k := k) (by rw [programCapacity]; omega)
  rw [hword, Line.wordOf, Number.byte_byte, Number.byte_byte]

/-- At the address of a line the memory shows the line of the image. -/
theorem at?_boot :
    Line.at? (Line.reader (Console.bootMemory m (some rom))) (programStart + 2 * k : Nat) =
      .ok (Line.ofImage rom.data programStart k) := by
  have hin := address_lt rom hk
  have haddr : ((programStart + 2 * k : Nat) : Int).toNat = programStart + 2 * k := by omega
  have hline := Line.at?_of_le (Console.bootMemory m (some rom))
    (a := (programStart + 2 * k : Nat)) (by omega) (by omega)
  rw [haddr, wordAt_loaded m rom hk] at hline
  exact hline

end Loaded

namespace Console

/-- A console that stands at a line of a loaded image, and has not changed
its two bytes, lists it. -/
theorem listingText_of_unchanged {u : Console} {m : Memory} {rom : Rom} {k : Nat}
    (hk : k < lineCount rom.data) (hpc : u.machine.cpu.pc = (programStart + 2 * k : Nat))
    (hbytes : ∀ i, i = programStart + 2 * k ∨ i = programStart + 2 * k + 1 →
      u.machine.memory.byteAt i = (bootMemory m (some rom)).byteAt i) :
    u.listingText = (Line.ofImage rom.data programStart k).format := by
  have hin := address_lt rom hk
  have hword : u.machine.memory.wordAt (programStart + 2 * k) =
      (bootMemory m (some rom)).wordAt (programStart + 2 * k) := by
    rw [Memory.wordAt, hbytes _ (.inl rfl), hbytes _ (.inr rfl), Memory.wordAt]
  have haddr : ((programStart + 2 * k : Nat) : Int).toNat = programStart + 2 * k := by omega
  rw [listingText_of_le (by omega) (by omega), hpc, haddr, hword, wordAt_loaded m rom hk]
  rfl

/-- The listing of an image shows the memory after the image was loaded,
whatever the console had done before: it has half as many lines as the image
has bytes, rounded up, and line `k` is the line that is read from the memory
at `0x200 + 2 * k`, with both of its bytes inside.  It is also the line that
a trace writes there, as long as the program has not changed these bytes. -/
theorem listing_shows_loaded_memory (s : Console) (data : List UInt8) (name : Option String)
    (hfits : data.length ≤ programCapacity) :
    ∃ t : Console, s.loadRom data name = t.granted ∧
      (listing data programStart).length = (data.length + 1) / 2 ∧
      ∀ k, k < (data.length + 1) / 2 →
        (∃ high low, t.machine.memory.read (programStart + 2 * k : Nat) = .ok high ∧
          t.machine.memory.read (programStart + 2 * k + 1 : Nat) = .ok low) ∧
        (∃ line, Line.at? (Line.reader t.machine.memory) (programStart + 2 * k : Nat) = .ok line ∧
          (listing data programStart)[k]? = some line.format) ∧
        ∀ u : Console, u.machine.cpu.pc = (programStart + 2 * k : Nat) →
          (∀ i, i = programStart + 2 * k ∨ i = programStart + 2 * k + 1 →
            u.machine.memory.byteAt i = t.machine.memory.byteAt i) →
          (listing data programStart)[k]? = some u.listingText := by
  let rom : Rom := ⟨data, name, hfits⟩
  have hloc : Locatable data programStart := locatable_rom rom
  refine ⟨_, s.loadRom_eq rom, length_listing hloc, fun k hk => ⟨?_, ?_, ?_⟩⟩
  · have hin := address_lt rom hk
    exact ⟨_, _, Memory.read_of_le _ (by omega) (by omega),
      Memory.read_of_le _ (by omega) (by omega)⟩
  · exact ⟨_, at?_boot s.machine.memory rom hk, getElem?_listing hloc hk⟩
  · intro u hpc hbytes
    rw [getElem?_listing hloc hk, listingText_of_unchanged hk hpc hbytes]

/-- A program with an odd last byte. -/
def oddProgram : List UInt8 := [0x12, 0x00, 0x6A]

theorem listing_oddProgram :
    listing oddProgram programStart = ["200  1200  JP $200", "202  6A00  LD VA, #$00"] := by
  decide +kernel

/-- Behind an odd program the byte of the program before is gone, and the
memory lists the zero that the listing supplies.  The first line is the one
that a trace begins with. -/
theorem listing_shows_loaded_memory_of_oddProgram :
    oddProgram.length ≤ programCapacity ∧ lowStored.machine.memory.byteAt 0x203 = 0xAB ∧
      ∃ t : Console, lowStored.loadRom oddProgram none = t.granted ∧
        (∃ line, Line.at? (Line.reader t.machine.memory) 0x202 = .ok line ∧
          line.format = "202  6A00  LD VA, #$00") ∧
        t.listingText = "200  1200  JP $200" := by
  have hfits : oddProgram.length ≤ programCapacity := by decide
  have hbefore : lowStored.machine.memory.byteAt 0x203 = 0xAB := by decide +kernel
  obtain ⟨t, ht, -, hlines⟩ := listing_shows_loaded_memory lowStored oddProgram none hfits
  have hpc : t.machine.cpu.pc = (programStart + 2 * 0 : Nat) := by
    have hreset := (lowStored.loadRom_eq ⟨oddProgram, none, hfits⟩).symm.trans ht
    rw [← show _ = t from congrArg Call.console hreset]
    rfl
  have hfirst := (hlines 0 (by decide)).2.2 t hpc fun _ _ => rfl
  obtain ⟨-, ⟨line, hline, hlisted⟩, -⟩ := hlines 1 (by decide)
  rw [listing_oddProgram] at hfirst hlisted
  exact ⟨hfits, hbefore, t, ht, ⟨line, hline, (Option.some.inj hlisted).symm⟩,
    (Option.some.inj hfirst).symm⟩

end Console
end Chip8
