/-
# `Chip8.Proofs.Readback` — a listing loses nothing

A line of a listing has an address, the word there and what it means:

    202  6A00  LD VA, #$00

The address takes three digits or more, the word always four, and what comes
behind them does not matter for reading the bytes back: the third piece
between blanks is the word, since there are two blanks behind the address.
So the image of a program, filled up to even length, is read off its listing
(`readListing_listing`), and two images at one origin have the same listing
only if they are the same when filled up.

The meaning is itself legible.  Two words that are instructions are shown by
the same text only if they are the same instruction up to the unused
register of a shift, and a word that is none is shown as data, which looks
like no instruction.

None of this holds for an origin out of the exact doubles.  At `2 ^ 53` the
second byte of a line has the address of the first, and is not shown
(`listing_hides_byte`).
-/
import Chip8.Proofs.Assembler
import Chip8.Proofs.Listed

namespace Chip8

/-! ## The word of a line -/

/-- The word that a line shows. -/
def shownWord (line : String) : Nat := readHex ((line.toList.splitOn ' ').getD 2 [])

/-- The bytes that some lines show. -/
def readListing (ls : List String) : List UInt8 :=
  ls.flatMap fun line => Instruction.wordBytes (shownWord line)

/-- An image, filled up with a zero to even length. -/
def filledUp (image : List UInt8) : List UInt8 :=
  image ++ List.replicate (image.length % 2) 0

/-- The big-endian word of the bytes `2 * k` and `2 * k + 1`. -/
def imageWord (image : List UInt8) (k : Nat) : Nat :=
  256 * (image.getD (2 * k) 0).toNat + (image.getD (2 * k + 1) 0).toNat

theorem imageWord_lt (image : List UInt8) (k : Nat) : imageWord image k < 65536 := by
  have hhigh := (image.getD (2 * k) 0).toNat_lt
  have hlow := (image.getD (2 * k + 1) 0).toNat_lt
  rw [imageWord]
  omega

theorem wordOf_eq_imageWord (image : List UInt8) (k : Nat) :
    Line.wordOf (image.getD (2 * k) 0).toNat (image.getD (2 * k + 1) 0).toNat =
      imageWord image k := by
  rw [Line.wordOf, Number.byte_byte, Number.byte_byte, imageWord, Nat.mul_comm]

theorem format_ofImage (image : List UInt8) (o k : Nat) :
    (Line.ofImage image o k).format = upperHex (o + 2 * k : Nat) 3 ++ "  " ++
      upperHex (imageWord image k) 4 ++ "  " ++ Line.wordText (imageWord image k) := by
  rw [← wordOf_eq_imageWord]
  rfl

/-- A word is written with exactly four digits. -/
theorem length_upperHex_word {w : Nat} (hw : w < 65536) : (upperHex w 4).length = 4 := by
  have hdigits : (Nat.toDigits 16 w).length ≤ 4 :=
    (Nat.length_toDigits_le_iff (by decide) (by decide)).mpr hw
  rw [← String.length_toList, toList_upperHex, zeroFill, List.length_leftpad, List.length_map,
    hexDigits]
  omega

theorem blank_not_mem_upperHex (n width : Nat) : ' ' ∉ (upperHex n width).toList := fun h =>
  (Instruction.plain_upperHex n width ' ' h).1 rfl

theorem shownWord_line (n w : Nat) (text : String) :
    shownWord (upperHex n 3 ++ "  " ++ upperHex w 4 ++ "  " ++ text) = w := by
  have hchars : (upperHex n 3 ++ "  " ++ upperHex w 4 ++ "  " ++ text).toList =
      (upperHex n 3).toList ++ ' ' :: ([] ++ ' ' :: ((upperHex w 4).toList ++ ' ' ::
        (' ' :: text.toList))) := by
    simp only [String.toList_append, List.append_assoc, List.nil_append]
    rfl
  rw [shownWord, hchars, List.splitOn_append_cons_self_of_not_mem (blank_not_mem_upperHex n 3),
    List.splitOn_append_cons_self_of_not_mem List.not_mem_nil,
    List.splitOn_append_cons_self_of_not_mem (blank_not_mem_upperHex w 4)]
  exact readHex_upperHex w 4

/-! ## The bytes of a listing -/

theorem wordBytes_imageWord (image : List UInt8) (k : Nat) :
    Instruction.wordBytes (imageWord image k) =
      [image.getD (2 * k) 0, image.getD (2 * k + 1) 0] := by
  have hhigh := (image.getD (2 * k) 0).toNat_lt
  have hlow := (image.getD (2 * k + 1) 0).toNat_lt
  have hdiv : imageWord image k / 256 = (image.getD (2 * k) 0).toNat := by
    rw [imageWord]
    omega
  have hmod : imageWord image k % 256 = (image.getD (2 * k + 1) 0).toNat := by
    rw [imageWord]
    omega
  rw [Instruction.wordBytes, Instruction.lowWord_natCast (imageWord_lt image k), hdiv, hmod,
    UInt8.ofNat_toNat, UInt8.ofNat_toNat]

/-- Pairs of neighbours, one pair after the other, are the whole row. -/
theorem flatMap_pairs {α : Type} (f : Nat → α) (n : Nat) :
    (List.range n).flatMap (fun k => [f (2 * k), f (2 * k + 1)]) =
      (List.range (2 * n)).map f := by
  induction n with
  | zero => rfl
  | succ n ih =>
      rw [List.range_succ, List.flatMap_append, ih, Nat.mul_succ, List.range_succ, List.range_succ,
        List.map_append, List.map_append, List.append_assoc]
      rfl

theorem filledUp_eq (image : List UInt8) :
    filledUp image = (List.range (2 * lineCount image)).map fun i => image.getD i 0 := by
  have hcount : image.length + image.length % 2 = 2 * lineCount image := by
    rw [lineCount]
    omega
  apply List.ext_getElem
  · rw [filledUp, List.length_append, List.length_replicate, List.length_map, List.length_range,
      hcount]
  · intro i _ _
    rw [List.getElem_map, List.getElem_range, List.getD_eq_getElem?_getD]
    by_cases hi : i < image.length
    · rw [List.getElem?_eq_getElem hi, Option.getD_some]
      exact List.getElem_append_left hi
    · have hbehind := Nat.le_of_not_lt hi
      rw [List.getElem?_eq_none hbehind, Option.getD_none]
      exact (List.getElem_append_right hbehind).trans (List.getElem_replicate _)

/-- An image is read back from its listing, filled up to even length. -/
theorem readListing_listing {image : List UInt8} {o : Nat} (h : Locatable image o) :
    readListing (listing image o) = filledUp image := by
  have hbytes : ∀ k, Instruction.wordBytes (shownWord (Line.ofImage image o k).format) =
      [image.getD (2 * k) 0, image.getD (2 * k + 1) 0] := by
    intro k
    rw [format_ofImage, shownWord_line, wordBytes_imageWord]
  rw [readListing, listing, lines_eq h, List.flatMap_map, List.flatMap_map, filledUp_eq,
    ← flatMap_pairs]
  exact congrArg (fun f => (List.range (lineCount image)).flatMap f) (funext hbytes)

/-! ## Filling up changes no line -/

theorem length_filledUp (image : List UInt8) : (filledUp image).length = 2 * lineCount image := by
  rw [filledUp_eq, List.length_map, List.length_range]

theorem lineCount_filledUp (image : List UInt8) : lineCount (filledUp image) = lineCount image := by
  rw [lineCount, length_filledUp]
  omega

theorem getD_filledUp (image : List UInt8) (i : Nat) :
    (filledUp image).getD i 0 = image.getD i 0 := by
  rw [filledUp_eq, List.getD_eq_getElem?_getD, List.getElem?_map]
  by_cases hi : i < 2 * lineCount image
  · rw [List.getElem?_range hi]
    rfl
  · have hlen : image.length ≤ i := by
      rw [lineCount] at hi
      omega
    rw [List.getElem?_eq_none (by rw [List.length_range]; omega), List.getD_eq_getElem?_getD,
      List.getElem?_eq_none hlen]
    rfl

theorem listing_filledUp {image : List UInt8} {o : Nat} (h : Locatable image o) :
    listing (filledUp image) o = listing image o := by
  have hfilled : Locatable (filledUp image) o := by
    intro i hi
    rw [lineCount_filledUp] at hi
    exact h i hi
  have hline : Line.ofImage (filledUp image) o = Line.ofImage image o := by
    funext k
    rw [Line.ofImage, getD_filledUp, getD_filledUp, Line.ofImage]
  rw [listing, lines_eq hfilled, hline, lineCount_filledUp, listing, lines_eq h]

/-! ## Nothing is lost -/

/-- Line `k` of a listing begins with its address and the word of two bytes,
in four digits; the image is read back from the lines, filled up to even
length, so that two images at one origin have the same listing if and only
if they are the same when filled up.  Two words that are instructions have
the same text if and only if they are the same instruction, up to the
register that a shift does not use, and no such text is that of data. -/
theorem listing_loses_nothing :
    (∀ (image : List UInt8) (o : Nat), Locatable image o →
      (listing image o).length = (image.length + 1) / 2 ∧
      (∀ k, k < (image.length + 1) / 2 → ∃ rest,
        (listing image o)[k]? =
          some (upperHex (o + 2 * k : Nat) 3 ++ "  " ++ upperHex (imageWord image k) 4 ++ rest) ∧
        (upperHex (imageWord image k) 4).length = 4) ∧
      readListing (listing image o) = filledUp image) ∧
    (∀ (image image' : List UInt8) (o : Nat), Locatable image o → Locatable image' o →
      (listing image o = listing image' o ↔ filledUp image = filledUp image')) ∧
    (∀ (w w' : Int) (pc pc' : Number) (ins ins' : Instruction Int),
      Instruction.decode w pc = .ok ins → Instruction.decode w' pc' = .ok ins' →
      (ins.text = ins'.text ↔ ins.shown = ins'.shown)) ∧
    ∀ (w : Int) (pc : Number) (ins : Instruction Int), Instruction.decode w pc = .ok ins →
      ∀ v : Number, ins.text ≠ "DW $" ++ upperHex v 4 := by
  refine ⟨fun image o h => ⟨length_listing h, fun k hk => ?_, readListing_listing h⟩, ?_, ?_, ?_⟩
  · refine ⟨"  " ++ Line.wordText (imageWord image k), ?_,
      length_upperHex_word (imageWord_lt image k)⟩
    rw [getElem?_listing h hk, format_ofImage, ← String.append_assoc]
  · intro image image' o h h'
    constructor
    · intro heq
      rw [← readListing_listing h, heq, readListing_listing h']
    · intro heq
      rw [← listing_filledUp h, heq, listing_filledUp h']
  · intro w w' pc pc' ins ins' hd hd'
    exact Instruction.text_eq_iff (Instruction.decode_inRange hd) (Instruction.decode_inRange hd')
  · intro w pc ins _ v
    exact Line.text_ne_data ins _

/-- Three bytes, of which the last and its zero have the largest exact
addresses. -/
def lastImage : List UInt8 := [0xA1, 0xB2, 0xC3]

/-- The listing of three bytes at the end of the exact addresses gives them
back, filled up by a fourth, and that of four bytes of which the last is zero
is the same.  A shift is shown without its second register, and a jump not
like the data of its word. -/
theorem listing_loses_nothing_at_the_end :
    Locatable lastImage (2 ^ 53 - 3) ∧
      readListing (listing lastImage (2 ^ 53 - 3 : Nat)) = [0xA1, 0xB2, 0xC3, 0x00] ∧
      listing lastImage (2 ^ 53 - 3 : Nat) = listing (lastImage ++ [0x00]) (2 ^ 53 - 3 : Nat) ∧
      Instruction.decode 0x8126 0 = .ok (.shiftRight 1 2) ∧
      Instruction.decode 0x8136 0 = .ok (.shiftRight 1 3) ∧
      (Instruction.shiftRight (1 : Int) 2).text = (Instruction.shiftRight (1 : Int) 3).text ∧
      Instruction.decode 0x1234 0 = .ok (.jump 0x234) ∧
      (Instruction.jump (0x234 : Int)).text ≠ "DW $" ++ upperHex (0x1234 : Nat) 4 := by
  have hloc : Locatable lastImage (2 ^ 53 - 3) := by
    intro i hi
    have hi : i < 4 := hi
    omega
  obtain ⟨-, -, hread⟩ := listing_loses_nothing.1 lastImage (2 ^ 53 - 3) hloc
  have hsame := (listing_loses_nothing.2.1 lastImage (lastImage ++ [0x00]) _ hloc hloc).mpr rfl
  have h₂ : Instruction.decode 0x8126 0 = .ok (.shiftRight 1 2) := rfl
  have h₃ : Instruction.decode 0x8136 0 = .ok (.shiftRight 1 3) := rfl
  have htext := (listing_loses_nothing.2.2.1 _ _ _ _ _ _ h₂ h₃).mpr rfl
  have hj : Instruction.decode 0x1234 0 = .ok (.jump 0x234) := rfl
  have hdata := listing_loses_nothing.2.2.2 _ _ _ hj (0x1234 : Nat)
  exact ⟨hloc, hread, hsame, h₂, h₃, htext, hj, hdata⟩

/-- At an origin whose successor is no double, a line shows its first byte
twice, and the listing of another image is the same. -/
theorem listing_hides_byte :
    listing [0x12, 0x34] (2 ^ 53 : Nat) = ["20000000000000  1212  JP $212"] ∧
      listing [0x12, 0x56] (2 ^ 53 : Nat) = ["20000000000000  1212  JP $212"] ∧
      filledUp [0x12, 0x34] ≠ filledUp [0x12, 0x56] ∧
      ¬ ∃ rest, (listing [0x12, 0x34] (2 ^ 53 : Nat))[0]? = some
        (upperHex (2 ^ 53 : Nat) 3 ++ "  " ++ upperHex (imageWord [0x12, 0x34] 0) 4 ++ rest) := by
  have hlines : listing [0x12, 0x34] (2 ^ 53 : Nat) = ["20000000000000  1212  JP $212"] := by
    decide +kernel
  refine ⟨hlines, by decide +kernel, by decide, ?_⟩
  rintro ⟨rest, hline⟩
  rw [hlines] at hline
  have hhex : upperHex (2 ^ 53 : Nat) 3 ++ "  " ++ upperHex (imageWord [0x12, 0x34] 0) 4 =
      "20000000000000  1234" := by
    decide +kernel
  rw [hhex] at hline
  have hchars := congrArg String.toList (Option.some.inj hline)
  rw [String.toList_append] at hchars
  have hbegin := congrArg (List.take 20) hchars
  rw [List.take_left' (by decide)] at hbegin
  exact absurd hbegin (by decide)

end Chip8
