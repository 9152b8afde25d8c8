/-
# `Chip8.Proofs.Numerals` — what is read of a written number

A number in decimal notation is written as a sign, digits, a fraction and an
exponent, of which only the digits have to be there:

    -  12  .5  e+3

Two readings of such a text are compared.  `Number.ofNumeral` reads all of it
(`ofNumeral_text`), and so yields what the text denotes.  `Number.ofIntegerPrefix`
stops behind the first digits (`ofIntegerPrefix_text`): of the text above it sees
`-12`.  Where there is neither a fraction nor an exponent nothing is left to be
seen, and the two agree (`integral_eq_number`).

Each part of a text ends where the next one begins, because the character that
begins it, a point or the letter `e`, is no digit (`EndsDigits`).
-/
import Chip8.Number.Numeral
import Chip8.Proofs.WholeDoubles

namespace Chip8

/-! ## Digits -/

/-- The character of a decimal digit. -/
def decimalDigit (d : Fin 10) : Char := Char.ofNat (48 + d)

/-- Decimal digits, at least one. -/
abbrev Digits : Type := { ds : List (Fin 10) // ds ≠ [] }

namespace Digits

/-- The text of some digits. -/
def chars (ds : List (Fin 10)) : List Char := ds.map decimalDigit

/-- The digits as numbers. -/
def values (ds : List (Fin 10)) : List Nat := ds.map Fin.val

theorem values_ne_nil {ds : List (Fin 10)} (h : ds ≠ []) : values ds ≠ [] :=
  fun hv => h (List.map_eq_nil_iff.1 hv)

end Digits

/-- The text does not begin with a digit. -/
def EndsDigits (cs : List Char) : Prop := ∀ c ∈ cs.head?, digitValue? 10 c = none

theorem digitValue?_decimalDigit (d : Fin 10) : digitValue? 10 (decimalDigit d) = some d.val := by
  revert d
  decide

theorem spanDigits_of_some {base d : Nat} {c : Char} (h : digitValue? base c = some d)
    (r : List Char) :
    spanDigits base (c :: r) = (d :: (spanDigits base r).1, (spanDigits base r).2) := by
  simp only [spanDigits, List.takeWhile_cons, List.dropWhile_cons, h, Option.isSome_some, if_true,
    List.filterMap_cons]

theorem spanDigits_of_ends {cs : List Char} (h : EndsDigits cs) : spanDigits 10 cs = ([], cs) := by
  cases cs with
  | nil => rfl
  | cons c r =>
      have hc : (digitValue? 10 c).isSome = false := by
        rw [h c rfl]
        rfl
      simp only [spanDigits, List.takeWhile_cons, List.dropWhile_cons, hc, Bool.false_eq_true,
        if_false, List.filterMap_nil]

/-- All digits at the start of a text are read, and nothing behind them. -/
theorem spanDigits_chars (ds : List (Fin 10)) {rest : List Char} (h : EndsDigits rest) :
    spanDigits 10 (Digits.chars ds ++ rest) = (Digits.values ds, rest) := by
  induction ds with
  | nil => exact spanDigits_of_ends h
  | cons d ds ih =>
      have hd := spanDigits_of_some (digitValue?_decimalDigit d) (Digits.chars ds ++ rest)
      rw [ih] at hd
      exact hd

theorem takeSign_of_ne {c : Char} (hminus : c ≠ '-') (hplus : c ≠ '+') (r : List Char) :
    takeSign (c :: r) = (false, c :: r) := by
  unfold takeSign
  split
  · rename_i heq
    exact absurd (List.cons.inj heq).1 hminus
  · rename_i heq
    exact absurd (List.cons.inj heq).1 hplus
  · rfl

/-- A digit is no sign and no letter. -/
theorem decimalDigit_ne (d : Fin 10) :
    decimalDigit d ≠ '-' ∧ decimalDigit d ≠ '+' ∧ ('I' == decimalDigit d) = false := by
  revert d
  decide

theorem takeSign_chars {ds : List (Fin 10)} (h : ds ≠ []) (rest : List Char) :
    takeSign (Digits.chars ds ++ rest) = (false, Digits.chars ds ++ rest) := by
  obtain ⟨d, ds, rfl⟩ := List.exists_cons_of_ne_nil h
  obtain ⟨hminus, hplus, -⟩ := decimalDigit_ne d
  exact takeSign_of_ne hminus hplus _

/-! ## Numerals -/

/-- An exponent as it is written: the letter, a sign, digits. -/
structure Exponent where
  capital : Bool
  minus? : Option Bool
  digits : Digits

/-- A number as it is written: perhaps a minus, digits, perhaps a fraction, perhaps
an exponent. -/
structure Numeral where
  minus : Bool
  digits : Digits
  fraction? : Option (List (Fin 10))
  exponent? : Option Exponent

/-- A sign in front of an exponent. -/
def signChars : Option Bool → List Char
  | none => []
  | some false => ['+']
  | some true => ['-']

namespace Exponent

def chars (x : Exponent) : List Char :=
  (if x.capital then 'E' else 'e') :: (signChars x.minus? ++ Digits.chars x.digits.1)

/-- The power of ten. -/
def value (x : Exponent) : Int :=
  if x.minus? = some true then -(ofDigits 10 (Digits.values x.digits.1) : Int)
  else ofDigits 10 (Digits.values x.digits.1)

end Exponent

namespace Numeral

open Double
open Float.Model.UnpackedFloat

def exponentChars (n : Numeral) : List Char :=
  match n.exponent? with
  | none => []
  | some x => x.chars

/-- The fraction and what follows. -/
def fractionChars (n : Numeral) : List Char :=
  match n.fraction? with
  | none => n.exponentChars
  | some fs => '.' :: (Digits.chars fs ++ n.exponentChars)

/-- The numeral without its sign. -/
def unsignedChars (n : Numeral) : List Char := Digits.chars n.digits.1 ++ n.fractionChars

def chars (n : Numeral) : List Char :=
  if n.minus then '-' :: n.unsignedChars else n.unsignedChars

/-- The numeral as a text. -/
def text (n : Numeral) : String := String.ofList n.chars

/-- The digits of the fraction. -/
def fractionDigits (n : Numeral) : List (Fin 10) := n.fraction?.getD []

/-- The power of ten that is written. -/
def power (n : Numeral) : Int := (n.exponent?.map Exponent.value).getD 0

/-- What the numeral is without its sign: all its digits, and a power of ten. -/
def magnitude (n : Numeral) : Magnitude :=
  .decimal (ofDigits 10 (Digits.values (n.digits.1 ++ n.fractionDigits)))
    (n.power - n.fractionDigits.length)

/-- The number that is written. -/
def number (n : Numeral) : Number := n.magnitude.toNumber n.minus

/-- The number that the first digits make, with the sign. -/
def integral (n : Numeral) : Number :=
  (Magnitude.decimal (ofDigits 10 (Digits.values n.digits.1)) 0).toNumber n.minus

/-- There is neither a fraction nor an exponent. -/
def Plain (n : Numeral) : Prop := n.fraction? = none ∧ n.exponent? = none

variable {n : Numeral}

/-! ## What is written -/

/-- The first digits of a plain numeral are all there is. -/
theorem integral_eq_number (h : n.Plain) : n.integral = n.number := by
  obtain ⟨hfraction, hexponent⟩ := h
  have hdigits : n.fractionDigits = [] := by rw [fractionDigits, hfraction]; rfl
  have hpower : n.power = 0 := by rw [power, hexponent]; rfl
  rw [integral, number, magnitude, hdigits, hpower, List.append_nil]
  rfl

theorem nearestDouble_ofSign (m : Nat) (e : Int) : OfSign .positive (view (nearestDouble m e)) := by
  have hzero : OfSign .positive (view 0.0) := decimal_ofSign 0 true 1
  have hinfinity : view (1.0 / 0.0) = .infinity .positive := rfl
  unfold nearestDouble
  dsimp only
  split_ifs
  · exact hzero
  · rw [hinfinity]
    exact .infinity
  · exact hzero
  · cases e with
    | ofNat k => exact decimal_ofSign m false k
    | negSucc k => exact decimal_ofSign m true (k + 1)

/-- A numeral with a minus is not above zero. -/
theorem le_zero_of_minus {m : Nat} {e k : Int}
    (h : (Magnitude.decimal m e).toNumber true = .whole k) : k ≤ 0 :=
  le_zero_of_negative (neg_ofSign (nearestDouble_ofSign m e)) h

/-- An integer that is not too large is read as it is written. -/
theorem ofFloat_nearestDouble {m : Nat} (h : m < 2 ^ 53) :
    Number.ofFloat (nearestDouble m 0) = .whole m := by
  have hlength : (Nat.toDigits 10 m).length ≤ 16 :=
    (Nat.length_toDigits_le_iff (by decide) (by decide)).2 (Nat.lt_trans h (by decide))
  unfold nearestDouble
  dsimp only
  split_ifs with hm
  · rw [hm]
    exact ofFloat_zero
  · omega
  · omega
  · exact ofFloat_ofNat h

theorem integral_of_lt (hminus : n.minus = false)
    (h : ofDigits 10 (Digits.values n.digits.1) < 2 ^ 53) :
    n.integral = .whole (ofDigits 10 (Digits.values n.digits.1)) := by
  rw [integral, hminus]
  exact ofFloat_nearestDouble h

/-! ## Part by part -/

theorem endsDigits_exponentChars (n : Numeral) : EndsDigits n.exponentChars := by
  unfold exponentChars
  split
  · nofun
  · rename_i x _
    intro c hc
    obtain rfl := Option.some.inj hc
    cases x.capital <;> rfl

theorem endsDigits_fractionChars (n : Numeral) : EndsDigits n.fractionChars := by
  unfold fractionChars
  split
  · exact n.endsDigits_exponentChars
  · intro c hc
    obtain rfl := Option.some.inj hc
    rfl

theorem takeSign_signChars (minus? : Option Bool) {ds : List (Fin 10)} (h : ds ≠ []) :
    takeSign (signChars minus? ++ Digits.chars ds) =
      (minus? == some true, Digits.chars ds) := by
  cases minus? with
  | none =>
      have hsign := takeSign_chars h []
      rwa [List.append_nil] at hsign
  | some minus => cases minus <;> rfl

theorem exponentPart_chars (x : Exponent) : Magnitude.exponentPart x.chars = (x.value, []) := by
  have hspan : spanDigits 10 (Digits.chars x.digits.1) = (Digits.values x.digits.1, []) := by
    have hdigits : spanDigits 10 (Digits.chars x.digits.1 ++ []) = (Digits.values x.digits.1, []) :=
      spanDigits_chars x.digits.1 nofun
    rwa [List.append_nil] at hdigits
  have hread : ∀ c, c = 'e' ∨ c = 'E' →
      Magnitude.exponentPart (c :: (signChars x.minus? ++ Digits.chars x.digits.1)) =
        (x.value, []) := by
    intro c hc
    simp only [Magnitude.exponentPart, if_pos hc, takeSign_signChars x.minus? x.digits.2, hspan]
    cases hv : Digits.values x.digits.1 with
    | nil => exact absurd hv (Digits.values_ne_nil x.digits.2)
    | cons d ds => simp only [Exponent.value, hv, beq_iff_eq]
  unfold Exponent.chars
  cases x.capital
  · exact hread 'e' (.inl rfl)
  · exact hread 'E' (.inr rfl)

theorem exponentPart_exponentChars (n : Numeral) :
    Magnitude.exponentPart n.exponentChars = (n.power, []) := by
  unfold exponentChars power
  cases n.exponent? with
  | none => rfl
  | some x => exact exponentPart_chars x

theorem fractionPart_of_ne {c : Char} (h : c ≠ '.') (before : List Nat) (r : List Char) :
    Magnitude.fractionPart before (c :: r) = ([], c :: r) := by
  unfold Magnitude.fractionPart
  split
  · rename_i heq
    exact absurd (List.cons.inj heq).1 h
  · rfl

theorem fractionPart_point (before : Digits) (fs : List (Fin 10)) {rest : List Char}
    (h : EndsDigits rest) :
    Magnitude.fractionPart (Digits.values before.1) ('.' :: (Digits.chars fs ++ rest)) =
      (Digits.values fs, rest) := by
  have hsome : (Digits.values before.1).isEmpty = false :=
    List.isEmpty_eq_false_iff.2 (Digits.values_ne_nil before.2)
  simp only [Magnitude.fractionPart, spanDigits_chars fs h]
  cases fs with
  | nil =>
      show (if (Digits.values before.1).isEmpty = true then _ else _) = _
      rw [hsome]
      rfl
  | cons f fs => rfl

theorem fractionPart_fractionChars (n : Numeral) :
    Magnitude.fractionPart (Digits.values n.digits.1) n.fractionChars =
      (Digits.values n.fractionDigits, n.exponentChars) := by
  have hrest := n.endsDigits_exponentChars
  unfold fractionChars fractionDigits
  cases n.fraction? with
  | some fs => exact fractionPart_point n.digits fs hrest
  | none =>
      show Magnitude.fractionPart _ n.exponentChars = ([], n.exponentChars)
      unfold exponentChars
      cases n.exponent? with
      | none => rfl
      | some x =>
          refine fractionPart_of_ne ?_ _ _
          cases x.capital <;> decide

theorem span?_unsignedChars (n : Numeral) :
    Magnitude.span? n.unsignedChars = some (n.magnitude, []) := by
  have hword : "Infinity".toList = ['I', 'n', 'f', 'i', 'n', 'i', 't', 'y'] := rfl
  have hinfinity : "Infinity".toList.isPrefixOf n.unsignedChars = false := by
    obtain ⟨d, ds, hd⟩ := List.exists_cons_of_ne_nil n.digits.2
    obtain ⟨-, -, hletter⟩ := decimalDigit_ne d
    rw [hword, unsignedChars, hd, Digits.chars, List.map_cons, List.cons_append,
      List.isPrefixOf_cons_cons, hletter, Bool.false_and]
  have hsome : (Digits.values n.digits.1).isEmpty = false :=
    List.isEmpty_eq_false_iff.2 (Digits.values_ne_nil n.digits.2)
  have hspan : spanDigits 10 n.unsignedChars = (Digits.values n.digits.1, n.fractionChars) :=
    spanDigits_chars n.digits.1 n.endsDigits_fractionChars
  have hlength : (Digits.values n.fractionDigits).length = n.fractionDigits.length :=
    List.length_map _
  have hvalues : Digits.values (n.digits.1 ++ n.fractionDigits) =
      Digits.values n.digits.1 ++ Digits.values n.fractionDigits := List.map_append
  unfold Magnitude.span? magnitude
  rw [if_neg (by rw [hinfinity]; exact Bool.false_ne_true), hvalues, ← hlength]
  simp only [hspan, n.fractionPart_fractionChars, hsome, n.exponentPart_exponentChars,
    Bool.false_and, Bool.false_eq_true, if_false]

/-! ## Reading a numeral -/

/-- The characters that numerals are written in. -/
def alphabet : List Char :=
  ['0', '1', '2', '3', '4', '5', '6', '7', '8', '9', '.', 'e', 'E', '+', '-']

theorem digits_subset (ds : List (Fin 10)) : Digits.chars ds ⊆ alphabet := by
  intro c hc
  obtain ⟨d, -, rfl⟩ := List.mem_map.1 hc
  have hdigits : ∀ d, decimalDigit d ∈ alphabet := by decide
  exact hdigits d

theorem exponentChars_subset (n : Numeral) : n.exponentChars ⊆ alphabet := by
  unfold exponentChars
  cases n.exponent? with
  | none => exact List.nil_subset _
  | some x =>
      have hletter : (if x.capital then 'E' else 'e') ∈ alphabet := by cases x.capital <;> decide
      have hsign : signChars x.minus? ⊆ alphabet := by
        cases x.minus? with
        | none => exact List.nil_subset _
        | some minus => cases minus <;> decide
      exact List.cons_subset.2 ⟨hletter, List.append_subset.2 ⟨hsign, digits_subset _⟩⟩

theorem fractionChars_subset (n : Numeral) : n.fractionChars ⊆ alphabet := by
  unfold fractionChars
  cases n.fraction? with
  | none => exact n.exponentChars_subset
  | some fs =>
      have hpoint : '.' ∈ alphabet := by decide
      exact List.cons_subset.2
        ⟨hpoint, List.append_subset.2 ⟨digits_subset fs, n.exponentChars_subset⟩⟩

theorem chars_subset_alphabet (n : Numeral) : n.chars ⊆ alphabet := by
  have hunsigned : n.unsignedChars ⊆ alphabet :=
    List.append_subset.2 ⟨digits_subset n.digits.1, n.fractionChars_subset⟩
  unfold chars
  cases n.minus with
  | true =>
      have hminus : '-' ∈ alphabet := by decide
      exact List.cons_subset.2 ⟨hminus, hunsigned⟩
  | false => exact hunsigned

theorem skipBlanks_eq_self {cs : List Char} (h : cs ⊆ alphabet) : skipBlanks cs = cs := by
  cases cs with
  | nil => rfl
  | cons c r =>
      have hblanks : alphabet.all (fun c => ¬ isBlank c = true) = true := by decide
      have hc := List.all_eq_true.1 hblanks c (h List.mem_cons_self)
      exact List.dropWhile_cons_of_neg (of_decide_eq_true hc)

theorem trimBlanks_eq_self {cs : List Char} (h : cs ⊆ alphabet) : trimBlanks cs = cs := by
  have hreverse : cs.reverse ⊆ alphabet := fun c hc => h (List.mem_reverse.1 hc)
  rw [trimBlanks, skipBlanks_eq_self h, skipBlanks_eq_self hreverse, List.reverse_reverse]

/-- No numeral looks like one in another base. -/
theorem basedNumeral?_eq_none {cs : List Char} (h : cs ⊆ alphabet) : basedNumeral? cs = none := by
  unfold basedNumeral?
  split
  · rename_i c r
    have hletters : alphabet.all (fun c => ¬ (c = 'x' ∨ c = 'X') ∧ ¬ (c = 'o' ∨ c = 'O') ∧
        ¬ (c = 'b' ∨ c = 'B')) = true := by decide
    have hc := List.all_eq_true.1 hletters c (h (List.mem_cons_of_mem _ List.mem_cons_self))
    obtain ⟨hx, ho, hb⟩ := of_decide_eq_true hc
    simp only [if_neg hx, if_neg ho, if_neg hb]
  · rfl

theorem takeSign_minus (n : Numeral) : takeSign n.chars = (n.minus, n.unsignedChars) := by
  unfold chars
  cases n.minus with
  | true => rfl
  | false => exact takeSign_chars n.digits.2 n.fractionChars

/-- Of a numeral an integer is read up to the end of the first digits. -/
theorem ofIntegerPrefix_text (n : Numeral) : Number.ofIntegerPrefix n.text = n.integral := by
  have hspan : spanDigits 10 n.unsignedChars = (Digits.values n.digits.1, n.fractionChars) :=
    spanDigits_chars n.digits.1 n.endsDigits_fractionChars
  simp only [Number.ofIntegerPrefix, text, String.toList_ofList, skipBlanks_eq_self n.chars_subset_alphabet,
    n.takeSign_minus, hspan]
  cases hv : Digits.values n.digits.1 with
  | nil => exact absurd hv (Digits.values_ne_nil n.digits.2)
  | cons d ds => rw [integral, hv]

/-- A numeral is read as a whole, and denotes the number that is written. -/
theorem ofNumeral_text (n : Numeral) : Number.ofNumeral n.text = n.number := by
  have hbase := basedNumeral?_eq_none n.chars_subset_alphabet
  have hsign := n.takeSign_minus
  have hspan := n.span?_unsignedChars
  simp only [Number.ofNumeral, text, String.toList_ofList, trimBlanks_eq_self n.chars_subset_alphabet]
  cases hc : n.chars with
  | nil =>
      -- without a character there is no sign, and then nothing is left to be a numeral
      rw [hc] at hsign
      have hrest : [] = n.unsignedChars := congrArg Prod.snd hsign
      rw [← hrest] at hspan
      cases hspan
  | cons c r =>
      rw [hc] at hbase hsign
      simp only [hbase, hsign, hspan]
      rfl

end Numeral
end Chip8
