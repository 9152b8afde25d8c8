/-
# `Chip8.Proofs.WholeDoubles` — whole numbers are kept exactly

A whole number `n` above zero and below `2 ^ 53` is a double, and only one double
reads as `n`: with `l` for the number of its binary digits less one,

    n  =  (n · 2 ^ (52 - l)) · 2 ^ (l - 52)          52 - l ≥ 0,

and the mantissa in brackets has 53 digits (`view_of_whole`).  Rounding leads to
this form, because it shifts `n` to the left while digits are missing
(`round_whole`), and so `n` is read back from its double (`ofFloat_ofNat`).

Zero has two forms, with either sign (`view_of_zero`).
-/
import Chip8.Proofs.Doubles
import Chip8.Proofs.Ticks

namespace Chip8

namespace Double

open Float.Model
open Float.Model.UnpackedFloat

variable {x y : Float} {n : Nat}

/-! ## Reading a whole number -/

theorem signed_mul (negative : Bool) (m c : Nat) :
    signed negative (m * c) = signed negative m * c := by
  cases negative with
  | false => exact Nat.cast_mul m c
  | true =>
      show -((m * c : Nat) : Int) = -(m : Int) * c
      rw [Nat.cast_mul, Int.neg_mul]

theorem signed_zero (negative : Bool) : signed negative 0 = 0 := by
  cases negative <;> rfl

theorem ofFloat_eq_whole {k : Int} :
    Number.ofFloat x = .whole k ↔ (ofFloat x).whole? = some k := by
  unfold Number.ofFloat
  constructor
  · intro h
    split at h
    · rename_i i hi
      rw [hi, Number.whole.inj h]
    · cases h
  · intro h
    rw [h]

/-- A whole value `±q`: its digits go on with zeros, or those of the mantissa do. -/
theorem whole?_cases {negative : Bool} {m : Nat} {e k : Int}
    (h : (Double.finite negative m e).whole? = some k) :
    ∃ q : Nat, k = signed negative q ∧
      ((∃ j : Nat, e = j ∧ q = m * 2 ^ j) ∨ ∃ j : Nat, e = .negSucc j ∧ m = q * 2 ^ (j + 1)) := by
  cases e with
  | ofNat j =>
      have hk : signed negative m * (2 ^ j : Nat) = k := Option.some.inj h
      exact ⟨m * 2 ^ j, (hk.symm.trans (signed_mul _ _ _).symm), .inl ⟨j, rfl, rfl⟩⟩
  | negSucc j =>
      simp only [whole?] at h
      split at h
      · rename_i hm
        have hdiv : m / 2 ^ (j + 1) * 2 ^ (j + 1) = m :=
          Nat.div_mul_cancel (Nat.dvd_of_mod_eq_zero hm)
        exact ⟨m / 2 ^ (j + 1), (Option.some.inj h).symm, .inr ⟨j, rfl, hdiv.symm⟩⟩
      · cases h

/-- Nothing is cut off a whole number when it is rounded down. -/
theorem floor?_of_whole? {d : Double} {k : Int} (h : d.whole? = some k) : d.floor? = some k := by
  cases d with
  | nan => cases h
  | infinite s => cases h
  | finite s m e =>
      obtain ⟨q, rfl, ⟨j, rfl, rfl⟩ | ⟨j, rfl, rfl⟩⟩ := whole?_cases h
      · exact h
      · have hpow : ((2 ^ (j + 1) : Nat) : Int) ≠ 0 :=
          Int.natCast_ne_zero.2 (Nat.two_pow_pos (j + 1)).ne'
        rw [floor?, shiftDown, signed_mul, Int.mul_ediv_cancel _ hpow]

/-- A double that reads as a natural number counts that many times. -/
theorem tally_of_whole (h : Number.ofFloat x = .whole n) : Scalar.tally x = .times n := by
  have hw := ofFloat_eq_whole.1 h
  have hfloor := floor?_of_whole? hw
  show tallyFloat x = .times n
  unfold tallyFloat
  cases hd : ofFloat x with
  | nan => rw [hd] at hw; cases hw
  | infinite s => rw [hd] at hw; cases hw
  | finite s m e =>
      rw [hd] at hfloor
      show Tally.times ((Double.finite s m e).floor?.getD 0).toNat = .times n
      rw [hfloor, Option.getD_some, Int.toNat_natCast]

/-! ## The form of a whole number -/

theorem log2_le_of_lt (h : n < 2 ^ 53) : n.log2 ≤ 52 :=
  Nat.le_of_lt_succ (log2_lt (by decide) h)

/-- How a whole number above zero is kept. -/
def wholeView (n : Nat) (h : 0 < n) : UnpackedFloat :=
  .finite .positive (n * 2 ^ (52 - n.log2)) ((n.log2 : Int) - 52)
    (Nat.mul_pos h (Nat.two_pow_pos _))

theorem log2_mantissa (h : 0 < n) (hlt : n < 2 ^ 53) : (n * 2 ^ (52 - n.log2)).log2 = 52 := by
  have hlog := log2_mul_two_pow_add (r := 0) (k := 52 - n.log2) h (Nat.two_pow_pos _)
  have hle := log2_le_of_lt hlt
  rw [Nat.add_zero] at hlog
  omega

theorem repack_wholeView (h : 0 < n) (hlt : n < 2 ^ 53) :
    repack (wholeView n h) = wholeView n h := by
  have hle := log2_le_of_lt hlt
  exact repack_normal (by omega) (by omega) (log2_mantissa h hlt)

/-- A whole number is read back from its form. -/
theorem ofFloat_of_view (h : 0 < n) (hlt : n < 2 ^ 53) (hx : view x = wholeView n h) :
    Number.ofFloat x = .whole n := by
  have hle := log2_le_of_lt hlt
  rw [ofFloat_eq_whole, ofFloat_eq, hx]
  obtain ⟨k, hk⟩ : ∃ k, k = 52 - n.log2 := ⟨_, rfl⟩
  cases k with
  | zero =>
      have he : (n.log2 : Int) - 52 = 0 := by omega
      simp only [wholeView, ofView, he, ← hk, whole?, Nat.pow_zero, Nat.mul_one]
      exact congrArg some (mul_one (n : Int))
  | succ k =>
      have he : (n.log2 : Int) - 52 = .negSucc k := by omega
      simp only [wholeView, ofView, he, ← hk, whole?]
      rw [if_pos (Nat.mul_mod_left _ _), Nat.mul_div_cancel n (Nat.two_pow_pos _)]
      rfl

/-- A double that reads as a whole number is a zero, or `±q` in one of the two
ways. -/
theorem view_cases_of_whole {k : Int} (hx : Number.ofFloat x = .whole k) :
    (k = 0 ∧ ∃ s, view x = .zero s) ∨
    ∃ s q, 0 < q ∧ k = signed (s == .negative) q ∧
      ((∃ (m j : Nat) (hm : 0 < m), view x = .finite s m j hm ∧ q = m * 2 ^ j) ∨
        ∃ (j : Nat) (hm : 0 < q * 2 ^ (j + 1)),
          view x = .finite s (q * 2 ^ (j + 1)) (.negSucc j) hm) := by
  have hw := ofFloat_eq_whole.1 hx
  rw [ofFloat_eq] at hw
  cases hv : view x with
  | notANumber => rw [hv] at hw; cases hw
  | infinity s => rw [hv] at hw; cases hw
  | zero s =>
      rw [hv] at hw
      obtain ⟨q, rfl, hq⟩ := whole?_cases hw
      have hzero : q = 0 := by
        rcases hq with ⟨j, -, rfl⟩ | ⟨j, -, hq⟩
        · exact Nat.zero_mul _
        · exact (Nat.mul_eq_zero.1 hq.symm).resolve_right (Nat.two_pow_pos (j + 1)).ne'
      rw [hzero, signed_zero]
      exact .inl ⟨rfl, s, rfl⟩
  | finite s m e hm =>
      rw [hv] at hw
      obtain ⟨q, rfl, ⟨j, rfl, rfl⟩ | ⟨j, rfl, rfl⟩⟩ := whole?_cases hw
      · exact .inr ⟨s, m * 2 ^ j, Nat.mul_pos hm (Nat.two_pow_pos j), rfl,
          .inl ⟨m, j, hm, rfl, rfl⟩⟩
      · exact .inr ⟨s, q, Nat.pos_of_mul_pos_right hm, rfl, .inr ⟨j, hm, rfl⟩⟩

/-- Only one double reads as a whole number above zero. -/
theorem view_of_whole (h : 0 < n) (hlt : n < 2 ^ 53) (hx : Number.ofFloat x = .whole n) :
    view x = wholeView n h := by
  rcases view_cases_of_whole hx with ⟨hzero, -⟩ | ⟨s, q, hq, hk, hform⟩
  · exact absurd (Int.ofNat.inj hzero) h.ne'
  obtain ⟨rfl, rfl⟩ : s = .positive ∧ n = q := by
    cases s with
    | positive => exact ⟨rfl, Int.ofNat.inj hk⟩
    | negative =>
        have : (n : Int) = -(q : Int) := hk
        omega
  have hnlog := log2_le_of_lt hlt
  rcases hform with ⟨m, j, hm, hv, rfl⟩ | ⟨j, hm, hv⟩
  · -- a mantissa over a positive exponent would be too large
    obtain ⟨-, -, -, hnormal⟩ := view_finite hv
    have hlog := log2_mul_two_pow_add (r := 0) (k := j) hm (Nat.two_pow_pos _)
    rw [Nat.add_zero] at hlog
    obtain rfl : j = 0 := by omega
    have hone : m * 2 ^ 0 = m := Nat.mul_one m
    rw [hone] at hlog hnlog
    have hshift : 52 - m.log2 = 0 := by omega
    rw [hv]
    simp only [wholeView, hshift, Nat.pow_zero, Nat.mul_one]
    congr 1
    omega
  · obtain ⟨hmlog, -, -, hnormal⟩ := view_finite hv
    have hlog := log2_mul_two_pow_add (r := 0) (k := j + 1) h (Nat.two_pow_pos _)
    rw [Nat.add_zero] at hlog
    have hj : j + 1 = 52 - n.log2 := by omega
    rw [hv]
    simp only [wholeView, ← hj]
    congr 1
    omega

/-- Zero is kept with a sign. -/
theorem view_of_zero (hx : Number.ofFloat x = .whole 0) : ∃ s, view x = .zero s := by
  rcases view_cases_of_whole hx with ⟨-, hzero⟩ | ⟨s, q, hq, hk, -⟩
  · exact hzero
  · cases s with
    | positive =>
        have : (0 : Int) = q := hk
        omega
    | negative =>
        have : (0 : Int) = -(q : Int) := hk
        omega

theorem ofFloat_zero : Number.ofFloat (Scalar.ofInt 0) = .whole (0 : Nat) := by
  have hview : ofFloat (Scalar.ofInt 0) = .finite false 0 (.negSucc 1073) := by
    rw [ofFloat_eq, view_zero]
    rfl
  rw [ofFloat_eq_whole, hview, whole?, if_pos (Nat.zero_mod _), Nat.zero_div]
  rfl

/-! ## Rounding -/

/-- Nothing is lost where the digits to be cut off are zeros. -/
theorem roundWithAccuracy_exact {s : Sign} {m k : Nat} {e : Int} (hm : 0 < m)
    (hlog : m.log2 = 52) (he : -1074 ≤ e + k) :
    roundWithAccuracy .binary64 s (m * 2 ^ k) e .exact = .finite s m (e + k) hm := by
  cases k with
  | succ k => exact roundWithAccuracy_absorb (r := 0) hm hlog (Nat.two_pow_pos k) he
  | zero =>
      have ht : Format.binary64.targetExponent (totalExponent m e) = e := by
        rw [targetExponent_eq]
        simp only [totalExponent]
        omega
      have hr : (shiftToExponent m e .exact e).1.roundedMantissa = m := by
        have hround : (shiftToExponent m e .exact e).1.roundBit = false := by
          rw [shiftToExponent, Int.sub_self]
          rfl
        rw [roundedMantissa_of_roundBit hround, shiftToExponent_mantissa, Int.sub_self]
        exact Nat.div_one m
      have he₁ : (shiftToExponent m e .exact e).2 = e := by
        rw [shiftToExponent_exponent, max_self]
      rw [Nat.pow_zero, Nat.mul_one, roundWithAccuracy_eq ht hr he₁ ht]
      simp only [Int.sub_self, Int.toNat_zero, Nat.pow_zero, Nat.div_one]
      exact dif_neg hm.ne'

/-- A whole number is rounded to its form. -/
theorem round_whole (h : 0 < n) (hlt : n < 2 ^ 53) :
    UnpackedFloat.round .binary64 .positive n 0 = wholeView n h := by
  have hle := log2_le_of_lt hlt
  have ht : Format.binary64.targetExponent (totalExponent n 0) = n.log2 - 52 := by
    rw [targetExponent_eq, totalExponent]
    omega
  obtain ⟨j, hj⟩ : ∃ j, j = 52 - n.log2 := ⟨_, rfl⟩
  have hshift : (-((n.log2 : Int) - 52)).toNat = j := by omega
  have hexact := roundWithAccuracy_exact (s := .positive) (k := 0) (e := -(j : Int))
    (Nat.mul_pos h (Nat.two_pow_pos (52 - n.log2))) (log2_mantissa h hlt) (by omega)
  rw [Nat.pow_zero, Nat.mul_one] at hexact
  simp only [UnpackedFloat.round, ht, decreaseExponent, Nat.shiftLeft_eq, Int.zero_sub,
    hshift]
  rw [← hj] at hexact
  refine hexact.trans ?_
  simp only [wholeView, ← hj]
  congr 1
  omega

/-- A natural number below `2 ^ 53` is read back from its double. -/
theorem ofFloat_ofNat (hlt : n < 2 ^ 53) : Number.ofFloat (Float.ofNat n) = .whole n := by
  by_cases hn : n = 0
  · subst hn
    exact ofFloat_zero
  have h : 0 < n := Nat.pos_of_ne_zero hn
  have hle := log2_le_of_lt hlt
  have hword : n.toUInt64.toNat = n := UInt64.toNat_ofNat_of_lt (Nat.lt_trans hlt (by decide))
  have hinteger : view n.toUInt64.toFloat = wholeView n h := by
    show repack (UnpackedFloat.normalize .binary64 (n.toUInt64.toNat : Int) 0 .positive) = _
    rw [hword, UnpackedFloat.normalize, Int.compare_eq_gt.2 (Int.natCast_pos.2 h)]
    exact (congrArg repack (round_whole h hlt)).trans (repack_wholeView h hlt)
  have hone : view (Float.ofBits 0x3FF0000000000000) =
      .finite .positive (2 ^ 52) (-52) (by decide) := rfl
  refine ofFloat_of_view h hlt ?_
  show view (Float.ofScientific n false 0) = _
  unfold Float.ofScientific
  rw [dif_pos ⟨hlt, by decide⟩, if_neg Bool.false_ne_true]
  show view (n.toUInt64.toFloat * Float.ofBits 0x3FF0000000000000) = _
  rw [view_mul, hinteger, hone]
  have hmul : UnpackedFloat.mul .binary64 (wholeView n h)
      (.finite .positive (2 ^ 52) (-52) (by decide)) = wholeView n h := by
    have hexact := roundWithAccuracy_exact (s := .positive) (k := 52)
      (e := (n.log2 : Int) - 52 + -52) (Nat.mul_pos h (Nat.two_pow_pos (52 - n.log2)))
      (log2_mantissa h hlt) (by omega)
    refine hexact.trans ?_
    simp only [wholeView]
    congr 1
    omega
  rw [hmul, repack_wholeView h hlt]

/-! ## Signs -/

theorem neg_ofSign (h : OfSign .positive (view x)) : OfSign .negative (view (-x)) := by
  have hneg : OfSign .negative (view x).neg := by
    generalize view x = u at h
    cases h with
    | infinity => exact .infinity
    | zero s => exact .zero _
    | finite m e hm => exact .finite m e hm
  exact hneg.repack

/-- What is not above zero reads as no whole number above zero. -/
theorem le_zero_of_negative {k : Int} (h : OfSign .negative (view x))
    (hx : Number.ofFloat x = .whole k) : k ≤ 0 := by
  rcases view_cases_of_whole hx with ⟨rfl, -⟩ | ⟨s, q, -, rfl, hform⟩
  · exact Int.le_refl 0
  obtain rfl : s = .negative := by
    rcases hform with ⟨m, j, hm, hv, -⟩ | ⟨j, hm, hv⟩
    · rw [hv] at h
      cases h
      rfl
    · rw [hv] at h
      cases h
      rfl
  exact Int.neg_nonpos_of_nonneg (Int.natCast_nonneg q)

end Double
end Chip8
