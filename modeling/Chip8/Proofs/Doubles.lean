/-
# `Chip8.Proofs.Doubles` — how large a double can become

The arithmetic of doubles is an exact operation followed by a rounding.  For
the timers it matters which results are infinite or not a number, and not
where exactly the others are rounded to.  So a double is looked at in three
respects only:

    view x         ±0, ±m · 2 ^ e, an infinity, or not a number
    Fits k         finite, and below 2 ^ k in magnitude
    OfSign s       a number, and zero or of the sign s

and for each operation there is one lemma on how `Fits` and `OfSign` go
through it.  A rounding may carry into the next power of two, so it costs
one in the exponent, and a sum of two costs one more.  Nothing is said about
the last place, with one exception: a small number that is added to a double
above `2 ^ 53` is lost (`add_absorb`).

`view` is the form in which the operations are defined.  The patterns of 64
bits behind it appear in two places, `repack_normal` and its neighbours, for
what a result is read back as, and `ofFloat_eq`, for the other reading of the
same bits.
-/
import Chip8.Scalar
import Mathlib

namespace Chip8.Double

open Float.Model
open Float.Model.UnpackedFloat

/-! ## Views -/

/-- A double in the form in which the operations are defined. -/
abbrev view (x : Float) : UnpackedFloat := x.toModel.unpack

/-- What a result is read back as. -/
abbrev repack (u : UnpackedFloat) : UnpackedFloat := (Float.Model.pack u).unpack

theorem view_inj (h : view x = view y) : x = y :=
  Float.toBits_inj.1 (UInt64.toBitVec_inj.1
    ((unpack_inj_of_valid x.toModel.valid y.toModel.valid).1 h))

theorem view_add (x y : Float) : view (x + y) = repack (add .binary64 (view x) (view y)) := rfl

theorem view_sub (x y : Float) : view (x - y) = repack (sub .binary64 (view x) (view y)) := rfl

theorem view_mul (x y : Float) : view (x * y) = repack (mul .binary64 (view x) (view y)) := rfl

theorem view_div (x y : Float) : view (x / y) = repack (div .binary64 (view x) (view y)) := rfl

/-- Finite, and below `2 ^ k` in magnitude. -/
inductive Fits (k : Int) : UnpackedFloat → Prop
  | zero (s : Sign) : Fits k (.zero s)
  | finite (s : Sign) (m : Nat) (e : Int) (h : 0 < m) :
      -1074 ≤ e → e ≤ 971 → totalExponent m e ≤ k → Fits k (.finite s m e h)

/-- A number of one sign.  A zero has both. -/
inductive OfSign (s : Sign) : UnpackedFloat → Prop
  | infinity : OfSign s (.infinity s)
  | zero (s' : Sign) : OfSign s (.zero s')
  | finite (m : Nat) (e : Int) (h : 0 < m) : OfSign s (.finite s m e h)

theorem Fits.mono {k l : Int} {u : UnpackedFloat} (h : Fits k u) (hkl : k ≤ l) : Fits l u := by
  cases h with
  | zero s => exact .zero s
  | finite s m e h h₀ h₁ hk => exact .finite s m e h h₀ h₁ (Int.le_trans hk hkl)

theorem targetExponent_eq (t : Int) : Format.binary64.targetExponent t = max (t - 53) (-1074) :=
  rfl

theorem log2_mono {a b : Nat} (ha : 0 < a) (h : a ≤ b) : a.log2 ≤ b.log2 :=
  (Nat.le_log2 (by omega)).2 (Nat.le_trans (Nat.log2_self_le (by omega)) h)

theorem log2_lt {a k : Nat} (hk : 0 < k) (h : a < 2 ^ k) : a.log2 < k := by
  by_cases ha : a = 0
  · rw [ha]; exact hk
  · exact (Nat.log2_lt ha).2 h

theorem lt_two_pow {a k : Nat} (h : a.log2 < k) : a < 2 ^ k :=
  Nat.lt_of_lt_of_le Nat.lt_log2_self (Nat.pow_le_pow_right (by decide) h)

/-- Digits behind the last one do not count. -/
theorem log2_mul_two_pow_add {m r k : Nat} (hm : 0 < m) (hr : r < 2 ^ k) :
    (m * 2 ^ k + r).log2 = m.log2 + k := by
  have hle := Nat.mul_le_mul_right (2 ^ k) (Nat.log2_self_le (Nat.ne_of_gt hm))
  have hlt := Nat.mul_le_mul_right (2 ^ k) (Nat.succ_le_of_lt (Nat.lt_log2_self (n := m)))
  rw [← Nat.pow_add] at hle hlt
  rw [Nat.succ_mul] at hlt
  have hpos := Nat.two_pow_pos (m.log2 + k)
  rw [Nat.log2_eq_iff (by omega), Nat.add_right_comm]
  omega

theorem mul_two_pow_add_div {m r k : Nat} (hr : r < 2 ^ k) : (m * 2 ^ k + r) / 2 ^ k = m := by
  rw [Nat.mul_comm, Nat.mul_add_div (Nat.two_pow_pos _), Nat.div_eq_of_lt hr, Nat.add_zero]

/-! ## Bits -/

theorem mantissa_toNat (b : BitVec 64) :
    (@unpackMantissa .binary64 b).toNat = b.toNat % 2 ^ 52 := by
  simp only [unpackMantissa, BitVec.toNat_cast, BitVec.extractLsb_toNat]
  rfl

theorem exponent_toNat (b : BitVec 64) :
    (@unpackExponent .binary64 b).toNat = b.toNat / 2 ^ 52 % 2048 := by
  simp only [unpackExponent, BitVec.toNat_cast, BitVec.extractLsb_toNat, Nat.shiftRight_eq_div_pow]

theorem sign_toNat (b : BitVec 64) :
    (@unpackSign .binary64 b).toNat = b.toNat / 2 ^ 63 % 2 := by
  simp only [unpackSign, BitVec.toNat_cast, BitVec.extractLsb_toNat, Nat.shiftRight_eq_div_pow]

theorem implicit_toNat (v : BitVec 52) : (1#1 ++ v).toNat = 2 ^ 52 + v.toNat := by
  rw [BitVec.toNat_append, ← Nat.shiftLeft_add_eq_or_of_lt v.isLt]
  rfl

/-- The sign bit of a pattern. -/
def signOf (bits : Nat) : Sign := if bits / 2 ^ 63 % 2 = 1 then .negative else .positive

theorem signOf_eq (b : BitVec 64) :
    Sign.ofBitVec (@unpackSign .binary64 b) = signOf b.toNat := by
  have hs := sign_toNat b
  have hz : @unpackSign .binary64 b = 0#1 ↔ b.toNat / 2 ^ 63 % 2 = 0 := by
    rw [← BitVec.toNat_inj, hs]
    rfl
  unfold Sign.ofBitVec signOf
  by_cases h : b.toNat / 2 ^ 63 % 2 = 0
  · rw [if_pos (hz.2 h), if_neg (by omega)]
  · rw [if_neg (mt hz.1 h), if_pos (by omega)]

/-- The five kinds of bit patterns. -/
theorem view_cases (x : Float) :
    let bits := x.toBits.toNat
    let field : Nat := bits / 2 ^ 52 % 2048
    let fraction := bits % 2 ^ 52
    (field = 2047 ∧ fraction = 0 ∧ view x = .infinity (signOf bits)) ∨
    (field = 2047 ∧ fraction ≠ 0 ∧ view x = .notANumber) ∨
    (field = 0 ∧ fraction = 0 ∧ view x = .zero (signOf bits)) ∨
    (field = 0 ∧ ∃ h, view x = .finite (signOf bits) fraction (-1074) h) ∨
    (field ≠ 0 ∧ field ≠ 2047 ∧
      ∃ h, view x = .finite (signOf bits) (2 ^ 52 + fraction) ((field : Int) - 1075) h) := by
  intro bits field fraction
  have hm : (@unpackMantissa .binary64 x.toModel.toBits.toBitVec).toNat = fraction :=
    mantissa_toNat _
  have he : (@unpackExponent .binary64 x.toModel.toBits.toBitVec).toNat = field :=
    exponent_toNat _
  have hs : Sign.ofBitVec (@unpackSign .binary64 x.toModel.toBits.toBitVec) =
      signOf bits := signOf_eq _
  have hmz : @unpackMantissa .binary64 x.toModel.toBits.toBitVec = 0#_ ↔
      fraction = 0 := by rw [← BitVec.toNat_inj, hm]; rfl
  have hez : @unpackExponent .binary64 x.toModel.toBits.toBitVec = 0#_ ↔
      field = 0 := by rw [← BitVec.toNat_inj, he]; rfl
  have hei : @unpackExponent .binary64 x.toModel.toBits.toBitVec = -1#_ ↔
      field = 2047 := by rw [← BitVec.toNat_inj, he]; rfl
  simp only [view, Float.Model.unpack, UnpackedFloat.unpack, hei, hez, hmz]
  by_cases h₁ : field = 2047
  · by_cases h₂ : fraction = 0
    · exact .inl ⟨h₁, h₂, by rw [if_pos h₁, if_pos h₂, hs]⟩
    · exact .inr (.inl ⟨h₁, h₂, by rw [if_pos h₁, if_neg h₂]⟩)
  · rw [if_neg h₁]
    by_cases h₃ : field = 0
    · rw [if_pos h₃]
      by_cases h₂ : fraction = 0
      · exact .inr (.inr (.inl ⟨h₃, h₂, by rw [dif_pos h₂, hs]⟩))
      · refine .inr (.inr (.inr (.inl ⟨h₃, Nat.pos_of_ne_zero h₂, ?_⟩)))
        rw [dif_neg h₂]
        simp only [hm, he, hs, h₃]
        rfl
    · refine .inr (.inr (.inr (.inr ⟨h₃, h₁, by omega, ?_⟩)))
      rw [if_neg h₃]
      simp only [implicit_toNat, hm, he, hs]
      rfl

/-- What the bits of a finite double allow. -/
theorem view_finite {x : Float} {s : Sign} {m : Nat} {e : Int} {h : 0 < m}
    (hx : view x = .finite s m e h) :
    m.log2 ≤ 52 ∧ -1074 ≤ e ∧ e ≤ 971 ∧ (m.log2 = 52 ∨ e = -1074) := by
  rcases view_cases x with ⟨-, -, hv⟩ | ⟨-, -, hv⟩ | ⟨-, -, hv⟩ | ⟨-, h', hv⟩ | ⟨h₀, h₁, h', hv⟩
  · rw [hx] at hv; cases hv
  · rw [hx] at hv; cases hv
  · rw [hx] at hv; cases hv
  · rw [hx] at hv
    cases hv
    have hlog := (Nat.log2_lt (k := 52) (Nat.ne_of_gt h)).2 (Nat.mod_lt _ (by decide))
    exact ⟨by omega, by decide, by decide, .inr rfl⟩
  · rw [hx] at hv
    cases hv
    have hlog : (2 ^ 52 + x.toBits.toNat % 2 ^ 52).log2 = 52 :=
      (Nat.log2_eq_iff (by omega)).2 ⟨by omega, by omega⟩
    exact ⟨by omega, by omega, by omega, .inl hlog⟩

/-- A view as an exact value. -/
def ofView : UnpackedFloat → Double
  | .notANumber => .nan
  | .infinity s => .infinite (s == .negative)
  | .zero s => .finite (s == .negative) 0 (-1074)
  | .finite s m e _ => .finite (s == .negative) m e

/-- The two readings of a pattern agree. -/
theorem ofFloat_eq (x : Float) : ofFloat x = ofView (view x) := by
  have hs : (signOf x.toBits.toNat == .negative) = (x.toBits.toNat / 2 ^ 63 % 2 == 1) := by
    unfold signOf
    by_cases h : x.toBits.toNat / 2 ^ 63 % 2 = 1
    · rw [if_pos h, h]; rfl
    · rw [if_neg h, beq_eq_false_iff_ne.2 h]; rfl
  simp only [ofFloat, ofBits]
  rcases view_cases x with ⟨hf, hr, hv⟩ | ⟨hf, hr, hv⟩ | ⟨hf, hr, hv⟩ | ⟨hf, h, hv⟩ | ⟨h₀, h₁, h, hv⟩
  · rw [hv, if_pos hf, if_pos hr, ofView, hs]
  · rw [hv, if_pos hf, if_neg hr, ofView]
  · rw [hv, if_neg (by omega), if_pos hf, hr, ofView, hs]
  · rw [hv, if_neg (by omega), if_pos hf, ofView, hs]
  · rw [hv, if_neg h₁, if_neg h₀, ofView, hs, Nat.add_comm]

/-! ## Packing and unpacking -/

section Finite
variable {s : Sign} {m : Nat} {e : Int} {h : 0 < m}

/-- A mantissa of 53 digits is read back as it is. -/
theorem repack_normal (h₀ : -1074 ≤ e) (h₁ : e ≤ 971) (hm : m.log2 = 52) :
    repack (.finite s m e h) = .finite s m e h := by
  have hb : ¬ 2 ^ 11 ≤ (e + 1023 + 52).toNat + 1 := by omega
  have hb' : (e + 1023 + 52).toNat % 2 ^ 11 = (e + 1023 + 52).toNat := Nat.mod_eq_of_lt (by omega)
  have hn : BitVec.ofNat 11 (e + 1023 + 52).toNat ≠ -1#_ := by
    rw [ne_eq, ← BitVec.toNat_inj, BitVec.toNat_ofNat, hb']
    show ¬ _ = 2047
    omega
  have hz : BitVec.ofNat 11 (e + 1023 + 52).toNat ≠ 0#_ := by
    rw [ne_eq, ← BitVec.toNat_inj, BitVec.toNat_ofNat, hb']
    show ¬ _ = 0
    omega
  have hlog := (Nat.log2_eq_iff (Nat.ne_of_gt h)).1 hm
  have hmant : 2 ^ 52 + m % 2 ^ 52 = m := by omega
  have hpack : UnpackedFloat.pack .binary64 (.finite s m e h) =
      packComponents .binary64 s (BitVec.ofNat 11 (e + 1023 + 52).toNat) (BitVec.ofNat 52 m) := by
    simp only [UnpackedFloat.pack]
    exact (if_neg hb).trans (if_pos (congrArg (· + 1) hm))
  simp only [repack, Float.Model.unpack, Float.Model.pack, hpack, UnpackedFloat.unpack,
    unpackMantissa_packComponents, unpackExponent_packComponents,
    unpackSign_packComponents, Sign.ofBitVec_toBitVec]
  rw [if_neg hn, if_neg hz]
  simp only [implicit_toNat, BitVec.toNat_ofNat, hmant, hb']
  congr 1
  show _ - (1023 + 52 : Int) = e
  omega

/-- Any other result comes back as one of the smallest doubles. -/
theorem repack_smallest (h₁ : e ≤ 971) (hm : m.log2 = 52 → e < -1074) :
    repack (.finite s m e h) =
      if hr : m % 2 ^ 52 = 0 then .zero s
      else .finite s (m % 2 ^ 52) (-1074) (Nat.pos_of_ne_zero hr) := by
  have hb : ¬ 2 ^ 11 ≤ (e + 1023 + 52).toNat + 1 := by omega
  have hpack : UnpackedFloat.pack .binary64 (.finite s m e h) =
      packComponents .binary64 s 0#11 (BitVec.ofNat 52 m) := by
    simp only [UnpackedFloat.pack]
    refine (if_neg hb).trans ?_
    by_cases hlog : m.log2 = 52
    · refine (if_pos (congrArg (· + 1) hlog)).trans ?_
      have hz : (e + 1023 + 52).toNat = 0 := by have := hm hlog; omega
      exact congrArg (fun k => packComponents .binary64 s (BitVec.ofNat 11 k) (BitVec.ofNat 52 m)) hz
    · exact if_neg fun hc => hlog (Nat.succ.inj hc)
  have hz : BitVec.ofNat 52 m = 0#_ ↔ m % 2 ^ 52 = 0 := by
    rw [← BitVec.toNat_inj, BitVec.toNat_ofNat]
    rfl
  simp only [repack, Float.Model.unpack, Float.Model.pack, hpack, UnpackedFloat.unpack,
    unpackMantissa_packComponents, unpackExponent_packComponents,
    unpackSign_packComponents, Sign.ofBitVec_toBitVec, hz]
  rw [if_neg (by decide), if_pos trivial]
  by_cases hr : m % 2 ^ 52 = 0
  · rw [dif_pos hr, dif_pos hr]
  · rw [dif_neg hr, dif_neg hr]
    simp only [BitVec.toNat_ofNat]
    rfl

theorem repack_subnormal (h₁ : e ≤ 971) (hm : m.log2 = 52 → e < -1074) :
    repack (.finite s m e h) = .zero s ∨
      ∃ h', repack (.finite s m e h) = .finite s (m % 2 ^ 52) (-1074) h' := by
  rw [repack_smallest h₁ hm]
  by_cases hr : m % 2 ^ 52 = 0
  · exact .inl (dif_pos hr)
  · exact .inr ⟨Nat.pos_of_ne_zero hr, dif_neg hr⟩

/-- Too large an exponent makes an infinity. -/
theorem repack_large (h₁ : 971 < e) : repack (.finite s m e h) = .infinity s := by
  have hb : 2 ^ 11 ≤ (e + 1023 + 52).toNat + 1 := by omega
  have hpack : UnpackedFloat.pack .binary64 (.finite s m e h) = packedInfinity .binary64 s := by
    simp only [UnpackedFloat.pack]
    exact if_pos hb
  simp only [repack, Float.Model.unpack, Float.Model.pack, hpack]
  cases s <;> rfl

end Finite

theorem repack_notANumber : repack .notANumber = .notANumber := rfl

theorem repack_zero (s : Sign) : repack (.zero s) = .zero s := by cases s <;> rfl

theorem repack_infinity (s : Sign) : repack (.infinity s) = .infinity s := by cases s <;> rfl

/-- A result that fits is read back as one that fits. -/
theorem Fits.repack {k : Int} {u : UnpackedFloat} (h : Fits k u) : Fits k (repack u) := by
  cases h with
  | zero s => rw [repack_zero]; exact .zero s
  | finite s m e h h₀ h₁ hk =>
      by_cases hlog : m.log2 = 52
      · rw [repack_normal h₀ h₁ hlog]
        exact .finite s m e h h₀ h₁ hk
      · rcases repack_subnormal (s := s) (h := h) h₁ (absurd · hlog) with hz | ⟨h', hf⟩
        · rw [hz]
          exact .zero s
        · have hle := log2_mono h' (Nat.mod_le m (2 ^ 52))
          have htot : totalExponent (m % 2 ^ 52) (-1074) ≤ totalExponent m e := by
            simp only [totalExponent]
            omega
          rw [hf]
          exact .finite s _ _ h' (by decide) (by decide) (Int.le_trans htot hk)

/-- A result of one sign is read back as such. -/
theorem OfSign.repack {s : Sign} {u : UnpackedFloat} (h : OfSign s u) : OfSign s (repack u) := by
  cases h with
  | zero s' => rw [repack_zero]; exact .zero s'
  | infinity => rw [repack_infinity]; exact .infinity
  | finite m e h =>
      by_cases h₁ : e ≤ 971
      · by_cases hn : -1074 ≤ e ∧ m.log2 = 52
        · rw [repack_normal hn.1 h₁ hn.2]
          exact .finite m e h
        · rcases repack_subnormal (s := s) (h := h) h₁ (fun hl => by omega) with hz | ⟨h', hf⟩
          · rw [hz]
            exact .zero s
          · rw [hf]
            exact .finite _ _ h'
      · rw [repack_large (by omega)]
        exact .infinity

/-! ## Rounding -/

theorem shiftRight_mantissa (em : ExtendedMantissa) (k : Nat) :
    (em >>> k).mantissa = em.mantissa / 2 ^ k := by
  induction k with
  | zero => exact (Nat.div_one _).symm
  | succ k ih =>
      rw [Nat.pow_succ, ← Nat.div_div_eq_div_mul, ← ih]
      rfl

theorem roundedMantissa_le (em : ExtendedMantissa) : em.roundedMantissa ≤ em.mantissa + 1 := by
  obtain ⟨m, r, t⟩ := em
  cases r <;> cases t <;>
    simp only [ExtendedMantissa.roundedMantissa, ExtendedMantissa.accuracy,
      Accuracy.roundToNearestEven] <;>
    omega

theorem roundedMantissa_of_roundBit {em : ExtendedMantissa} (h : em.roundBit = false) :
    em.roundedMantissa = em.mantissa := by
  obtain ⟨m, r, t⟩ := em
  cases h
  cases t <;> rfl

theorem shiftRight_roundBit (em : ExtendedMantissa) (k : Nat) :
    (em >>> (k + 1)).roundBit = (em.mantissa / 2 ^ k % 2 != 0) := by
  rw [← shiftRight_mantissa]
  rfl

theorem ofMantissaAndAccuracy_mantissa (m : Nat) (acc : Accuracy) :
    (ExtendedMantissa.ofMantissaAndAccuracy m acc).mantissa = m := by
  cases acc with
  | exact => rfl
  | inexact o => cases o <;> rfl

theorem shiftToExponent_mantissa (m : Nat) (e : Int) (acc : Accuracy) (t : Int) :
    (shiftToExponent m e acc t).1.mantissa = m / 2 ^ (t - e).toNat := by
  rw [shiftToExponent, shiftRight_mantissa, ofMantissaAndAccuracy_mantissa]

theorem shiftToExponent_exponent (m : Nat) (e : Int) (acc : Accuracy) (t : Int) :
    (shiftToExponent m e acc t).2 = max e t := by
  simp only [shiftToExponent]
  omega

/-- Shifting to the right does not make a number larger. -/
theorem totalExponent_shift {m : Nat} {e : Int} {k : Nat} (h : 0 < m / 2 ^ k) :
    totalExponent (m / 2 ^ k) (e + k) ≤ totalExponent m e := by
  have hm : m ≠ 0 := by
    rintro rfl
    rw [Nat.zero_div] at h
    exact Nat.lt_irrefl 0 h
  have hlog : (m / 2 ^ k).log2 + k ≤ m.log2 := by
    rw [Nat.le_log2 hm, Nat.pow_add]
    exact (Nat.le_div_iff_mul_le (Nat.two_pow_pos k)).1 (Nat.log2_self_le (Nat.ne_of_gt h))
  simp only [totalExponent]
  omega

/-- A rounding in two shifts: one to the place that is rounded, and one more
if the rounding carries. -/
theorem roundWithAccuracy_eq {s : Sign} {m r : Nat} {e t₁ e₁ t₂ : Int} {acc : Accuracy}
    (ht₁ : Format.binary64.targetExponent (totalExponent m e) = t₁)
    (hr : (shiftToExponent m e acc t₁).1.roundedMantissa = r)
    (he₁ : (shiftToExponent m e acc t₁).2 = e₁)
    (ht₂ : Format.binary64.targetExponent (totalExponent r e₁) = t₂) :
    roundWithAccuracy .binary64 s m e acc =
      if h : r / 2 ^ (t₂ - e₁).toNat = 0 then .zero s
      else .finite s (r / 2 ^ (t₂ - e₁).toNat) (e₁ + (t₂ - e₁).toNat) (Nat.pos_of_ne_zero h) := by
  subst ht₁ hr he₁ ht₂
  simp only [roundWithAccuracy, shiftToTargetExponent, shiftToExponent_mantissa]
  rfl

/-- A rounding may carry into the next power of two, and no farther. -/
theorem roundWithAccuracy_fits {s : Sign} {m : Nat} {e E : Int} {acc : Accuracy}
    (hE : -1021 ≤ E) (hE' : E ≤ 1023) (ht : totalExponent m e ≤ E) (he : e ≤ E - 53) :
    Fits (E + 1) (roundWithAccuracy .binary64 s m e acc) := by
  let t₁ := Format.binary64.targetExponent (totalExponent m e)
  let r := (shiftToExponent m e acc t₁).1.roundedMantissa
  let e₁ := (shiftToExponent m e acc t₁).2
  let t₂ := Format.binary64.targetExponent (totalExponent r e₁)
  have ht₁ : t₁ = max (totalExponent m e - 53) (-1074) := rfl
  have ht₂ : t₂ = max (totalExponent r e₁ - 53) (-1074) := rfl
  have he₁ : e₁ = max e t₁ := shiftToExponent_exponent m e acc t₁
  -- the rounded mantissa has at most 53 digits, or is the power of two above
  have hr : r ≤ 2 ^ 53 := by
    have hlt : m / 2 ^ (t₁ - e).toNat < 2 ^ 53 := by
      rw [Nat.div_lt_iff_lt_mul (Nat.two_pow_pos _), ← Nat.pow_add]
      refine lt_two_pow ?_
      simp only [totalExponent] at ht₁
      omega
    have hle := roundedMantissa_le (shiftToExponent m e acc t₁).1
    rw [shiftToExponent_mantissa] at hle
    exact Nat.le_trans hle hlt
  have hlog : r.log2 ≤ 53 := Nat.le_of_lt_succ (log2_lt (by decide) (by omega))
  have htot : totalExponent r e₁ ≤ E + 1 := by simp only [totalExponent]; omega
  rw [roundWithAccuracy_eq rfl rfl rfl rfl]
  show Fits (E + 1) (if h : r / 2 ^ (t₂ - e₁).toNat = 0 then UnpackedFloat.zero s
    else .finite s (r / 2 ^ (t₂ - e₁).toNat) (e₁ + (t₂ - e₁).toNat) (Nat.pos_of_ne_zero h))
  split
  · exact .zero s
  · rename_i h
    have hsh := totalExponent_shift (e := e₁) (Nat.pos_of_ne_zero h)
    exact .finite s _ _ _ (by omega) (by omega) (by omega)

theorem roundWithAccuracy_ofSign (s : Sign) (m : Nat) (e : Int) (acc : Accuracy) :
    OfSign s (roundWithAccuracy .binary64 s m e acc) := by
  simp only [roundWithAccuracy]
  split
  · exact .zero s
  · exact .finite _ _ _

theorem decreaseExponent_total {m : Nat} (hm : 0 < m) (e t : Int) :
    totalExponent (decreaseExponent m e t).1 (decreaseExponent m e t).2 = totalExponent m e := by
  have hlog : (m <<< (e - t).toNat).log2 = m.log2 + (e - t).toNat := by
    rw [Nat.shiftLeft_eq]
    exact log2_mul_two_pow_add (r := 0) hm (Nat.two_pow_pos _)
  simp only [totalExponent, decreaseExponent, hlog]
  omega

theorem round_fits {s : Sign} {m : Nat} {e E : Int} (hE : -1021 ≤ E) (hE' : E ≤ 1023) (hm : 0 < m)
    (ht : totalExponent m e ≤ E) : Fits (E + 1) (UnpackedFloat.round .binary64 s m e) := by
  let t := Format.binary64.targetExponent (totalExponent m e)
  have hte : t = max (totalExponent m e - 53) (-1074) := rfl
  refine roundWithAccuracy_fits hE hE' ?_ ?_
  · exact Int.le_trans (Int.le_of_eq (decreaseExponent_total hm e t)) ht
  · show e - (e - t).toNat ≤ E - 53
    omega

/-- The exact value is `M · 2 ^ e`. -/
theorem normalize_fits {M e E : Int} {k : Nat} {z : Sign} (hE : -1021 ≤ E) (hE' : E ≤ 1023)
    (hM : M.natAbs < 2 ^ k) (hk : k + e ≤ E) :
    Fits (E + 1) (UnpackedFloat.normalize .binary64 M e z) := by
  have hround : ∀ s, ∀ n : Nat, 0 < n → n < 2 ^ k →
      Fits (E + 1) (UnpackedFloat.round .binary64 s n e) := by
    intro s n hn hlt
    have hlog := (Nat.log2_lt (Nat.ne_of_gt hn)).2 hlt
    exact round_fits hE hE' hn (by simp only [totalExponent]; omega)
  unfold UnpackedFloat.normalize
  split
  · rename_i h
    have := Int.compare_eq_lt.1 h
    exact hround _ _ (by omega) (by omega)
  · exact .zero z
  · rename_i h
    have := Int.compare_eq_gt.1 h
    exact hround _ _ (by omega) (by omega)

theorem normalize_ofSign {M e : Int} {z : Sign} (h : 0 ≤ M) :
    OfSign .positive (UnpackedFloat.normalize .binary64 M e z) := by
  unfold UnpackedFloat.normalize
  split
  · rename_i h'
    have := Int.compare_eq_lt.1 h'
    omega
  · exact .zero z
  · exact roundWithAccuracy_ofSign _ _ _ _

/-! ## Sums and differences -/

/-- A mantissa, with the exponent lowered for a sum. -/
theorem aligned_lt {m : Nat} {e k t : Int} (h : totalExponent m e ≤ k) (ht : t ≤ e) :
    (decreaseExponent m e t).1 < 2 ^ (k - t).toNat := by
  have hlt := Nat.mul_lt_mul_of_pos_right (Nat.lt_log2_self (n := m))
    (Nat.two_pow_pos (e - t).toNat)
  simp only [totalExponent] at h
  rw [← Nat.pow_add, ← Nat.shiftLeft_eq] at hlt
  exact Nat.lt_of_lt_of_le hlt (Nat.pow_le_pow_right (by decide) (by omega))

theorem natAbs_apply_int (s : Sign) (a : Int) : (s.apply a).natAbs = a.natAbs := by
  cases s with
  | positive => rfl
  | negative => exact Int.natAbs_neg a

theorem natAbs_apply (s : Sign) (n : Nat) : (s.apply n).natAbs = n :=
  (natAbs_apply_int s n).trans (Int.natAbs_natCast n)

/-- A sum may reach the next power of two, and its rounding the one after. -/
theorem add_fits {k : Int} {u v : UnpackedFloat} (hk : -1022 ≤ k) (hk' : k ≤ 1022)
    (hu : Fits k u) (hv : Fits k v) : Fits (k + 2) (UnpackedFloat.add .binary64 u v) := by
  cases hu with
  | zero s =>
      cases hv with
      | zero s' => simp only [UnpackedFloat.add]; split <;> exact .zero _
      | finite s' m' e' h' h₀' h₁' ht' =>
          exact (Fits.finite s' m' e' h' h₀' h₁' ht').mono (by omega)
  | finite s m e h h₀ h₁ ht =>
      cases hv with
      | zero s' => exact (Fits.finite s m e h h₀ h₁ ht).mono (by omega)
      | finite s' m' e' h' h₀' h₁' ht' =>
          have hlt := aligned_lt ht (Int.min_le_left e e')
          have hlt' := aligned_lt ht' (Int.min_le_right e e')
          have hpow := Nat.pow_succ (n := 2) (m := (k - min e e').toNat)
          have hs := natAbs_apply s (decreaseExponent m e (min e e')).1
          have hs' := natAbs_apply s' (decreaseExponent m' e' (min e e')).1
          have hM : (s.apply (decreaseExponent m e (min e e')).1 +
              s'.apply (decreaseExponent m' e' (min e e')).1).natAbs <
              2 ^ ((k - min e e').toNat + 1) := by omega
          simp only [totalExponent] at ht
          have hn : Fits (k + 1 + 1) _ :=
            normalize_fits (e := min e e') (z := .positive) (by omega) (by omega) hM (by omega)
          exact hn.mono (by omega)

/-- A sum of two numbers that are not below zero is such a number. -/
theorem add_ofSign {u v : UnpackedFloat} (hu : OfSign .positive u) (hv : OfSign .positive v) :
    OfSign .positive (UnpackedFloat.add .binary64 u v) := by
  cases hu with
  | infinity =>
      cases hv with
      | infinity => exact .infinity
      | zero s' => exact .infinity
      | finite m' e' h' => exact .infinity
  | zero s =>
      cases hv with
      | infinity => exact .infinity
      | zero s' => simp only [UnpackedFloat.add]; split <;> exact .zero _
      | finite m' e' h' => exact .finite m' e' h'
  | finite m e h =>
      cases hv with
      | infinity => exact .infinity
      | zero s' => exact .finite m e h
      | finite m' e' h' =>
          exact normalize_ofSign (Int.add_nonneg (Int.natCast_nonneg _) (Int.natCast_nonneg _))

/-- If something that is not below zero is taken away, what is left is no
larger than it was, or not above zero. -/
theorem sub_cases {k : Int} {u v : UnpackedFloat} (hk : -1021 ≤ k) (hk' : k ≤ 1023)
    (hu : Fits k u) (hu' : OfSign .positive u) (hv : OfSign .positive v) :
    (Fits (k + 1) (UnpackedFloat.sub .binary64 u v) ∧
      OfSign .positive (UnpackedFloat.sub .binary64 u v)) ∨
    OfSign .negative (UnpackedFloat.sub .binary64 u v) := by
  cases hu with
  | zero s =>
      right
      cases hv with
      | infinity => exact .infinity
      | zero s' => simp only [UnpackedFloat.sub]; split <;> exact .zero _
      | finite m' e' h' => exact .finite m' e' h'
  | finite s m e h h₀ h₁ ht =>
      cases hu'
      cases hv with
      | infinity => exact .inr .infinity
      | zero s' =>
          exact .inl ⟨(Fits.finite .positive m e h h₀ h₁ ht).mono (by omega), .finite m e h⟩
      | finite m' e' h' =>
          have hlt := aligned_lt ht (Int.min_le_left e e')
          simp only [totalExponent] at ht
          simp only [UnpackedFloat.sub, Sign.apply]
          generalize hM : ((decreaseExponent m e (min e e')).1 : Int) -
            (decreaseExponent m' e' (min e e')).1 = M
          rcases Int.lt_or_le M 0 with hneg | hpos
          · right
            rw [UnpackedFloat.normalize, Int.compare_eq_lt.2 hneg]
            exact roundWithAccuracy_ofSign _ _ _ _
          · left
            have habs : M.natAbs < 2 ^ (k - min e e').toNat := by omega
            exact ⟨normalize_fits (E := k) hk hk' habs (by omega), normalize_ofSign hpos⟩

theorem add_notANumber (u : UnpackedFloat) :
    UnpackedFloat.add .binary64 .notANumber u = .notANumber := by
  cases u <;> rfl

theorem sub_notANumber (u : UnpackedFloat) :
    UnpackedFloat.sub .binary64 .notANumber u = .notANumber := by
  cases u <;> rfl

theorem sub_self (m : Nat) (e : Int) (h : 0 < m) :
    UnpackedFloat.sub .binary64 (.finite .positive m e h) (.finite .positive m e h) =
      .zero .positive := by
  simp only [UnpackedFloat.sub, Int.sub_self]
  rfl

/-! ## Products and quotients

The other operand is a positive constant each time. -/

section Positive
variable {u : UnpackedFloat} {m' : Nat} {e' : Int} {h' : 0 < m'}

theorem mul_ofSign (hu : OfSign .positive u) :
    OfSign .positive (UnpackedFloat.mul .binary64 u (.finite .positive m' e' h')) := by
  cases hu with
  | infinity => exact .infinity
  | zero s => exact .zero _
  | finite m e h => exact roundWithAccuracy_ofSign _ _ _ _

theorem div_ofSign (hu : OfSign .positive u) :
    OfSign .positive (UnpackedFloat.div .binary64 u (.finite .positive m' e' h')) := by
  cases hu with
  | infinity => exact .infinity
  | zero s => exact .zero _
  | finite m e h => exact roundWithAccuracy_ofSign _ _ _ _

theorem log2_div_add {a b : Nat} (hb : 0 < b) (h : 0 < a / b) : (a / b).log2 + b.log2 ≤ a.log2 := by
  have ha : 0 < a := Nat.lt_of_lt_of_le h (Nat.div_le_self a b)
  rw [Nat.le_log2 (Nat.ne_of_gt ha), Nat.pow_add]
  calc 2 ^ (a / b).log2 * 2 ^ b.log2
      ≤ a / b * b := Nat.mul_le_mul (Nat.log2_self_le (Nat.ne_of_gt h))
        (Nat.log2_self_le (Nat.ne_of_gt hb))
    _ ≤ a := Nat.div_mul_le_self a b

/-- A quotient by at least `2 ^ j` is smaller by `j` digits. -/
theorem div_fits {k j : Int} (hj : j = m'.log2 + e') (hk : -1021 ≤ k - j) (hk' : k - j ≤ 1023)
    (hu : Fits k u) :
    Fits (k - j + 1) (UnpackedFloat.div .binary64 u (.finite .positive m' e' h')) := by
  cases hu with
  | zero s => exact .zero _
  | finite s m e hm _ _ htot =>
      let t := min (e - e') (max (totalExponent m e - totalExponent m' e' - 53) (-1074))
      let a := m <<< (e - e' - t).toNat
      have ht : t = min (e - e') (max (totalExponent m e - totalExponent m' e' - 53) (-1074)) := rfl
      have h₁ : totalExponent m e = m.log2 + 1 + e := rfl
      have h₂ : totalExponent m' e' = m'.log2 + 1 + e' := rfl
      have h₃ : totalExponent a t = a.log2 + 1 + t := rfl
      have h₄ : totalExponent (a / m') t = (a / m').log2 + 1 + t := rfl
      have hta : totalExponent a t = totalExponent m e - e' := by
        have hd := decreaseExponent_total hm e (e' + t)
        have hs : (e - (e' + t)).toNat = (e - e' - t).toNat := by omega
        simp only [decreaseExponent, hs] at hd
        have h₅ : totalExponent a (e - (e - e' - t).toNat) = totalExponent m e := hd
        simp only [totalExponent] at h₅ h₃ h₁ ⊢
        omega
      have hdiv : totalExponent (a / m') t ≤ k - j := by
        by_cases hq : a / m' = 0
        · rw [hq, Nat.log2_zero] at h₄
          rw [hq]
          omega
        · have hlog := log2_div_add h' (Nat.pos_of_ne_zero hq)
          omega
      have hte : t ≤ k - j - 53 := by omega
      exact roundWithAccuracy_fits hk hk' hdiv hte

end Positive

/-! ## What is too small to be noticed -/

/-- A remainder below half a unit of the last place is rounded away. -/
theorem roundWithAccuracy_absorb {s : Sign} {m r k : Nat} {e : Int} (hm : 0 < m)
    (hlog : m.log2 = 52) (hr : r < 2 ^ k) (he : -1074 ≤ e + (k + 1)) :
    roundWithAccuracy .binary64 s (m * 2 ^ (k + 1) + r) e .exact =
      .finite s m (e + (k + 1)) hm := by
  let M := m * 2 ^ (k + 1) + r
  let t := e + (k + 1)
  have hpow := Nat.pow_succ (n := 2) (m := k)
  have hr' : r < 2 ^ (k + 1) := by omega
  have hM : M.log2 = m.log2 + (k + 1) := log2_mul_two_pow_add hm hr'
  have hdiv : M / 2 ^ (k + 1) = m := mul_two_pow_add_div hr'
  have hround : (M / 2 ^ k % 2 != 0) = false := by
    have h2 : M / 2 ^ k = m * 2 := by
      rw [← mul_two_pow_add_div (m := m * 2) hr, Nat.mul_assoc, Nat.mul_comm 2, ← hpow]
    rw [h2, Nat.mul_mod_left]
    rfl
  have ht : Format.binary64.targetExponent (totalExponent M e) = t := by
    rw [targetExponent_eq]
    simp only [totalExponent]
    omega
  have hk : (t - e).toNat = k + 1 := by omega
  have hr₁ : (shiftToExponent M e .exact t).1.roundedMantissa = m := by
    rw [roundedMantissa_of_roundBit, shiftToExponent_mantissa, hk, hdiv]
    show (ExtendedMantissa.ofMantissaAndAccuracy M .exact >>> (t - e).toNat).roundBit = false
    rw [hk, shiftRight_roundBit]
    exact hround
  have he₁ : (shiftToExponent M e .exact t).2 = t := by
    rw [shiftToExponent_exponent]
    omega
  have ht₂ : Format.binary64.targetExponent (totalExponent m t) = t := by
    rw [targetExponent_eq]
    simp only [totalExponent]
    omega
  rw [roundWithAccuracy_eq ht hr₁ he₁ ht₂]
  simp only [Int.sub_self, Int.toNat_zero, Nat.pow_zero, Nat.div_one]
  rw [dif_neg (Nat.ne_of_gt hm)]
  simp only [Int.natCast_zero, Int.add_zero, t]

/-- A sum with a term below half a unit of the last place. -/
theorem add_absorb {m r k : Nat} {e : Int} (hm : 0 < m) (hr : 0 < r) (hlog : m.log2 = 52)
    (hlt : r < 2 ^ k) (he : -1074 ≤ e + (k + 1)) :
    UnpackedFloat.add .binary64 (.finite .positive m (e + (k + 1)) hm) (.finite .positive r e hr) =
      .finite .positive m (e + (k + 1)) hm := by
  let M := m * 2 ^ (k + 1) + r
  have hmin : min (e + (k + 1)) e = e := by omega
  have hk : (e + (k + 1) - e).toNat = k + 1 := by omega
  have hM : 0 < (M : Int) := by omega
  have hMlog : M.log2 = m.log2 + (k + 1) :=
    log2_mul_two_pow_add hm (by have := Nat.pow_succ (n := 2) (m := k); omega)
  have hsum : UnpackedFloat.add .binary64 (.finite .positive m (e + (k + 1)) hm)
      (.finite .positive r e hr) = UnpackedFloat.normalize .binary64 M e .positive := by
    simp only [UnpackedFloat.add, decreaseExponent, hmin, hk, Sign.apply, Int.sub_self,
      Int.toNat_zero, Nat.shiftLeft_eq, Nat.pow_zero, Nat.mul_one, M, Int.natCast_add]
  have hdec : decreaseExponent M e (Format.binary64.targetExponent (totalExponent M e)) = (M, e) := by
    have hz : (e - Format.binary64.targetExponent (totalExponent M e)).toNat = 0 := by
      rw [targetExponent_eq]
      simp only [totalExponent]
      omega
    simp only [decreaseExponent, hz, Nat.shiftLeft_zero, Int.natCast_zero, Int.sub_zero]
  rw [hsum, UnpackedFloat.normalize, Int.compare_eq_gt.2 hM]
  simp only [UnpackedFloat.round, Int.toNat_natCast, hdec]
  exact roundWithAccuracy_absorb hm hlog hlt he

end Chip8.Double
