/-
# `Chip8.Proofs.Rounding` — how far a result is from the exact one

Every finite double is a whole number of units of `2 ^ -1074`.  So is every sum
and difference of two, and in these units the arithmetic of doubles becomes one
of integers: an exact result `X`, and the double `R` it is rounded to.

    2 ^ (k + 52)  ≤  |X|  <  2 ^ (k + 53)          k = 0 if |X| is smaller
    2 ^ k ∣ R
    2 · |R - X|  ≤  2 ^ k

`Rounded X k u` says this of a result `u`, and it is all that is needed.  A
rounding does not pass a multiple of `2 ^ k` (`Rounded.le`, `Rounded.ge`).  A
result that is itself a multiple of `2 ^ k` is exact (`Rounded.exact`), and two
results that are rounded to the same multiples keep their order
(`Rounded.mono`).  Natural numbers are exact up to `2 ^ 53`
(`Rounded.natural`), and so are their sums (`Counts.add`).

The first shift of a rounding is the one that loses digits.  The round bit and
the sticky bit tell on which side of one half the lost ones are
(`roundedMantissa_near`).  The second shift comes after a carry, and then the
last digit is a zero.
-/
import Chip8.Proofs.WholeDoubles

namespace Chip8.Double

open Float.Model
open Float.Model.UnpackedFloat

/-- A number in units of `2 ^ -1074`. -/
def units : UnpackedFloat → Int
  | .finite s m e _ => s.apply ((m * 2 ^ (e + 1074).toNat : Nat) : Int)
  | _ => 0

/-! ## The digits that are cut off -/

/-- The first of the digits that are cut off is the round bit, and the sticky bit
stands for all others. -/
theorem shiftRight_succ (n k : Nat) :
    ExtendedMantissa.ofMantissaAndAccuracy n .exact >>> (k + 1) =
      ⟨n / 2 ^ (k + 1), n / 2 ^ k % 2 != 0, n % 2 ^ k != 0⟩ := by
  have hsticky : (ExtendedMantissa.ofMantissaAndAccuracy n .exact >>> (k + 1)).stickyBit =
      (n % 2 ^ k != 0) := by
    induction k with
    | zero => rw [Nat.pow_zero, Nat.mod_one]; rfl
    | succ k ih =>
        have hor : (ExtendedMantissa.ofMantissaAndAccuracy n .exact >>> (k + 1 + 1)).stickyBit =
            ((ExtendedMantissa.ofMantissaAndAccuracy n .exact >>> (k + 1)).roundBit ||
              (ExtendedMantissa.ofMantissaAndAccuracy n .exact >>> (k + 1)).stickyBit) := rfl
        rw [hor, ih, shiftRight_roundBit, ofMantissaAndAccuracy_mantissa, Nat.mod_pow_succ,
          Bool.eq_iff_iff]
        have hpos := Nat.two_pow_pos k
        simp only [Bool.or_eq_true, bne_iff_ne, ne_eq, Nat.add_eq_zero_iff, Nat.mul_eq_zero]
        omega
  have hmant := shiftRight_mantissa (ExtendedMantissa.ofMantissaAndAccuracy n .exact) (k + 1)
  have hround := shiftRight_roundBit (ExtendedMantissa.ofMantissaAndAccuracy n .exact) k
  rw [ofMantissaAndAccuracy_mantissa] at hmant hround
  rw [← hmant, ← hround, ← hsticky]

/-- What is cut off or added makes at most one half. -/
theorem roundedMantissa_near (n k : Nat) :
    let r := (ExtendedMantissa.ofMantissaAndAccuracy n .exact >>> k).roundedMantissa
    2 * n ≤ 2 * (r * 2 ^ k) + 2 ^ k ∧ 2 * (r * 2 ^ k) ≤ 2 * n + 2 ^ k := by
  cases k with
  | zero =>
      show 2 * n ≤ 2 * (n * 1) + 1 ∧ 2 * (n * 1) ≤ 2 * n + 1
      omega
  | succ k =>
      have hn := Nat.div_add_mod n (2 ^ k)
      have hlt := Nat.mod_lt n (Nat.two_pow_pos k)
      rw [shiftRight_succ, Nat.pow_succ, ← Nat.div_div_eq_div_mul]
      generalize n / 2 ^ k = q at *
      generalize n % 2 ^ k = rest at *
      generalize 2 ^ k = p at *
      have hup : (q / 2 + 1) * (p * 2) = q / 2 * (p * 2) + p * 2 := Nat.succ_mul _ _
      have hq : p * q = q / 2 * (p * 2) + p * (q % 2) := by
        conv_lhs => rw [← Nat.div_add_mod q 2]
        ring
      rcases Nat.mod_two_eq_zero_or_one q with hbit | hbit
      · -- less than one half is cut off
        rw [hbit, Nat.mul_zero] at hq
        have hr : (ExtendedMantissa.mk (q / 2) (q % 2 != 0) (rest != 0)).roundedMantissa = q / 2 :=
          roundedMantissa_of_roundBit (by rw [hbit]; rfl)
        rw [hr]
        omega
      rw [hbit, Nat.mul_one] at hq
      rw [hbit]
      by_cases hz : rest = 0
      · -- exactly one half goes to the even neighbour
        subst hz
        show 2 * n ≤ 2 * ((q / 2 + q / 2 % 2) * (p * 2)) + p * 2 ∧
          2 * ((q / 2 + q / 2 % 2) * (p * 2)) ≤ 2 * n + p * 2
        rcases Nat.mod_two_eq_zero_or_one (q / 2) with heven | hodd
        · rw [heven, Nat.add_zero]
          omega
        · rw [hodd]
          omega
      · rw [show (rest != 0) = true from bne_iff_ne.2 hz]
        show 2 * n ≤ 2 * ((q / 2 + 1) * (p * 2)) + p * 2 ∧
          2 * ((q / 2 + 1) * (p * 2)) ≤ 2 * n + p * 2
        omega

/-! ## Results -/

/-- A number that a double keeps as it is, unless it is too large: 53 digits, or
the least exponent. -/
inductive Kept : UnpackedFloat → Prop
  | zero (s : Sign) : Kept (.zero s)
  | finite (s : Sign) (m : Nat) (e : Int) (h : 0 < m) :
      m.log2 ≤ 52 → -1074 ≤ e → m.log2 = 52 ∨ e = -1074 → Kept (.finite s m e h)

/-- The exact result `X` is rounded to a multiple of `2 ^ k`, the last place of a
double of its size. -/
structure Rounded (X : Int) (k : Nat) (u : UnpackedFloat) : Prop where
  kept : Kept u
  grid : ((2 ^ k : Nat) : Int) ∣ units u
  near : 2 * (units u - X).natAbs ≤ 2 ^ k
  below : X.natAbs < 2 ^ (k + 53)
  above : k = 0 ∨ 2 ^ (k + 52) ≤ X.natAbs

theorem apply_sub_apply (s : Sign) (a b : Int) : s.apply a - s.apply b = s.apply (a - b) := by
  cases s with
  | positive => rfl
  | negative => exact (neg_sub_neg a b).trans (neg_sub a b).symm

theorem dvd_apply {s : Sign} {a b : Int} (h : a ∣ b) : a ∣ s.apply b := by
  cases s with
  | positive => exact h
  | negative => exact Int.dvd_neg.2 h

/-- A rounded mantissa has 53 digits, or it is the power of two above them, and
then it is shifted once more. -/
theorem carried {s : Sign} {r : Nat} {t t₂ : Int} (ht : -1074 ≤ t) (hr : r ≤ 2 ^ 53)
    (hlow : t = -1074 ∨ 2 ^ 52 ≤ r)
    (ht₂ : Format.binary64.targetExponent (totalExponent r t) = t₂) :
    let u := if h : r / 2 ^ (t₂ - t).toNat = 0 then UnpackedFloat.zero s
      else .finite s (r / 2 ^ (t₂ - t).toNat) (t + (t₂ - t).toNat) (Nat.pos_of_ne_zero h)
    Kept u ∧ units u = s.apply ((r * 2 ^ (t + 1074).toNat : Nat) : Int) := by
  intro u
  rw [targetExponent_eq, totalExponent] at ht₂
  rcases Nat.lt_or_eq_of_le hr with hlt | rfl
  · have hlog : r.log2 < 53 := log2_lt (by decide) hlt
    have hshift : (t₂ - t).toNat = 0 := by omega
    by_cases hzero : r = 0
    · have hu : u = .zero s := by
        simp only [u, hshift, Nat.pow_zero, Nat.div_one]
        exact dif_pos hzero
      rw [hu, hzero, Nat.zero_mul]
      refine ⟨.zero s, ?_⟩
      cases s <;> rfl
    · have hu : u = .finite s r t (Nat.pos_of_ne_zero hzero) := by
        simp only [u, hshift, Nat.pow_zero, Nat.div_one, Int.natCast_zero, Int.add_zero]
        exact dif_neg hzero
      rw [hu]
      refine ⟨.finite s r t _ (by omega) ht ?_, rfl⟩
      rcases hlow with hlow | hlow
      · exact .inr hlow
      · exact .inl ((Nat.log2_eq_iff hzero).2 ⟨hlow, hlt⟩)
  · -- the carry leaves a zero in the last place
    have hlog : (2 ^ 53 : Nat).log2 = 53 := Nat.log2_two_pow
    have hshift : (t₂ - t).toNat = 1 := by omega
    have hu : u = .finite s (2 ^ 52) (t + 1) (by decide) := by
      simp only [u, hshift]
      rfl
    rw [hu]
    refine ⟨.finite s _ _ _ (Nat.le_of_eq Nat.log2_two_pow) (by omega) (.inl Nat.log2_two_pow), ?_⟩
    have hexp : (t + 1 + 1074).toNat = (t + 1074).toNat + 1 := by omega
    have hpow := Nat.pow_succ (n := 2) (m := (t + 1074).toNat)
    have hmant : 2 ^ 52 * 2 ^ ((t + 1074).toNat + 1) = 2 ^ 53 * 2 ^ (t + 1074).toNat := by omega
    rw [units, hexp, hmant]

theorem near_mul {a b p : Nat} (c : Nat) (h : 2 * a ≤ 2 * b + p) :
    2 * (a * c) ≤ 2 * (b * c) + p * c := by
  have hc := Nat.mul_le_mul_right c h
  rwa [Nat.add_mul, Nat.mul_assoc, Nat.mul_assoc] at hc

theorem roundWithAccuracy_rounded {s : Sign} {n : Nat} {e t : Int} (hn : 0 < n) (he : -1074 ≤ e)
    (ht : Format.binary64.targetExponent (totalExponent n e) = t) (het : e ≤ t) :
    Rounded (s.apply ((n * 2 ^ (e + 1074).toNat : Nat) : Int)) (t + 1074).toNat
      (roundWithAccuracy .binary64 s n e .exact) := by
  obtain ⟨j, hj⟩ : ∃ j, j = (t - e).toNat := ⟨_, rfl⟩
  obtain ⟨i, hi⟩ : ∃ i, i = (e + 1074).toNat := ⟨_, rfl⟩
  have hk : (t + 1074).toNat = i + j := by omega
  have htarget := ht
  rw [targetExponent_eq, totalExponent] at htarget
  -- `n` has 53 digits before the shift by `j`, or the last of them is the last place of all
  have hlt : n < 2 ^ (j + 53) := lt_two_pow (by omega)
  have hle : t = -1074 ∨ 2 ^ (j + 52) ≤ n := by
    rcases eq_or_ne t (-1074) with h | h
    · exact .inl h
    · exact .inr ((Nat.le_log2 (Nat.ne_of_gt hn)).1 (by omega))
  let r := (ExtendedMantissa.ofMantissaAndAccuracy n .exact >>> j).roundedMantissa
  obtain ⟨hnear, hnear'⟩ : 2 * n ≤ 2 * (r * 2 ^ j) + 2 ^ j ∧ 2 * (r * 2 ^ j) ≤ 2 * n + 2 ^ j :=
    roundedMantissa_near n j
  have hr₁ : (shiftToExponent n e .exact t).1.roundedMantissa = r := by rw [shiftToExponent, ← hj]
  have he₁ : (shiftToExponent n e .exact t).2 = t := by rw [shiftToExponent_exponent]; omega
  have hj53 := Nat.pow_add 2 j 53
  have hj52 := Nat.pow_add 2 j 52
  have hr : r ≤ 2 ^ 53 := by
    by_contra hgt
    have := Nat.mul_le_mul_right (2 ^ j) (Nat.lt_of_not_le hgt)
    rw [Nat.succ_mul] at this
    omega
  have hlow : t = -1074 ∨ 2 ^ 52 ≤ r := by
    refine hle.imp_right fun h => ?_
    by_contra hgt
    have := Nat.mul_le_mul_right (2 ^ j) (Nat.lt_of_not_le hgt)
    rw [Nat.succ_mul] at this
    omega
  rw [roundWithAccuracy_eq ht hr₁ he₁ rfl]
  obtain ⟨hkept, hunits⟩ := carried (s := s) (by omega) hr hlow rfl
  rw [hk] at hunits ⊢
  refine ⟨hkept, ?_, ?_, ?_, ?_⟩
  · rw [hunits]
    exact dvd_apply (Int.natCast_dvd_natCast.2 (Nat.dvd_mul_left _ _))
  · have hscaled : r * 2 ^ (i + j) = r * 2 ^ j * 2 ^ i := by
      rw [Nat.pow_add, Nat.mul_comm (2 ^ i), Nat.mul_assoc]
    have hunit : 2 ^ (i + j) = 2 ^ j * 2 ^ i := by rw [Nat.pow_add, Nat.mul_comm]
    have hup := near_mul (2 ^ i) hnear
    have hdown := near_mul (2 ^ i) hnear'
    rw [hunits, apply_sub_apply, natAbs_apply_int, ← hi, hscaled, hunit]
    omega
  · rw [natAbs_apply, ← hi, show i + j + 53 = j + 53 + i by omega, Nat.pow_add _ (j + 53)]
    exact Nat.mul_lt_mul_of_pos_right hlt (Nat.two_pow_pos i)
  · rw [natAbs_apply, ← hi, show i + j + 52 = j + 52 + i by omega, Nat.pow_add _ (j + 52)]
    exact hle.imp (fun h => by omega) fun h => Nat.mul_le_mul_right (2 ^ i) h

theorem round_rounded (s : Sign) {n : Nat} {e : Int} (hn : 0 < n) (he : -1074 ≤ e) :
    ∃ k, Rounded (s.apply ((n * 2 ^ (e + 1074).toNat : Nat) : Int)) k
      (UnpackedFloat.round .binary64 s n e) := by
  obtain ⟨t, ht⟩ : ∃ t, t = Format.binary64.targetExponent (totalExponent n e) := ⟨_, rfl⟩
  obtain ⟨d, hd⟩ : ∃ d, d = (e - t).toNat := ⟨_, rfl⟩
  have htlow : -1074 ≤ t := by rw [ht, targetExponent_eq]; exact le_max_right _ _
  have htot : totalExponent (n <<< d) (e - d) = totalExponent n e := by
    have h := decreaseExponent_total hn e t
    simp only [decreaseExponent, ← hd] at h
    exact h
  have hexact : n <<< d * 2 ^ (e - d + 1074).toNat = n * 2 ^ (e + 1074).toNat := by
    rw [Nat.shiftLeft_eq, Nat.mul_assoc, ← Nat.pow_add,
      show d + (e - d + 1074).toNat = (e + 1074).toNat by omega]
  have hpos : 0 < n <<< d := by
    rw [Nat.shiftLeft_eq]
    exact Nat.mul_pos hn (Nat.two_pow_pos d)
  have hround := roundWithAccuracy_rounded (s := s) hpos (e := e - d) (t := t) (by omega)
    (by rw [htot, ht]) (by omega)
  rw [hexact] at hround
  refine ⟨(t + 1074).toNat, ?_⟩
  rw [UnpackedFloat.round, ← ht]
  simp only [decreaseExponent, ← hd]
  exact hround

/-- The exact result is `M · 2 ^ e`. -/
theorem normalize_rounded (M : Int) {e : Int} (z : Sign) (he : -1074 ≤ e) :
    ∃ k, Rounded (M * ((2 ^ (e + 1074).toNat : Nat) : Int)) k
      (UnpackedFloat.normalize .binary64 M e z) := by
  unfold UnpackedFloat.normalize
  split
  · rename_i h
    have hneg := Int.compare_eq_lt.1 h
    have hM : M * ((2 ^ (e + 1074).toNat : Nat) : Int) =
        Sign.negative.apply (((-M).toNat * 2 ^ (e + 1074).toNat : Nat) : Int) := by
      show _ = -_
      rw [Nat.cast_mul, Int.toNat_of_nonneg (by omega), Int.neg_mul, Int.neg_neg]
    rw [hM]
    exact round_rounded _ (by omega) he
  · rename_i h
    obtain rfl := Int.compare_eq_eq.1 h
    rw [Int.zero_mul]
    exact ⟨0, .zero z, Int.dvd_zero _, Nat.zero_le _, Nat.two_pow_pos _, .inl rfl⟩
  · rename_i h
    have hpos := Int.compare_eq_gt.1 h
    have hM : M * ((2 ^ (e + 1074).toNat : Nat) : Int) =
        Sign.positive.apply ((M.toNat * 2 ^ (e + 1074).toNat : Nat) : Int) := by
      show _ = ((M.toNat * 2 ^ (e + 1074).toNat : Nat) : Int)
      rw [Nat.cast_mul, Int.toNat_of_nonneg (by omega)]
    rw [hM]
    exact round_rounded _ (by omega) he

/-! ## What a rounding cannot do -/

section Rounded
variable {X X' Y : Int} {k l : Nat} {u u' : UnpackedFloat}

/-- It does not pass a multiple of the last place upwards, -/
theorem Rounded.le (h : Rounded X k u) (hY : ((2 ^ k : Nat) : Int) ∣ Y) (hX : X ≤ Y) :
    units u ≤ Y := by
  by_contra hgt
  have hstep := Int.le_of_dvd (Int.sub_pos_of_lt (Int.not_le.1 hgt)) (Int.dvd_sub h.grid hY)
  have hnear := h.near
  have hpos := Nat.two_pow_pos k
  omega

/-- nor downwards. -/
theorem Rounded.ge (h : Rounded X k u) (hY : ((2 ^ k : Nat) : Int) ∣ Y) (hX : Y ≤ X) :
    Y ≤ units u := by
  by_contra hlt
  have hstep := Int.le_of_dvd (Int.sub_pos_of_lt (Int.not_le.1 hlt)) (Int.dvd_sub hY h.grid)
  have hnear := h.near
  have hpos := Nat.two_pow_pos k
  omega

/-- A smaller number has no larger last place. -/
theorem Rounded.place_le (h : Rounded X k u) (hlt : X.natAbs < 2 ^ (l + 53)) : k ≤ l := by
  rcases h.above with rfl | habove
  · exact Nat.zero_le l
  · have := (Nat.pow_lt_pow_iff_right (by decide)).1 (Nat.lt_of_le_of_lt habove hlt)
    omega

theorem Rounded.dvd (h : Rounded X k u) (hlt : X.natAbs < 2 ^ (l + 53))
    (hl : ((2 ^ l : Nat) : Int) ∣ Y) : ((2 ^ k : Nat) : Int) ∣ Y :=
  Int.dvd_trans (Int.natCast_dvd_natCast.2 (Nat.pow_dvd_pow 2 (h.place_le hlt))) hl

/-- What a double can hold is exact. -/
theorem Rounded.exact (h : Rounded X k u) (hlt : X.natAbs < 2 ^ (l + 53))
    (hl : ((2 ^ l : Nat) : Int) ∣ X) : units u = X :=
  Int.le_antisymm (h.le (h.dvd hlt hl) (Int.le_refl X)) (h.ge (h.dvd hlt hl) (Int.le_refl X))

/-- Numbers with the same last place keep their order. -/
theorem Rounded.mono (h : Rounded X k u) (h' : Rounded X' k u') (hlt : X < X') :
    units u ≤ units u' := by
  by_contra hgt
  have hstep := Int.le_of_dvd (Int.sub_pos_of_lt (Int.not_le.1 hgt)) (Int.dvd_sub h.grid h'.grid)
  have hnear := h.near
  have hnear' := h'.near
  omega

end Rounded

/-! ## Results that are not too large -/

section Finite
variable {s : Sign} {m : Nat} {e : Int} {h : 0 < m}

theorem natAbs_units : (units (.finite s m e h)).natAbs = m * 2 ^ (e + 1074).toNat :=
  natAbs_apply s _

theorem dvd_units : ((2 ^ (e + 1074).toNat : Nat) : Int) ∣ units (.finite s m e h) :=
  dvd_apply (Int.natCast_dvd_natCast.2 (Nat.dvd_mul_left _ _))

theorem natAbs_units_lt (hlog : m.log2 ≤ 52) :
    (units (.finite s m e h)).natAbs < 2 ^ ((e + 1074).toNat + 53) := by
  rw [natAbs_units, Nat.add_comm, Nat.pow_add]
  exact Nat.mul_lt_mul_of_pos_right (lt_two_pow (by omega)) (Nat.two_pow_pos _)

/-- The exponent of a number that is kept is that of its size. -/
theorem Kept.exponent_le {l : Nat} (hk : Kept (.finite s m e h))
    (hlt : (units (.finite s m e h)).natAbs < 2 ^ (l + 53)) : e + 1074 ≤ l := by
  cases hk with
  | finite s m e h hlog hlow hplace =>
      rcases hplace with hnormal | rfl
      · have hmul := Nat.mul_le_mul_right (2 ^ (e + 1074).toNat) (Nat.log2_self_le h.ne')
        rw [hnormal, ← Nat.pow_add] at hmul
        rw [natAbs_units] at hlt
        have := (Nat.pow_lt_pow_iff_right (by decide)).1 (Nat.lt_of_le_of_lt hmul hlt)
        omega
      · omega

theorem Kept.place_lt (hk : Kept (.finite s m e h)) :
    (units (.finite s m e h)).natAbs < 2 ^ ((e + 1074).toNat + 53) := by
  cases hk with
  | finite s m e h hlog => exact natAbs_units_lt hlog

/-- A number is kept in one way only. -/
theorem Kept.eq_of_units {s' : Sign} {m' : Nat} {e' : Int} {h' : 0 < m'}
    (hk : Kept (.finite s m e h)) (hk' : Kept (.finite s' m' e' h'))
    (heq : units (.finite s m e h) = units (.finite s' m' e' h')) :
    UnpackedFloat.finite s m e h = .finite s' m' e' h' := by
  have hlow : -1074 ≤ e := by cases hk with | finite s m e h hlog hlow => exact hlow
  have hlow' : -1074 ≤ e' := by cases hk' with | finite s m' e' h' hlog hlow => exact hlow
  have hle := hk.exponent_le (l := (e' + 1074).toNat) (by rw [heq]; exact hk'.place_lt)
  have hle' := hk'.exponent_le (l := (e + 1074).toNat) (by rw [← heq]; exact hk.place_lt)
  obtain rfl : e = e' := by omega
  have habs := congrArg Int.natAbs heq
  rw [natAbs_units, natAbs_units] at habs
  obtain rfl := Nat.eq_of_mul_eq_mul_right (Nat.two_pow_pos _) habs
  have hpos : 0 < m * 2 ^ (e + 1074).toNat := Nat.mul_pos h (Nat.two_pow_pos _)
  obtain rfl : s = s' := by
    rw [units, units] at heq
    generalize m * 2 ^ (e + 1074).toNat = p at hpos heq
    cases s <;> cases s' <;> simp only [Sign.apply] at heq <;> first | rfl | omega
  rfl

/-- What a double keeps is read back from it. -/
theorem Kept.repack_eq (hk : Kept (.finite s m e h)) (he : e ≤ 971) :
    repack (.finite s m e h) = .finite s m e h := by
  cases hk with
  | finite s m e h hlog hlow hplace =>
      by_cases hnormal : m.log2 = 52
      · exact repack_normal hlow he hnormal
      · obtain rfl := hplace.resolve_left hnormal
        have hmod : m % 2 ^ 52 = m := Nat.mod_eq_of_lt (lt_two_pow (by omega))
        rw [repack_smallest he (absurd · hnormal), dif_neg (by rw [hmod]; exact h.ne')]
        simp only [hmod]

/-- A result is not too large if the exact one is not larger than some double. -/
theorem Rounded.repack_eq {X : Int} {k : Nat} {u : UnpackedFloat} (hr : Rounded X k u)
    (hlog : m.log2 ≤ 52) (he : e ≤ 971) (hX : X.natAbs ≤ (units (.finite s m e h)).natAbs) :
    repack u = u := by
  have hlt := natAbs_units_lt (s := s) (e := e) (h := h) hlog
  have hdvd := hr.dvd (Nat.lt_of_le_of_lt hX hlt) (dvd_units (s := s) (m := m) (h := h))
  generalize units (.finite s m e h) = Y at *
  have hle := hr.le (Y := Y.natAbs) (Int.dvd_natAbs.2 hdvd) (by omega)
  have hge := hr.ge (Y := -Y.natAbs) (Int.dvd_neg.2 (Int.dvd_natAbs.2 hdvd)) (by omega)
  have hkept := hr.kept
  cases u with
  | notANumber => exact repack_notANumber
  | infinity s => exact repack_infinity s
  | zero s => exact repack_zero s
  | finite s' m' e' h' =>
      have hplace := hkept.exponent_le (Nat.lt_of_le_of_lt (by omega) hlt)
      refine hkept.repack_eq ?_
      omega

end Finite

theorem kept_view {x : Float} {s : Sign} {m : Nat} {e : Int} {h : 0 < m}
    (hx : view x = .finite s m e h) : Kept (view x) := by
  obtain ⟨hlog, hlow, -, hplace⟩ := view_finite hx
  rw [hx]
  exact .finite s m e h hlog hlow hplace

/-- What is kept is rounded to itself. -/
theorem Kept.rounded {u : UnpackedFloat} (hk : Kept u) : ∃ k, Rounded (units u) k u := by
  have hnear : ∀ k, 2 * (units u - units u).natAbs ≤ 2 ^ k := fun k => by
    rw [Int.sub_self]
    exact Nat.zero_le _
  cases hk with
  | zero s => exact ⟨0, .zero s, Int.dvd_zero _, hnear 0, Nat.two_pow_pos _, .inl rfl⟩
  | finite s m e h hlog hlow hplace =>
      refine ⟨(e + 1074).toNat, .finite s m e h hlog hlow hplace, dvd_units, hnear _,
        natAbs_units_lt hlog, ?_⟩
      rw [natAbs_units, Nat.add_comm, Nat.pow_add]
      rcases hplace with hnormal | rfl
      · refine .inr (Nat.mul_le_mul_right _ ?_)
        rw [← hnormal]
        exact Nat.log2_self_le h.ne'
      · exact .inl rfl

/-! ## Sums and differences -/

theorem apply_mul (s : Sign) (a b : Int) : s.apply (a * b) = s.apply a * b := by
  cases s with
  | positive => rfl
  | negative => exact (Int.neg_mul a b).symm

theorem units_decreaseExponent {s : Sign} {m : Nat} {e t : Int} {h : 0 < m} (ht : t ≤ e)
    (hlow : -1074 ≤ t) :
    s.apply ((decreaseExponent m e t).1 : Int) * ((2 ^ (t + 1074).toNat : Nat) : Int) =
      units (.finite s m e h) := by
  have hshift : (e - t).toNat + (t + 1074).toNat = (e + 1074).toNat := by omega
  rw [← apply_mul, ← Nat.cast_mul, units, decreaseExponent, Nat.shiftLeft_eq, Nat.mul_assoc,
    ← Nat.pow_add, hshift]

theorem add_rounded {u v : UnpackedFloat} (hu : Kept u) (hv : Kept v) :
    ∃ k, Rounded (units u + units v) k (UnpackedFloat.add .binary64 u v) := by
  cases hu with
  | zero s =>
      have hsum : units (.zero s) + units v = units v := Int.zero_add _
      rw [hsum]
      cases hv with
      | zero s' =>
          have hzero : ∃ s'', UnpackedFloat.add .binary64 (.zero s) (.zero s') = .zero s'' := by
            cases s <;> cases s' <;> exact ⟨_, rfl⟩
          obtain ⟨s'', hs⟩ := hzero
          rw [hs]
          exact (Kept.zero s'').rounded
      | finite s' m' e' h' hlog' hlow' hplace' =>
          exact (Kept.finite s' m' e' h' hlog' hlow' hplace').rounded
  | finite s m e h hlog hlow hplace =>
      cases hv with
      | zero s' =>
          have hsum : units (.finite s m e h) + units (.zero s') = units (.finite s m e h) :=
            Int.add_zero _
          rw [hsum]
          exact (Kept.finite s m e h hlog hlow hplace).rounded
      | finite s' m' e' h' hlog' hlow' hplace' =>
          have hmin : -1074 ≤ min e e' := Int.le_min.2 ⟨hlow, hlow'⟩
          have hround := normalize_rounded (s.apply ((decreaseExponent m e (min e e')).1 : Int) +
            s'.apply ((decreaseExponent m' e' (min e e')).1 : Int)) .positive hmin
          rwa [Int.add_mul, units_decreaseExponent (h := h) (Int.min_le_left e e') hmin,
            units_decreaseExponent (h := h') (Int.min_le_right e e') hmin] at hround

theorem sub_rounded {s s' : Sign} {m m' : Nat} {e e' : Int} {h : 0 < m} {h' : 0 < m'}
    (he : -1074 ≤ e) (he' : -1074 ≤ e') :
    ∃ k, Rounded (units (.finite s m e h) - units (.finite s' m' e' h')) k
      (UnpackedFloat.sub .binary64 (.finite s m e h) (.finite s' m' e' h')) := by
  have hmin : -1074 ≤ min e e' := Int.le_min.2 ⟨he, he'⟩
  have hround := normalize_rounded (s.apply ((decreaseExponent m e (min e e')).1 : Int) -
    s'.apply ((decreaseExponent m' e' (min e e')).1 : Int)) .positive hmin
  rwa [Int.sub_mul, units_decreaseExponent (h := h) (Int.min_le_left e e') hmin,
    units_decreaseExponent (h := h') (Int.min_le_right e e') hmin] at hround

/-- The difference of two positive doubles is the exact one, rounded. -/
theorem view_sub_rounded {x y : Float} {m m' : Nat} {e e' : Int} {h : 0 < m} {h' : 0 < m'}
    (hx : view x = .finite .positive m e h) (hy : view y = .finite .positive m' e' h') :
    ∃ k, Rounded (units (view x) - units (view y)) k (view (x - y)) := by
  obtain ⟨hlog, hlow, hhigh, -⟩ := view_finite hx
  obtain ⟨hlog', hlow', hhigh', -⟩ := view_finite hy
  obtain ⟨k, hr⟩ : ∃ k, Rounded
      (units (.finite .positive m e h) - units (.finite .positive m' e' h')) k
      (UnpackedFloat.sub .binary64 (.finite .positive m e h) (.finite .positive m' e' h')) :=
    sub_rounded hlow hlow'
  refine ⟨k, ?_⟩
  rw [view_sub, hx, hy]
  have hpos : 0 ≤ units (.finite .positive m e h) := Int.natCast_nonneg _
  have hpos' : 0 ≤ units (.finite .positive m' e' h') := Int.natCast_nonneg _
  rw [show repack _ = _ from ?_]
  · exact hr
  rcases Int.le_total (units (.finite .positive m' e' h')) (units (.finite .positive m e h))
    with hle | hle
  · exact hr.repack_eq (s := .positive) (h := h) hlog hhigh (by omega)
  · exact hr.repack_eq (s := .positive) (h := h') hlog' hhigh' (by omega)

/-! ## Values -/

/-- One, in units of `2 ^ -1074`. -/
def one : Int := units (.finite .positive (2 ^ 52) (-52) (by decide))

theorem one_eq {k : Nat} (h : k = 1074) : one = ((2 ^ k : Nat) : Int) := by
  have hexp : 52 + ((-52 : Int) + 1074).toNat = k := by omega
  show ((2 ^ 52 * 2 ^ ((-52 : Int) + 1074).toNat : Nat) : Int) = _
  rw [← Nat.pow_add, hexp]

theorem one_pos : 0 < one := by
  obtain ⟨k, hk⟩ : ∃ k, k = 1074 := ⟨_, rfl⟩
  rw [one_eq hk]
  exact Int.natCast_pos.2 (Nat.two_pow_pos k)

theorem signed_eq_apply (s : Sign) (m : Nat) : signed (s == .negative) m = s.apply m := by
  cases s <;> rfl

/-- The value of a finite double. -/
theorem toRat?_eq_units {x : Float} (h : x.isFinite = true) :
    (ofFloat x).toRat? = some (units (view x) / one : Rat) := by
  have hfinite : (view x).isFinite = true := h
  rw [ofFloat_eq]
  cases hx : view x with
  | notANumber => rw [hx] at hfinite; cases hfinite
  | infinity s => rw [hx] at hfinite; cases hfinite
  | zero s =>
      show some (mkRat (signed _ 0) _) = some (((0 : Int) : Rat) / _)
      rw [signed_zero, Rat.zero_mkRat, Int.cast_zero, zero_div]
  | finite s m e hm =>
      obtain ⟨-, hlow, -, -⟩ := view_finite hx
      have hone : (one : Rat) ≠ 0 := Int.cast_ne_zero.2 one_pos.ne'
      obtain ⟨k, hk⟩ : ∃ k, k = 1074 := ⟨_, rfl⟩
      rw [one_eq hk] at hone ⊢
      cases e with
      | ofNat e =>
          have hexp : (Int.ofNat e + 1074).toNat = e + k := by
            simp only [Int.ofNat_eq_natCast]
            omega
          refine congrArg some ((eq_div_iff hone).2 ?_)
          rw [← Int.cast_mul, signed_eq_apply, units, hexp, Nat.pow_add, ← Nat.mul_assoc,
            Nat.cast_mul, Nat.cast_mul, apply_mul, apply_mul]
      | negSucc e =>
          refine congrArg some ?_
          rw [Rat.mkRat_eq_div, signed_eq_apply, units]
          have hexp : k = (Int.negSucc e + 1074).toNat + (e + 1) := by omega
          generalize (Int.negSucc e + 1074).toNat = i at *
          generalize e + 1 = j at *
          have hpow : (((2 ^ i : Nat) : Int) : Rat) ≠ 0 :=
            Int.cast_ne_zero.2 (Int.natCast_ne_zero.2 (Nat.two_pow_pos i).ne')
          rw [Nat.cast_mul, apply_mul, hexp, Nat.pow_add, Nat.cast_mul, mul_comm ((2 ^ i : Nat) : Int),
            Int.cast_mul, Int.cast_mul, mul_div_mul_right _ _ hpow, Int.cast_natCast]

/-- Up to here all natural numbers are doubles. -/
theorem units_two_pow :
    units (.finite .positive (2 ^ 52) 1 (by decide)) = ((2 ^ 53 : Nat) : Int) * one := by
  obtain ⟨k, hk⟩ : ∃ k, k = 1074 := ⟨_, rfl⟩
  have hexp : ((1 : Int) + 1074).toNat = 1 + k := by omega
  rw [one_eq hk, units, hexp, Nat.pow_add, ← Nat.mul_assoc, Nat.cast_mul]
  rfl

/-! ## Natural numbers -/

/-- The double is a natural number.  Zero is one with either sign. -/
structure Counts (x : Float) (n : Nat) : Prop where
  kept : Kept (view x)
  units_eq : units (view x) = n * one

section Counts
variable {x y : Float} {a b n : Nat}

theorem counts_of_whole (hx : Number.ofFloat x = .whole n) : Counts x n := by
  obtain ⟨k, hk⟩ : ∃ k, k = 1074 := ⟨_, rfl⟩
  rcases view_cases_of_whole hx with ⟨hzero, s, hs⟩ | ⟨s, q, -, hq, hform⟩
  · rw [Int.ofNat.inj hzero]
    refine ⟨?_, ?_⟩
    · rw [hs]
      exact .zero s
    · rw [hs]
      exact (Int.zero_mul one).symm
  · rw [signed_eq_apply] at hq
    rcases hform with ⟨m, j, hm, hv, rfl⟩ | ⟨j, hm, hv⟩
    · refine ⟨kept_view hv, ?_⟩
      have hexp : ((j : Int) + 1074).toNat = j + k := by omega
      rw [hv, hq, units, one_eq hk, hexp, ← apply_mul, ← Nat.cast_mul, Nat.pow_add, Nat.mul_assoc]
    · refine ⟨kept_view hv, ?_⟩
      obtain ⟨-, hlow, -, -⟩ := view_finite hv
      have hexp : j + 1 + (Int.negSucc j + 1074).toNat = k := by omega
      rw [hv, hq, units, one_eq hk, ← apply_mul, ← Nat.cast_mul, Nat.mul_assoc, ← Nat.pow_add,
        hexp]

/-- Up to `2 ^ 53` a natural number is its own rounding. -/
theorem Rounded.natural {k : Nat} {u : UnpackedFloat} (h : Rounded (n * one) k u)
    (hle : n ≤ 2 ^ 53) : repack u = u ∧ units u = n * one := by
  obtain ⟨l, hl⟩ : ∃ l, l = 1074 := ⟨_, rfl⟩
  have habs : ∀ c : Nat, ((c : Int) * one).natAbs = c * 2 ^ l := fun c => by
    rw [one_eq hl, Int.natAbs_mul, Int.natAbs_natCast, Int.natAbs_natCast]
  have hsmall : (n * one : Int).natAbs ≤
      (units (.finite .positive (2 ^ 52) 1 (by decide))).natAbs := by
    rw [units_two_pow, habs, habs]
    exact Nat.mul_le_mul_right (2 ^ l) hle
  refine ⟨h.repack_eq (Nat.le_of_eq Nat.log2_two_pow) (by decide) hsmall, ?_⟩
  rcases Nat.lt_or_eq_of_le hle with hlt | rfl
  · refine h.exact (l := l) ?_ (one_eq hl ▸ Int.dvd_mul_left _ _)
    rw [habs, Nat.add_comm, Nat.pow_add]
    exact Nat.mul_lt_mul_of_pos_right hlt (Nat.two_pow_pos l)
  · -- the last place is two here
    refine h.exact (l := l + 1) ?_ ?_
    · rw [habs, ← Nat.pow_add]
      exact (Nat.pow_lt_pow_iff_right (by decide)).2 (by omega)
    · rw [one_eq hl, ← Nat.cast_mul, ← Nat.pow_add]
      exact Int.natCast_dvd_natCast.2 (Nat.pow_dvd_pow 2 (by omega))

theorem Counts.add (hx : Counts x a) (hy : Counts y b) (hle : a + b ≤ 2 ^ 53) :
    Counts (x + y) (a + b) := by
  obtain ⟨k, hr⟩ := add_rounded hx.kept hy.kept
  rw [hx.units_eq, hy.units_eq, ← Int.add_mul, ← Nat.cast_add] at hr
  obtain ⟨hrepack, hunits⟩ := hr.natural hle
  have hsum : view (x + y) = UnpackedFloat.add .binary64 (view x) (view y) :=
    (view_add x y).trans hrepack
  rw [← hsum] at hr hunits
  exact ⟨hr.kept, hunits⟩

/-- Above zero only one double counts a number. -/
theorem Counts.inj (hx : Counts x n) (hy : Counts y n) (hn : 0 < n) : x = y := by
  have hne : 0 ≠ (n : Int) * one := (Int.mul_ne_zero (by omega) one_pos.ne').symm
  obtain ⟨hk, hunits⟩ := hx
  obtain ⟨hk', hunits'⟩ := hy
  refine view_inj ?_
  generalize view x = u at *
  generalize view y = v at *
  cases hk with
  | zero s => exact absurd hunits hne
  | finite s m e h hlog hlow hplace =>
      cases hk' with
      | zero s' => exact absurd hunits' hne
      | finite s' m' e' h' hlog' hlow' hplace' =>
          exact (Kept.finite s m e h hlog hlow hplace).eq_of_units
            (.finite s' m' e' h' hlog' hlow' hplace') (hunits.trans hunits'.symm)

theorem counts_ofNat (hlt : n < 2 ^ 53) : Counts (Float.ofNat n) n :=
  counts_of_whole (ofFloat_ofNat hlt)

theorem Counts.ofFloat_eq (h : Counts x n) (hn : 0 < n) (hlt : n < 2 ^ 53) :
    Number.ofFloat x = .whole n := by
  rw [h.inj (counts_ofNat hlt) hn, ofFloat_ofNat hlt]

/-- Natural numbers up to `2 ^ 53` are doubles. -/
theorem view_ofNat (hn : 0 < n) (hle : n ≤ 2 ^ 53) :
    (∃ m e hm, view (Float.ofNat n) = .finite .positive m e hm) ∧
      units (view (Float.ofNat n)) = n * one := by
  rcases Nat.lt_or_eq_of_le hle with hlt | rfl
  · refine ⟨?_, (counts_ofNat hlt).units_eq⟩
    rw [view_of_whole hn hlt (ofFloat_ofNat hlt)]
    exact ⟨_, _, _, rfl⟩
  · have hbits : Float.ofNat (2 ^ 53) = Float.ofBits 0x4340000000000000 := by decide +kernel
    have hview : view (Float.ofBits 0x4340000000000000) =
        .finite .positive (2 ^ 52) 1 (by decide) := rfl
    rw [hbits, hview]
    exact ⟨⟨_, _, _, rfl⟩, units_two_pow⟩

end Counts

end Chip8.Double
