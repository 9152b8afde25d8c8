/-
# `Chip8.Proofs.DoubleOrder` — the order of doubles, and products that fade

Two facts about doubles that are plain for fractions.

**The order.**  Doubles that are numbers are ordered linearly.  They are
compared by sign, exponent and mantissa, in this order, so `rank` sends a
number to these three, and the order of the ranks is the lexicographic one.
What is not a number stands outside of the order, on either side of it.

**Products.**  A number between zero and one, times a factor between zero and
0.99, is not above what it was, although the product is rounded:

    m · 2 ^ e  times  m' · 2 ^ e'         m' < 2 ^ k,  e' = -k
    exact product                         m · m' · 2 ^ (e - k)  <  m · 2 ^ e
    rounded up to a multiple of 2 ^ t     at most m · 2 ^ e, for t ≤ e

The last line is the point.  The number is a multiple of the unit to which the
product is rounded, so rounding up stops there at the latest
(`roundWithAccuracy_upTo`).  It is the same for the shift that follows a carry,
and for a result among the smallest doubles (`UpTo.repack`).
-/
import Chip8.Display
import Chip8.Proofs.Ticks

namespace Chip8.Double

open Float.Model
open Float.Model.UnpackedFloat

/-! ## The order -/

/-- The place of a number among the others: its kind first, from the negative
infinity to the positive one, then its exponent, then its mantissa. -/
def rank : UnpackedFloat → Int ×ₗ Int ×ₗ Int
  | .infinity .negative => toLex (-2, toLex (0, 0))
  | .finite .negative m e _ => toLex (-1, toLex (-e, -m))
  | .finite .positive m e _ => toLex (1, toLex (e, m))
  | .infinity .positive => toLex (2, toLex (0, 0))
  | _ => toLex (0, toLex (0, 0))

theorem compare_natCast (a b : Nat) : compare (a : Int) (b : Int) = compare a b := by
  rcases lt_trichotomy a b with h | h | h
  · rw [compare_lt_iff_lt.2 h, compare_lt_iff_lt.2 (Int.ofNat_lt.2 h)]
  · rw [compare_eq_iff_eq.2 h, compare_eq_iff_eq.2 (congrArg Nat.cast h)]
  · rw [compare_gt_iff_gt.2 h, compare_gt_iff_gt.2 (Int.ofNat_lt.2 h)]

theorem compare_neg_neg (a b : Int) : compare (-a) (-b) = (compare a b).swap := by
  rcases lt_trichotomy a b with h | h | h
  · rw [compare_lt_iff_lt.2 h, compare_gt_iff_gt.2 (Int.neg_lt_neg h)]
    rfl
  · rw [compare_eq_iff_eq.2 h, compare_eq_iff_eq.2 (congrArg Neg.neg h)]
    rfl
  · rw [compare_gt_iff_gt.2 h, compare_lt_iff_lt.2 (Int.neg_lt_neg h)]
    rfl

/-- Numbers are compared by their places. -/
theorem compare_eq_rank {u v : UnpackedFloat} (hu : u ≠ .notANumber) (hv : v ≠ .notANumber) :
    u.compare v = some (compare (rank u) (rank v)) := by
  rcases u with ⟨_ | _⟩ | _ | s | ⟨_ | _, m, e, h⟩ <;>
    rcases v with ⟨_ | _⟩ | _ | s' | ⟨_ | _, m', e', h'⟩
  case finite.positive.finite.positive =>
    show _ = some ((compare e e').then (compare (m : Int) m'))
    rw [compare_natCast]
    rfl
  case finite.negative.finite.negative =>
    show _ = some ((compare (-e) (-e')).then (compare (-(m : Int)) (-m')))
    rw [compare_neg_neg, compare_neg_neg, compare_natCast, ← Ordering.swap_then]
    rfl
  all_goals first | rfl | exact absurd rfl hu | exact absurd rfl hv

theorem compare_notANumber (u : UnpackedFloat) : u.compare .notANumber = none := by
  cases u <;> rfl

theorem le_iff_rank {u v : UnpackedFloat} :
    UnpackedFloat.le u v = true ↔ u ≠ .notANumber ∧ v ≠ .notANumber ∧ rank u ≤ rank v := by
  by_cases hu : u = .notANumber
  · subst hu
    exact ⟨fun h => absurd h Bool.false_ne_true, fun h => absurd rfl h.1⟩
  by_cases hv : v = .notANumber
  · subst hv
    rw [UnpackedFloat.le, compare_notANumber]
    exact ⟨fun h => absurd h Bool.false_ne_true, fun h => absurd rfl h.2.1⟩
  rw [UnpackedFloat.le, compare_eq_rank hu hv, Option.any_some, Ordering.isLE_iff_ne_gt, ne_eq,
    compare_gt_iff_gt, not_lt]
  exact ⟨fun h => ⟨hu, hv, h⟩, fun h => h.2.2⟩

theorem lt_iff_rank {u v : UnpackedFloat} :
    UnpackedFloat.lt u v = true ↔ u ≠ .notANumber ∧ v ≠ .notANumber ∧ rank u < rank v := by
  by_cases hu : u = .notANumber
  · subst hu
    exact ⟨fun h => absurd h Bool.false_ne_true, fun h => absurd rfl h.1⟩
  by_cases hv : v = .notANumber
  · subst hv
    rw [UnpackedFloat.lt, compare_notANumber]
    exact ⟨fun h => absurd h Bool.false_ne_true, fun h => absurd rfl h.2.1⟩
  rw [UnpackedFloat.lt, compare_eq_rank hu hv]
  simp only [beq_iff_eq, Option.some.injEq, compare_lt_iff_lt]
  exact ⟨fun h => ⟨hu, hv, h⟩, fun h => h.2.2⟩

/-- Positive numbers are compared by exponent and mantissa. -/
theorem le_finite_iff {m m' : Nat} {e e' : Int} {h : 0 < m} {h' : 0 < m'} :
    UnpackedFloat.le (.finite .positive m e h) (.finite .positive m' e' h') = true ↔
      e < e' ∨ e = e' ∧ m ≤ m' := by
  rw [le_iff_rank]
  simp only [rank, Prod.Lex.toLex_le_toLex, Int.lt_irrefl, false_or, true_and, Int.ofNat_le]
  exact ⟨fun h => h.2.2, fun h => ⟨nofun, nofun, h⟩⟩

section Order
variable {x y z : Float}

/-- What compares with something is a number. -/
theorem le_self_of_le (h : x ≤ y) : x ≤ x ∧ y ≤ y := by
  simp only [le_iff, le_iff_rank] at *
  exact ⟨⟨h.1, h.1, le_refl _⟩, h.2.1, h.2.1, le_refl _⟩

theorem le_self_iff : x ≤ x ↔ x.isNaN = false := by
  rw [le_iff, le_iff_rank]
  show _ ↔ (view x).isNaN = false
  cases view x with
  | notANumber => exact ⟨fun h => absurd rfl h.1, nofun⟩
  | _ => exact ⟨fun _ => rfl, fun _ => ⟨nofun, nofun, le_refl _⟩⟩

theorem le_of_le_of_le (h : x ≤ y) (h' : y ≤ z) : x ≤ z := by
  rw [le_iff, le_iff_rank] at *
  exact ⟨h.1, h'.2.1, h.2.2.trans h'.2.2⟩

theorem lt_iff_le_not_le : x < y ↔ x ≤ y ∧ ¬ y ≤ x := by
  simp only [lt_iff, le_iff, lt_iff_rank, le_iff_rank]
  constructor
  · rintro ⟨hx, hy, hlt⟩
    exact ⟨⟨hx, hy, hlt.le⟩, fun h => hlt.not_ge h.2.2⟩
  · rintro ⟨⟨hx, hy, -⟩, hn⟩
    exact ⟨hx, hy, not_le.1 fun hle => hn ⟨hy, hx, hle⟩⟩

theorem le_or_le (h : x ≤ x) (h' : y ≤ y) : x ≤ y ∨ y ≤ x := by
  simp only [le_iff, le_iff_rank] at *
  exact (le_total (rank (view x)) (rank (view y))).imp (fun hle => ⟨h.1, h'.1, hle⟩)
    fun hle => ⟨h'.1, h.1, hle⟩

end Order

/-! ## Numbers up to a bound -/

/-- Zero, or positive and not above `m · 2 ^ e`. -/
inductive UpTo (m : Nat) (e : Int) : UnpackedFloat → Prop
  | zero (s : Sign) : UpTo m e (.zero s)
  | finite (m' : Nat) (e' : Int) (h : 0 < m') :
      -1074 ≤ e' → e' < e ∨ e' = e ∧ m' ≤ m → UpTo m e (.finite .positive m' e' h)

section Bound
variable {m : Nat} {e : Int} {hm : 0 < m} {x y : Float}

theorem upTo_of_le (hy : view y = .finite .positive m e hm) (h : x ≤ y)
    (h₀ : Scalar.ofInt 0 ≤ x) : UpTo m e (view x) := by
  rw [le_iff] at h h₀
  rw [hy] at h
  rw [view_zero] at h₀
  cases hx : view x with
  | notANumber => rw [hx] at h; cases h
  | infinity s =>
      rw [hx] at h h₀
      cases s with
      | positive => cases h
      | negative => cases h₀
  | zero s => exact .zero s
  | finite s m' e' h' =>
      rw [hx] at h h₀
      cases s with
      | positive => exact .finite m' e' h' (view_finite hx).2.1 (le_finite_iff.1 h)
      | negative => cases h₀

theorem le_of_upTo (hy : view y = .finite .positive m e hm) (h : UpTo m e (view x)) :
    Scalar.ofInt 0 ≤ x ∧ x ≤ y := by
  rw [le_iff, le_iff, view_zero, hy]
  generalize view x = u at h
  cases h with
  | zero s => exact ⟨rfl, rfl⟩
  | finite m' e' h' _ hle => exact ⟨rfl, le_finite_iff.2 hle⟩

/-- A result up to a double is read back as such. -/
theorem UpTo.repack {u : UnpackedFloat} (he : -1074 ≤ e) (he' : e ≤ 971) (h : UpTo m e u) :
    UpTo m e (repack u) := by
  cases h with
  | zero s => rw [repack_zero]; exact .zero s
  | finite m' e' h' hlow hle =>
      by_cases hlog : m'.log2 = 52
      · rw [repack_normal hlow (by omega) hlog]
        exact .finite m' e' h' hlow hle
      · rcases repack_subnormal (s := .positive) (h := h') (e := e') (by omega)
          (absurd · hlog) with hz | ⟨h'', hf⟩
        · rw [hz]
          exact .zero _
        · have hmod := Nat.mod_le m' (2 ^ 52)
          rw [hf]
          exact .finite _ _ h'' (by decide) (by omega)

end Bound

/-! ## Products -/

theorem log2_le_of_le_mul {a m j : Nat} (h : a ≤ m * 2 ^ j) : a.log2 ≤ m.log2 + j := by
  have hlt : a < 2 ^ (m.log2 + j + 1) := by
    calc a ≤ m * 2 ^ j := h
      _ < 2 ^ (m.log2 + 1) * 2 ^ j :=
        Nat.mul_lt_mul_of_pos_right Nat.lt_log2_self (Nat.two_pow_pos j)
      _ = 2 ^ (m.log2 + j + 1) := by rw [← Nat.pow_add, Nat.add_right_comm]
  exact Nat.le_of_lt_succ (log2_lt (Nat.succ_pos _) hlt)

/-- Something below `m · 2 ^ e` is rounded to at most that. -/
theorem roundWithAccuracy_upTo {m M k : Nat} {e : Int} (hlog : m.log2 ≤ 52) (he : -1074 ≤ e)
    (hM : M < m * 2 ^ k) :
    UpTo m e (roundWithAccuracy .binary64 .positive M (e - k) .exact) := by
  let E := e - k
  let t₁ := Format.binary64.targetExponent (totalExponent M E)
  let r := (shiftToExponent M E .exact t₁).1.roundedMantissa
  let e₁ := (shiftToExponent M E .exact t₁).2
  let t₂ := Format.binary64.targetExponent (totalExponent r e₁)
  have ht₁ : t₁ = max (totalExponent M E - 53) (-1074) := rfl
  have ht₂ : t₂ = max (totalExponent r e₁ - 53) (-1074) := rfl
  have he₁ : e₁ = max E t₁ := shiftToExponent_exponent M E .exact t₁
  have hlogM : M.log2 ≤ m.log2 + k := log2_le_of_le_mul hM.le
  -- the place that is rounded to is not above the last place of `m · 2 ^ e`
  have hle : t₁ ≤ e := by
    simp only [totalExponent] at ht₁
    omega
  obtain ⟨j, hj⟩ : ∃ j : Nat, e = e₁ + j := ⟨(e - e₁).toNat, by omega⟩
  have hr : r ≤ m * 2 ^ j := by
    have hk : k = j + (t₁ - E).toNat := by omega
    have hdiv : M / 2 ^ (t₁ - E).toNat < m * 2 ^ j := by
      rw [Nat.div_lt_iff_lt_mul (Nat.two_pow_pos _), Nat.mul_assoc, ← Nat.pow_add, ← hk]
      exact hM
    have hround := roundedMantissa_le (shiftToExponent M E .exact t₁).1
    rw [shiftToExponent_mantissa] at hround
    exact Nat.le_trans hround hdiv
  have hlogr : r.log2 ≤ m.log2 + j := log2_le_of_le_mul hr
  have hle₂ : t₂ ≤ e := by
    simp only [totalExponent] at ht₂
    omega
  rw [roundWithAccuracy_eq rfl rfl rfl rfl]
  show UpTo m e (if h : r / 2 ^ (t₂ - e₁).toNat = 0 then .zero .positive
    else .finite .positive (r / 2 ^ (t₂ - e₁).toNat) (e₁ + (t₂ - e₁).toNat)
      (Nat.pos_of_ne_zero h))
  split
  · exact .zero _
  · rename_i h
    refine .finite _ _ _ (by omega) ?_
    rcases Int.lt_or_eq_of_le (show e₁ + (t₂ - e₁).toNat ≤ e by omega) with hlt | heq
    · exact .inl hlt
    · refine .inr ⟨heq, ?_⟩
      rw [show (t₂ - e₁).toNat = j by omega]
      exact Nat.div_le_of_le_mul (by rw [Nat.mul_comm]; exact hr)

theorem view_ofInt_one : view (Scalar.ofInt 1) = .finite .positive (2 ^ 52) (-52) (by decide) := rfl

theorem view_maxDecay :
    view maxDecay = .finite .positive 8917127262193582 (-53) (by decide) := rfl

/-- A number between zero and one does not grow by a factor between zero and
the largest. -/
theorem mul_fades {x d : Float} (h₀ : Scalar.ofInt 0 ≤ x) (h₁ : x ≤ Scalar.ofInt 1)
    (hd₀ : Scalar.ofInt 0 ≤ d) (hd₁ : d ≤ maxDecay) :
    Scalar.ofInt 0 ≤ x * d ∧ x * d ≤ x := by
  have hx := upTo_of_le view_ofInt_one h₁ h₀
  have hd := upTo_of_le view_maxDecay hd₁ hd₀
  cases hvx : view x with
  | notANumber => rw [hvx] at hx; cases hx
  | infinity s => rw [hvx] at hx; cases hx
  | zero s =>
      have hzero : ∃ s', view (x * d) = .zero s' := by
        rw [view_mul, hvx]
        generalize view d = v at hd
        cases hd with
        | zero s' => exact ⟨_, repack_zero _⟩
        | finite m' e' h' => exact ⟨_, repack_zero _⟩
      obtain ⟨s', hs'⟩ := hzero
      rw [le_iff, le_iff, view_zero, hs', hvx]
      exact ⟨rfl, rfl⟩
  | finite s m e hm =>
      rw [hvx] at hx
      cases hx
      obtain ⟨hlog, he, he', -⟩ := view_finite hvx
      refine le_of_upTo hvx ?_
      rw [view_mul, hvx]
      refine UpTo.repack he he' ?_
      cases hvd : view d with
      | notANumber => rw [hvd] at hd; cases hd
      | infinity s => rw [hvd] at hd; cases hd
      | zero s => exact .zero _
      | finite s m' e' hm' =>
          rw [hvd] at hd
          cases hd with
          | finite _ _ _ _ hle =>
              -- the factor is `m' · 2 ^ (-k)` with `m' < 2 ^ k`
              obtain ⟨k, hk⟩ : ∃ k : Nat, e' = -k := ⟨(-e').toNat, by omega⟩
              have hm'k : m' < 2 ^ k :=
                lt_two_pow (by have := (view_finite hvd).1; omega)
              have hM : m * m' < m * 2 ^ k := Nat.mul_lt_mul_of_pos_left hm'k hm
              show UpTo m e (roundWithAccuracy .binary64 .positive (m * m') (e + e') .exact)
              rw [hk]
              exact roundWithAccuracy_upTo hlog he hM

end Chip8.Double
