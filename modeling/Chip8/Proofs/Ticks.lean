/-
# `Chip8.Proofs.Ticks` — when the timers lose count

The carried fraction of a tick is a small double, and an advance leaves a
small double behind, however many ticks fire.  With one exception.  The
elapsed milliseconds are multiplied by 60, and close to the largest double
the product is infinite:

    product       finite          infinite
    gathered      finite          ∞
    fired         not NaN         ∞
    countdowns    fewer left      none left
    carried       small again     ∞ - ∞, not a number

A carried fraction that is not a number stays so, and from the next advance
on it takes the countdowns with it.  `Counting.advance` and
`Counting.advance_overflow` are the two columns of this story, `Lost.advance`
is what follows, and together they say what an advance by a positive, finite
time does to timers in either state.

That the carried fraction is small again is not obvious.  Where the gathered
ticks are below `2 ^ 53`, what is left is no larger than they were, since
what is taken away is not below zero.  Beyond, the gathered ticks are whole,
the slack is rounded away, and nothing is left.
-/
import Chip8.Proofs.Doubles
import Chip8.Timers

namespace Chip8

open Float.Model
open Float.Model.UnpackedFloat

namespace Double

variable {x y : Float}

/-! ## Comparing with zero -/

theorem le_iff : x ≤ y ↔ UnpackedFloat.le (view x) (view y) = true := decide_eq_true_iff

theorem lt_iff : x < y ↔ UnpackedFloat.lt (view x) (view y) = true := decide_eq_true_iff

theorem view_zero : view (Scalar.ofInt 0) = .zero .positive := rfl

theorem le_zero_iff : x ≤ Scalar.ofInt 0 ↔ OfSign .negative (view x) := by
  rw [le_iff, view_zero]
  cases view x with
  | notANumber => exact ⟨nofun, nofun⟩
  | infinity s =>
      cases s with
      | negative => exact ⟨fun _ => .infinity, fun _ => rfl⟩
      | positive => exact ⟨nofun, nofun⟩
  | zero s => exact ⟨fun _ => .zero s, fun _ => rfl⟩
  | finite s m e h =>
      cases s with
      | negative => exact ⟨fun _ => .finite m e h, fun _ => rfl⟩
      | positive => exact ⟨nofun, nofun⟩

/-- What is not above zero is clipped to a zero. -/
theorem clipBelow_of_negative (h : OfSign .negative (view x)) :
    ∃ s, view (Scalar.clipBelow x) = .zero s := by
  unfold Scalar.clipBelow
  split
  · exact ⟨_, view_zero⟩
  · rename_i hn
    rw [lt_iff, view_zero] at hn
    generalize view x = u at h hn
    cases h with
    | infinity => exact absurd rfl hn
    | zero s => exact ⟨s, rfl⟩
    | finite m e h => exact absurd rfl hn

/-- Anything else stays as it is. -/
theorem clipBelow_of_not_negative (h : ¬ OfSign .negative (view x)) : Scalar.clipBelow x = x := by
  refine if_neg fun hlt => h (le_zero_iff.1 ?_)
  rw [lt_iff, view_zero] at hlt
  rw [le_iff, view_zero]
  simp only [UnpackedFloat.lt, beq_iff_eq] at hlt
  simp only [UnpackedFloat.le, hlt]
  rfl

/-- A finite number above zero. -/
theorem view_of_positive (hf : x.isFinite = true) (h : ¬ x ≤ Scalar.ofInt 0) :
    ∃ m e hm, view x = .finite .positive m e hm := by
  have hf' : (view x).isFinite = true := hf
  rw [le_zero_iff] at h
  cases hv : view x with
  | notANumber => rw [hv] at hf'; cases hf'
  | infinity s => rw [hv] at hf'; cases hf'
  | zero s => rw [hv] at h; exact absurd (.zero s) h
  | finite s m e hm =>
      cases s with
      | positive => exact ⟨m, e, hm, rfl⟩
      | negative => rw [hv] at h; exact absurd (.finite m e hm) h

/-! ## Rounding down -/

theorem ofScientific_ofSign (n : Nat) (e : Int) :
    OfSign .positive (UnpackedFloat.ofScientific .binary64 n e) := by
  unfold UnpackedFloat.ofScientific
  split
  · exact .zero .positive
  split
  · exact .infinity
  split
  · exact .zero .positive
  split
  · exact mul_ofSign (.finite _ _ _)
  · exact div_ofSign (.finite _ _ _)

/-- The powers of ten that are doubles are above zero. -/
theorem powersOfTen_positive : ∀ p ∈ Float.exactlyRepresentablePowersOfTen.toList,
    p.isFinite = true ∧ ¬ p ≤ Scalar.ofInt 0 := by
  decide +kernel

/-- A power of ten does not change a sign. -/
theorem powerOfTen_ofSign {p : Float} (hx : OfSign .positive (view x))
    (hp : p ∈ Float.exactlyRepresentablePowersOfTen.toList) :
    OfSign .positive (view (x * p)) ∧ OfSign .positive (view (x / p)) := by
  obtain ⟨hfinite, hpos⟩ := powersOfTen_positive p hp
  obtain ⟨m, e, hm, hview⟩ := view_of_positive hfinite hpos
  rw [view_mul, view_div, hview]
  exact ⟨(mul_ofSign hx).repack, (div_ofSign hx).repack⟩

/-- A number in decimal notation is not below zero. -/
theorem decimal_ofSign (n : Nat) (s : Bool) (e : Nat) :
    OfSign .positive (view (Float.ofScientific n s e)) := by
  unfold Float.ofScientific
  split
  · rename_i h
    have hn : OfSign .positive (view n.toUInt64.toFloat) :=
      (normalize_ofSign (Int.natCast_nonneg _)).repack
    have he : e < Float.exactlyRepresentablePowersOfTen.size := Nat.lt_succ_of_le h.2
    obtain ⟨hmul, hdiv⟩ := powerOfTen_ofSign hn (Array.getElem_mem_toList he)
    cases s with
    | true => exact hdiv
    | false => exact hmul
  · exact (ofScientific_ofSign n _).repack

theorem ofNat_ofSign (n : Nat) : OfSign .positive (view (Float.ofNat n)) :=
  decimal_ofSign n false 0

/-- Rounding down does not lead below zero. -/
theorem floor_ofSign (h : OfSign .positive (view x)) : OfSign .positive (view (floorFloat x)) := by
  unfold floorFloat
  split
  · rename_i s m e hx
    have hs : 0 ≤ signed s m := by
      rw [ofFloat_eq] at hx
      generalize view x = u at h hx
      cases h with
      | infinity => cases hx
      | zero s' => cases hx; cases s' <;> decide
      | finite m' e' hm => cases hx; exact Int.natCast_nonneg m
    have hn : 0 ≤ shiftDown (signed s m) (e + 1) := Int.ediv_nonneg hs (Int.natCast_nonneg _)
    obtain ⟨k, hk⟩ := Int.eq_ofNat_of_zero_le hn
    rw [hk]
    exact ofNat_ofSign k
  · exact h

/-- A double without digits behind the point is its own floor. -/
theorem floor_of_whole (h : ∀ s m e, ofFloat x ≠ .finite s m (.negSucc e)) : floorFloat x = x := by
  unfold floorFloat
  split
  · exact absurd ‹_› (h _ _ _)
  · rfl

/-! ## Reading a count -/

theorem tally_ne_unknown (h : OfSign .positive (view x)) : Scalar.tally x ≠ .unknown := by
  show tallyFloat x ≠ .unknown
  rw [tallyFloat, ofFloat_eq]
  generalize view x = u at h
  cases h <;> nofun

theorem tally_of_nan (h : view x = .notANumber) : Scalar.tally x = .unknown := by
  show tallyFloat x = .unknown
  rw [tallyFloat, ofFloat_eq, h]
  rfl

/-- Every finite double is below `2 ^ 1024`. -/
theorem view_fits (h : x.isFinite = true) : Fits 1024 (view x) := by
  have hf : (view x).isFinite = true := h
  cases hv : view x with
  | notANumber => rw [hv] at hf; cases hf
  | infinity s => rw [hv] at hf; cases hf
  | zero s => exact .zero s
  | finite s m e hm =>
      obtain ⟨hlog, h₀, h₁, -⟩ := view_finite hv
      exact .finite s m e hm h₀ h₁ (by simp only [totalExponent]; omega)

end Double

/-! ## Elapsed time in ticks -/

/-- The time is so long that sixty times as long is infinite. -/
def Overflows (ms : Float) : Prop := (ms * Scalar.ofInt 60).isFinite = false

namespace Timers

open Double

variable {t : Timers Float} {ms : Float}

theorem view_sixty : view (Scalar.ofInt 60) = .finite .positive (60 * 2 ^ 47) (-47) (by decide) :=
  rfl

theorem view_thousand :
    view (Scalar.ofInt 1000) = .finite .positive (1000 * 2 ^ 43) (-43) (by decide) := rfl

theorem view_slack :
    view slack = .finite .positive 4835703278458517 (-82) (by decide) := rfl

theorem elapsed_fits (h : ¬ Overflows ms) :
    Fits 1016 (view (ms * Scalar.ofInt 60 / Scalar.ofInt 1000)) := by
  have hq : Fits 1024 (view (ms * Scalar.ofInt 60)) := view_fits (Bool.of_not_eq_false h)
  rw [view_div, view_thousand]
  exact (div_fits (k := 1024) (j := 9) (by decide +kernel) (by decide) (by decide) hq).repack

section Elapsed
variable (hf : ms.isFinite = true) (hpos : ¬ ms ≤ Scalar.ofInt 0)
include hf hpos

theorem product_ofSign : OfSign .positive (view (ms * Scalar.ofInt 60)) := by
  obtain ⟨m, e, hm, hv⟩ := view_of_positive hf hpos
  rw [view_mul, view_sixty, hv]
  exact (mul_ofSign (.finite m e hm)).repack

theorem elapsed_ofSign :
    OfSign .positive (view (ms * Scalar.ofInt 60 / Scalar.ofInt 1000)) := by
  rw [view_div, view_thousand]
  exact (div_ofSign (product_ofSign hf hpos)).repack

theorem elapsed_infinity (h : Overflows ms) :
    view (ms * Scalar.ofInt 60 / Scalar.ofInt 1000) = .infinity .positive := by
  have hq := product_ofSign hf hpos
  have hn : (view (ms * Scalar.ofInt 60)).isFinite = false := h
  rw [view_div, view_thousand]
  generalize view (ms * Scalar.ofInt 60) = u at hq hn
  cases hq with
  | infinity => rfl
  | zero s => cases hn
  | finite m e hm => cases hn

end Elapsed

/-! ## Two states of the timers -/

/-- The carried fraction is small, and not below zero. -/
structure Counting (t : Timers Float) : Prop where
  fits : Fits 55 (view t.pending)
  ofSign : OfSign .positive (view t.pending)

/-- The carried fraction is not a number. -/
def Lost (t : Timers Float) : Prop := view t.pending = .notANumber

theorem initial_counting : (initial : Timers Float).Counting := ⟨.zero _, .zero _⟩

theorem Counting.not_lost (h : t.Counting) : ¬ t.Lost := by
  intro hl
  have hs := h.ofSign
  rw [hl] at hs
  cases hs

theorem Counting.gathered_ofSign (h : t.Counting) (hf : ms.isFinite = true)
    (hpos : ¬ ms ≤ Scalar.ofInt 0) : OfSign .positive (view (t.gathered ms)) := by
  rw [gathered, view_add]
  exact (add_ofSign h.ofSign (elapsed_ofSign hf hpos)).repack

theorem Counting.gathered_fits (h : t.Counting) (ho : ¬ Overflows ms) :
    Fits 1018 (view (t.gathered ms)) := by
  rw [gathered, view_add]
  exact (add_fits (k := 1016) (by decide) (by decide) (h.fits.mono (by decide))
    (elapsed_fits ho)).repack

theorem Counting.gathered_infinity (h : t.Counting) (hf : ms.isFinite = true)
    (hpos : ¬ ms ≤ Scalar.ofInt 0) (ho : Overflows ms) :
    view (t.gathered ms) = .infinity .positive := by
  have hsum : UnpackedFloat.add .binary64 (view t.pending) (.infinity .positive) =
      .infinity .positive := by
    have hs := h.ofSign
    generalize view t.pending = u at hs
    cases hs <;> rfl
  rw [gathered, view_add, elapsed_infinity hf hpos ho, hsum, repack_infinity]

/-- The ticks that fire when so many have gathered. -/
def due (g : Float) : Float := floorFloat (g + slack)

theorem due_ofSign {g : Float} (h : OfSign .positive (view g)) : OfSign .positive (view (due g)) := by
  refine floor_ofSign ?_
  rw [view_add, view_slack]
  exact (add_ofSign h (.finite _ _ _)).repack

theorem due_of_infinity {g : Float} (h : view g = .infinity .positive) :
    view (due g) = .infinity .positive := by
  have hsum : view (g + slack) = .infinity .positive := by rw [view_add, h, view_slack]; rfl
  rw [due, floor_of_whole (by rw [ofFloat_eq, hsum]; nofun), hsum]

theorem due_of_nan {g : Float} (h : view g = .notANumber) : view (due g) = .notANumber := by
  have hsum : view (g + slack) = .notANumber := by
    rw [view_add, h, add_notANumber, repack_notANumber]
  rw [due, floor_of_whole (by rw [ofFloat_eq, hsum]; nofun), hsum]

/-- Beyond `2 ^ 53` the gathered ticks are whole, and the slack is lost. -/
theorem due_of_large {g : Float} {m : Nat} {e : Int} {hm : 0 < m}
    (h : view g = .finite .positive m e hm) (he : 1 ≤ e) :
    view (due g) = .finite .positive m e hm := by
  obtain ⟨-, h₀, h₁, hc⟩ := view_finite h
  have hlog : m.log2 = 52 := by omega
  obtain ⟨k, hk⟩ := Int.eq_ofNat_of_zero_le (show 0 ≤ e - 1 + 82 by omega)
  have hek : -82 + ((k : Int) + 1) = e := by omega
  have hsum : view (g + slack) = .finite .positive m e hm := by
    have hadd := add_absorb (r := 4835703278458517) (k := k) (e := -82) hm (by decide) hlog
      (Nat.lt_of_lt_of_le (by decide : 4835703278458517 < 2 ^ 53)
        (Nat.pow_le_pow_right (by decide) (by omega))) (by omega)
    simp only [hek] at hadd
    rw [view_add, h, view_slack, hadd, repack_normal h₀ h₁ hlog]
  rw [due, floor_of_whole ?_, hsum]
  intro s m' e' hx
  rw [ofFloat_eq, hsum] at hx
  cases hx
  omega

/-! ## An advance -/

/-- An advance by a positive time. -/
theorem advance_eq (t : Timers Float) (hpos : ¬ ms ≤ Scalar.ofInt 0) :
    (t.advance ms).1 =
      if due (t.gathered ms) ≤ Scalar.ofInt 0 then { t with pending := t.gathered ms }
      else ({ t with pending := t.gathered ms } : Timers Float).fire (due (t.gathered ms)) := by
  unfold advance
  rw [if_neg hpos]
  show (if due (t.gathered ms) ≤ Scalar.ofInt 0 then _ else _ : Timers Float × Float).1 = _
  split <;> rfl

/-- What is carried on when a number of ticks fires. -/
theorem clipBelow_counting {x : Float}
    (h : (Fits 54 (view x) ∧ OfSign .positive (view x)) ∨ OfSign .negative (view x)) :
    Fits 55 (view (Scalar.clipBelow x)) ∧ OfSign .positive (view (Scalar.clipBelow x)) := by
  by_cases hn : OfSign .negative (view x)
  · obtain ⟨s, hs⟩ := clipBelow_of_negative hn
    rw [hs]
    exact ⟨.zero s, .zero s⟩
  · obtain ⟨hf, hs⟩ := h.resolve_right hn
    rw [clipBelow_of_not_negative hn]
    exact ⟨hf.mono (by decide), hs⟩

/-- Beyond `2 ^ 53` all gathered ticks fire, and none is carried on. -/
theorem carried_of_large {g : Float} {m : Nat} {e : Int} {hm : 0 < m}
    (h : view g = .finite .positive m e hm) (he : 1 ≤ e) :
    ¬ due g ≤ Scalar.ofInt 0 ∧ view (g - due g) = .zero .positive := by
  have hd := due_of_large h he
  refine ⟨?_, ?_⟩
  · rw [le_zero_iff, hd]
    nofun
  · rw [view_sub, h, hd, sub_self, repack_zero]

theorem fits_of_not_large {g : Float} (hs : OfSign .positive (view g))
    (hfit : Fits 1018 (view g))
    (hl : ¬ ∃ m e hm, view g = .finite .positive m e hm ∧ 1 ≤ e) : Fits 53 (view g) := by
  cases hv : view g with
  | notANumber => rw [hv] at hs; cases hs
  | infinity s => rw [hv] at hfit; cases hfit
  | zero s => exact .zero s
  | finite s m e hm =>
      rw [hv] at hs
      cases hs
      obtain ⟨hlog, h₀, h₁, -⟩ := view_finite hv
      have he : ¬ 1 ≤ e := fun he => hl ⟨m, e, hm, hv, he⟩
      exact .finite _ m e hm h₀ h₁ (by simp only [totalExponent]; omega)

/-- The carried fraction is small again. -/
theorem Counting.advance (h : t.Counting) (hf : ms.isFinite = true)
    (hpos : ¬ ms ≤ Scalar.ofInt 0) (ho : ¬ Overflows ms) : (t.advance ms).1.Counting := by
  have hs := h.gathered_ofSign hf hpos
  have hfit := h.gathered_fits ho
  have hd := due_ofSign hs
  rw [advance_eq t hpos]
  generalize t.gathered ms = g at hs hfit hd
  -- a difference of large numbers is bounded only because it is zero
  by_cases hl : ∃ m e hm, view g = .finite .positive m e hm ∧ 1 ≤ e
  · obtain ⟨m, e, hm, hv, he⟩ := hl
    obtain ⟨hdn, hsub⟩ := carried_of_large hv he
    rw [if_neg hdn]
    obtain ⟨hc, hc'⟩ := clipBelow_counting (x := g - due g) (.inr (by rw [hsub]; exact .zero _))
    exact ⟨hc, hc'⟩
  · have hsmall := fits_of_not_large hs hfit hl
    split
    · exact ⟨hsmall.mono (by decide), hs⟩
    · have hsub : (Fits 54 (view (g - due g)) ∧ OfSign .positive (view (g - due g))) ∨
          OfSign .negative (view (g - due g)) := by
        rw [view_sub]
        rcases sub_cases (by decide) (by decide) hsmall hs hd with ⟨h₁, h₂⟩ | h₃
        · exact .inl ⟨h₁.repack, h₂.repack⟩
        · exact .inr h₃.repack
      obtain ⟨hc, hc'⟩ := clipBelow_counting hsub
      exact ⟨hc, hc'⟩

/-- Infinitely many ticks fire, and infinitely many are taken away. -/
theorem Counting.advance_overflow (h : t.Counting) (hf : ms.isFinite = true)
    (hpos : ¬ ms ≤ Scalar.ofInt 0) (ho : Overflows ms) : (t.advance ms).1.Lost := by
  have hg := h.gathered_infinity hf hpos ho
  have hd := due_of_infinity hg
  have hdn : ¬ due (t.gathered ms) ≤ Scalar.ofInt 0 := by
    rw [le_zero_iff, hd]
    nofun
  have hsub : view (t.gathered ms - due (t.gathered ms)) = .notANumber := by
    rw [view_sub, hg, hd]
    rfl
  rw [advance_eq t hpos, if_neg hdn]
  show view (Scalar.clipBelow (t.gathered ms - due (t.gathered ms))) = .notANumber
  rw [clipBelow_of_not_negative (by rw [hsub]; nofun), hsub]

/-- The countdowns go down while the timers count. -/
theorem Counting.advance_countdowns (h : t.Counting) (hf : ms.isFinite = true)
    (hpos : ¬ ms ≤ Scalar.ofInt 0) :
    ∃ k, k ≠ .unknown ∧ (t.advance ms).1.delay = t.delay.drop k ∧
      (t.advance ms).1.sound = t.sound.drop k := by
  have hd := due_ofSign (h.gathered_ofSign hf hpos)
  rw [advance_eq t hpos]
  split
  · exact ⟨.times 0, nofun, (Countdown.drop_times_zero _).symm, (Countdown.drop_times_zero _).symm⟩
  · exact ⟨_, tally_ne_unknown hd, rfl, rfl⟩

/-- Timers that have lost count lose their countdowns. -/
theorem Lost.advance (h : t.Lost) (hpos : ¬ ms ≤ Scalar.ofInt 0) :
    (t.advance ms).1.delay = .unknown ∧ (t.advance ms).1.sound = .unknown ∧
      (t.advance ms).1.Lost := by
  have hg : view (t.gathered ms) = .notANumber := by
    rw [gathered, view_add, show view t.pending = .notANumber from h, add_notANumber,
      repack_notANumber]
  have hd := due_of_nan hg
  have hdn : ¬ due (t.gathered ms) ≤ Scalar.ofInt 0 := by
    rw [le_zero_iff, hd]
    nofun
  have htally := tally_of_nan hd
  have hsub : view (t.gathered ms - due (t.gathered ms)) = .notANumber := by
    rw [view_sub, hg, sub_notANumber, repack_notANumber]
  rw [advance_eq t hpos, if_neg hdn]
  refine ⟨?_, ?_, ?_⟩
  · simp only [fire, htally]
    cases t.delay <;> rfl
  · simp only [fire, htally]
    cases t.sound <;> rfl
  · show view (Scalar.clipBelow (t.gathered ms - due (t.gathered ms))) = .notANumber
    rw [clipBelow_of_not_negative (by rw [hsub]; nofun), hsub]

end Timers
end Chip8
