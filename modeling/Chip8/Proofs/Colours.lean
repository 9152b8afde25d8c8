/-
# `Chip8.Proofs.Colours` — a colour moves from one end to the other, and never back

In fractions a channel that lies at `a` in the background and at `b` in the
foreground is, for an intensity `t` between zero and one,

    mixed a b t  =  ⌊a + (b - a) t + ½⌋.

A half goes up, so a rising channel and a falling one are rounded towards
different ends: 50 → 51 passes to 51 at `t = ½`, and 51 → 50 stays at 51 until
after it.  Both are monotone all the same, for `a + (b - a) t` is monotone in
`t`, upwards if `a ≤ b` and downwards if `b ≤ a`, and rounding keeps the order
(`mixed_mono`, `mixed_anti`).  The ends are whole, and rounding leaves them
alone (`mixed_zero`, `mixed_one`).

The rest is read off these four.  From `s` to `t` a channel moves towards `b` and
not beyond it (`mixed_towards`); with `s = 0` this says that it lies between its
ends.  An intensity outside of zero and one is moved there first, and that keeps
the order as well (`clampIntensity_eq`).
-/
import Chip8.Picture
import Mathlib

namespace Chip8

/-! ## Channels -/

/-- The three channels of a colour. -/
inductive Channel where
  | red
  | green
  | blue
deriving DecidableEq, Repr

/-- A channel of a colour. -/
def Colour.channel {α : Type} (c : Colour α) : Channel → α
  | .red => c.red
  | .green => c.green
  | .blue => c.blue

@[simp] theorem Colour.channel_map {α β : Type} (f : α → β) (c : Colour α) (k : Channel) :
    (c.map f).channel k = f (c.channel k) := by
  cases k <;> rfl

/-- Colours with the same channels are the same. -/
theorem Colour.ext_channel {α : Type} {c d : Colour α} (h : ∀ k, c.channel k = d.channel k) :
    c = d := by
  obtain ⟨r, g, b⟩ := c
  obtain ⟨r', g', b'⟩ := d
  obtain rfl : r = r' := h .red
  obtain rfl : g = g' := h .green
  obtain rfl : b = b' := h .blue
  rfl

/-- Each channel is mixed from the two ends of the same channel. -/
theorem Palette.channel_shade {α : Type} [Scalar α] (p : Palette α) (v : α) (k : Channel) :
    (p.shade v).channel k =
      mix (p.background.channel k) (p.foreground.channel k) (clampIntensity v) := by
  cases k <;> rfl

/-! ## The intensity -/

theorem clampIntensity_eq (v : Rat) : clampIntensity v = max 0 (min 1 v) := by
  unfold clampIntensity
  show (if v ≤ 0 then (0 : Rat) else if 1 ≤ v then 1 else v) = max 0 (min 1 v)
  by_cases h₀ : v ≤ 0
  · rw [if_pos h₀, max_eq_left (le_trans (min_le_right 1 v) h₀)]
  · have hv : 0 ≤ v := (not_le.1 h₀).le
    rw [if_neg h₀, max_eq_right (le_min zero_le_one hv)]
    by_cases h₁ : 1 ≤ v
    · rw [if_pos h₁, min_eq_left h₁]
    · rw [if_neg h₁, min_eq_right (not_le.1 h₁).le]

theorem clampIntensity_mono {s t : Rat} (h : s ≤ t) : clampIntensity s ≤ clampIntensity t := by
  rw [clampIntensity_eq, clampIntensity_eq]
  exact max_le_max_left 0 (min_le_min_left 1 h)

theorem clampIntensity_nonneg (v : Rat) : 0 ≤ clampIntensity v := by
  rw [clampIntensity_eq]
  exact le_max_left 0 _

theorem clampIntensity_le_one (v : Rat) : clampIntensity v ≤ 1 := by
  rw [clampIntensity_eq]
  exact max_le zero_le_one (min_le_left 1 v)

theorem clampIntensity_of_le_zero {v : Rat} (h : v ≤ 0) : clampIntensity v = 0 := by
  rw [clampIntensity_eq]
  exact max_eq_left (le_trans (min_le_right 1 v) h)

theorem clampIntensity_of_one_le {v : Rat} (h : 1 ≤ v) : clampIntensity v = 1 := by
  rw [clampIntensity_eq, min_eq_left h]
  exact max_eq_right zero_le_one

/-! ## Mixing -/

/-- The whole number that is mixed from two whole ends. -/
def mixed (a b : Int) (t : Rat) : Int := ((a : Rat) + (b - a) * t + 1 / 2).floor

theorem mix_eq (a b : Int) (t : Rat) :
    mix (Scalar.ofInt a) (Scalar.ofInt b) t = .whole (mixed a b t) := rfl

/-- A whole number and a half is rounded down to the whole number. -/
theorem floor_add_half (n : Int) : ((n : Rat) + 1 / 2).floor = n := by
  refine le_antisymm ?_ ?_
  · refine Int.le_of_lt_add_one (Rat.floor_lt_iff.2 ?_)
    push_cast
    linarith
  · refine Rat.le_floor_iff.2 ?_
    linarith

section Mixed
variable {a b : Int} {s t : Rat}

theorem mixed_zero (a b : Int) : mixed a b 0 = a := by
  rw [mixed, mul_zero, add_zero, floor_add_half]

theorem mixed_one (a b : Int) : mixed a b 1 = b := by
  rw [mixed, mul_one, add_sub_cancel, floor_add_half]

theorem mixed_mono (hab : a ≤ b) (hst : s ≤ t) : mixed a b s ≤ mixed a b t := by
  have hslope : (0 : Rat) ≤ b - a := sub_nonneg.2 (Int.cast_le.2 hab)
  have hmove : ((b : Rat) - a) * s ≤ (b - a) * t := mul_le_mul_of_nonneg_left hst hslope
  refine Rat.floor_monotone ?_
  linarith

theorem mixed_anti (hba : b ≤ a) (hst : s ≤ t) : mixed a b t ≤ mixed a b s := by
  have hslope : (b : Rat) - a ≤ 0 := sub_nonpos.2 (Int.cast_le.2 hba)
  have hmove : ((b : Rat) - a) * t ≤ (b - a) * s := mul_le_mul_of_nonpos_left hst hslope
  refine Rat.floor_monotone ?_
  linarith

/-- A channel moves towards the foreground, and not beyond it. -/
theorem mixed_towards (a b : Int) (hst : s ≤ t) (ht : t ≤ 1) :
    mixed a b t ∈ Set.uIcc (mixed a b s) b := by
  rcases le_total a b with hab | hba
  · have hend : mixed a b t ≤ mixed a b 1 := mixed_mono hab ht
    rw [mixed_one] at hend
    exact Set.mem_uIcc.2 (.inl ⟨mixed_mono hab hst, hend⟩)
  · have hend : mixed a b 1 ≤ mixed a b t := mixed_anti hba ht
    rw [mixed_one] at hend
    exact Set.mem_uIcc.2 (.inr ⟨hend, mixed_anti hba hst⟩)

/-- A channel lies between its ends. -/
theorem mixed_mem (a b : Int) (h₀ : 0 ≤ t) (h₁ : t ≤ 1) : mixed a b t ∈ Set.uIcc a b := by
  have h := mixed_towards a b h₀ h₁
  rwa [mixed_zero] at h

end Mixed

/-- A channel of a shade, for a palette of whole numbers. -/
theorem Palette.channel_shade_eq (p : Palette Int) (v : Rat) (k : Channel) :
    ((p.map Scalar.ofInt).shade v).channel k =
      .whole (mixed (p.background.channel k) (p.foreground.channel k) (clampIntensity v)) := by
  rw [Palette.channel_shade, Palette.map, Colour.channel_map, Colour.channel_map, mix_eq]

/-! ## Bytes -/

/-- The channels of a palette can be shown as they are. -/
def Palette.InBytes (p : Palette Int) : Prop :=
  ∀ k, p.background.channel k ∈ Set.Icc 0 255 ∧ p.foreground.channel k ∈ Set.Icc 0 255

/-- A channel that fits in a byte is stored as it is. -/
theorem Storage.toNat_byte (storage : Storage) {n : Int} (h : n ∈ Set.Icc 0 255) :
    ((storage.byte (.whole n)).toNat : Int) = n := by
  obtain ⟨h₀, h₁⟩ := h
  cases storage with
  | clamped =>
      simp only [Storage.byte, Number.extent, UInt8.toNat_ofNat']
      omega
  | wrapped =>
      simp only [Storage.byte, Number.byte, Number.word, UInt8.toNat_ofNat']
      omega

/-- Then it does not matter how it is stored. -/
theorem Storage.byte_eq {n : Int} (h : n ∈ Set.Icc 0 255) :
    Storage.clamped.byte (.whole n) = Storage.wrapped.byte (.whole n) := by
  refine UInt8.toNat_inj.1 (Int.ofNat.inj ?_)
  exact (toNat_byte .clamped h).trans (toNat_byte .wrapped h).symm

namespace Palette

variable {p : Palette Int}

theorem InBytes.mixed_mem (h : p.InBytes) (k : Channel) (v : Rat) :
    mixed (p.background.channel k) (p.foreground.channel k) (clampIntensity v) ∈
      Set.Icc 0 255 := by
  obtain ⟨hback, hfore⟩ := h k
  exact Set.uIcc_subset_Icc hback hfore
    (Chip8.mixed_mem _ _ (clampIntensity_nonneg v) (clampIntensity_le_one v))

theorem InBytes.pixel_eq (h : p.InBytes) (v : Rat) :
    Storage.clamped.pixel ((p.map Scalar.ofInt).shade v) =
      Storage.wrapped.pixel ((p.map Scalar.ofInt).shade v) := by
  refine Colour.ext_channel fun k => ?_
  rw [Storage.pixel, Storage.pixel, Colour.channel_map, Colour.channel_map, channel_shade_eq]
  exact Storage.byte_eq (h.mixed_mem k v)

/-- Between two whole ends a channel is a whole number for every intensity.  It is at
an end for the intensities that do not lie between zero and one, and a larger
intensity does not move it away from the foreground.  If the ends are bytes, so is
the channel, and pictures are the same however they are stored. -/
theorem shade_moves_between_ends (p : Palette Int) {s t : Rat} (hst : s ≤ t) :
    (∀ k, ∃ i j : Int,
      ((p.map Scalar.ofInt).shade s).channel k = .whole i ∧
      ((p.map Scalar.ofInt).shade t).channel k = .whole j ∧
      i ∈ Set.uIcc (p.background.channel k) (p.foreground.channel k) ∧
      j ∈ Set.uIcc (p.background.channel k) (p.foreground.channel k) ∧
      (t ≤ 0 → j = p.background.channel k) ∧
      (1 ≤ t → j = p.foreground.channel k) ∧
      j ∈ Set.uIcc i (p.foreground.channel k)) ∧
    (p.InBytes →
      (∀ k, ∃ j : Int, ((p.map Scalar.ofInt).shade t).channel k = .whole j ∧ 0 ≤ j ∧ j ≤ 255 ∧
        ∀ storage : Storage,
          (((storage.pixel ((p.map Scalar.ofInt).shade t)).channel k).toNat : Int) = j) ∧
      ∀ (glow : Nat → Rat) (scale : Nat),
        Picture.render glow scale (p.map Scalar.ofInt) .clamped =
          Picture.render glow scale (p.map Scalar.ofInt) .wrapped) := by
  refine ⟨fun k => ?_, fun h => ⟨fun k => ?_, fun glow scale => ?_⟩⟩
  · refine ⟨_, _, channel_shade_eq p s k, channel_shade_eq p t k, ?_, ?_, ?_, ?_, ?_⟩
    · exact mixed_mem _ _ (clampIntensity_nonneg s) (clampIntensity_le_one s)
    · exact mixed_mem _ _ (clampIntensity_nonneg t) (clampIntensity_le_one t)
    · intro ht
      rw [clampIntensity_of_le_zero ht, mixed_zero]
    · intro ht
      rw [clampIntensity_of_one_le ht, mixed_one]
    · exact mixed_towards _ _ (clampIntensity_mono hst) (clampIntensity_le_one t)
  · obtain ⟨h₀, h₁⟩ := h.mixed_mem k t
    refine ⟨_, channel_shade_eq p t k, h₀, h₁, fun storage => ?_⟩
    rw [Storage.pixel, Colour.channel_map, channel_shade_eq]
    exact storage.toNat_byte ⟨h₀, h₁⟩
  · unfold Picture.render
    congr 1
    funext i
    exact h.pixel_eq (glow i)

/-- A falling channel and one below zero, at a half and well above one. -/
theorem shade_moves_between_ends_falling :
    let p : Palette Int := ⟨⟨51, -3, 16⟩, ⟨50, -8, 255⟩⟩
    (1 / 2 : Rat) ≤ 7 / 4 ∧
    ((p.map Scalar.ofInt).shade (1 / 2 : Rat)).red = .whole 51 ∧
    ((p.map Scalar.ofInt).shade (1 / 2 : Rat)).green = .whole (-5) ∧
    ((p.map Scalar.ofInt).shade (7 / 4 : Rat)).green = .whole (-8) ∧
    (-8 : Int) ∈ Set.uIcc (-5) (-8) := by
  intro p
  have hst : (1 / 2 : Rat) ≤ 7 / 4 := by norm_num
  have hred : ((p.map Scalar.ofInt).shade (1 / 2 : Rat)).red = .whole 51 := by decide +kernel
  have hgreen : ((p.map Scalar.ofInt).shade (1 / 2 : Rat)).green = .whole (-5) := by
    decide +kernel
  obtain ⟨i, j, hi, hj, -, -, -, hend, hmove⟩ := (shade_moves_between_ends p hst).1 .green
  obtain rfl : i = -5 := Number.whole.inj (hi.symm.trans hgreen)
  obtain rfl : j = -8 := hend (by norm_num)
  exact ⟨hst, hred, hgreen, hj, hmove⟩

end Palette
end Chip8
