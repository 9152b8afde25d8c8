/-
# `Chip8.Proofs.HostCues` — frames that a host subtracts

A host that goes on with a run after `a` frames hands the next run the cues that
are left over, those with a frame `f` above `a - 1`, and subtracts `a` from their
frames.  The frames are doubles, so what it hands on is the difference, rounded:

    2 ^ 53 ≤ f               rounded, and due in no frame that   `After.lt_hastened`
                             doubles count
    1 / 2 ≤ f < 2 ^ 53       exact                               `After.hastened_exact`
    0 < f < 1 / 2, a = 1     rounded to a multiple of 2 ^ -53,   `After.rounded_of_first`
                             to -1 / 2 at most

In the last row two frames may become the same one.  Nothing else is lost there:
a smaller frame does not become the larger one (`After.hastened_mono`), and all
these cues are due at once in any case.  So it shows only where two cues about
one key say opposite things and the later one is listed first.  These are the
cues that are `Merging`.

A run does not see the frames themselves.  It sees what the events of a frame do
to the keys (`Run.PressAlike`), and for that it is enough that the two ways to
place the events, exactly and in doubles, select the same ones and agree on which
of two about one key comes later (`Run.PlacedAlike`).  The rest is the exact
law, `Console.run_add_exactly`.
-/
import Chip8.Proofs.HeldKeys
import Chip8.Proofs.Rounding

namespace Chip8

open Double (one view Kept Rounded)

namespace Cue

variable {c d : Cue} {a n : Nat}

/-- The frame of a cue, in units of `2 ^ -1074`. -/
def units (c : Cue) : Int := Double.units (view c.frame)

/-- The cue `a` frames earlier, as far as a double shows it. -/
def hastened (a : Nat) (c : Cue) : Cue := { c with frame := c.frame - Float.ofNat a }

theorem frame_eq (h : c.frame.isFinite = true) : c.event.frame = (c.units : Rat) / one := by
  rw [event, Double.toRat?_eq_units h]
  rfl

/-- The cue comes after frame `a - 1`, which is one that `a` frames leave over. -/
def After (a : Nat) (c : Cue) : Prop := (a - 1 : Int) * one < c.units

theorem After.pos (h : c.After a) (ha : 1 ≤ a) : 0 < c.units := by
  have hone := Double.one_pos
  have hle : 0 ≤ (a - 1 : Int) * one := Int.mul_nonneg (by omega) hone.le
  exact Int.lt_of_le_of_lt hle h

theorem After.view_eq (h : c.After a) (ha : 1 ≤ a) :
    ∃ m e hm, view c.frame = .finite .positive m e hm := by
  have hpos := h.pos ha
  rw [units] at hpos
  cases hv : view c.frame with
  | notANumber => rw [hv] at hpos; cases hpos
  | infinity s => rw [hv] at hpos; cases hpos
  | zero s => rw [hv] at hpos; cases hpos
  | finite s m e hm =>
      cases s with
      | positive => exact ⟨m, e, hm, rfl⟩
      | negative =>
          rw [hv] at hpos
          have hneg : 0 < -((m * 2 ^ (e + 1074).toNat : Nat) : Int) := hpos
          omega

theorem After.rounded (h : c.After a) (ha : 1 ≤ a) (ha' : a ≤ 2 ^ 53) :
    ∃ k, Rounded (c.units - a * one) k (view (c.hastened a).frame) := by
  obtain ⟨m, e, hm, hc⟩ := h.view_eq ha
  obtain ⟨⟨m', e', hm', ha⟩, hunits⟩ := Double.view_ofNat ha ha'
  rw [units, ← hunits]
  exact Double.view_sub_rounded hc ha

/-- From one half on, differences are exact. -/
theorem After.hastened_exact (h : c.After a) (ha : 1 ≤ a) (ha' : a ≤ 2 ^ 53)
    (hhalf : one ≤ 2 * c.units) (hlt : c.units < 2 ^ 53 * one) :
    (c.hastened a).units = c.units - a * one := by
  obtain ⟨m, e, hm, hc⟩ := h.view_eq ha
  obtain ⟨k, hr⟩ := h.rounded ha ha'
  obtain ⟨l, hl⟩ : ∃ l, l = (e + 1074).toNat := ⟨_, rfl⟩
  obtain ⟨i, hi⟩ : ∃ i, i = 1074 := ⟨_, rfl⟩
  have hkept : Kept (.finite .positive m e hm) := hc ▸ Double.kept_view hc
  have hunits : c.units = Double.units (.finite .positive m e hm) := congrArg Double.units hc
  have hone : one = ((2 ^ i : Nat) : Int) := Double.one_eq hi
  have hpos := h.pos ha
  have hsize : c.units.natAbs < 2 ^ (l + 53) := by
    rw [hunits, hl]
    exact hkept.place_lt
  -- the last place of the frame is that of one, or smaller, and one is below its first
  have hli : l ≤ i := by
    have hpow := Nat.pow_add 2 i 53
    have := hkept.exponent_le (l := i) (by rw [← hunits]; omega)
    omega
  have hil : 2 ^ i ≤ 2 ^ (l + 53) := by
    have hpow : 2 ^ i < 2 ^ (l + 53 + 1) := by
      rw [Nat.pow_succ]
      omega
    exact Nat.pow_le_pow_right (by decide)
      (Nat.le_of_lt_succ ((Nat.pow_lt_pow_iff_right (by decide)).1 hpow))
  have hdvd : ((2 ^ l : Nat) : Int) ∣ c.units - a * one := by
    rw [hunits, hone, hl]
    refine Int.dvd_sub Double.dvd_units ?_
    exact Int.dvd_mul_of_dvd_right (Int.natCast_dvd_natCast.2 (Nat.pow_dvd_pow 2 (hl ▸ hli)))
  have hstep : (a : Int) * one = (a - 1) * one + one := by ring
  have hnonneg : 0 ≤ (a - 1 : Int) * one := Int.mul_nonneg (by omega) Double.one_pos.le
  rw [After] at h
  exact hr.exact (by omega) hdvd

/-- Only one frame can be subtracted from less than that. -/
theorem After.eq_one (h : c.After a) (ha : 1 ≤ a) (hlt : c.units < one) : a = 1 := by
  by_contra hne
  have hmul : 1 * one ≤ (a - 1 : Int) * one :=
    Int.mul_le_mul_of_nonneg_right (by omega) Double.one_pos.le
  rw [After] at h
  omega

/-- In the first half of a frame, differences are rounded to the same place, and
to minus one half at most. -/
theorem After.rounded_of_first (h : c.After a) (ha : 1 ≤ a) (hhalf : 2 * c.units < one) :
    Rounded (c.units - one) 1021 (view (c.hastened a).frame) ∧
      2 * (c.hastened a).units ≤ -one := by
  obtain rfl : a = 1 := h.eq_one ha (by have := Double.one_pos; omega)
  obtain ⟨k, hk⟩ := h.rounded ha (by decide)
  obtain ⟨i, hi⟩ : ∃ i, i = 1021 := ⟨_, rfl⟩
  have hone : one = ((2 ^ (i + 53) : Nat) : Int) := Double.one_eq (by omega)
  have hhalves : 2 ^ (i + 53) = 2 * 2 ^ (i + 52) := Nat.pow_succ'
  have hpos := h.pos ha
  have hX : c.units - ((1 : Nat) : Int) * one = c.units - one := by omega
  rw [hX] at hk
  have hki : k ≤ i := hk.place_le (by omega)
  have hik : i ≤ k := by
    have hbelow := hk.below
    have := (Nat.pow_lt_pow_iff_right (a := 2) (n := i + 52) (m := k + 53) (by decide)).1 (by omega)
    omega
  obtain rfl : k = i := Nat.le_antisymm hki hik
  have hdvd : ((2 ^ k : Nat) : Int) ∣ -((2 ^ (k + 52) : Nat) : Int) :=
    Int.dvd_neg.2 (Int.natCast_dvd_natCast.2 (Nat.pow_dvd_pow 2 (Nat.le_add_right k 52)))
  have hle := hk.le hdvd (by omega)
  rw [hi] at hk
  refine ⟨hk, ?_⟩
  rw [units]
  omega

/-- Doubles keep the order of what is left. -/
theorem After.hastened_mono (h : c.After a) (h' : d.After a) (ha : 1 ≤ a) (ha' : a ≤ 2 ^ 53)
    (hlt : c.units < d.units) (hd : d.units < 2 ^ 53 * one) :
    (c.hastened a).units ≤ (d.hastened a).units := by
  rcases Int.lt_or_le (2 * c.units) one with hc | hc
  · obtain ⟨hrounded, hhalf⟩ := h.rounded_of_first ha hc
    rcases Int.lt_or_le (2 * d.units) one with hd' | hd'
    · exact hrounded.mono (h'.rounded_of_first ha hd').1 (by omega)
    · obtain rfl : a = 1 := h.eq_one ha (by have := Double.one_pos; omega)
      have := h'.hastened_exact ha ha' hd' hd
      omega
  · have := h.hastened_exact ha ha' hc (by omega)
    have := h'.hastened_exact ha ha' (by omega) hd
    omega

/-- Two frames become the same in the first half of the next frame only. -/
theorem After.first_of_hastened_eq (h : c.After a) (h' : d.After a) (ha : 1 ≤ a)
    (ha' : a ≤ 2 ^ 53) (hlt : c.units < d.units) (hd : d.units < 2 ^ 53 * one)
    (heq : (c.hastened a).units = (d.hastened a).units) : a = 1 ∧ 2 * d.units ≤ one := by
  rcases Int.lt_or_le (2 * c.units) one with hc | hc
  · obtain ⟨-, hhalf⟩ := h.rounded_of_first ha hc
    obtain rfl : a = 1 := h.eq_one ha (by have := Double.one_pos; omega)
    refine ⟨rfl, ?_⟩
    rcases Int.lt_or_le (2 * d.units) one with hd' | hd'
    · omega
    · have := h'.hastened_exact ha ha' hd' hd
      omega
  · have := h.hastened_exact ha ha' hc (by omega)
    have := h'.hastened_exact ha ha' (by omega) hd
    omega

/-- A frame beyond `2 ^ 53` stays beyond all frames that a double counts. -/
theorem After.lt_hastened (h : c.After a) (ha : 1 ≤ a) (hn : a + n < 2 ^ 53)
    (hlarge : 2 ^ 53 * one ≤ c.units) : n * one < (c.hastened a).units := by
  obtain ⟨k, hk⟩ := h.rounded ha (by omega)
  obtain ⟨i, hi⟩ : ∃ i, i = 1074 := ⟨_, rfl⟩
  have hone : one = ((2 ^ i : Nat) : Int) := Double.one_eq hi
  have hpos := Double.one_pos
  have hsum : ((a + n + 1 : Nat) : Int) * one = a * one + (n + 1) * one := by push_cast; ring
  have hle : ((a + n + 1 : Nat) : Int) * one ≤ 2 ^ 53 * one :=
    Int.mul_le_mul_of_nonneg_right (by omega) hpos.le
  have hnext : ((n : Int) + 1) * one = n * one + one := by ring
  have hnonneg : 0 ≤ (n : Int) * one := Int.mul_nonneg (Int.natCast_nonneg n) hpos.le
  rcases Nat.lt_or_ge i k with hik | hki
  · -- the result is large itself
    have habove := hk.above.resolve_left (by omega)
    have hpow : 2 ^ (53 + i) ≤ 2 ^ (k + 52) := Nat.pow_le_pow_right (by decide) (by omega)
    have hdvd : ((2 ^ k : Nat) : Int) ∣ ((2 ^ (k + 52) : Nat) : Int) :=
      Int.natCast_dvd_natCast.2 (Nat.pow_dvd_pow 2 (Nat.le_add_right k 52))
    have hge := hk.ge hdvd (by omega)
    have hscaled : (2 ^ 53 : Int) * one = ((2 ^ (53 + i) : Nat) : Int) := by
      rw [hone, Nat.pow_add, Nat.cast_mul]
      rfl
    have hnonneg' : 0 ≤ (a : Int) * one := Int.mul_nonneg (Int.natCast_nonneg a) hpos.le
    rw [units]
    omega
  · -- the next frame is a multiple of the last place
    have hdvd : ((2 ^ k : Nat) : Int) ∣ (n + 1) * one := by
      rw [hone]
      exact Int.dvd_mul_of_dvd_right (Int.natCast_dvd_natCast.2 (Nat.pow_dvd_pow 2 hki))
    have hge := hk.ge hdvd (by omega)
    rw [units]
    omega

/-- Whether a frame is due does not change, as long as doubles count frames. -/
theorem After.hastened_le_iff (h : c.After a) (ha : 1 ≤ a)
    (hn : c.units < 2 ^ 53 * one ∧ a ≤ 2 ^ 53 ∨ a + n < 2 ^ 53) :
    (c.hastened a).units ≤ n * one ↔ c.units ≤ (a + n) * one := by
  have hpos := Double.one_pos
  have hsum : ((a : Int) + n) * one = a * one + n * one := Int.add_mul _ _ _
  have hnonneg : 0 ≤ (n : Int) * one := Int.mul_nonneg (Int.natCast_nonneg n) hpos.le
  rcases Int.lt_or_le c.units (2 ^ 53 * one) with hlt | hlarge
  · rcases Int.lt_or_le (2 * c.units) one with hhalf | hhalf
    · obtain ⟨-, hfirst⟩ := h.rounded_of_first ha hhalf
      obtain rfl : a = 1 := h.eq_one ha (by omega)
      omega
    · have := h.hastened_exact ha (by omega) hhalf hlt
      omega
  · have hn' : a + n < 2 ^ 53 := by omega
    have hlt := h.lt_hastened ha hn' hlarge
    have hle : ((a + n : Nat) : Int) * one ≤ 2 ^ 53 * one :=
      Int.mul_le_mul_of_nonneg_right (by omega) hpos.le
    have hless : ((a + n : Nat) : Int) * one < 2 ^ 53 * one :=
      Int.mul_lt_mul_of_pos_right (by omega) hpos
    push_cast at hless
    omega

/-- The units tell frames apart. -/
theorem After.frame_inj (h : c.After a) (h' : d.After a) (ha : 1 ≤ a) (heq : c.units = d.units) :
    c.frame = d.frame := by
  obtain ⟨m, e, hm, hc⟩ := h.view_eq ha
  obtain ⟨m', e', hm', hd⟩ := h'.view_eq ha
  have hk := Double.kept_view hc
  have hk' := Double.kept_view hd
  rw [units, units, hc, hd] at heq
  rw [hc] at hk
  rw [hd] at hk'
  exact Double.view_inj (hc.trans ((hk.eq_of_units hk' heq).trans hd.symm))

/-! ## Frames as fractions -/

section Frames
variable (hc : c.frame.isFinite = true) (hd : d.frame.isFinite = true)
include hc

theorem frame_le_iff {x : Rat} {z : Int} (hx : x * one = z) : c.event.frame ≤ x ↔ c.units ≤ z := by
  have hpos : (0 : Rat) < one := Int.cast_pos.2 Double.one_pos
  rw [frame_eq hc, div_le_iff₀ hpos, hx, Int.cast_le]

theorem lt_frame_iff {x : Rat} {z : Int} (hx : x * one = z) : x < c.event.frame ↔ z < c.units := by
  rw [← not_le, frame_le_iff hc hx, Int.not_le]

theorem frame_lt_iff {x : Rat} {z : Int} (hx : x * one = z) : c.event.frame < x ↔ c.units < z := by
  have hpos : (0 : Rat) < one := Int.cast_pos.2 Double.one_pos
  rw [frame_eq hc, div_lt_iff₀ hpos, hx, Int.cast_lt]

theorem frame_le_natCast_iff : c.event.frame ≤ (n : Rat) ↔ c.units ≤ n * one :=
  frame_le_iff hc (by push_cast; rfl)

theorem after_iff : (a : Rat) - 1 < c.event.frame ↔ c.After a :=
  lt_frame_iff hc (by push_cast; rfl)

include hd

theorem frame_lt_frame_iff : c.event.frame < d.event.frame ↔ c.units < d.units := by
  have hpos : (0 : Rat) < one := Int.cast_pos.2 Double.one_pos
  rw [frame_eq hd]
  exact frame_lt_iff hc (div_mul_cancel₀ _ hpos.ne')

theorem frame_le_frame_iff : c.event.frame ≤ d.event.frame ↔ c.units ≤ d.units := by
  rw [← not_lt, frame_lt_frame_iff hd hc, Int.not_lt]

end Frames

theorem After.hastened_isFinite (h : c.After a) (ha : 1 ≤ a) (ha' : a ≤ 2 ^ 53) :
    (c.hastened a).frame.isFinite = true := by
  obtain ⟨k, hk⟩ := h.rounded ha ha'
  show (view (c.hastened a).frame).isFinite = true
  have hkept := hk.kept
  generalize view (c.hastened a).frame = u at hkept
  cases hkept <;> rfl

end Cue

namespace Run

open Keypad (about number)

/-! ## Two ways to place the same events -/

section Placed
variable {α : Type} {l : List α} {φ φ' : α → KeyEvent} {p : KeyEvent → Bool} {n : Nat}

theorem getLast?_schedule_eq_none {events : List KeyEvent} :
    ((schedule events).filter p).getLast? = none ↔ ∀ e ∈ events, ¬ p e = true := by
  rw [List.getLast?_eq_none_iff, List.filter_eq_nil_iff]
  exact forall_congr' fun e => imp_congr_left (schedule_perm events).mem_iff

theorem pairwise_getElem? {R : α → α → Prop} (h : l.Pairwise R) {i j : Nat} (hij : i < j) {x y : α}
    (hx : l[i]? = some x) (hy : l[j]? = some y) : R x y := by
  obtain ⟨hi, rfl⟩ := List.getElem?_eq_some_iff.1 hx
  obtain ⟨hj, rfl⟩ := List.getElem?_eq_some_iff.1 hy
  exact List.pairwise_iff_getElem.1 h i j hi hj hij

/-- Events are placed in two ways, which select the same of them and agree on
which of two is the later one, unless it makes no difference.  Then the last
ones say the same. -/
theorem last_down_alike (hp : ∀ x ∈ l, p (φ' x) = p (φ x)) (hdown : ∀ x, (φ' x).down = (φ x).down)
    (hle : ∀ x ∈ l, ∀ y ∈ l, p (φ x) = true → p (φ y) = true →
      (φ y).frame ≤ (φ x).frame → (φ' y).frame ≤ (φ' x).frame)
    (hties : l.Pairwise fun x y => p (φ x) = true → p (φ y) = true →
      (φ y).frame < (φ x).frame → (φ' x).frame = (φ' y).frame → (φ x).down = (φ y).down) :
    (((schedule (l.map φ')).filter p).getLast?).map KeyEvent.down =
      (((schedule (l.map φ)).filter p).getLast?).map KeyEvent.down := by
  cases he : ((schedule (l.map φ)).filter p).getLast? with
  | none =>
      have hnone : ((schedule (l.map φ')).filter p).getLast? = none := by
        rw [getLast?_schedule_eq_none] at he ⊢
        intro e' he'
        obtain ⟨x, hx, rfl⟩ := List.mem_map.1 he'
        rw [hp x hx]
        exact he _ (List.mem_map_of_mem hx)
      rw [hnone]
  | some e =>
      cases he' : ((schedule (l.map φ')).filter p).getLast? with
      | none =>
          have hnone : ((schedule (l.map φ)).filter p).getLast? = none := by
            rw [getLast?_schedule_eq_none] at he' ⊢
            intro d hd
            obtain ⟨x, hx, rfl⟩ := List.mem_map.1 hd
            rw [← hp x hx]
            exact he' _ (List.mem_map_of_mem hx)
          rw [hnone] at he
          cases he
      | some e' =>
          obtain ⟨i, hi⟩ := latest_of_getLast? he
          obtain ⟨j, hj⟩ := latest_of_getLast? he'
          obtain ⟨x, hx, rfl⟩ := Option.map_eq_some_iff.1 (List.getElem?_map.symm.trans hi.place)
          obtain ⟨y, hy, rfl⟩ := Option.map_eq_some_iff.1 (List.getElem?_map.symm.trans hj.place)
          have hxl := List.mem_of_getElem? hx
          have hyl := List.mem_of_getElem? hy
          have hpy : p (φ y) = true := (hp y hyl).symm.trans hj.counts
          have hpx : p (φ' x) = true := (hp x hxl).trans hi.counts
          have hlast := hi.last j (φ y) (List.getElem?_map.trans (congrArg (Option.map φ) hy)) hpy
          have hlast' := hj.last i (φ' x) (List.getElem?_map.trans (congrArg (Option.map φ') hx)) hpx
          have hyx : (φ y).frame ≤ (φ x).frame := hlast.elim le_of_lt fun h => le_of_eq h.1
          -- neither is the later one where they are placed the other way
          obtain ⟨hsame, hij⟩ := hlast'.resolve_left (not_lt.2 (hle x hxl y hyl hi.counts hpy hyx))
          show some (φ' y).down = some (φ x).down
          rw [hdown y]
          rcases hlast with hlt | ⟨-, hji⟩
          · have hne : i ≠ j := by
              rintro rfl
              obtain rfl := Option.some.inj (hx.symm.trans hy)
              exact lt_irrefl _ hlt
            exact congrArg some (pairwise_getElem? hties (Nat.lt_of_le_of_ne hij hne) hx hy hi.counts
              hpy hlt hsame).symm
          · obtain rfl := Nat.le_antisymm hij hji
            rw [Option.some.inj (hx.symm.trans hy)]

/-- The events of a list are placed in two ways that cannot be told apart in the
frames up to `n`. -/
structure PlacedAlike (l : List α) (φ φ' : α → KeyEvent) (n : Nat) : Prop where
  key : ∀ x, (φ' x).key = (φ x).key
  down : ∀ x, (φ' x).down = (φ x).down
  due : ∀ x ∈ l, ∀ i ≤ n, due i (φ' x) = due i (φ x)
  le : ∀ x ∈ l, ∀ y ∈ l, Run.due n (φ x) = true → Run.due n (φ y) = true →
    (φ y).frame ≤ (φ x).frame → (φ' y).frame ≤ (φ' x).frame
  ties : l.Pairwise fun x y => (φ x).key % 16 = (φ y).key % 16 → Run.due n (φ x) = true →
    Run.due n (φ y) = true → (φ y).frame < (φ x).frame → (φ' x).frame = (φ' y).frame →
    (φ x).down = (φ y).down

/-- The event is about a key and takes effect in a frame. -/
def arrives (n k : Nat) (e : KeyEvent) : Bool := about k e && (due n e && pending n e)

theorem filter_about_arriving (events : List KeyEvent) (n k : Nat) :
    (arriving events n).filter (about k) = (schedule events).filter (arrives n k) := by
  simp only [arriving, remaining, List.filter_filter]
  rfl

theorem PlacedAlike.pending (h : PlacedAlike l φ φ' n) {x : α} (hx : x ∈ l) :
    Run.pending n (φ' x) = Run.pending n (φ x) := by
  cases n with
  | zero => rfl
  | succ n => exact congrArg (!·) (h.due x hx n (Nat.le_succ n))

theorem PlacedAlike.press (h : PlacedAlike l φ φ' n) (pad : Keypad) :
    pad.press (arriving (l.map φ') n) = pad.press (arriving (l.map φ) n) := by
  refine Keypad.eq_of_isDown fun q => ?_
  have hdue : ∀ {e}, arrives n (number q) e = true → Run.due n e = true := fun he => by
    rw [arrives, Bool.and_eq_true, Bool.and_eq_true] at he
    exact he.2.1
  have hlast : (((schedule (l.map φ')).filter (arrives n (number q))).getLast?).map KeyEvent.down =
      (((schedule (l.map φ)).filter (arrives n (number q))).getLast?).map KeyEvent.down := by
    refine last_down_alike (fun x hx => ?_) h.down
      (fun x hx y hy hpx hpy => h.le x hx y hy (hdue hpx) (hdue hpy))
      (h.ties.imp fun {x y} hties hpx hpy => hties ?_ (hdue hpx) (hdue hpy))
    · rw [arrives, arrives, h.due x hx n (Nat.le_refl n), h.pending hx, about, about, h.key]
    · rw [arrives, Bool.and_eq_true, Keypad.about_eq, decide_eq_true_iff] at hpx hpy
      rw [hpx.1, hpy.1]
  rw [Keypad.isDown_press, Keypad.isDown_press, filter_about_arriving, filter_about_arriving]
  cases he : ((schedule (l.map φ)).filter (arrives n (number q))).getLast? with
  | none =>
      rw [he] at hlast
      rw [Option.map_eq_none_iff.1 hlast]
  | some e =>
      rw [he] at hlast
      obtain ⟨e', he', hdown⟩ := Option.map_eq_some_iff.1 hlast
      rw [he']
      exact hdown

end Placed

end Run

namespace Cue

variable {cues : List Cue} {c d : Cue} {a b n : Nat}

/-- The cues that a run of `a` frames leaves over, as a host hands them to the
next run: in their order, with `a` subtracted from their frames. -/
def later (a : Nat) (cues : List Cue) : List Cue :=
  (cues.filter fun c => (a : Rat) - 1 < c.event.frame).map (hastened a)

/-- Two opposite events about one key in the first half of a frame, the later one
first, that come to the same time when a host moves them by one frame. -/
structure Merging (c d : Cue) : Prop where
  key : c.key % 16 = d.key % 16
  opposite : c.down ≠ d.down
  first : 0 < d.event.frame
  before : d.event.frame < c.event.frame
  half : c.event.frame ≤ 1 / 2
  merged : (c.hastened 1).event.frame = (d.hastened 1).event.frame

theorem due_earlier_iff (hc : c.frame.isFinite = true) :
    Run.due n (Run.earlier a c.event) = true ↔ c.units ≤ (a + n) * one := by
  rw [Run.due, Run.earlier, decide_eq_true_iff, sub_le_iff_le_add', ← Nat.cast_add,
    frame_le_natCast_iff hc, Nat.cast_add]

theorem due_hastened_iff (hc : (c.hastened a).frame.isFinite = true) :
    Run.due n (c.hastened a).event = true ↔ (c.hastened a).units ≤ n * one := by
  rw [Run.due, decide_eq_true_iff, frame_le_natCast_iff hc]

/-- The cue is left over, and doubles count the frames up to it or up to `b`
frames after `a`. -/
structure LeftOver (a b : Nat) (c : Cue) : Prop where
  finite : c.frame.isFinite = true
  after : c.After a
  counted : a + b ≤ 2 ^ 53 ∨ c.units < 2 ^ 53 * one

theorem LeftOver.le (h : c.LeftOver a b) : a ≤ 2 ^ 53 := by
  rcases h.counted with hsum | hlt
  · omega
  · have hafter := h.after
    rw [After] at hafter
    have := Int.lt_of_mul_lt_mul_right (Int.lt_trans hafter hlt) Double.one_pos.le
    omega

theorem LeftOver.hastened_isFinite (h : c.LeftOver a b) (ha : 1 ≤ a) :
    (c.hastened a).frame.isFinite = true :=
  h.after.hastened_isFinite ha h.le

theorem LeftOver.due_eq (h : c.LeftOver a b) (ha : 1 ≤ a) (hn : n < b) :
    Run.due n (c.hastened a).event = Run.due n (Run.earlier a c.event) := by
  have hcounted : c.units < 2 ^ 53 * one ∧ a ≤ 2 ^ 53 ∨ a + n < 2 ^ 53 :=
    h.counted.symm.imp (fun hlt => ⟨hlt, h.le⟩) fun hsum => by omega
  rw [Bool.eq_iff_iff, due_hastened_iff (h.hastened_isFinite ha), due_earlier_iff h.finite]
  exact h.after.hastened_le_iff ha hcounted

theorem LeftOver.small (h : c.LeftOver a b) (hn : n < b)
    (hdue : Run.due n (Run.earlier a c.event) = true) : c.units < 2 ^ 53 * one := by
  rcases h.counted with hsum | hlt
  · have hle := (due_earlier_iff h.finite).1 hdue
    have hmul : ((a + n : Nat) : Int) * one < 2 ^ 53 * one :=
      Int.mul_lt_mul_of_pos_right (by omega) Double.one_pos
    push_cast at hmul
    omega
  · exact hlt

/-- Exactly or in doubles, the order of what is left is the same. -/
theorem LeftOver.hastened_le (h : c.LeftOver a b) (h' : d.LeftOver a b) (ha : 1 ≤ a)
    (hc : c.units < 2 ^ 53 * one)
    (hle : (Run.earlier a d.event).frame ≤ (Run.earlier a c.event).frame) :
    (d.hastened a).event.frame ≤ (c.hastened a).event.frame := by
  have hunits := (frame_le_frame_iff h'.finite h.finite).1 (sub_le_sub_iff_right (a : Rat) |>.1 hle)
  rcases Int.lt_or_eq_of_le hunits with hlt | heq
  · exact (frame_le_frame_iff (h'.hastened_isFinite ha) (h.hastened_isFinite ha)).2
      (h'.after.hastened_mono h.after ha h.le hlt hc)
  · have hframe := h'.after.frame_inj h.after ha heq
    simp only [hastened, event, hframe, le_refl]

/-- Only what merges may get another order. -/
theorem LeftOver.merging (h : c.LeftOver a b) (h' : d.LeftOver a b) (ha : 1 ≤ a)
    (hc : c.units < 2 ^ 53 * one) (hkey : c.key % 16 = d.key % 16) (hdown : c.down ≠ d.down)
    (hlt : (Run.earlier a d.event).frame < (Run.earlier a c.event).frame)
    (hsame : (c.hastened a).event.frame = (d.hastened a).event.frame) : a = 1 ∧ c.Merging d := by
  have hbefore : d.event.frame < c.event.frame := sub_lt_sub_iff_right (a : Rat) |>.1 hlt
  have hunits := (frame_lt_frame_iff h'.finite h.finite).1 hbefore
  have hunits' : (d.hastened a).units = (c.hastened a).units := by
    have hle := (frame_le_frame_iff (h'.hastened_isFinite ha) (h.hastened_isFinite ha)).1 hsame.ge
    have hge := (frame_le_frame_iff (h.hastened_isFinite ha) (h'.hastened_isFinite ha)).1 hsame.le
    exact Int.le_antisymm hle hge
  obtain ⟨rfl, hhalf⟩ := h'.after.first_of_hastened_eq h.after ha h.le hunits hc hunits'
  refine ⟨rfl, hkey, hdown, ?_, hbefore, ?_, hsame⟩
  · have hafter := (after_iff h'.finite).2 h'.after
    rwa [Nat.cast_one, sub_self] at hafter
  · have hpos : (0 : Rat) < one := Int.cast_pos.2 Double.one_pos
    have hcast : ((2 * c.units : Int) : Rat) ≤ one := Int.cast_le.2 hhalf
    rw [frame_eq h.finite, div_le_div_iff₀ hpos two_pos]
    push_cast at hcast
    linarith

/-- Exactly or in doubles, the cues that are left over take effect alike. -/
theorem placedAlike_later (ha : 1 ≤ a) (hleft : ∀ c ∈ cues, c.LeftOver a b)
    (hmerging : a = 1 → cues.Pairwise fun c d => ¬ c.Merging d) (hn : n < b) :
    Run.PlacedAlike cues (fun c => Run.earlier a c.event) (fun c => (c.hastened a).event) n where
  key _ := rfl
  down _ := rfl
  due c hc i hi := (hleft c hc).due_eq ha (by omega)
  le c hc d hd hduec hdued := (hleft c hc).hastened_le (hleft d hd) ha ((hleft c hc).small hn hduec)
  ties := by
    have hpairs : cues.Pairwise fun c d => ¬ (a = 1 ∧ c.Merging d) := by
      by_cases h1 : a = 1
      · exact (hmerging h1).imp fun hnot h => hnot h.2
      · exact List.pairwise_of_forall fun c d h => h1 h.1
    refine hpairs.imp_of_mem fun {c d} hc hd hnot hkey hduec hdued hlt hsame => ?_
    by_contra hdown
    exact hnot ((hleft c hc).merging (hleft d hd) ha ((hleft c hc).small hn hduec) hkey hdown hlt
      hsame)

theorem leftOver_map_event (a : Nat) (cues : List Cue) :
    Run.leftOver a (cues.map event) =
      (cues.filter fun c => (a : Rat) - 1 < c.event.frame).map fun c => Run.earlier a c.event := by
  rw [Run.leftOver, List.filter_map, List.map_map]
  rfl

theorem later_map_event (a : Nat) (cues : List Cue) :
    (later a cues).map event =
      (cues.filter fun c => (a : Rat) - 1 < c.event.frame).map fun c => (c.hastened a).event := by
  rw [later, List.map_map]
  rfl

theorem leftOver_of_mem (hfinite : ∀ c ∈ cues, c.frame.isFinite = true)
    (hbound : a + b ≤ 2 ^ 53 ∨ ∀ c ∈ cues, c.event.frame < 2 ^ 53) {c : Cue}
    (hc : c ∈ cues.filter fun c => (a : Rat) - 1 < c.event.frame) : c.LeftOver a b := by
  obtain ⟨hmem, hafter⟩ := List.mem_filter.1 hc
  have hfin := hfinite c hmem
  refine ⟨hfin, (after_iff hfin).1 (of_decide_eq_true hafter), hbound.imp_right fun h => ?_⟩
  exact (frame_lt_iff hfin (by push_cast; rfl)).1 (h c hmem)

end Cue

namespace Console

variable {cues : List Cue} {a b : Nat}

/-- A run of `a + b` frames is a run of `a` frames and then one of `b` frames with
the cues left over, from whose frames the host subtracts `a`, unless the first is
ended by a fault, or by its random source.  Then it is the first run.  The frames
are doubles, and what is excepted is what a subtraction may lose: the order of two
opposite events about one key in the first half of frame 1, and frames beyond
`2 ^ 53`. -/
theorem run_add (s : Console) (policy : FaultPolicy) (ha : 1 ≤ a)
    (hfinite : ∀ c ∈ cues, c.frame.isFinite = true)
    (hbound : a + b ≤ 2 ^ 53 ∨ ∀ c ∈ cues, c.event.frame < 2 ^ 53)
    (hmerging : a = 1 → cues.Pairwise fun c d => ¬ c.Merging d) :
    let events := cues.map Cue.event
    let first := s.run a policy events
    let whole := s.run (a + b) policy events
    let second := first.console.run b policy ((Cue.later a cues).map Cue.event)
    (s.machine.random.Steady → ∃ r, whole.answer = .ok r) ∧
      (∀ e, first.answer = .error e → whole = first) ∧
      ∀ r, first.answer = .ok r →
        (policy = .halt ∧ r.reason = "fault" → whole = first) ∧
        (¬ (policy = .halt ∧ r.reason = "fault") →
          whole = ⟨second.console, second.answer.map r.andThen, first.log ++ second.log⟩) := by
  intro events first whole second
  have halike : Run.PressAlike (Run.leftOver a events) ((Cue.later a cues).map Cue.event) 0 b := by
    intro i hi pad
    rw [Nat.zero_add, Cue.leftOver_map_event, Cue.later_map_event]
    exact (Cue.placedAlike_later ha (fun c hc => Cue.leftOver_of_mem hfinite hbound hc)
      (fun h => (hmerging h).filter _) hi).press pad
  have hsecond : second = first.console.run b policy (Run.leftOver a events) :=
    Run.run_alike halike first.console policy
  rw [hsecond]
  exact run_add_exactly s policy a b ha events

/-- Three cues that keep their order: two in the first half of frame 1, the later
one first, and one for a frame that no run reaches. -/
theorem run_add_with_cues :
    let s := fresh 10 defaultDecay (RandomSource.cycle #[]) false false
    let cues : List Cue := [⟨0.25, 5, true⟩, ⟨0.125, 5, false⟩, ⟨1e16, 3, true⟩]
    let events := cues.map Cue.event
    let first := s.run 1 .skip events
    let second := first.console.run 2 .skip ((Cue.later 1 cues).map Cue.event)
    1 ≤ 1 ∧ (∀ c ∈ cues, c.frame.isFinite = true) ∧
      (1 + 2 ≤ 2 ^ 53 ∨ ∀ c ∈ cues, c.event.frame < 2 ^ 53) ∧
      (cues.Pairwise fun c d => ¬ c.Merging d) ∧ s.machine.random.Steady ∧
      Cue.later 1 cues = [⟨-0.75, 5, true⟩, ⟨-0.875, 5, false⟩, ⟨1e16, 3, true⟩] ∧
      (∃ r q, first.answer = .ok r ∧ second.answer = .ok q ∧
        (s.run (1 + 2) .skip events).answer = .ok (r.andThen q)) ∧
      (s.run (1 + 2) .skip events).console = second.console ∧
      second.console.machine.keypad.mask = 32 := by
  have hr : (fresh 10 defaultDecay (RandomSource.cycle #[]) false false).machine.random.Steady :=
    RandomSource.cycle_steady (by decide)
  have hpad : (fresh 10 defaultDecay (RandomSource.cycle #[]) false false).machine.keypad =
      Keypad.initial := rfl
  -- nothing else is needed of the console
  generalize fresh 10 defaultDecay (RandomSource.cycle #[]) false false = s at *
  intro s cues events first second
  have hfinite : ∀ c ∈ cues, c.frame.isFinite = true := by decide +kernel
  have hmerging : cues.Pairwise fun c d => ¬ c.Merging d := by
    have hpairs : cues.Pairwise fun c d =>
        (c.hastened 1).event.frame ≠ (d.hastened 1).event.frame := by
      decide +kernel
    exact hpairs.imp fun hne h => hne h.merged
  have hlater : Cue.later 1 cues =
      [⟨-0.75, 5, true⟩, ⟨-0.875, 5, false⟩, ⟨1e16, 3, true⟩] := by
    decide +kernel
  obtain ⟨⟨r, hfirst⟩, hsteady, -⟩ := Run.run_skip_keypad hr events 1
  obtain ⟨⟨q, hsecond⟩, -, -⟩ :=
    Run.run_skip_keypad hsteady ((Cue.later 1 cues).map Cue.event) 2
  have hkeys := Run.run_run_skip_keypad hr events ((Cue.later 1 cues).map Cue.event) 1 2
  obtain ⟨-, -, hok⟩ := @run_add cues 1 2 s .skip (Nat.le_refl 1) hfinite (.inl (by decide))
    fun _ => hmerging
  have hwhole := (hok r hfirst).2 fun h => by cases h.1
  refine ⟨Nat.le_refl 1, hfinite, .inl (by decide), hmerging, hr, hlater,
    ⟨r, q, hfirst, hsecond, ?_⟩, ?_, ?_⟩
  · rw [hwhole, hsecond]
    rfl
  · rw [hwhole]
  · rw [hkeys, hpad]
    decide +kernel

/-- A key goes down in the first half of frame 1 and up a little later, and the
host lists the second event first.  One frame earlier both frames are `-0.9`, so
after two runs of one frame the key is down, and after one run of two frames it is
up. -/
theorem run_add_loses_order :
    let s := fresh 10 defaultDecay (RandomSource.cycle #[]) false false
    let cues : List Cue := [⟨0.10000000000000002, 5, false⟩, ⟨0.1, 5, true⟩]
    let events := cues.map Cue.event
    let first := s.run 1 .skip events
    let second := first.console.run 1 .skip ((Cue.later 1 cues).map Cue.event)
    (∀ c ∈ cues, c.frame.isFinite = true) ∧
      Cue.later 1 cues = [⟨-0.9, 5, false⟩, ⟨-0.9, 5, true⟩] ∧
      (s.run (1 + 1) .skip events).console.machine.keypad.mask = 0 ∧
      second.console.machine.keypad.mask = 32 := by
  have hr : (fresh 10 defaultDecay (RandomSource.cycle #[]) false false).machine.random.Steady :=
    RandomSource.cycle_steady (by decide)
  have hpad : (fresh 10 defaultDecay (RandomSource.cycle #[]) false false).machine.keypad =
      Keypad.initial := rfl
  -- nothing else is needed of the console
  generalize fresh 10 defaultDecay (RandomSource.cycle #[]) false false = s at *
  intro s cues events first second
  obtain ⟨-, -, hwhole⟩ := Run.run_skip_keypad hr events (1 + 1)
  have hsecond := Run.run_run_skip_keypad hr events ((Cue.later 1 cues).map Cue.event) 1 1
  refine ⟨by decide +kernel, by decide +kernel, ?_, ?_⟩
  · rw [hwhole, hpad]
    decide +kernel
  · rw [hsecond, hpad]
    decide +kernel

end Console
end Chip8
