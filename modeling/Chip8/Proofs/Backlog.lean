/-
# `Chip8.Proofs.Backlog` — ticks that fire at once, and one by one

A call of `advance` that answers `c` does to the countdowns and to the total
what `c` calls of `tick` do:

| | `advance` | `tick`, `c` times |
| :-- | :-- | :-- |
| a countdown at `n` | `n - c`, or zero | one less, `c` times, and never below zero |
| the total `T` | `T + c` | one more, `c` times |

It does not matter on which side of `c` the countdowns are.  Only the fraction
that is carried on is treated differently: `tick` leaves it alone.  So what is
kept along a list of calls is not equality with the timers that tick, but
`Ticked`, which says nothing about the fraction.

How an answer is read as a count, and up to where the total counts every unit,
depends on the scalar.  `Tallied` gathers what is needed of it.  Fractions meet
it without a bound.  In doubles every count is exact, however large, and the
total is up to `2 ^ 53`, where adding one more unit changes nothing
(`backlog_outruns_ticks`).
-/
import Chip8.Proofs.Rounding
import Mathlib.Data.Rat.Floor

namespace Chip8

/-- A scalar with so many units added one by one. -/
def Scalar.addUnits {α : Type} [Scalar α] (x : α) (n : Nat) : α := (· + ofInt 1)^[n] x

theorem Scalar.addUnits_succ {α : Type} [Scalar α] (x : α) (n : Nat) :
    addUnits x (n + 1) = addUnits x n + ofInt 1 :=
  Function.iterate_succ_apply' _ n x

theorem Scalar.addUnits_add {α : Type} [Scalar α] (x : α) (m n : Nat) :
    addUnits x (m + n) = addUnits (addUnits x m) n := by
  unfold addUnits
  rw [Nat.add_comm m n]
  exact Function.iterate_add_apply _ n m x

namespace Timers

section Scalars
variable {α : Type} [Scalar α] {shows room : α → Nat → Prop} {t t' t'' : Timers α} {m n : Nat}

/-- The timers after some times have passed, one after the other. -/
def pass (t : Timers α) (times : List α) : Timers α :=
  times.foldl (fun t ms => (t.advance ms).1) t

/-- What the timers answer meanwhile. -/
def answers (t : Timers α) : List α → List α
  | [] => []
  | ms :: rest => (t.advance ms).2 :: (t.advance ms).1.answers rest

/-- What is needed of a reading of scalars as counts, and of the totals that have
room for a count. -/
structure Tallied (shows room : α → Nat → Prop) : Prop where
  tally : ∀ {x n}, shows x n → Scalar.tally x = .times n
  of_zero : ∀ {n}, shows (Scalar.ofInt 0) n → n = 0
  pos : ∀ {x n}, shows x n → ¬ x ≤ Scalar.ofInt 0 → 0 < n
  add : ∀ {x y n}, room x n → shows y n → 0 < n → x + y = Scalar.addUnits x n
  room_left : ∀ {x m n}, room x (m + n) → room x m
  room_right : ∀ {x m n}, room x (m + n) → room (Scalar.addUnits x m) n

/-- So many ticks lead from some timers to others.  The fraction that is carried on
does not count. -/
structure Ticked (room : α → Nat → Prop) (t : Timers α) (n : Nat) (t' : Timers α) : Prop where
  delay : t'.delay = t.delay.drop (.times n)
  sound : t'.sound = t.sound.drop (.times n)
  ticks : room t.ticks n → t'.ticks = Scalar.addUnits t.ticks n

theorem Ticked.refl (room : α → Nat → Prop) (t : Timers α) : Ticked room t 0 t :=
  ⟨(Countdown.drop_times_zero _).symm, (Countdown.drop_times_zero _).symm, fun _ => rfl⟩

theorem Ticked.trans (law : Tallied shows room) (h : Ticked room t m t')
    (h' : Ticked room t' n t'') : Ticked room t (m + n) t'' where
  delay := by rw [h'.delay, h.delay, Countdown.drop_times_add]
  sound := by rw [h'.sound, h.sound, Countdown.drop_times_add]
  ticks := by
    intro hroom
    have hfirst : t'.ticks = Scalar.addUnits t.ticks m := h.ticks (law.room_left hroom)
    have hrest : room t'.ticks n := by
      rw [hfirst]
      exact law.room_right hroom
    rw [h'.ticks hrest, hfirst, Scalar.addUnits_add]

/-! ## Single ticks -/

/-- A countdown goes down by one each tick. -/
theorem countdown_iterate {countdown : Timers α → Countdown}
    (htick : ∀ t, countdown t.tick = (countdown t).drop (.times 1)) (t : Timers α) (n : Nat) :
    countdown (tick^[n] t) = (countdown t).drop (.times n) := by
  induction n with
  | zero => exact (Countdown.drop_times_zero _).symm
  | succ n ih => rw [Function.iterate_succ_apply', htick, ih, Countdown.drop_times_add]

theorem delay_iterate (t : Timers α) (n : Nat) : (tick^[n] t).delay = t.delay.drop (.times n) :=
  countdown_iterate (fun _ => rfl) t n

theorem sound_iterate (t : Timers α) (n : Nat) : (tick^[n] t).sound = t.sound.drop (.times n) :=
  countdown_iterate (fun _ => rfl) t n

theorem ticks_iterate (t : Timers α) (n : Nat) :
    (tick^[n] t).ticks = Scalar.addUnits t.ticks n := by
  induction n with
  | zero => rfl
  | succ n ih =>
      rw [Function.iterate_succ_apply', Scalar.addUnits_succ, ← ih]
      rfl

/-! ## Ticks at once -/

/-- A call of `advance` fires its ticks at once. -/
theorem ticked_advance (law : Tallied shows room) {ms : α} (h : shows (t.advance ms).2 n) :
    Ticked room t n (t.advance ms).1 := by
  by_cases hms : ms ≤ Scalar.ofInt 0
  · rw [advance_of_le hms] at h ⊢
    obtain rfl := law.of_zero h
    exact Ticked.refl room t
  by_cases hf : Scalar.floor (t.gathered ms + slack) ≤ Scalar.ofInt 0
  · rw [advance_of_short hms hf] at h ⊢
    obtain rfl := law.of_zero h
    obtain ⟨hdelay, hsound, hticks⟩ := Ticked.refl room t
    exact ⟨hdelay, hsound, hticks⟩
  · rw [advance_of_due hms hf] at h ⊢
    have htally := law.tally h
    refine ⟨?_, ?_, ?_⟩
    · exact congrArg t.delay.drop htally
    · exact congrArg t.sound.drop htally
    · intro hroom
      exact law.add hroom h (law.pos h hf)

/-- And so does any list of calls. -/
theorem ticked_pass (law : Tallied shows room) {times : List α} {counts : List Nat}
    (h : List.Forall₂ shows (t.answers times) counts) :
    Ticked room t counts.sum (t.pass times) := by
  induction times generalizing t counts with
  | nil =>
      cases h
      exact Ticked.refl room t
  | cons ms rest ih =>
      cases h with
      | cons hfirst hrest => exact (ticked_advance law hfirst).trans law (ih hrest)

/-- Timers after so many ticks look like timers that have ticked so often. -/
theorem Ticked.eq_iterate (h : Ticked room t n t') :
    t'.delay = (tick^[n] t).delay ∧ t'.sound = (tick^[n] t).sound ∧
      t'.soundActive = (tick^[n] t).soundActive ∧
      (room t.ticks n → t'.ticks = (tick^[n] t).ticks) := by
  have hsound : t'.sound = (tick^[n] t).sound := h.sound.trans (sound_iterate t n).symm
  refine ⟨h.delay.trans (delay_iterate t n).symm, hsound, congrArg Countdown.running hsound, ?_⟩
  intro hroom
  exact (h.ticks hroom).trans (ticks_iterate t n).symm

/-- A call that answers zero only adds to the fraction. -/
theorem pending_only (law : Tallied shows room) {ms : α} (h : shows (t.advance ms).2 0) :
    { (t.advance ms).1 with pending := t.pending } = t := by
  by_cases hms : ms ≤ Scalar.ofInt 0
  · rw [advance_of_le hms]
  by_cases hf : Scalar.floor (t.gathered ms + slack) ≤ Scalar.ofInt 0
  · rw [advance_of_short hms hf]
  · rw [advance_of_due hms hf] at h
    exact absurd (law.pos h hf) (Nat.lt_irrefl 0)

end Scalars

/-! ## Fractions -/

theorem addUnits_rat (x : Rat) (n : Nat) : Scalar.addUnits x n = x + n := by
  induction n with
  | zero => exact (add_zero x).symm
  | succ n ih =>
      rw [Scalar.addUnits_succ, ih, Nat.cast_succ, ← add_assoc]
      rfl

theorem tallied_rat : Tallied (fun (x : Rat) (n : Nat) => x = n) (fun _ _ => True) where
  tally := by
    rintro x n rfl
    exact congrArg (fun z : Int => Tally.times z.toNat) (Rat.floor_intCast n)
  of_zero := by
    intro n h
    have h' : ((0 : Int) : Rat) = n := h
    exact_mod_cast h'.symm
  pos := by
    rintro x n rfl h
    exact Nat.cast_pos.1 (not_le.1 h)
  add := by
    rintro x y n - rfl -
    exact (addUnits_rat x n).symm
  room_left := fun _ => trivial
  room_right := fun _ => trivial

/-- In fractions every call answers a natural number. -/
theorem exists_count (t : Timers Rat) (ms : Rat) : ∃ c : Nat, (t.advance ms).2 = c := by
  by_cases hms : ms ≤ 0
  · rw [advance_of_le hms]
    exact ⟨0, rfl⟩
  by_cases hf : Scalar.floor (t.gathered ms + slack) ≤ Scalar.ofInt 0
  · rw [advance_of_short hms hf]
    exact ⟨0, rfl⟩
  · rw [advance_of_due hms hf]
    have hpos : 0 < (t.gathered ms + slack).floor :=
      Int.not_le.1 fun hle => hf (Int.cast_le.2 hle)
    obtain ⟨c, hc⟩ := Int.eq_ofNat_of_zero_le hpos.le
    exact ⟨c, congrArg (fun z : Int => (z : Rat)) hc⟩

theorem exists_counts (t : Timers Rat) (times : List Rat) :
    ∃ counts : List Nat, t.answers times = counts.map (fun c : Nat => (c : Rat)) := by
  induction times generalizing t with
  | nil => exact ⟨[], rfl⟩
  | cons ms rest ih =>
      obtain ⟨c, hc⟩ := t.exists_count ms
      obtain ⟨counts, hcounts⟩ := ih (t.advance ms).1
      refine ⟨c :: counts, ?_⟩
      rw [answers, hc, hcounts, List.map_cons]

/-! ## Doubles -/

section Doubles
open Double (Counts counts_of_whole counts_ofNat)
variable {x y : Float} {a n : Nat}

theorem counts_one : Counts (Scalar.ofInt 1) 1 := counts_ofNat (n := 1) (by decide)

/-- Each unit counts. -/
theorem counts_addUnits (hx : Counts x a) (n : Nat) (hle : a + n ≤ 2 ^ 53) :
    Counts (Scalar.addUnits x n) (a + n) := by
  induction n with
  | zero => exact hx
  | succ n ih =>
      rw [Scalar.addUnits_succ]
      exact (ih (Nat.le_of_succ_le hle)).add counts_one hle

/-- A natural number can be added at once, or unit by unit. -/
theorem add_eq_addUnits (hx : Counts x a) (hy : Counts y n) (hn : 0 < n) (hle : a + n ≤ 2 ^ 53) :
    x + y = Scalar.addUnits x n :=
  (hx.add hy hle).inj (counts_addUnits hx n hle) (Nat.add_pos_right a hn)

theorem tallied_float : Tallied (fun (x : Float) (n : Nat) => Number.ofFloat x = .whole n)
    (fun x n => ∃ T : Nat, Counts x T ∧ T + n ≤ 2 ^ 53) where
  tally := Double.tally_of_whole
  of_zero := by
    intro n h
    rw [Double.ofFloat_zero] at h
    exact (Int.ofNat.inj (Number.whole.inj h)).symm
  pos := by
    intro x n h hx
    refine Nat.pos_of_ne_zero ?_
    rintro rfl
    obtain ⟨s, hs⟩ := Double.view_of_zero h
    refine hx (Double.le_zero_iff.2 ?_)
    rw [hs]
    exact .zero s
  add := by
    rintro x y n ⟨T, hx, hle⟩ hy hn
    exact add_eq_addUnits hx (counts_of_whole hy) hn hle
  room_left := by
    rintro x m n ⟨T, hx, hle⟩
    exact ⟨T, hx, by omega⟩
  room_right := by
    rintro x m n ⟨T, hx, hle⟩
    exact ⟨T + m, counts_addUnits hx m (by omega), by omega⟩

end Doubles

/-! ## Any list of calls -/

/-- Two lists that are the same once they are read are read alike, entry by entry. -/
theorem forall₂_of_map_eq {β γ δ : Type} {f : β → δ} {g : γ → δ} {xs : List β} {ys : List γ}
    (h : xs.map f = ys.map g) : List.Forall₂ (fun x y => f x = g y) xs ys := by
  have heq : List.Forall₂ (· = ·) (xs.map f) (ys.map g) := List.forall₂_eq_eq_eq ▸ h
  rwa [List.forall₂_map_left_iff, List.forall₂_map_right_iff] at heq

/-- Times that pass, one after the other, leave the timers as their ticks would have
left them, one by one.  In fractions every answer is a natural number, and the
totals agree.  In doubles the countdowns agree for answers of any size, and the
totals as long as they count every unit.  A call that answers zero changes
nothing that can be seen. -/
theorem backlog_is_ticks_one_by_one :
    (∀ (t : Timers Rat) (times : List Rat), ∃ counts : List Nat,
      t.answers times = counts.map (fun c : Nat => (c : Rat)) ∧
      (t.pass times).delay = (tick^[counts.sum] t).delay ∧
      (t.pass times).sound = (tick^[counts.sum] t).sound ∧
      (t.pass times).soundActive = (tick^[counts.sum] t).soundActive ∧
      (t.pass times).ticks = (tick^[counts.sum] t).ticks) ∧
    (∀ (t : Timers Float) (times : List Float) (counts : List Nat),
      (t.answers times).map Number.ofFloat = counts.map (fun c : Nat => Number.whole c) →
      (t.pass times).delay = (tick^[counts.sum] t).delay ∧
      (t.pass times).sound = (tick^[counts.sum] t).sound ∧
      (t.pass times).soundActive = (tick^[counts.sum] t).soundActive ∧
      ∀ T : Nat, Number.ofFloat t.ticks = .whole T → T + counts.sum ≤ 2 ^ 53 →
        (t.pass times).ticks = (tick^[counts.sum] t).ticks) ∧
    (∀ (t : Timers Rat) (ms : Rat), (t.advance ms).2 = 0 →
      { (t.advance ms).1 with pending := t.pending } = t) ∧
    (∀ (t : Timers Float) (ms : Float), Number.ofFloat (t.advance ms).2 = .whole 0 →
      { (t.advance ms).1 with pending := t.pending } = t) := by
  refine ⟨?_, ?_, ?_, ?_⟩
  · intro t times
    obtain ⟨counts, hcounts⟩ := t.exists_counts times
    have hshow : List.Forall₂ (fun (x : Rat) (n : Nat) => x = n) (t.answers times) counts :=
      forall₂_of_map_eq (f := id) ((List.map_id _).trans hcounts)
    obtain ⟨hdelay, hsound, hactive, hticks⟩ := (ticked_pass tallied_rat hshow).eq_iterate
    exact ⟨counts, hcounts, hdelay, hsound, hactive, hticks trivial⟩
  · intro t times counts hcounts
    obtain ⟨hdelay, hsound, hactive, hticks⟩ :=
      (ticked_pass tallied_float (forall₂_of_map_eq hcounts)).eq_iterate
    exact ⟨hdelay, hsound, hactive, fun T hT hle =>
      hticks ⟨T, Double.counts_of_whole hT, hle⟩⟩
  · intro t ms h
    exact pending_only tallied_rat (by exact_mod_cast h)
  · intro t ms h
    exact pending_only tallied_float h

/-- One countdown ends on the way, the other goes on, and the call in between
answers zero. -/
theorem backlog_is_ticks_one_by_one_past_one_end :
    let t := ((initial.setDelay (.whole 5)).setSound (.whole 200) : Timers Float)
    let times : List Float := [1000, -5, 100]
    let counts : List Nat := [60, 0, 6]
    (t.answers times).map Number.ofFloat = counts.map (fun c : Nat => Number.whole c) ∧
      (t.pass times).delay = .left 0 ∧ (t.pass times).sound = .left 134 ∧
      Number.ofFloat (t.pass times).ticks = .whole 66 := by
  intro t times counts
  have hcounts : (t.answers times).map Number.ofFloat =
      counts.map (fun c : Nat => Number.whole c) := by decide +kernel
  obtain ⟨hdelay, hsound, -, hticks⟩ := backlog_is_ticks_one_by_one.2.1 t times counts hcounts
  have hstart : Number.ofFloat t.ticks = .whole (0 : Nat) := Double.ofFloat_zero
  have htotal : (t.pass times).ticks = Scalar.addUnits t.ticks 66 :=
    (hticks 0 hstart (by decide)).trans (ticks_iterate t 66)
  refine ⟨hcounts, hdelay.trans (delay_iterate t 66), hsound.trans (sound_iterate t 66), ?_⟩
  rw [htotal]
  exact (counts_addUnits (Double.counts_of_whole hstart) 66 (by decide)).ofFloat_eq (by decide)
    (by decide)

/-- Beyond `2 ^ 53` a total takes three units at once, but no single ones. -/
theorem backlog_outruns_ticks :
    let t := ((initial : Timers Float).advance 150119987579016512).1
    Number.ofFloat t.ticks = .whole 9007199254740991 ∧
      Number.ofFloat (t.advance 50).2 = .whole 3 ∧
      Number.ofFloat (t.advance 50).1.ticks = .whole 9007199254740994 ∧
      Number.ofFloat (tick^[3] t).ticks = .whole 9007199254740992 ∧
      (t.advance 50).1.ticks ≠ (tick^[3] t).ticks := by
  decide +kernel

end Timers
end Chip8
