/-
# `Chip8.Proofs.Afterglow` — the closed form of the afterglow

The afterglow of a pixel is kept in one cell, which every frame overwrites.
It can be said without the cell.  Of all that happens to the screen, a pixel
is concerned with what it looks like when a frame begins: lit or not, and with
what factor (`Look`).

    never lit so far              0
    lit, then d₁, …, dₙ unlit     Q = 1 · d₁ · … · dₙ, or 0 if Q is too dim

The cell does not hold `Q` to the end.  It snaps to zero on the way, and stays
there.  That this makes no difference is the point of the proof: a product
that has become too dim does not brighten again, since no factor makes it
larger.  So at every frame either the cell is `Q` or both are as good as zero
(`Shines`), and this is carried from frame to frame.

Products may be rounded.  All that is needed of them is in `Fading`: order,
and that a number between zero and one does not grow by a factor between zero
and the largest.  Fractions have it, and so do doubles.

In fractions, moreover, `0.99 ^ 1375` is below a millionth.
-/
import Chip8.Display.Uneven
import Chip8.Proofs.DoubleOrder

namespace Chip8

variable {α : Type} [Scalar α]

/-- A factor within the bounds that the screen keeps. -/
def Factor (d : α) : Prop := Scalar.ofInt 0 ≤ d ∧ d ≤ maxDecay

/-- Scalars in which an afterglow only fades.  The order is linear among
numbers, and whatever compares with something is a number.  A number between
zero and one stays between zero and what it was when a factor is applied. -/
structure Fading (α : Type) [Scalar α] : Prop where
  refl : ∀ {x y : α}, x ≤ y → x ≤ x ∧ y ≤ y
  trans : ∀ {x y z : α}, x ≤ y → y ≤ z → x ≤ z
  total : ∀ {x y : α}, x ≤ x → y ≤ y → x ≤ y ∨ y ≤ x
  lt_iff : ∀ {x y : α}, x < y ↔ x ≤ y ∧ ¬ y ≤ x
  maxDecay_nonneg : (Scalar.ofInt 0 : α) ≤ maxDecay
  dimmest_pos : (Scalar.ofInt 0 : α) < dimmest
  dimmest_le_one : (dimmest : α) ≤ Scalar.ofInt 1
  mul : ∀ {x d : α}, Scalar.ofInt 0 ≤ x → x ≤ Scalar.ofInt 1 → Factor d →
    Scalar.ofInt 0 ≤ x * d ∧ x * d ≤ x

namespace Display

/-! ## What happens to a screen -/

/-- A call to the screen. -/
inductive Event (α : Type) where
  | draw (x y : Number) (rows : List UInt8)
  | clear
  | setDecay (factor : α)
  | advance

/-- The screen after a call. -/
def apply (d : Display α) : Event α → Display α
  | .draw x y rows => (d.drawAt x y rows).1
  | .clear => d.clear
  | .setDecay f => { d with decay := clampDecay f }
  | .advance => d.advanceFrame

/-- The screen after a list of calls. -/
def after (d : Display α) (events : List (Event α)) : Display α := events.foldl apply d

/-- The factors that are set are numbers. -/
def Admitted (events : List (Event α)) : Prop := ∀ f, .setDecay f ∈ events → f ≤ f

/-- What a frame sees of a pixel: whether it is lit, and the factor. -/
structure Look (α : Type) where
  lit : Bool
  decay : α
deriving DecidableEq

/-- What the frames see of a pixel, one after another. -/
def looks (d : Display α) (i : Fin 2048) : List (Event α) → List (Look α)
  | [] => []
  | .advance :: rest => ⟨d.pixels[i], d.decay⟩ :: d.advanceFrame.looks i rest
  | e :: rest => (d.apply e).looks i rest

/-- The intensity of a pixel in the next frame. -/
def Look.next (glow : α) (look : Look α) : α := nextGlow look.decay look.lit glow

/-- The product of the factors, from the first to the last. -/
def product (looks : List (Look α)) : α :=
  (looks.map Look.decay).foldl (· * ·) (Scalar.ofInt 1)

/-- The intensity of a pixel after calls, from what the frames have seen of it
and from nothing else. -/
structure ClosedForm (d : Display α) (events : List (Event α)) (i : Fin 2048) : Prop where
  /-- No frame has seen the pixel lit. -/
  dark : (∀ l ∈ d.looks i events, l.lit = false) → (d.after events).glow[i] = Scalar.ofInt 0
  /-- The frames of `later` are those after the last one that has. -/
  lit : ∀ before last later, d.looks i events = before ++ last :: later → last.lit = true →
    (∀ l ∈ later, l.lit = false) →
    (dimmest ≤ product later → (d.after events).glow[i] = product later) ∧
      (product later < dimmest → (d.after events).glow[i] = Scalar.ofInt 0)
  visible : (d.after events).glow[i] = Scalar.ofInt 0 ∨
    dimmest ≤ (d.after events).glow[i] ∧ (d.after events).glow[i] ≤ Scalar.ofInt 1

/-- What the frames see of a pixel is all that its intensity depends on. -/
theorem glow_after (d : Display α) (i : Fin 2048) (events : List (Event α)) :
    (d.after events).glow[i] = (d.looks i events).foldl Look.next d.glow[i] := by
  induction events generalizing d with
  | nil => rfl
  | cons e rest ih =>
      cases e with
      | advance =>
          have hnext : d.advanceFrame.glow[i] = Look.next d.glow[i] ⟨d.pixels[i], d.decay⟩ := by
            simp only [advanceFrame, Fin.getElem_fin, Vector.getElem_zipWith, Look.next]
          rw [looks, List.foldl_cons, ← hnext]
          exact ih d.advanceFrame
      | _ => exact ih _

theorem looks_append (d : Display α) (i : Fin 2048) (xs ys : List (Event α)) :
    d.looks i (xs ++ ys) = d.looks i xs ++ (d.after xs).looks i ys := by
  induction xs generalizing d with
  | nil => rfl
  | cons e rest ih =>
      cases e with
      | advance => exact congrArg (_ :: ·) (ih d.advanceFrame)
      | _ => exact ih _

theorem looks_replicate (d : Display α) (i : Fin 2048) (n : Nat) :
    d.looks i (List.replicate n .advance) = List.replicate n ⟨d.pixels[i], d.decay⟩ := by
  induction n generalizing d with
  | zero => rfl
  | succ n ih => exact congrArg (_ :: ·) (ih d.advanceFrame)

section Fading
variable (law : Fading α)
include law

theorem zero_le_zero : (Scalar.ofInt 0 : α) ≤ Scalar.ofInt 0 := (law.refl law.maxDecay_nonneg).1

theorem clampDecay_factor {f : α} (hf : f ≤ f) : Factor (clampDecay f) := by
  have hmax : (maxDecay : α) ≤ maxDecay := (law.refl law.maxDecay_nonneg).2
  unfold clampDecay
  by_cases h₀ : f ≤ Scalar.ofInt 0
  · rw [if_pos h₀]
    exact ⟨zero_le_zero law, law.maxDecay_nonneg⟩
  · rw [if_neg h₀]
    by_cases h₁ : maxDecay ≤ f
    · rw [if_pos h₁]
      exact ⟨law.maxDecay_nonneg, hmax⟩
    · rw [if_neg h₁]
      exact ⟨(law.total (zero_le_zero law) hf).resolve_right h₀,
        (law.total hf hmax).resolve_right h₁⟩

/-- Every frame finds a factor within the bounds. -/
theorem factor_of_mem_looks {d : Display α} {i : Fin 2048} {events : List (Event α)}
    (hd : Factor d.decay) (he : Admitted events) : ∀ l ∈ d.looks i events, Factor l.decay := by
  induction events generalizing d with
  | nil => nofun
  | cons e rest ih =>
      have hrest : Admitted rest := fun f hf => he f (List.mem_cons_of_mem e hf)
      cases e with
      | advance =>
          intro l hl
          rcases List.mem_cons.1 hl with rfl | hl
          · exact hd
          · exact ih (d := d.advanceFrame) hd hrest l hl
      | setDecay f =>
          exact ih (d := d.apply (.setDecay f))
            (clampDecay_factor law (he f List.mem_cons_self)) hrest
      | draw x y rows => exact ih (d := d.apply (.draw x y rows)) hd hrest
      | clear => exact ih (d := d.clear) hd hrest

/-! ## One frame -/

/-- An intensity that is seen: zero, or not too dim and not above one. -/
def Visible (g : α) : Prop := g = Scalar.ofInt 0 ∨ dimmest ≤ g ∧ g ≤ Scalar.ofInt 1

/-- A product between zero and one, and the intensity that goes with it. -/
structure Shines (q g : α) : Prop where
  nonneg : Scalar.ofInt 0 ≤ q
  le_one : q ≤ Scalar.ofInt 1
  bright : dimmest ≤ q → g = q
  dim : q < dimmest → g = Scalar.ofInt 0

theorem zero_le_of_dimmest_le {x : α} (h : dimmest ≤ x) : Scalar.ofInt 0 ≤ x :=
  law.trans (law.lt_iff.1 law.dimmest_pos).1 h

theorem lt_or_le {x : α} (hx : Scalar.ofInt 0 ≤ x) : x < dimmest ∨ dimmest ≤ x := by
  by_cases h : dimmest ≤ x
  · exact .inr h
  · have htotal := law.total (law.refl hx).2 (law.refl law.dimmest_le_one).1
    exact .inl (law.lt_iff.2 ⟨htotal.resolve_right h, h⟩)

theorem not_lt_of_le {x : α} (h : dimmest ≤ x) : ¬ x < dimmest :=
  fun hlt => (law.lt_iff.1 hlt).2 h

theorem one_visible : Visible (Scalar.ofInt 1 : α) :=
  .inr ⟨law.dimmest_le_one, (law.refl law.dimmest_le_one).2⟩

theorem Shines.visible {q g : α} (h : Shines q g) : Visible g := by
  rcases lt_or_le law h.nonneg with hlt | hle
  · exact .inl (h.dim hlt)
  · rw [h.bright hle]
    exact .inr ⟨hle, h.le_one⟩

/-- Every visible intensity shines, with itself as the product. -/
theorem Visible.shines {g : α} (h : Visible g) : Shines g g := by
  rcases h with rfl | ⟨hg, hg'⟩
  · exact ⟨zero_le_zero law, law.trans (law.lt_iff.1 law.dimmest_pos).1 law.dimmest_le_one,
      fun _ => rfl, fun _ => rfl⟩
  · exact ⟨zero_le_of_dimmest_le law hg, hg', fun _ => rfl,
      fun hlt => absurd hlt (not_lt_of_le law hg)⟩

theorem isZero_zero : Scalar.isZero (Scalar.ofInt 0 : α) = true :=
  decide_eq_true ⟨zero_le_zero law, zero_le_zero law⟩

theorem isZero_of_dimmest_le {g : α} (h : dimmest ≤ g) : Scalar.isZero g = false :=
  decide_eq_false fun hz => (law.lt_iff.1 law.dimmest_pos).2 (law.trans h hz.1)

/-- A pixel without afterglow stays so until it is lit. -/
theorem next_zero {l : Look α} (hl : l.lit = false) :
    Look.next (Scalar.ofInt 0) l = Scalar.ofInt 0 := by
  rw [Look.next, nextGlow, hl, isZero_zero law]
  rfl

/-- A pixel with an afterglow is multiplied, and may be too dim then. -/
theorem next_of_dimmest_le {g : α} {l : Look α} (hl : l.lit = false) (h : dimmest ≤ g) :
    Look.next g l = snap (g * l.decay) := by
  rw [Look.next, nextGlow, hl, isZero_of_dimmest_le law h]
  rfl

/-- One more frame is one more factor.  What is too dim stays so. -/
theorem Shines.next {q g : α} {l : Look α} (h : Shines q g) (hl : l.lit = false)
    (hd : Factor l.decay) : Shines (q * l.decay) (Look.next g l) := by
  obtain ⟨hnonneg, hle⟩ := law.mul h.nonneg h.le_one hd
  refine ⟨hnonneg, law.trans hle h.le_one, fun hbright => ?_, fun hdim => ?_⟩
  · have hq : dimmest ≤ q := law.trans hbright hle
    rw [h.bright hq, next_of_dimmest_le law hl hq, snap, if_neg (not_lt_of_le law hbright)]
  · rcases lt_or_le law h.nonneg with hlt | hq
    · rw [h.dim hlt, next_zero law hl]
    · rw [h.bright hq, next_of_dimmest_le law hl hq, snap, if_pos hdim]

/-! ## Any number of frames -/

theorem Shines.foldl {q g : α} (h : Shines q g) {later : List (Look α)}
    (hl : ∀ l ∈ later, l.lit = false) (hd : ∀ l ∈ later, Factor l.decay) :
    Shines ((later.map Look.decay).foldl (· * ·) q) (later.foldl Look.next g) := by
  induction later generalizing q g with
  | nil => exact h
  | cons l rest ih =>
      exact ih (h.next law (hl l List.mem_cons_self) (hd l List.mem_cons_self))
        (fun l hm => hl l (List.mem_cons_of_mem _ hm)) fun l hm => hd l (List.mem_cons_of_mem _ hm)

theorem Visible.next {g : α} {l : Look α} (h : Visible g) (hd : Factor l.decay) :
    Visible (Look.next g l) := by
  cases hl : l.lit with
  | true =>
      rw [Look.next, nextGlow, hl]
      exact one_visible law
  | false => exact ((h.shines law).next law hl hd).visible law

/-- Whatever is seen, the intensity is visible. -/
theorem Visible.foldl {g : α} (h : Visible g) {looks : List (Look α)}
    (hd : ∀ l ∈ looks, Factor l.decay) : Visible (looks.foldl Look.next g) := by
  induction looks generalizing g with
  | nil => exact h
  | cons l rest ih =>
      exact ih (h.next law (hd l List.mem_cons_self)) fun l hm => hd l (List.mem_cons_of_mem _ hm)

theorem foldl_zero {looks : List (Look α)} (hl : ∀ l ∈ looks, l.lit = false) :
    looks.foldl Look.next (Scalar.ofInt 0) = Scalar.ofInt 0 := by
  induction looks with
  | nil => rfl
  | cons l rest ih =>
      rw [List.foldl_cons, next_zero law (hl l List.mem_cons_self)]
      exact ih fun l hm => hl l (List.mem_cons_of_mem _ hm)

/-- On a new screen the first frames leave a visible intensity, and the rest
lead on from there, with factors within the bounds. -/
theorem visible_of_new {decay : α} (hd : Factor decay) {events : List (Event α)}
    (he : Admitted events) (i : Fin 2048) {before later : List (Look α)}
    (hlooks : (initial decay).looks i events = before ++ later) :
    Visible (before.foldl Look.next (Scalar.ofInt 0)) ∧ (∀ l ∈ later, Factor l.decay) ∧
      ((initial decay).after events).glow[i] =
        later.foldl Look.next (before.foldl Look.next (Scalar.ofInt 0)) := by
  have hfactor := factor_of_mem_looks law (d := initial decay) (i := i) hd he
  have hglow := (initial decay).glow_after i events
  have hstart : (initial decay).glow[i] = Scalar.ofInt 0 := Vector.getElem_replicate _
  rw [hlooks] at hfactor
  rw [hlooks, hstart, List.foldl_append] at hglow
  refine ⟨?_, fun l hl => hfactor l (List.mem_append_right _ hl), hglow⟩
  exact Visible.foldl law (.inl rfl) fun l hl => hfactor l (List.mem_append_left _ hl)

/-- The closed form of the afterglow, on any new screen and for any calls. -/
theorem closedForm {decay : α} (hd : Factor decay) {events : List (Event α)}
    (he : Admitted events) (i : Fin 2048) : ClosedForm (initial decay) events i where
  dark h := by
    obtain ⟨-, -, hglow⟩ := visible_of_new law hd he i (List.nil_append _).symm
    rw [hglow]
    exact foldl_zero law h
  lit before last later hlooks hlast hlater := by
    obtain ⟨hv, hfactor, hglow⟩ := visible_of_new law hd he i hlooks
    have hone : Look.next (before.foldl Look.next (Scalar.ofInt 0)) last = Scalar.ofInt 1 := by
      rw [Look.next, nextGlow, hlast]
      rfl
    have hshines := ((one_visible law).shines law).foldl law hlater
      fun l hl => hfactor l (List.mem_cons_of_mem _ hl)
    rw [hglow, List.foldl_cons, hone]
    exact ⟨hshines.bright, hshines.dim⟩
  visible := by
    obtain ⟨hv, -, hglow⟩ := visible_of_new law hd he i (List.append_nil _).symm
    rw [hglow]
    exact hv

end Fading

/-! ## Fractions and doubles -/

theorem fading_rat : Fading Rat where
  refl _ := ⟨le_refl _, le_refl _⟩
  trans := le_trans
  total _ _ := le_total _ _
  lt_iff := lt_iff_le_not_ge
  maxDecay_nonneg := by decide +kernel
  dimmest_pos := by decide +kernel
  dimmest_le_one := by decide +kernel
  mul {x d} h₀ h₁ hd := by
    have hd₀ : 0 ≤ d := hd.1
    have hd₁ : d ≤ 1 := le_trans hd.2 (show (maxDecay : Rat) ≤ 1 by decide +kernel)
    exact ⟨mul_nonneg h₀ hd₀, mul_le_of_le_one_right h₀ hd₁⟩

theorem fading_float : Fading Float where
  refl := Double.le_self_of_le
  trans := Double.le_of_le_of_le
  total := Double.le_or_le
  lt_iff := Double.lt_iff_le_not_le
  maxDecay_nonneg := by decide +kernel
  dimmest_pos := by decide +kernel
  dimmest_le_one := by decide +kernel
  mul h₀ h₁ hd := Double.mul_fades h₀ h₁ hd.1 hd.2

/-- A factor that a host sets, and does not leave out, is set by one of the
calls considered here. -/
theorem setDecay_eq_apply {d d' : Display Float} {factor : Argument} (hf : factor ≠ .absent)
    (h : d.setDecay factor = .ok d') : ∃ f : Float, f ≤ f ∧ d' = d.apply (.setDecay f) := by
  refine ⟨factor.toNumber.toFloat, ?_⟩
  have hadmit : admitDecay factor =
      if factor.toNumber.toFloat.isNaN then .error (.rejected .decay)
      else .ok (clampDecay factor.toNumber.toFloat) := by
    cases factor with
    | absent => exact absurd rfl hf
    | _ => rfl
  rw [setDecay, hadmit] at h
  split at h
  · cases h
  · rename_i hn
    cases h
    exact ⟨Double.le_self_iff.2 (Bool.not_eq_true _ ▸ hn), rfl⟩

/-- In fractions every factor takes away a hundredth at least. -/
theorem foldl_mul_le {q : Rat} (hq : 0 ≤ q) {later : List (Look Rat)}
    (hd : ∀ l ∈ later, Factor l.decay) :
    (later.map Look.decay).foldl (· * ·) q ≤ q * (99 / 100) ^ later.length := by
  induction later generalizing q with
  | nil => exact le_of_eq (by rw [List.length_nil, pow_zero, mul_one]; rfl)
  | cons l rest ih =>
      obtain ⟨hl₀, hl₁⟩ := hd l List.mem_cons_self
      have hmax : l.decay ≤ 99 / 100 := le_trans hl₁ (by decide +kernel)
      calc ((l :: rest).map Look.decay).foldl (· * ·) q
          ≤ q * l.decay * (99 / 100) ^ rest.length :=
            ih (mul_nonneg hq hl₀) fun l hl => hd l (List.mem_cons_of_mem _ hl)
        _ ≤ q * (99 / 100) * (99 / 100) ^ rest.length := by gcongr
        _ = q * (99 / 100) ^ (l :: rest).length := by rw [List.length_cons, pow_succ']; ring

theorem pow_lt_dimmest {n : Nat} (h : 99 ^ n * 10 ^ 6 < 100 ^ n) :
    (99 / 100 : Rat) ^ n < dimmest := by
  have hdimmest : (dimmest : Rat) = 1 / 10 ^ 6 := by decide +kernel
  rw [hdimmest, div_pow, div_lt_div_iff₀ (by positivity) (by positivity), one_mul]
  exact_mod_cast h

/-- A hundredth less each time is too dim after 1375 times. -/
theorem foldl_mul_lt_dimmest {q : Rat} (hq : 0 ≤ q) (hq' : q ≤ 1) {later : List (Look Rat)}
    (hd : ∀ l ∈ later, Factor l.decay) (hn : 1375 ≤ later.length) :
    (later.map Look.decay).foldl (· * ·) q < dimmest := by
  calc (later.map Look.decay).foldl (· * ·) q
      ≤ q * (99 / 100) ^ later.length := foldl_mul_le hq hd
    _ ≤ (99 / 100) ^ later.length := mul_le_of_le_one_left (by positivity) hq'
    _ ≤ (99 / 100) ^ 1375 := pow_le_pow_of_le_one (by norm_num) (by norm_num) hn
    _ < dimmest := pow_lt_dimmest (by decide +kernel)

/-- In fractions an afterglow that nothing renews has ended after 1375
frames. -/
theorem glow_ends {decay : Rat} (hd : Factor decay) (events : List (Event Rat)) (i : Fin 2048)
    {before later : List (Look Rat)} (hlooks : (initial decay).looks i events = before ++ later)
    (hn : 1375 ≤ later.length) (hlater : ∀ l ∈ later, l.lit = false) :
    ((initial decay).after events).glow[i] = 0 := by
  obtain ⟨hv, hfactor, hglow⟩ := visible_of_new fading_rat hd (fun f _ => le_refl f) i hlooks
  have hstart := hv.shines fading_rat
  have hshines := hstart.foldl fading_rat hlater hfactor
  rw [hglow]
  exact hshines.dim (foldl_mul_lt_dimmest hstart.nonneg hstart.le_one hfactor hn)

/-- On a new screen, or one that has been reset, the afterglow has its closed
form after any calls, with any multiplication that fades, such as the exact one
and the one of doubles.  Setting a factor is a call of this kind.  In fractions
no afterglow lasts longer than 1375 frames. -/
theorem afterglow_is_product :
    Fading Rat ∧ Fading Float ∧
      (∀ (α : Type) [Scalar α], Fading α → ∀ decay : α, Factor decay →
        ∀ events : List (Event α), Admitted events →
          ∀ i, ClosedForm (initial decay) events i) ∧
      (∀ (d d' : Display Float) (factor : Argument), factor ≠ .absent →
        d.setDecay factor = .ok d' → ∃ f : Float, f ≤ f ∧ d' = d.apply (.setDecay f)) ∧
      ∀ decay : Rat, Factor decay → ∀ (events : List (Event Rat)) (i : Fin 2048)
        (before later : List (Look Rat)), (initial decay).looks i events = before ++ later →
          1375 ≤ later.length → (∀ l ∈ later, l.lit = false) →
            ((initial decay).after events).glow[i] = 0 := by
  refine ⟨fading_rat, fading_float, ?_, ?_, ?_⟩
  · intro α _ law decay hd events he i
    exact closedForm law hd he i
  · intro d d' factor hf h
    exact setDecay_eq_apply hf h
  · intro decay hd events i before later hlooks hn hlater
    exact glow_ends hd events i hlooks hn hlater

/-- A pixel is lit for one frame.  The factor is asked to be two. -/
theorem afterglow_is_product_of_a_blinking_pixel :
    let d : Display Rat := initial (1 / 2)
    let blink : List (Event Rat) := [.draw 0 0 [0x80], .advance, .draw 0 0 [0x80], .setDecay 2]
    (d.after (blink ++ List.replicate 2 .advance)).glow[0] = 9801 / 10000 ∧
      (d.after (blink ++ List.replicate 1375 .advance)).glow[0] = 0 := by
  intro d blink
  have hd : Factor (1 / 2 : Rat) := ⟨by decide +kernel, by decide +kernel⟩
  have hlooks : ∀ n, d.looks 0 (blink ++ List.replicate n .advance) =
      ⟨true, 1 / 2⟩ :: List.replicate n ⟨false, 99 / 100⟩ := by
    intro n
    have hblink : d.looks 0 blink = [⟨true, 1 / 2⟩] := by decide +kernel
    have hpixel : (d.after blink).pixels[(0 : Fin 2048)] = false := by decide +kernel
    have hdecay : (d.after blink).decay = 99 / 100 := by decide +kernel
    rw [looks_append, looks_replicate, hblink, hpixel, hdecay]
    rfl
  have hdark : ∀ n, ∀ l ∈ List.replicate n (⟨false, 99 / 100⟩ : Look Rat), l.lit = false := by
    intro n l hl
    rw [List.eq_of_mem_replicate hl]
  obtain ⟨hrat, -, hform, -, hends⟩ := afterglow_is_product
  refine ⟨?_, ?_⟩
  · obtain ⟨hbright, -⟩ := (hform Rat hrat _ hd _ (fun f _ => le_refl f) 0).lit [] _ _ (hlooks 2)
      rfl (hdark 2)
    exact (hbright (by decide +kernel)).trans (by decide +kernel)
  · exact hends _ hd _ 0 [⟨true, 1 / 2⟩] (List.replicate 1375 ⟨false, 99 / 100⟩) (hlooks 1375)
      List.length_replicate.ge (hdark 1375)

end Display
end Chip8
