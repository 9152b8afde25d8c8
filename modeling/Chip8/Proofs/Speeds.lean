/-
# `Chip8.Proofs.Speeds` — a speed in the environment, and the same speed asked for

A speed is a whole number of at least one, whoever sets it.  A host hands in a
number, and it is held to that.  From the environment comes a text, and what is
held to that is the integer at its start:

| text | denotes | asked for | in the environment |
| :-- | :-- | :-- | :-- |
| `20` | 20 | 20 | 20 |
| `0`, `-3` | 0, -3 | refused | refused |
| `2.5` | 2.5 | refused | 2 |
| `1e3` | 1000 | 1000 | 1 |
| `0.5e1` | 5 | 5 | refused |

So the two ways agree on a numeral if and only if its first digits already make
the number that it denotes, or neither of the two numbers is a speed
(`agree_iff`).  The first is the case if there is neither a fraction nor an
exponent, and the second if there is a minus.  The last three rows show that the
remaining numerals can miss in every way.
-/
import Chip8.Proofs.Numerals
import Chip8.Settings

namespace Chip8
namespace Settings

/-- The settings if the environment sets a speed, and nothing else. -/
def ofEnvironment (text : String) : Except Failure Settings :=
  resolve .none fun name => if name = "CHIP8_CYCLES_PER_FRAME" then some text else none

/-- The settings if a host asks for a speed, and nothing else. -/
def ofHost (speed : Number) : Except Failure Settings :=
  resolve ⟨some speed, none⟩ fun _ => none

/-- The number is a speed. -/
def Admissible (speed : Number) : Prop := ∃ k : Int, speed = .whole k ∧ 1 ≤ k

/-- Both are refused as out of range, or both set the same speed. -/
inductive Agree : Except Failure Settings → Except Failure Settings → Prop
  | refused {e e' : Failure} : e.name = "RangeError" → e'.name = "RangeError" →
      Agree (.error e) (.error e')
  | set {s s' : Settings} : s.cyclesPerFrame = s'.cyclesPerFrame → 1 ≤ s.cyclesPerFrame →
      Agree (.ok s) (.ok s')

variable {a b : Number}

/-- Of a text in the environment only the integer at its start counts. -/
theorem ofEnvironment_eq (text : String) :
    ofEnvironment text = ofHost (Number.ofIntegerPrefix text) := rfl

theorem admitDecay_default : admitDecay (.number (.other defaultDecay)) = .ok (clampDecay defaultDecay) :=
  rfl

theorem ofHost_of_admissible {k : Int} (h : 1 ≤ k) :
    ofHost (.whole k) = .ok ⟨k.toNat, clampDecay defaultDecay⟩ := by
  have hcycles : admitCycles (.number (.whole k)) = .ok k.toNat := if_pos h
  simp only [ofHost, resolve, choose, hcycles, admitDecay_default]

theorem ofHost_of_not_admissible (h : ¬ Admissible a) :
    ofHost a = .error (.rejected (.cyclesPerFrame (.number a))) := by
  have hcycles : admitCycles (.number a) = .error (.rejected (.cyclesPerFrame (.number a))) := by
    cases a with
    | whole k => exact if_neg fun hk => h ⟨k, rfl, hk⟩
    | other x => rfl
  simp only [ofHost, resolve, choose, hcycles]

/-- Two numbers are treated alike if they are the same, or if neither is a speed. -/
theorem agree_ofHost_iff :
    Agree (ofHost a) (ofHost b) ↔ a = b ∨ ¬ Admissible a ∧ ¬ Admissible b := by
  by_cases ha : Admissible a
  · obtain ⟨k, rfl, hk⟩ := ha
    have hka := ofHost_of_admissible hk
    by_cases hb : Admissible b
    · obtain ⟨l, rfl, hl⟩ := hb
      rw [hka, ofHost_of_admissible hl]
      constructor
      · intro h
        cases h with
        | set heq _ =>
            have hkl : k.toNat = l.toNat := heq
            exact .inl (congrArg Number.whole (by omega))
      · rintro (heq | ⟨hnot, -⟩)
        · have hkl := Number.whole.inj heq
          refine .set (congrArg Int.toNat hkl) ?_
          show 1 ≤ k.toNat
          omega
        · exact absurd ⟨k, rfl, hk⟩ hnot
    · rw [hka, ofHost_of_not_admissible hb]
      constructor
      · nofun
      · rintro (rfl | ⟨hnot, -⟩)
        · exact absurd ⟨k, rfl, hk⟩ hb
        · exact absurd ⟨k, rfl, hk⟩ hnot
  · rw [ofHost_of_not_admissible ha]
    by_cases hb : Admissible b
    · obtain ⟨l, rfl, hl⟩ := hb
      rw [ofHost_of_admissible hl]
      constructor
      · nofun
      · rintro (rfl | ⟨-, hnot⟩)
        · exact absurd ⟨l, rfl, hl⟩ ha
        · exact absurd ⟨l, rfl, hl⟩ hnot
    · rw [ofHost_of_not_admissible hb]
      constructor
      · intro _
        exact .inr ⟨ha, hb⟩
      · intro _
        exact .refused rfl rfl

/-! ## Numerals -/

section Numerals
variable {n : Numeral}

theorem not_admissible_of_minus {m : Nat} {e : Int} :
    ¬ Admissible ((Magnitude.decimal m e).toNumber true) := by
  rintro ⟨k, hk, hone⟩
  have := Numeral.le_zero_of_minus hk
  omega

/-- The two ways agree if the first digits make the number that is written, or if
neither of the two is a speed. -/
theorem agree_iff (n : Numeral) :
    Agree (ofEnvironment n.text) (ofHost (Number.ofNumeral n.text)) ↔
      n.integral = n.number ∨ ¬ Admissible n.integral ∧ ¬ Admissible n.number := by
  rw [ofEnvironment_eq, n.ofIntegerPrefix_text, n.ofNumeral_text]
  exact agree_ofHost_iff

theorem agree_of_plain (h : n.Plain) :
    Agree (ofEnvironment n.text) (ofHost (Number.ofNumeral n.text)) :=
  (agree_iff n).2 (.inl (Numeral.integral_eq_number h))

theorem agree_of_minus (h : n.minus = true) :
    Agree (ofEnvironment n.text) (ofHost (Number.ofNumeral n.text)) := by
  refine (agree_iff n).2 (.inr ⟨?_, ?_⟩)
  · rw [Numeral.integral, h]
    exact not_admissible_of_minus
  · rw [Numeral.number, Numeral.magnitude, h]
    exact not_admissible_of_minus

/-- The first digits of a numeral in the environment are the speed. -/
theorem ofEnvironment_text (hminus : n.minus = false)
    (hone : 1 ≤ ofDigits 10 (Digits.values n.digits.1))
    (hlt : ofDigits 10 (Digits.values n.digits.1) < 2 ^ 53) :
    ofEnvironment n.text =
      .ok ⟨ofDigits 10 (Digits.values n.digits.1), clampDecay defaultDecay⟩ := by
  rw [ofEnvironment_eq, n.ofIntegerPrefix_text, Numeral.integral_of_lt hminus hlt]
  exact ofHost_of_admissible (Int.ofNat_le.2 hone)

end Numerals

/-- What the environment says is treated like a host that asks for the integer at
its start.  So it agrees with a host that asks for the number that is written if
these are the same number, or if neither is a speed, and only then.  They are the
same if there is neither a fraction nor an exponent, and with a minus neither is a
speed.  Without one, first digits that make a number between one and `2 ^ 53` are
the speed, whatever follows them. -/
theorem environment_speaks_in_integers (n : Numeral) :
    ofEnvironment n.text = ofHost n.integral ∧
    (Agree (ofEnvironment n.text) (ofHost (Number.ofNumeral n.text)) ↔
      n.integral = n.number ∨ ¬ Admissible n.integral ∧ ¬ Admissible n.number) ∧
    (n.fraction? = none ∧ n.exponent? = none ∨ n.minus = true →
      Agree (ofEnvironment n.text) (ofHost (Number.ofNumeral n.text))) ∧
    (n.minus = false → ∀ speed : Nat, ofDigits 10 (Digits.values n.digits.1) = speed →
      1 ≤ speed → speed < 2 ^ 53 →
        ∃ s, ofEnvironment n.text = .ok s ∧ s.cyclesPerFrame = speed) := by
  refine ⟨?_, agree_iff n, ?_, ?_⟩
  · rw [ofEnvironment_eq, n.ofIntegerPrefix_text]
  · rintro (hplain | hminus)
    · exact agree_of_plain hplain
    · exact agree_of_minus hminus
  · rintro hminus speed rfl hone hlt
    exact ⟨_, ofEnvironment_text hminus hone hlt, rfl⟩

/-- Twenty, from either side. -/
theorem environment_speaks_in_integers_of_twenty :
    let n : Numeral := ⟨false, ⟨[2, 0], List.cons_ne_nil 2 [0]⟩, none, none⟩
    n.text = "20" ∧ Agree (ofEnvironment "20") (ofHost (Number.ofNumeral "20")) ∧
      ∃ s, ofEnvironment "20" = .ok s ∧ s.cyclesPerFrame = 20 := by
  intro n
  have htext : n.text = "20" := rfl
  obtain ⟨-, -, hagree, hspeed⟩ := environment_speaks_in_integers n
  rw [htext] at hagree hspeed
  exact ⟨htext, hagree (.inl ⟨rfl, rfl⟩), hspeed rfl 20 rfl (by decide) (by decide)⟩

/-- Two and a half is no speed, and a thousand is one.  In the environment the first
becomes two, and the second becomes one. -/
theorem fraction_and_exponent_are_cut_off :
    ofHost (Number.ofNumeral "2.5") =
      .error (.rejected (.cyclesPerFrame (.number (.other 2.5)))) ∧
    (∃ s, ofEnvironment "2.5" = .ok s ∧ s.cyclesPerFrame = 2) ∧
    ¬ Agree (ofEnvironment "2.5") (ofHost (Number.ofNumeral "2.5")) ∧
    (∃ s, ofHost (Number.ofNumeral "1e3") = .ok s ∧ s.cyclesPerFrame = 1000) ∧
    (∃ s, ofEnvironment "1e3" = .ok s ∧ s.cyclesPerFrame = 1) ∧
    ¬ Agree (ofEnvironment "1e3") (ofHost (Number.ofNumeral "1e3")) := by
  have hhalf : Number.ofNumeral "2.5" = .other 2.5 := by decide +kernel
  have htwo : Number.ofIntegerPrefix "2.5" = .whole 2 := by decide +kernel
  have hthousand : Number.ofNumeral "1e3" = .whole 1000 := by decide +kernel
  have hone : Number.ofIntegerPrefix "1e3" = .whole 1 := by decide +kernel
  have hrefused : ¬ Admissible (.other 2.5) := by
    rintro ⟨k, hk, -⟩
    cases hk
  have hset : ∀ k : Int, 1 ≤ k → Admissible (.whole k) := fun k hk => ⟨k, rfl, hk⟩
  rw [ofEnvironment_eq, ofEnvironment_eq, hhalf, htwo, hthousand, hone]
  refine ⟨ofHost_of_not_admissible hrefused, ⟨_, ofHost_of_admissible (by decide), rfl⟩, ?_,
    ⟨_, ofHost_of_admissible (by decide), rfl⟩, ⟨_, ofHost_of_admissible (by decide), rfl⟩, ?_⟩
  · rw [agree_ofHost_iff]
    rintro (heq | ⟨hnot, -⟩)
    · cases heq
    · exact hnot (hset 2 (by decide))
  · rw [agree_ofHost_iff]
    rintro (heq | ⟨hnot, -⟩)
    · cases heq
    · exact hnot (hset 1 (by decide))

end Settings
end Chip8
