/-
# `Chip8.Proofs.KeySet` — the mask is the set of the held keys

A keypad on which no key is held receives calls, one after another.  A call
names a key by any integer, and integers that are congruent modulo sixteen name
the same key.  What the keypad then shows is said through the calls alone:

    q is held            the last call about the key of q presses it
    the first held key   the least k < 16 that is held
    no first held key    no q is held
    bit k of the mask    k < 16, and k is held

The argument is on `Keypad`, where a call decides about one bit
(`isDown_set`).  By induction on the calls the last one decides
(`isDown_setAll`).  The words of 32 bits go along with the keypad, call by call
(`toWord_setAll`), and so everything that is true of the one is true of the
other.  In particular a word never has a bit outside of the sixteen, although a
release goes through a complement of all 32.
-/
import Chip8.Keypad.Word
import Mathlib.Data.Int.ModEq
import Mathlib.Order.Bounds.Basic

namespace Chip8

/-- A call that presses or releases a key. -/
structure KeyCall where
  key : Int
  down : Bool
deriving DecidableEq

/-- The call is about the key with a number. -/
def KeyCall.about (k : Nat) (c : KeyCall) : Bool := Keypad.number c.key == k

namespace Keypad

open KeyCall (about)

variable {pad : Keypad} {calls : List KeyCall} {c : KeyCall} {q : Int}

/-- The keypad after calls, one after another. -/
def setAll (pad : Keypad) (calls : List KeyCall) : Keypad :=
  calls.foldl (fun pad c => pad.set c.key c.down) pad

/-- The word after calls, one after another. -/
def Word.setAll (w : Word) (calls : List KeyCall) : Word :=
  calls.foldl (fun w c => w.set c.key c.down) w

/-- The word goes along with the keypad. -/
theorem toWord_setAll (pad : Keypad) (calls : List KeyCall) :
    (pad.setAll calls).toWord = pad.toWord.setAll calls := by
  induction calls generalizing pad with
  | nil => rfl
  | cons c rest ih =>
      have hrest := ih (pad.set c.key c.down)
      rw [toWord_set] at hrest
      exact hrest

/-! ## The last call about a key -/

theorem number_eq_iff {a b : Int} : number a = number b ↔ a ≡ b [ZMOD 16] := by
  unfold number Int.ModEq
  omega

theorem about_iff : about (number q) c = true ↔ c.key ≡ q [ZMOD 16] :=
  beq_iff_eq.trans number_eq_iff

theorem not_about_iff : (!about (number q) c) = true ↔ ¬ c.key ≡ q [ZMOD 16] := by
  rw [Bool.not_eq_true', ← Bool.not_eq_true, about_iff]

/-- The call is the last one about the key of `q`. -/
def LastAbout (q : Int) (calls : List KeyCall) (c : KeyCall) : Prop :=
  c.key ≡ q [ZMOD 16] ∧ ∃ before after, calls = before ++ c :: after ∧
    ∀ d ∈ after, ¬ d.key ≡ q [ZMOD 16]

/-- The last call about a key decides. -/
theorem isDown_setAll (pad : Keypad) (calls : List KeyCall) (q : Int) :
    (pad.setAll calls).isDown q =
      match (calls.filter (about (number q))).getLast? with
      | some c => c.down
      | none => pad.isDown q := by
  induction calls generalizing pad with
  | nil => rfl
  | cons c rest ih =>
      rw [show pad.setAll (c :: rest) = (pad.set c.key c.down).setAll rest from rfl, ih,
        isDown_set, List.filter_cons]
      by_cases hc : number q = number c.key
      · have habout : about (number q) c = true := beq_iff_eq.2 hc.symm
        rw [if_pos hc, if_pos habout, List.getLast?_cons]
        cases (rest.filter (about (number q))).getLast? <;> rfl
      · have habout : ¬ about (number q) c = true := fun h => hc (beq_iff_eq.1 h).symm
        rw [if_neg hc, if_neg habout]

/-- The search from the end finds the last call about a key. -/
theorem getLast?_about_eq_some :
    (calls.filter (about (number q))).getLast? = some c ↔ LastAbout q calls c := by
  rw [List.getLast?_filter, List.find?_eq_some_iff_append, about_iff]
  refine and_congr_right fun _ => ⟨?_, ?_⟩
  · rintro ⟨after, before, hcalls, hafter⟩
    rw [List.reverse_eq_append_iff, List.reverse_cons, List.append_assoc] at hcalls
    refine ⟨before.reverse, after.reverse, hcalls, fun d hd => ?_⟩
    exact not_about_iff.1 (hafter d (List.mem_reverse.1 hd))
  · rintro ⟨before, after, rfl, hafter⟩
    refine ⟨after.reverse, before.reverse, ?_, fun d hd => ?_⟩
    · rw [List.reverse_append, List.reverse_cons, List.append_assoc, List.singleton_append]
    · exact not_about_iff.2 (hafter d (List.mem_reverse.1 hd))

/-- After calls on a keypad with no key held, a key is held exactly if its last
call presses it. -/
theorem isDown_initial_setAll :
    (initial.setAll calls).isDown q = true ↔ ∃ c, LastAbout q calls c ∧ c.down = true := by
  simp only [← getLast?_about_eq_some]
  rw [isDown_setAll]
  cases (calls.filter (about (number q))).getLast? with
  | none => simp
  | some c => simp

/-! ## The whole set -/

theorem firstDown_eq_none_iff : pad.firstDown = none ↔ ∀ q : Int, pad.isDown q = false := by
  constructor
  · intro h q
    have hzero : pad = initial := congrArg mk (firstDown_eq_none.1 h)
    rw [hzero, isDown_initial]
  · intro h
    cases hf : pad.firstDown with
    | none => rfl
    | some k =>
        obtain ⟨-, hdown, -⟩ := firstDown_eq_some hf
        rw [h k] at hdown
        cases hdown

/-- The key that is found is the least one that is held. -/
theorem firstDown_eq_some_iff {k : Nat} :
    pad.firstDown = some k ↔ IsLeast {k : Nat | k < 16 ∧ pad.isDown k = true} k := by
  have hleast : ∀ {i : Nat}, pad.firstDown = some i →
      IsLeast {k : Nat | k < 16 ∧ pad.isDown k = true} i := by
    intro i hi
    obtain ⟨hlt, hdown, hbelow⟩ := firstDown_eq_some hi
    refine ⟨⟨hlt, hdown⟩, fun j hj => Nat.not_lt.1 fun hji => ?_⟩
    have hfalse := hbelow j hji
    rw [hj.2] at hfalse
    cases hfalse
  refine ⟨hleast, fun hk => ?_⟩
  cases hf : pad.firstDown with
  | none =>
      have hdown := hk.1.2
      rw [firstDown_eq_none_iff.1 hf k] at hdown
      cases hdown
  | some i => rw [(hleast hf).unique hk]

theorem testBit_mask (pad : Keypad) (k : Nat) :
    pad.mask.toNat.testBit k = true ↔ k < 16 ∧ pad.isDown k = true := by
  rw [BitVec.testBit_toNat]
  constructor
  · intro h
    have hk : k < 16 := BitVec.lt_of_getLsbD h
    exact ⟨hk, (pad.isDown_natCast hk).trans h⟩
  · rintro ⟨hk, h⟩
    exact (pad.isDown_natCast hk).symm.trans h

theorem isDown_set_of_ne (pad : Keypad) (down : Bool) {key : Int} (h : ¬ key ≡ q [ZMOD 16]) :
    (pad.set key down).isDown q = pad.isDown q := by
  have hne : number q ≠ number key := fun heq => h (number_eq_iff.1 heq.symm)
  rw [isDown_set, if_neg hne]

/-- A word that receives calls is the set of the held keys.  A key is held if the
last call about it, modulo sixteen, presses it; the first held key is the least
of them, and is missing only if none is held; the mask lies in sixteen bits,
those of the held keys; a call decides about the keys of its residue and about
no others.  The keypad of the machine gives the same answers. -/
theorem word_is_set_of_held_keys (calls : List KeyCall) :
    let w := Word.initial.setAll calls
    let pad := initial.setAll calls
    (∀ q : Int, w.isDown q = true ↔ ∃ c, LastAbout q calls c ∧ c.down = true) ∧
    (∀ k : Nat, w.firstDown = some k ↔ IsLeast {k : Nat | k < 16 ∧ w.isDown k = true} k) ∧
    (w.firstDown = none ↔ ∀ q : Int, w.isDown q = false) ∧
    (0 ≤ w.mask ∧ w.mask ≤ 65535) ∧
    (∀ k : Nat, w.mask.toNat.testBit k = true ↔ k < 16 ∧ w.isDown k = true) ∧
    (∀ (key q : Int) (down : Bool), ¬ key ≡ q [ZMOD 16] →
      (w.set key down).isDown q = w.isDown q) ∧
    (∀ q : Int, pad.isDown q = w.isDown q) ∧ pad.firstDown = w.firstDown ∧
      pad.mask.toNat = w.mask := by
  intro w pad
  have hw : w = pad.toWord := by
    rw [toWord_setAll, toWord_initial]
  have hdown : ∀ q, w.isDown q = pad.isDown q := fun q => by rw [hw, isDown_toWord]
  have hfirst : w.firstDown = pad.firstDown := by rw [hw, firstDown_toWord]
  have hmask : w.mask = pad.mask.toNat := by rw [hw, mask_toWord]
  refine ⟨fun q => ?_, fun k => ?_, ?_, ?_, fun k => ?_, fun key q down h => ?_,
    fun q => (hdown q).symm, hfirst.symm, hmask.symm⟩
  · rw [hdown]
    exact isDown_initial_setAll
  · simp only [hdown]
    exact hfirst ▸ firstDown_eq_some_iff
  · simp only [hdown]
    exact hfirst ▸ firstDown_eq_none_iff
  · have hlt := pad.mask.isLt
    omega
  · rw [hdown, hmask]
    exact pad.testBit_mask k
  · rw [hdown, hw, ← toWord_set, isDown_toWord]
    exact pad.isDown_set_of_ne down h

/-- Key 21 is key 5, key -9 is key 7, key -1 is key 15, and a key of more than 32
bits is key 12.  Keys 7, 12 and 15 are still held at the end. -/
theorem word_is_set_of_held_keys_of_aliases :
    let calls : List KeyCall :=
      [⟨21, true⟩, ⟨-9, true⟩, ⟨0x10000000C, true⟩, ⟨5, false⟩, ⟨-1, true⟩]
    let w := Word.initial.setAll calls
    w.isDown 23 = true ∧ w.isDown 5 = false ∧ w.firstDown = some 7 ∧
      w.mask = 0x9080 ∧
      ¬ 8 ≡ -9 [ZMOD 16] ∧ (w.set 8 true).isDown (-9) = w.isDown (-9) := by
  intro calls w
  obtain ⟨hdown, hfirst, -, -, -, hset, -⟩ := word_is_set_of_held_keys calls
  have hseven : LastAbout 23 calls ⟨-9, true⟩ :=
    ⟨by decide, [⟨21, true⟩], _, rfl, by decide⟩
  have hbelow : ∀ k < 7, w.isDown (k : Nat) = false := by decide
  refine ⟨(hdown 23).2 ⟨_, hseven, rfl⟩, by decide, (hfirst 7).2 ⟨⟨by decide, by decide⟩, ?_⟩,
    by decide, by decide, hset 8 (-9) true (by decide)⟩
  intro k hk
  by_contra hlt
  have hfalse := hbelow k (Nat.not_le.1 hlt)
  rw [hk.2] at hfalse
  cases hfalse

end Keypad
end Chip8
