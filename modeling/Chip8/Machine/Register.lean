/-
# `Chip8.Machine.Register` — registers by any name

A word names a register by a digit.  A host may name one by any argument,
and a register by that name need not exist:

| the argument is | the register |
| :-- | :-- |
| a whole number below sixteen, or the text of one | has that number |
| any other number, or the text of one | is missing |
| anything else | goes by the text of the argument |

A numbered register holds a byte.  A missing one holds nothing, and what is
put there is lost.  A named one holds nothing until something is put there,
and then holds just that, which need not be a byte, until the processor is
reset.
-/
import Chip8.Machine

namespace Chip8

/-- A register, as a host names it. -/
inductive Register where
  | numbered (k : Fin 16)
  | missing
  | named (name : String)
deriving DecidableEq

namespace Register

/-- The register with a number. -/
def ofNumber : Number → Register
  | .whole n => if h : 0 ≤ n ∧ n < 16 then numbered ⟨n.toNat, (Int.toNat_lt h.1).2 h.2⟩ else missing
  | .other _ => missing

/-- The register that goes by a text.  The text of a number stands for that
number, and so does minus zero, which has no register. -/
def ofText (text : String) : Register :=
  let n := Number.ofNumeral text
  if n.text = text then ofNumber n else if text = "-0" then missing else named text

/-- The register that an argument names. -/
def ofArgument : Argument → Register
  | .number n => ofNumber n
  | a => ofText a.text

/-- What a register keeps of something that is put there. -/
def keep : Register → Argument → Argument
  | numbered _, a => .number (.whole a.byte.toNat)
  | missing, _ => .absent
  | named _, a => a

end Register

/-- Leaving one name out changes nothing about the others. -/
theorem lookup_filter_ne {β : Type} {name other : String} (entries : List (String × β))
    (h : other ≠ name) :
    (entries.filter fun e => e.1 != name).lookup other = entries.lookup other := by
  induction entries with
  | nil => rfl
  | cons e rest ih =>
    obtain ⟨key, value⟩ := e
    by_cases hk : key = name
    · subst hk
      have ho : (other == key) = false := by simpa using h
      rw [List.filter_cons_of_neg (by simp), ih, List.lookup_cons, ho]
    · rw [List.filter_cons_of_pos (by simpa using hk), List.lookup_cons, List.lookup_cons, ih]

namespace Cpu

/-- What a register holds. -/
def held (c : Cpu) : Register → Argument
  | .numbered k => .number (.whole c.v[k].toNat)
  | .missing => .absent
  | .named name => (c.extra.lookup name).getD .absent

/-- Puts something into a register. -/
def hold (c : Cpu) (r : Register) (a : Argument) : Cpu :=
  match r with
  | .numbered k => { c with v := c.v.set k a.byte }
  | .missing => c
  | .named name => { c with extra := (name, a) :: c.extra.filter fun e => e.1 != name }

/-- What is put into a register is what it holds afterwards, as far as it
keeps it, and no other register changes. -/
theorem held_hold (c : Cpu) (r q : Register) (a : Argument) :
    (c.hold r a).held q = if q = r then r.keep a else c.held q := by
  cases r with
  | missing =>
    by_cases h : q = .missing
    · rw [if_pos h, h]; rfl
    · rw [if_neg h]; rfl
  | numbered k =>
    cases q with
    | numbered j =>
      by_cases h : j = k
      · subst h; simp [hold, held, Register.keep]
      · have h' : (k : Nat) ≠ j := fun e => h (Fin.ext e.symm)
        simp [hold, held, h, h']
    | missing => simp [held]
    | named name => simp [hold, held]
  | named name =>
    cases q with
    | numbered j => simp [hold, held]
    | missing => simp [held]
    | named other =>
      by_cases h : other = name
      · subst h; simp [hold, held, Register.keep]
      · have hb : (other == name) = false := by simpa using h
        rw [if_neg (by simpa using h)]
        simp only [hold, held, List.lookup_cons, hb]
        exact congrArg (Option.getD · .absent) (lookup_filter_ne c.extra h)

end Cpu
end Chip8
