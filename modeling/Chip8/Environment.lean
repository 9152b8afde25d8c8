/-
# `Chip8.Environment` — environment variables

Variables are names with texts.  A variable that holds the empty text counts
as unset, and a flag is on only if its text is exactly `1`.  Where there is
no environment at all, as on a page, nothing is set.
-/
namespace Chip8

/-- The variables that are set, by name. -/
structure Environment where
  vars : List (String × String)
deriving DecidableEq, Repr

namespace Environment

/-- Nothing is set. -/
def empty : Environment := ⟨[]⟩

/-- The text of a variable, also if it is empty. -/
def raw? (e : Environment) (name : String) : Option String := e.vars.lookup name

/-- The text of a variable that is set. -/
def get? (e : Environment) (name : String) : Option String :=
  (e.raw? name).filter (!·.isEmpty)

/-- The text of a variable that is set, or another text. -/
def getD (e : Environment) (name other : String) : String := (e.get? name).getD other

/-- Whether a flag is on. -/
def flag (e : Environment) (name : String) : Bool := e.get? name == some "1"

end Environment
end Chip8
