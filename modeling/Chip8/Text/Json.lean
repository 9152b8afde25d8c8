/-
# `Chip8.Text.Json` — values written as one line of JSON

Reports are written without blanks.  The members of an object keep their
order, except that members whose names are list indices come first, by
increasing index.  In a string the quote, the backslash and the control
characters are escaped, five of them by a letter and the others by four
hexadecimal digits; everything else stands for itself.  A number that is not
finite is written as `null`.
-/
import Chip8.Number.Decimal
import Chip8.Number.Hexadecimal

namespace Chip8

/-- A value to be written. -/
inductive Json where
  | null
  | bool (b : Bool)
  | number (n : Number)
  | text (s : String)
  | list (items : List Json)
  | object (members : List (String × Json))
deriving Inhabited

namespace Json

/-- A natural number. -/
def nat (n : Nat) : Json := .number (.whole n)

/-- The member of an object with a name. -/
def member? (v : Json) (name : String) : Option Json :=
  match v with
  | object members => members.lookup name
  | _ => none

mutual

/-- The value as a plain text: the items of a list with commas in between,
and nothing at all about an object but that it is one. -/
def plain : Json → String
  | null => "null"
  | bool b => if b then "true" else "false"
  | number n => n.text
  | text s => s
  | list items => String.intercalate "," (plainItems items)
  | object _ => "[object Object]"

/-- The items of a list as plain texts; one that is `null` is empty. -/
def plainItems : List Json → List String
  | [] => []
  | null :: vs => "" :: plainItems vs
  | v :: vs => plain v :: plainItems vs

end

/-- A character within a string. -/
def escape (c : Char) : List Char :=
  match c with
  | '"' => ['\\', '"']
  | '\\' => ['\\', '\\']
  | '\n' => ['\\', 'n']
  | '\r' => ['\\', 'r']
  | '\t' => ['\\', 't']
  | c =>
      if c.toNat = 8 then ['\\', 'b']
      else if c.toNat = 12 then ['\\', 'f']
      else if c.toNat < 32 then '\\' :: 'u' :: zeroFill 4 (hexDigits c.toNat)
      else [c]

/-- A string with its quotes. -/
def quote (s : String) : String :=
  String.ofList ('"' :: (s.toList.flatMap escape ++ ['"']))

/-- Parts between two delimiters, separated by commas. -/
def enclose (first last : String) (parts : List String) : String :=
  first ++ String.intercalate "," parts ++ last

/-- The list index that a name is: a number below `2 ^ 32 - 1` in base ten,
without a zero in front. -/
def listIndex? (name : String) : Option Nat :=
  let n := name.toList.foldl (fun n c => n * 10 + (c.toNat - 48)) 0
  if Decimal.digitsOf n = name.toList ∧ n < 4294967295 then some n else none

/-- Puts a member in front of all whose index is not below its own. -/
def insertByIndex {β : Type} (index : Nat) (m : String × β) :
    List (Nat × (String × β)) → List (Nat × (String × β))
  | [] => [(index, m)]
  | (i, m') :: rest =>
      if index ≤ i then (index, m) :: (i, m') :: rest
      else (i, m') :: insertByIndex index m rest

/-- The members that are named by an index, by increasing index. -/
def indexed {β : Type} (members : List (String × β)) : List (Nat × (String × β)) :=
  members.foldr (fun m acc =>
    match listIndex? m.1 with
    | some i => insertByIndex i m acc
    | none => acc) []

/-- The members in the order in which they are written. -/
def inOrder {β : Type} (members : List (String × β)) : List (String × β) :=
  (indexed members).map Prod.snd ++ members.filter fun m => (listIndex? m.1).isNone

mutual

/-- The value as one line. -/
def write : Json → String
  | null => "null"
  | bool b => if b then "true" else "false"
  | number n => if n.isFinite then n.text else "null"
  | text s => quote s
  | list items => enclose "[" "]" (writeItems items)
  | object members =>
      enclose "\x7b" "\x7d"
        ((inOrder (writeMembers members)).map fun (k, v) => quote k ++ ":" ++ v)

/-- The items of a list. -/
def writeItems : List Json → List String
  | [] => []
  | v :: vs => write v :: writeItems vs

/-- The members of an object, each with its value as text. -/
def writeMembers : List (String × Json) → List (String × String)
  | [] => []
  | (k, v) :: ms => (k, write v) :: writeMembers ms

end

end Json
end Chip8
