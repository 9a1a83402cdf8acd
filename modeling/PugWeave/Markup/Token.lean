import PugWeave.Text.Basic

namespace PugWeave.Markup

/-- Lines count from one. A value keeps its quotes; an attribute without one is a flag. -/
inductive Token
  | tag (name : Text) (line : Nat)
  | attr (name : Text) (value : Option Text) (line : Nat)
  deriving DecidableEq, Repr

def Token.line : Token → Nat
  | .tag _ line => line
  | .attr _ _ line => line

/-- A token that was read, with the number of characters that were left where its value begins, or
where it begins itself if it has none. -/
structure Spot where
  token : Token
  left : Nat
  deriving DecidableEq, Repr

inductive Fault
  | mixedIndentation
  | unclosedList
  | unterminatedString
  | unexpected (c : Char)
  deriving DecidableEq, Repr

def Fault.message : Fault → String
  | .mixedIndentation => "Invalid indentation, you can use tabs or spaces but not both"
  | .unclosedList => "The end of the template was reached with no closing bracket found"
  | .unterminatedString => "Unterminated string literal"
  | .unexpected c => s!"Unexpected character '{c}' in attribute list"

structure LexError where
  line : Nat
  fault : Fault
  deriving DecidableEq, Repr

def LexError.message (e : LexError) : String := s!"{e.fault.message} (line {e.line})"

end PugWeave.Markup
