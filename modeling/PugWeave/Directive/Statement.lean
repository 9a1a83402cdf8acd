import PugWeave.Text.Regex
import PugWeave.Text.Reindent

namespace PugWeave.Directive

open Text

inductive Mode
  | replace
  | append
  | prepend
  deriving DecidableEq, Repr

inductive Meaning
  | text
  | inclusion (target : Text)
  | parent (target : Text)
  | block (name : Text) (mode : Mode)
  deriving DecidableEq, Repr

structure Statement where
  indent : Nat
  text : Text
  meaning : Meaning
  deriving DecidableEq, Repr

def Mode.ofKeyword (keyword : Option Text) : Mode :=
  if keyword = some "append".toList then .append
  else if keyword = some "prepend".toList then .prepend
  else .replace

namespace Meaning

def gap : Regex := .plus isBlank

def name : Regex := .plus (!isBlank ·)

def amendment : Regex := .either (.word "append".toList) (.word "prepend".toList)

/-- The pattern `^\s*include\s+(\S+)`. -/
def includes : Regex := .star isBlank ++ .word "include".toList ++ gap ++ .group 1 name

/-- The pattern `^extends\s+(\S+)`. -/
def inherits : Regex := .word "extends".toList ++ gap ++ .group 1 name

/-- The pattern `^\s*(?:block(?:\s+(append|prepend))?|(append|prepend))\s+(\S+)`. -/
def opens : Regex :=
  .star isBlank ++
    .either (.word "block".toList ++ .optional (gap ++ .group 1 amendment)) (.group 2 amendment) ++
    gap ++ .group 3 name

/-- The patterns are tried in this order, and a line that none of them matches is text. -/
def of (line : Text) : Meaning :=
  match includes.captures? line with
  | some found => .inclusion (found.text 1)
  | none =>
    match inherits.captures? line with
    | some found => .parent (found.text 1)
    | none =>
      match opens.captures? line with
      | some found => .block (found.text 3) (.ofKeyword (found.lookup 1 <|> found.lookup 2))
      | none => .text

end Meaning

def Statement.ofLine (unit : Nat) (line : Text) : Statement :=
  let indent := (line.takeWhile (· = ' ')).length / unit
  { indent, text := trimEnd (line.drop (indent * unit)), meaning := .of line }

end PugWeave.Directive
