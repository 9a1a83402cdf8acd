import PugWeave.Directive.Statement

namespace PugWeave.Directive

inductive Node
  | text (indent : Nat) (text : Text)
  | inclusion (indent : Nat) (text target : Text)
  | parent (indent : Nat) (text target : Text)
  | block (indent : Nat) (text name : Text) (mode : Mode) (children : List Node)
  deriving Repr

namespace Node

def ofStatement (s : Statement) (children : List Node) : Node :=
  match s.meaning with
  | .text => .text s.indent s.text
  | .inclusion target => .inclusion s.indent s.text target
  | .parent target => .parent s.indent s.text target
  | .block name mode => .block s.indent s.text name mode children

end Node

def Meaning.isBlock : Meaning → Bool
  | .block .. => true
  | _ => false

def nested (s : Statement) (rest : List Statement) : List Statement :=
  if s.meaning.isBlock then rest.takeWhile (s.indent < ·.indent) else []

def following (s : Statement) (rest : List Statement) : List Statement :=
  if s.meaning.isBlock then rest.dropWhile (s.indent < ·.indent) else rest

@[simp] theorem nested_append_following (s : Statement) (rest : List Statement) :
    nested s rest ++ following s rest = rest := by
  simp only [nested, following]
  split <;> simp

def tree : List Statement → List Node
  | [] => []
  | s :: rest =>
    have : (nested s rest).length + (following s rest).length = rest.length := by
      rw [← List.length_append, nested_append_following]
    .ofStatement s (tree (nested s rest)) :: tree (following s rest)
  termination_by statements => statements.length

def parse (unit : Nat) (sep t : Text) : List Node :=
  tree (((Text.split sep t).filter (!Text.isBlankLine ·)).map (Statement.ofLine unit))

end PugWeave.Directive
