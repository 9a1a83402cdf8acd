import PugWeave.Error
import PugWeave.Text.Blank

namespace PugWeave.Asset

structure Pattern where
  tag : Option Text
  name : Text
  deriving DecidableEq, Repr

namespace Pattern

def parse (raw : Text) : Except Error Pattern :=
  match Text.cut ':' (Text.trim raw) with
  | none => .error (.badPattern raw "expected `tag:attribute` or `:attribute`")
  | some (_, []) => .error (.badPattern raw "attribute name is empty")
  | some (tag, name) => .ok ⟨if tag.isEmpty then none else some tag, name⟩

def selects (p : Pattern) (tag : Option Text) (name : Text) : Bool :=
  p.name = name && p.tag.all (tag = some ·)

def text (p : Pattern) : Text := p.tag.getD [] ++ ':' :: p.name

end Pattern

end PugWeave.Asset
