import PugWeave.Asset.Extraction
import PugWeave.Directive.Node

namespace PugWeave

structure Template where
  path : Path
  directory : Path
  modified : Nat
  source : Text
  tokens : List Markup.Token
  content : Text
  nodes : List Directive.Node
  assets : List Path
  deriving Repr

namespace Template

def tokens? (path : Path) (t : Text) : Except Error (List Markup.Token) :=
  match Markup.tokenize t with
  | .error e => .error (.malformed path e.line e.fault.message)
  | .ok tokens => .ok tokens

/-- Reads a template from a file's text. The text must be markup both as it is and in its normal
form. -/
def read (rules : Rules) (path : Path) (modified : Nat) (raw : Text) : Except Error Template :=
  let source := Text.normalize rules.indentUnit rules.separator raw
  match tokens? path raw, tokens? path source with
  | .error e, _ => .error e
  | .ok _, .error e => .error e
  | .ok _, .ok tokens =>
    let found := Asset.extract rules path.parent source tokens
    .ok {
      path
      directory := path.parent
      modified
      source
      tokens
      content := found.content
      nodes := Directive.parse rules.indentUnit rules.separator found.content
      assets := found.assets }

end Template

end PugWeave
