import PugWeave.Text.Lines

namespace PugWeave.Text

def detectUnit (ls : List Text) : Option Text :=
  ((ls.filter (!isBlankLine ·)).map indentation).find? (!·.isEmpty)

def repeated (n : Nat) (unit : Text) : Text := (List.replicate n unit).flatten

def spaces (n : Nat) : Text := List.replicate n ' '

/-- Levels are counted in bytes, and a line keeps its indentation unless that begins with as many
copies of the unit. -/
def reindentLine (unit : Text) (width : Nat) (line : Text) : Text :=
  let levels := byteLength (indentation line) / byteLength unit
  let whole := repeated levels unit
  if whole.isPrefixOf (indentation line) then spaces (levels * width) ++ line.drop whole.length
  else line

def reindent (width : Nat) (sep t : Text) : Text :=
  match detectUnit (split sep t) with
  | none => t
  | some unit =>
    if !unit.contains '\t' && byteLength unit = width then t
    else join sep ((split sep t).map (reindentLine unit width))

def normalize (width : Nat) (sep t : Text) : Text := reindent width sep (withSeparator sep t)

end PugWeave.Text
