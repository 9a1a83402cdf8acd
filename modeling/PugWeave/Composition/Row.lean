import PugWeave.Text.Reindent

namespace PugWeave.Composition

open Text

structure Row where
  indent : Int
  text : Text
  deriving DecidableEq, Repr

def Row.shift (levels : Int) (row : Row) : Row := { row with indent := row.indent + levels }

/-- Moves a line by a number of columns. To the left it loses no more than its spaces. -/
def shiftLine (columns : Int) (line : Text) : Text :=
  if columns > 0 then spaces columns.toNat ++ line
  else line.drop (min (line.takeWhile (· = ' ')).length (-columns).toNat)

def shiftText (columns : Int) (sep t : Text) : Text :=
  if columns = 0 || t.isEmpty then t
  else join sep (((split sep t).filter (!isBlankLine ·)).map (shiftLine columns))

def render (unit : Nat) (sep : Text) (rows : List Row) : Text :=
  join sep (rows.map fun row => shiftText (row.indent * unit) sep row.text)

end PugWeave.Composition
