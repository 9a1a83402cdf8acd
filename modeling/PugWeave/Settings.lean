import PugWeave.Asset.Pattern
import PugWeave.Path.Extension
import PugWeave.Text.Lines
import PugWeave.Text.Quoted

namespace PugWeave

structure Settings where
  indentUnit : Nat := 2
  lineSeparator : Text := ['\n']
  attributes : List Text := ["img:src".toList]
  defaultExtension : Text := "pug".toList
  deriving DecidableEq, Repr

/-- Checked settings. The extension has no leading dot, and an empty one is never added. -/
structure Rules where
  indentUnit : Nat
  lineBreak : LineBreak
  patterns : List Asset.Pattern
  extension : Text
  indentUnit_pos : 0 < indentUnit
  deriving DecidableEq

namespace Settings

def check (s : Settings) : Except Error Rules :=
  if h : s.indentUnit = 0 then .error (.badSetting "indent-unit must be at least 1")
  else
    match LineBreak.ofText? s.lineSeparator with
    | none =>
      .error (.badSetting ("line-separator must be \"\\n\", \"\\r\\n\" or \"\\r\", got " ++
        String.ofList (Text.quoted s.lineSeparator)))
    | some lineBreak =>
      match s.attributes.mapM Asset.Pattern.parse with
      | .error e => .error e
      | .ok patterns =>
        .ok {
          indentUnit := s.indentUnit
          lineBreak
          patterns
          extension := s.defaultExtension.dropWhile (· = '.')
          indentUnit_pos := Nat.pos_of_ne_zero h }

end Settings

namespace Rules

def separator (r : Rules) : Text := r.lineBreak.text

def selects (r : Rules) (tag : Option Text) (name : Text) : Bool :=
  r.patterns.any fun p => p.selects tag name

def complete (r : Rules) (p : Path) : Path := p.complete r.extension

end Rules

end PugWeave
