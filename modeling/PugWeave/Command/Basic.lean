import PugWeave.Settings.File

namespace PugWeave

structure Adjustments where
  indentUnit : Option Nat := none
  lineBreak : Option LineBreak := none
  attributes : List Text := []
  extension : Option Text := none
  deriving DecidableEq, Repr

def Adjustments.apply (a : Adjustments) (s : Settings) : Settings where
  indentUnit := a.indentUnit.getD s.indentUnit
  lineSeparator := (a.lineBreak.map LineBreak.text).getD s.lineSeparator
  attributes := if a.attributes.isEmpty then s.attributes else a.attributes
  defaultExtension := a.extension.getD s.defaultExtension

inductive Format
  | text
  | json
  | module
  deriving DecidableEq, Repr

def Format.ofText? (t : Text) : Option Format :=
  if t = "text".toList then some .text
  else if t = "json".toList then some .json
  else if t = "module".toList then some .module
  else none

inductive Action
  | resolve (format : Text) (output : Option Path)
  | deps (flat json : Bool)
  | watch (interval : Nat) (output : Option Path)
  deriving DecidableEq, Repr

structure Command where
  entry : Path
  adjustments : Adjustments
  settings : Option Path
  action : Action
  deriving DecidableEq, Repr

def Command.rules (c : Command) (files : Files) (directory : Path) : Except Error Rules :=
  match Settings.load files directory c.settings with
  | .error e => .error e
  | .ok s => (c.adjustments.apply s).check

end PugWeave
