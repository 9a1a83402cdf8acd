import PugWeave.Settings
import PugWeave.Template.Files
import PugWeave.Toml.Document

namespace PugWeave.Settings

open Toml (Entries Item)

def sizeLimit : Nat := 18446744073709551616

def given (entries : Entries) (key : String) (read : Item → Option α) (default : α) : Option α :=
  match entries.get? key.toList with
  | none => some default
  | some item => read item

def size? : Item → Option Nat
  | .integer (.ofNat n) => if n < sizeLimit then some n else none
  | _ => none

def text? : Item → Option Text
  | .string t => some t
  | _ => none

def texts? : Item → Option (List Text)
  | .array items => items.mapM text?
  | _ => none

def ofEntries? (entries : Entries) : Option Settings := do
  let default : Settings := {}
  return {
    indentUnit := ← given entries "indent-unit" size? default.indentUnit
    lineSeparator := ← given entries "line-separator" text? default.lineSeparator
    attributes := ← given entries "attributes" texts? default.attributes
    defaultExtension := ← given entries "default-extension" text? default.defaultExtension }

def fileName : Path := .ofString "pugdep.toml"

def readFile (files : Files) (directory p : Path) : Except Error Settings :=
  match files.follow directory p >>= files.text with
  | .error failure => .error (.ofIo p failure)
  | .ok t =>
    match Toml.parse? t >>= ofEntries? with
    | none => .error (.unparsedSettings p)
    | some s => .ok s

def load (files : Files) (directory : Path) : Option Path → Except Error Settings
  | some p => readFile files directory p
  | none =>
    if (files.find? (directory.join fileName)).isSome then readFile files directory fileName
    else .ok {}

end PugWeave.Settings
