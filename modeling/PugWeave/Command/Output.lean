import PugWeave.Artifact.Script
import PugWeave.Command.Basic
import PugWeave.Composition.Session

namespace PugWeave

def Artifact.write (a : Artifact) : Format → Text
  | .text => a.content
  | .json => a.json.pretty 0
  | .module => a.script

def line (t : Text) : Text := t ++ ['\n']

def grouped (m : Composition.DependencyMap) : Text :=
  Text.trimEnd (m.entries.flatMap fun (template, assets) =>
    if assets.isEmpty then line (template.text ++ " (no assets)".toList)
    else line template.text ++ assets.flatMap fun asset => line (' ' :: ' ' :: asset.text))

def Artifact.listing (a : Artifact) (flat json : Bool) : Text :=
  match flat, json with
  | true, true => (Json.array (a.assets.map fun asset => .string asset.text)).pretty 0
  | false, true => a.deps.json.pretty 0
  | true, false => Text.join ['\n'] (a.assets.map Path.text)
  | false, false => grouped a.deps

inductive Emission
  | print (t : Text)
  | write (p : Path) (t : Text)
  | nothing
  deriving DecidableEq, Repr

def Emission.of (output : Option Path) (t : Text) : Emission :=
  match output with
  | none => .print (line t)
  | some p => .write p t

structure Outcome where
  code : Nat := 0
  stdout : Text := []
  stderr : Text := []
  files : Files

def Outcome.failed (f : Failure) (files : Files) : Outcome where
  code := 1
  stderr := f.report.terminal.toList
  files

def holder (p : Path) : Path := if p.parent.text.isEmpty then ⟨['.']⟩ else p.parent

def noRoom (p : Path) (why : String) : Failure :=
  { context := [s!"Failed to create directory: {holder p}"], cause := .message why }

def notReplaced (p : Path) (why : String) : Failure :=
  { context := [s!"Failed to rename temp file to: {p}", "failed to persist temporary file", why],
    cause := .message why }

def Files.save (fs : Files) (directory p : Path) (t : Text) (modified : Nat) :
    Except Failure Files :=
  match fs.makeDirectory directory (holder p) with
  | .error _ => .error (noRoom p "Not a directory (os error 20)")
  | .ok fs =>
    match fs.follow directory p with
    | .error _ => .error (notReplaced p "Not a directory (os error 20)")
    | .ok place =>
      match fs.find? place with
      | some ⟨.directory, _, _⟩ => .error (notReplaced p "Is a directory (os error 21)")
      | _ => .ok (fs.put place { content := .text t, modified })

def Emission.outcome (files : Files) (directory : Path) (modified : Nat) :
    Emission → Except Failure Outcome
  | .print t => .ok { stdout := t, files }
  | .write p t => (files.save directory p t modified).map fun files => { files }
  | .nothing => .ok { files }

end PugWeave
