import PugWeave.Command.Output

namespace PugWeave.Command

def workspace (c : Command) (files : Files) (directory : Path) : Except Failure Workspace :=
  match c.rules files directory with
  | .error e => .error { cause := .error e }
  | .ok rules => .ok { rules, files, directory }

def artifact (c : Command) (files : Files) (directory : Path) : Except Failure Artifact := do
  let w ← c.workspace files directory
  match (w.resolve c.entry).1 with
  | .error e => .error { context := [s!"Failed to resolve {c.entry}"], cause := .error e }
  | .ok a => .ok a

def unknownFormat (name : String) : String :=
  s!"Invalid format '{name}'. Valid formats are: text, json, module"

def emission (c : Command) (files : Files) (directory : Path) : Except Failure Emission :=
  match c.action with
  | .resolve format output =>
    match Format.ofText? format with
    | none => .error { cause := .message (unknownFormat (String.ofList format)) }
    | some format => (c.artifact files directory).map fun a => .of output (a.write format)
  | .deps flat json =>
    (c.artifact files directory).map fun a =>
      if (a.listing flat json).isEmpty then .nothing else .of none (a.listing flat json)
  | .watch _ _ => (c.workspace files directory).map fun _ => .nothing

def run (c : Command) (files : Files) (directory : Path) (modified : Nat) : Outcome :=
  match c.emission files directory >>= Emission.outcome files directory modified with
  | .error f => .failed f files
  | .ok outcome => outcome

def looksAt (c : Command) (files : Files) (directory : Path) : List Path :=
  let settings := (directory.join (c.settings.getD Settings.fileName)).components
  let way := (List.range settings.length).map fun k =>
    (Path.ofComponents (settings.take (k + 1))).normalize
  match c.workspace files directory with
  | .error _ => way
  | .ok w => way ++ w.looksAt c.entry

end PugWeave.Command
