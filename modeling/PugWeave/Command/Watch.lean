import PugWeave.Command.Run

namespace PugWeave

inductive Shown
  | document (t : Text)
  | failure (r : Report)
  | nothing
  deriving DecidableEq, Repr

structure Watch where
  entry : Path
  workspace : Workspace
  templates : List Path := []
  lastError : Option String := none

namespace Watch

def attempt (w : Watch) : Shown × Watch :=
  match w.workspace.resolve w.entry with
  | (.ok a, workspace) =>
    (.document a.content,
      { w with workspace, templates := a.deps.templates, lastError := none })
  | (.error e, workspace) =>
    (if w.lastError = some e.message then .nothing else .failure e.report,
      { w with workspace, lastError := some e.message })

def needsAttempt (w : Watch) : Bool :=
  w.lastError.isSome || w.templates.any w.workspace.isStale

def tick (w : Watch) : Shown × Watch := if w.needsAttempt then w.attempt else (.nothing, w)

def withFiles (w : Watch) (files : Files) : Watch :=
  { w with workspace := { w.workspace with files } }

end Watch

def Shown.outcome (files : Files) (directory : Path) (output : Option Path) (modified : Nat) :
    Shown → Except Failure Outcome
  | .document t =>
    match (Emission.of output t).outcome files directory modified, output with
    | .error f, some p => .error (f.within s!"Failed to write {p}")
    | result, _ => result
  | .failure r => .ok { stderr := r.terminal.toList, files }
  | .nothing => .ok { files }

end PugWeave
