import PugWeave.Artifact.Basic
import PugWeave.Composition.Resolve
import PugWeave.Template.Cache

namespace PugWeave

namespace Composition

structure Session (paths : List Path) where
  workspace : Workspace
  asks : List Ask := []
  paths_eq : workspace.files.paths = paths

/-- A step of a session. A failed step ends the composition, and the session keeps what was done
until then. -/
def Run (paths : List Path) (α : Type) : Type := Session paths → Except Error α × Session paths

namespace Run

def done (a : α) : Run paths α := fun s => (.ok a, s)

def fail (e : Error) : Run paths α := fun s => (.error e, s)

def andThen (step : Run paths α) (next : α → Run paths β) : Run paths β := fun s =>
  match step s with
  | (.error e, s) => (.error e, s)
  | (.ok a, s) => next a s

instance : Monad (Run paths) where
  pure := done
  bind := andThen

/-- Looks at a path that is complete, to which `Workspace.get` would add nothing. -/
def ask (progress : List Path) (p : Path) : Run paths (Found paths p) := fun s =>
  let after (found : Bool) : Session paths :=
    { workspace := (s.workspace.fetch p).2
      asks := s.asks ++ [⟨progress, p, found⟩]
      paths_eq := by simp [s.paths_eq] }
  match h : (s.workspace.fetch p).1 with
  | .error e => (.error e, after false)
  | .ok t => (.ok ⟨t, s.paths_eq ▸ Workspace.listed_of_fetch h⟩, after true)

def source (paths : List Path) : Source (Run paths) := ⟨paths, fail, ask⟩

end Run

end Composition

namespace Workspace

open PugWeave.Composition

def opened (w : Workspace) : Session w.files.paths := { workspace := w, paths_eq := rfl }

def session (w : Workspace) (entry : Path) :
    Except Error Composed × Session w.files.paths :=
  Composition.resolve (Run.source w.files.paths) w.rules [] [] entry w.opened

def compose (w : Workspace) (entry : Path) : Except Error Composed × Workspace :=
  let (outcome, s) := w.session entry
  (outcome, s.workspace)

def entryPath (w : Workspace) (entry : Path) : Path := w.directory.resolve entry

def looksAt (w : Workspace) (entry : Path) : List Path :=
  (w.session (w.entryPath entry)).2.asks.map Ask.path

def resolve (w : Workspace) (entry : Path) : Except Error Artifact × Workspace :=
  let (outcome, w') := w.compose (w.entryPath entry)
  (outcome.map fun c => ⟨render w.rules.indentUnit w.rules.separator c.rows, c.deps⟩, w')

end Workspace

end PugWeave
