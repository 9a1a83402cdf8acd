import PugWeave.Command.Arguments
import PugWeave.Command.Watch

namespace PugWeave.Program

structure Machine where
  files : Files := {}
  seen : List Path := []

def operatingSystemIsDirectory : UInt32 := 21

def content? (p : Path) : IO (Option Content) := do
  try
    let t ← IO.FS.readFile (toString p)
    return some (.text t.toList)
  catch
    | .noFileOrDirectory .. => return none
    | .permissionDenied .. => return some (.unreadable .permissionDenied)
    | .inappropriateType _ code _ =>
      return some (if code = operatingSystemIsDirectory then .directory else .unreadable .other)
    | _ => return some (.unreadable .other)

def look (m : Machine) (p : Path) : IO Machine := do
  let seen := m.seen ++ [p]
  match ← content? p with
  | none => return { m with seen }
  | some (.text t) =>
    let modified := (hash (String.ofList t)).toNat
    return { files := m.files.put p { content := .text t, modified }, seen }
  | some content => return { files := m.files.put p { content, modified := 0 }, seen }

partial def settle (asked : Files → List Path) (m : Machine) : IO Machine := do
  match (Path.distinct (asked m.files)).filter fun p => !m.seen.any p.same with
  | [] => return m
  | new => settle asked (← new.foldlM look m)

def refresh (m : Machine) : IO Machine := m.seen.foldlM look {}

def report (f : Failure) : IO Unit := do (← IO.getStderr).putStr f.report.terminal

def temporary (p : Path) : String := s!"{p}.tmp"

def print (t : Text) : IO Unit := do
  let out ← IO.getStdout
  out.putStr (String.ofList t)
  out.flush

def emit : Emission → IO (Except Failure Unit)
  | .print t => do
    print t
    return .ok ()
  | .write p t => do
    try IO.FS.createDirAll (toString (holder p))
    catch e => return .error (noRoom p (toString e))
    try
      IO.FS.writeFile (temporary p) (String.ofList t)
      IO.FS.rename (temporary p) (toString p)
      return .ok ()
    catch e => return .error (notReplaced p (toString e))
  | .nothing => return .ok ()

def showAttempt (output : Option Path) : Shown → IO (Except Failure Unit)
  | .document t => do
    match ← emit (.of output t), output with
    | .error f, some p => return .error (f.within s!"Failed to write {p}")
    | result, _ => return result
  | .failure r => do
    (← IO.getStderr).putStr r.terminal
    return .ok ()
  | .nothing => return .ok ()

def watchAsks (w : Watch) (first : Bool) (files : Files) : List Path :=
  let w := w.withFiles files
  if first || w.needsAttempt then w.workspace.looksAt w.entry else []

partial def watch (interval : Nat) (output : Option Path) (w : Watch) (m : Machine)
    (first : Bool) : IO UInt32 := do
  let m ← settle (watchAsks w first) m
  let w := w.withFiles m.files
  let (shown, w) := if first then w.attempt else w.tick
  match ← showAttempt output shown with
  | .error f =>
    report f
    return 1
  | .ok () =>
    IO.sleep (max interval 50).toUInt32
    watch interval output w (← refresh m) false

def run (c : Command) (directory : Path) : IO UInt32 := do
  let m ← settle (c.looksAt · directory) {}
  match c.emission m.files directory with
  | .error f =>
    report f
    return 1
  | .ok emission =>
    match ← emit emission with
    | .error f =>
      report f
      return 1
    | .ok () =>
      match c.action, c.workspace m.files directory with
      | .watch interval output, .ok workspace =>
        watch interval output { entry := c.entry, workspace } m true
      | _, _ => return 0

def usage : String :=
  "Usage: pugdep [OPTIONS] <COMMAND>\n\nCommands:\n" ++
  "  resolve  Resolve an entry template\n" ++
  "  deps     Print the asset dependencies of an entry template\n" ++
  "  watch    Re-resolve an entry template whenever it or a template it uses changes\n"

end PugWeave.Program

def main (args : List String) : IO UInt32 := do
  let settings ← IO.getEnv "PUGDEP_CONFIG"
  match PugWeave.Arguments.command (settings.map String.toList) (args.map String.toList) with
  | .error .usage =>
    (← IO.getStderr).putStr PugWeave.Program.usage
    return 2
  | .error .help =>
    (← IO.getStdout).putStr PugWeave.Program.usage
    return 0
  | .error .version =>
    (← IO.getStdout).putStr PugWeave.Arguments.versionLine
    return 0
  | .ok command =>
    PugWeave.Program.run command (.ofString (toString (← IO.currentDir)))
