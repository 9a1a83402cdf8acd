import PugWeave.Path.Basic

namespace PugWeave

instance decidableEqExcept [DecidableEq ε] [DecidableEq α] : DecidableEq (Except ε α)
  | .ok a, .ok b => decidable_of_iff (a = b) (by simp)
  | .error e, .error f => decidable_of_iff (e = f) (by simp)
  | .ok _, .error _ => isFalse (by simp)
  | .error _, .ok _ => isFalse (by simp)

inductive IoFailure
  | notFound
  | permissionDenied
  | invalidData
  | other
  deriving DecidableEq, Repr

/-- The chain of a circular reference ends in the template that was entered again. -/
inductive Error
  | missing (path : Path)
  | malformed (path : Path) (line : Nat) (reason : String)
  | circular (chain : List Path)
  | badPattern (pattern : Text) (reason : String)
  | badSetting (reason : String)
  | unparsedSettings (path : Path)
  | unreadable (path : Path) (failure : IoFailure)
  | other (message : String)
  deriving DecidableEq, Repr

namespace Error

def ofIo (path : Path) : IoFailure → Error
  | .notFound => .missing path
  | failure => .unreadable path failure

def message : Error → String
  | .missing path => s!"Template not found: {path}"
  | .malformed path line reason => s!"Syntax error in {path}:{line}: {reason}"
  | .circular chain =>
    "Circular template reference: " ++ " -> ".intercalate (chain.map toString)
  | .badPattern pattern reason =>
    s!"Invalid attribute pattern `{String.ofList pattern}`: {reason}"
  | .badSetting reason => s!"Invalid configuration: {reason}"
  | .unparsedSettings path => s!"Failed to parse configuration file {path}"
  | .unreadable path _ => s!"Failed reading {path}"
  | .other message => message

end Error

structure Report where
  error : Error
  suggestion : Option String := none
  details : Option String := none
  deriving DecidableEq, Repr

def Error.report (e : Error) : Report where
  error := e
  suggestion :=
    match e with
    | .missing _ =>
      "Check the `extends`/`include` path; references are resolved relative to the template " ++
        "that contains them"
    | .malformed .. => "Fix the template syntax at the reported line"
    | .circular _ => "Remove one of the `extends`/`include` references in the cycle"
    | .badPattern .. => "Use `tag:attribute` (e.g. `img:src`) or `:attribute` to match any tag"
    | .badSetting _ | .unparsedSettings _ => "Check pugdep.toml or the command-line overrides"
    | .unreadable _ .permissionDenied => "Check file ownership and permissions"
    | .unreadable .. | .other _ => none
  details :=
    match e with
    | .missing _ => "Paths without an extension get the configured default extension appended"
    | .malformed .. =>
      "Every template is tokenized before composition; a syntax error aborts the whole " ++
        "resolution"
    | _ => none

def Report.text (r : Report) : String :=
  r.error.message ++
    (r.details.map fun d => s!"\nDetails: {d}").getD "" ++
    (r.suggestion.map fun s => s!"\nSuggestion: {s}").getD ""

def Report.terminal (r : Report) : String :=
  s!"error: {r.error.message}\n" ++
    (r.details.map fun d => s!"details: {d}\n").getD "" ++
    (r.suggestion.map fun s => s!"suggestion: {s}\n").getD ""

inductive Cause
  | error (e : Error)
  | message (text : String)
  | io (failure : IoFailure) (text : String)
  deriving DecidableEq, Repr

structure Failure where
  context : List String := []
  cause : Cause
  deriving DecidableEq, Repr

def Failure.within (f : Failure) (context : String) : Failure :=
  { f with context := context :: f.context }

def Failure.report (f : Failure) : Report :=
  let chain (text : String) : Error := .other (": ".intercalate (f.context ++ [text]))
  match f.cause with
  | .error e => e.report
  | .message text => { error := chain text }
  | .io .permissionDenied text =>
    { error := chain text, suggestion := "Check file ownership and permissions" }
  | .io _ text => { error := chain text }

end PugWeave
