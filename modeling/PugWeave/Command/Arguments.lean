import PugWeave.Command.Basic

namespace PugWeave.Arguments

inductive Key
  | verbose
  | quiet
  | config
  | help
  | version
  | indentUnit
  | lineSeparator
  | attr
  | extension
  | format
  | output
  | flat
  | json
  | interval
  deriving DecidableEq, Repr

structure Form where
  key : Key
  long : Text
  short : Option Char := none
  takesValue : Bool := true

inductive Stop
  | usage
  | help
  | version
  deriving DecidableEq, Repr

def versionLine : String := "pugdep 0.3.0\n"

def shared : List Form := [
  { key := .verbose, long := "verbose".toList, short := 'v', takesValue := false },
  { key := .quiet, long := "quiet".toList, short := 'q', takesValue := false },
  { key := .config, long := "config".toList, short := 'c' },
  { key := .help, long := "help".toList, short := 'h', takesValue := false }]

def program : List Form :=
  shared ++ [{ key := .version, long := "version".toList, short := 'V', takesValue := false }]

def common : List Form :=
  shared ++ [
    { key := .indentUnit, long := "indent-unit".toList },
    { key := .lineSeparator, long := "line-separator".toList },
    { key := .attr, long := "attr".toList },
    { key := .extension, long := "extension".toList }]

def outputForm : Form := { key := .output, long := "output".toList, short := 'o' }

inductive Verb
  | resolve
  | deps
  | watch
  deriving DecidableEq, Repr

def Verb.ofText? (t : Text) : Option Verb :=
  if t = "resolve".toList then some .resolve
  else if t = "deps".toList then some .deps
  else if t = "watch".toList then some .watch
  else none

def Verb.forms : Verb → List Form
  | .resolve => common ++ [{ key := .format, long := "format".toList, short := 'f' }, outputForm]
  | .deps =>
    common ++ [
      { key := .flat, long := "flat".toList, takesValue := false },
      { key := .json, long := "json".toList, takesValue := false }]
  | .watch => common ++ [{ key := .interval, long := "interval-ms".toList }, outputForm]

def number? (limit : Nat) (t : Text) : Option Nat :=
  let digits := if t.head? = some '+' then t.tail else t
  if digits.isEmpty || !digits.all Char.isDigit then none
  else
    let n := digits.foldl (fun n c => 10 * n + (c.toNat - '0'.toNat)) 0
    if n < limit then some n else none

def lineBreak? (t : Text) : Option LineBreak :=
  if t = "lf".toList then some .lf
  else if t = "crlf".toList then some .crlf
  else if t = "cr".toList then some .cr
  else none

def Key.accepts (value : Text) : Key → Bool
  | .config | .output => !value.isEmpty
  | .indentUnit | .interval => (number? Settings.sizeLimit value).isSome
  | .lineSeparator => (lineBreak? value).isSome
  | _ => true

structure Level where
  options : List (Key × Text) := []
  entry : Option Text := none
  pending : Option (Key × Text) := none
  deriving Repr

namespace Level

def get? (l : Level) (key : Key) : Option Text := (l.options.find? (·.1 = key)).map Prod.snd

def has (l : Level) (key : Key) : Bool := (l.get? key).isSome

def all (l : Level) (key : Key) : List Text :=
  (l.options.filter (·.1 = key)).map Prod.snd

def add (l : Level) (key : Key) (value : Text) : Except Stop Level :=
  match key with
  | .help => .error .help
  | .version => .error .version
  | key =>
    if (l.has key && key ≠ .attr) || !key.accepts value then .error .usage
    else .ok { l with options := l.options ++ [(key, value)] }

def close (l : Level) : Except Stop Level :=
  match l.pending with
  | none => .ok l
  | some (key, value) => { l with pending := none }.add key value

def addEntry (l : Level) (arg : Text) : Except Stop Level :=
  if l.entry.isSome || arg.isEmpty then .error .usage else .ok { l with entry := some arg }

end Level

def looksLikeOption (arg : Text) : Bool := arg.head? = some '-' && arg ≠ ['-']

def addCluster (forms : List Form) : Level → Text → Except Stop (Level × Option Key)
  | l, [] => .ok (l, none)
  | l, c :: r =>
    match forms.find? (·.short = some c) with
    | none => .error .usage
    | some form =>
      if !form.takesValue then do addCluster forms (← l.add form.key []) r
      else
        match r with
        | [] => .ok (l, some form.key)
        | '=' :: value => do return (← l.add form.key value, none)
        | value => do return (← l.add form.key value, none)

def addLong (forms : List Form) (l : Level) (written : Text) : Except Stop (Level × Option Key) :=
  let name := written.takeWhile (· ≠ '=')
  match forms.find? (·.long = name), written.drop name.length with
  | none, _ => .error .usage
  | some form, [] =>
    if form.takesValue then .ok (l, some form.key) else do return (← l.add form.key [], none)
  | some form, _ :: value =>
    if form.takesValue then do return (← l.add form.key value, none) else .error .usage

def addOption (forms : List Form) (l : Level) (arg : Text) : Except Stop (Level × Option Key) := do
  let l ← l.close
  match arg with
  | '-' :: '-' :: written => addLong forms l written
  | written => addCluster forms l (written.drop 1)

/-- Reads the arguments of a level. If `toCommand` is set, it stops before the first that is no
option, and an option can still be pending. After `--` nothing is an option. -/
def read (forms : List Form) (toCommand : Bool) :
    Level → List Text → Except Stop (Level × List Text)
  | l, [] => do return (← l.close, [])
  | l, arg :: rest =>
    if arg = ['-', '-'] then
      if toCommand then .error .usage
      else do return (← rest.foldlM Level.addEntry (← l.close), [])
    else if looksLikeOption arg then
      match addOption forms l arg with
      | .error stop => .error stop
      | .ok (l, none) => read forms toCommand l rest
      | .ok (l, some key) =>
        match rest with
        | [] => .error .usage
        | value :: rest =>
          if looksLikeOption value then .error .usage
          else read forms toCommand { l with pending := some (key, value) } rest
    else if toCommand then .ok (l, arg :: rest)
    else
      match l.addEntry arg with
      | .error stop => .error stop
      | .ok l => read forms toCommand l rest

def finish (settings : Option Text) (l : Level) : Except Stop Level := do
  let l ← l.close
  let l ←
    match settings with
    | some value => if l.has .config then .ok l else l.add .config value
    | none => .ok l
  if l.has .verbose && l.has .quiet then .error .usage else .ok l

def action (verb : Verb) (l : Level) : Action :=
  let output := (l.get? .output).map Path.mk
  match verb with
  | .resolve => .resolve ((l.get? .format).getD "text".toList) output
  | .deps => .deps (l.has .flat) (l.has .json)
  | .watch => .watch (((l.get? .interval).bind (number? Settings.sizeLimit)).getD 500) output

def settingsPath (outer inner finished : Level) : Option Path :=
  ((inner.get? .config <|> outer.get? .config) <|> finished.get? .config).map Path.mk

def isTopic : List Text → Bool
  | [] => true
  | [name] => name = "help".toList || (Verb.ofText? name).isSome
  | _ => false

def command (settings : Option Text) (args : List Text) : Except Stop Command := do
  let (outer, rest) ← read program true {} args
  match rest with
  | [] => .error .usage
  | name :: rest =>
    if name = "help".toList then .error (if isTopic rest then .help else .usage)
    else
      match Verb.ofText? name with
      | none => .error .usage
      | some verb =>
        let (inner, _) ← read verb.forms false {} rest
        match inner.entry with
        | none => .error .usage
        | some entry =>
          let finished ← finish settings inner
          let outer ← outer.close
          let _ ← finish settings outer
          return {
            entry := ⟨entry⟩
            adjustments := {
              indentUnit := (inner.get? .indentUnit).bind (number? Settings.sizeLimit)
              lineBreak := (inner.get? .lineSeparator).bind lineBreak?
              attributes := inner.all .attr
              extension := inner.get? .extension }
            settings := settingsPath outer inner finished
            action := action verb inner }

end PugWeave.Arguments
