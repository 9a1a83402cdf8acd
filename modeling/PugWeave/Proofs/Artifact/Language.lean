import PugWeave.Artifact.Json

/-! The part of a language that scripts are written in: its syntax, its text and what it does. Keys
of an object are visited in the order in which they were first used, as are all that are no array
indices. -/

namespace PugWeave.Script

open Text

inductive Expr
  | literal (t : Text)
  | quotation
  | name (x : String)
  | empty
  | entry (object key : Expr)
  | message (error : Expr)
  | require (specifier : Expr)
  | split (t separator : Expr)
  | join (pieces separator : Expr)
  | plus (e f : Expr)

inductive Statement
  | var (x : String) (e : Expr)
  | set (x : String) (e : Expr)
  | put (object : String) (key e : Expr)
  | attempt (body : List Statement) (error : String) (handler : List Statement)
  | throw (message : Expr)
  | forIn (key object : String) (body : List Statement)
  | ifOwn (object key : String) (body : List Statement)
  | exports (e : Expr)

def Expr.text : Expr → String
  | .literal t => .ofList (Json.literal t)
  | .quotation => "'\"'"
  | .name x => x
  | .empty => "\x7b\x7d"
  | .entry object key => object.text ++ "[" ++ key.text ++ "]"
  | .message error => error.text ++ ".message"
  | .require specifier => "require(" ++ specifier.text ++ ")"
  | .split t separator => t.text ++ ".split(" ++ separator.text ++ ")"
  | .join pieces separator => pieces.text ++ ".join(" ++ separator.text ++ ")"
  | .plus e f => e.text ++ " + " ++ f.text

def margin (depth : Nat) : String := .ofList (List.replicate (2 * depth) ' ')

mutual

def Statement.text (depth : Nat) : Statement → String
  | .var x e => margin depth ++ "var " ++ x ++ " = " ++ e.text ++ ";\n"
  | .set x e => margin depth ++ x ++ " = " ++ e.text ++ ";\n"
  | .put object key e => margin depth ++ object ++ "[" ++ key.text ++ "] = " ++
      e.text ++ ";\n"
  | .attempt body error handler => margin depth ++ "try \x7b\n" ++ textAll (depth + 1) body ++
      margin depth ++ "\x7d catch (" ++ error ++ ") \x7b\n" ++
      textAll (depth + 1) handler ++ margin depth ++ "\x7d\n"
  | .throw message => margin depth ++ "throw new Error(" ++ message.text ++ ");\n"
  | .forIn key object body => margin depth ++ "for (var " ++ key ++ " in " ++
      object ++ ") \x7b\n" ++ textAll (depth + 1) body ++ margin depth ++ "\x7d\n"
  | .ifOwn object key body => margin depth ++
      "if (Object.prototype.hasOwnProperty.call(" ++ object ++ ", " ++
      key ++ ")) \x7b\n" ++ textAll (depth + 1) body ++ margin depth ++ "\x7d\n"
  | .exports e => margin depth ++ "module.exports = " ++ e.text ++ ";\n"

def textAll (depth : Nat) : List Statement → String
  | [] => ""
  | s :: rest => s.text depth ++ textAll depth rest

end

inductive Value
  | text (t : Text)
  | pieces (l : List Text)
  | object (entries : List (Text × Text))
  | error (message : Text)
  deriving DecidableEq

structure State where
  vars : String → Option Value
  exported : Value

def State.start : State := ⟨fun _ => none, .object []⟩

def State.set (s : State) (x : String) (v : Value) : State :=
  { s with vars := fun y => if y = x then some v else s.vars y }

def typeError : Except Text α := .error "TypeError".toList

def State.get (s : State) (x : String) : Except Text Value :=
  match s.vars x with
  | some v => .ok v
  | none => typeError

def Value.asText : Value → Except Text Text
  | .text t => .ok t
  | _ => typeError

def Value.asPieces : Value → Except Text (List Text)
  | .pieces l => .ok l
  | _ => typeError

def Value.asObject : Value → Except Text (List (Text × Text))
  | .object entries => .ok entries
  | _ => typeError

def Value.asError : Value → Except Text Text
  | .error message => .ok message
  | _ => typeError

def put (entries : List (Text × Text)) (key value : Text) : List (Text × Text) :=
  if entries.any (·.1 = key) then
    entries.map fun entry => if entry.1 = key then (key, value) else entry
  else entries ++ [(key, value)]

/-- The pieces of a text around a separator. The empty one stands between all characters. -/
def pieces (separator t : Text) : List Text :=
  if separator.isEmpty then t.map ([·]) else Text.split separator t

section

variable (require : Text → Except Text Text)

def Expr.eval (s : State) : Expr → Except Text Value
  | .literal t => .ok (.text t)
  | .quotation => .ok (.text ['\x22'])
  | .name x => s.get x
  | .empty => .ok (.object [])
  | .entry object key => do
    let entries ← (← object.eval s).asObject
    match entries.lookup (← (← key.eval s).asText) with
    | some value => return .text value
    | none => typeError
  | .message error => return .text (← (← error.eval s).asError)
  | .require specifier => return .text (← require (← (← specifier.eval s).asText))
  | .split t separator => do
    let t ← (← t.eval s).asText
    return .pieces (Script.pieces (← (← separator.eval s).asText) t)
  | .join pieces separator => do
    let pieces ← (← pieces.eval s).asPieces
    return .text (Text.join (← (← separator.eval s).asText) pieces)
  | .plus e f => do
    let t ← (← e.eval s).asText
    return .text (t ++ (← (← f.eval s).asText))

inductive Outcome
  | done (s : State)
  | thrown (message : Text) (s : State)

def Outcome.andThen : Outcome → (State → Outcome) → Outcome
  | .done s, next => next s
  | .thrown message s, _ => .thrown message s

def State.andThen (s : State) (v : Except Text α) (next : α → Outcome) : Outcome :=
  match v with
  | .ok v => next v
  | .error message => .thrown message s

def loop (key : String) (body : State → Outcome) : List Text → State → Outcome
  | [], s => .done s
  | k :: rest, s => (body (s.set key (.text k))).andThen (loop key body rest)

mutual

def Statement.exec : Statement → State → Outcome
  | .var x e, s => s.andThen (e.eval require s) fun v => .done (s.set x v)
  | .set x e, s => s.andThen (e.eval require s) fun v => .done (s.set x v)
  | .put object key e, s =>
    let changed : Except Text Value := do
      let entries ← (← s.get object).asObject
      let key ← (← key.eval require s).asText
      return .object (put entries key (← (← e.eval require s).asText))
    s.andThen changed fun v => .done (s.set object v)
  | .attempt body error handler, s =>
    match execAll body s with
    | .done s => .done s
    | .thrown message s => execAll handler (s.set error (.error message))
  | .throw message, s => s.andThen (do (← message.eval require s).asText) fun t => .thrown t s
  | .forIn key object body, s => s.andThen (do (← s.get object).asObject) fun entries =>
      loop key (fun s => execAll body s) (entries.map Prod.fst) s
  | .ifOwn object key body, s =>
    let owns : Except Text Bool := do
      let entries ← (← s.get object).asObject
      return (entries.lookup (← (← s.get key).asText)).isSome
    s.andThen owns fun b => if b then execAll body s else .done s
  | .exports e, s => s.andThen (e.eval require s) fun v => .done { s with exported := v }

def execAll : List Statement → State → Outcome
  | [], s => .done s
  | statement :: rest, s => (statement.exec s).andThen fun s => execAll rest s

end

def Outcome.result : Outcome → Except Text State
  | .done s => .ok s
  | .thrown message _ => .error message

def run (script : List Statement) : Except Text Value :=
  (execAll require script .start).result.map State.exported

end

end PugWeave.Script
