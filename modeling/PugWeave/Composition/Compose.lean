import PugWeave.Composition.DependencyMap
import PugWeave.Composition.Row
import PugWeave.Template.Basic

/-!
Composition of one template. What it refers to is reached through `enter`, which composes another
template under a table of overrides. An included template is composed on its own and becomes one
row. A template with a parent says nothing itself: its blocks become overrides for the blocks of
the parent, and overrides from nearer to the entry go first. Nothing here depends on how templates
are found: the steps run in any monad that `enter` runs in.
-/

namespace PugWeave.Composition

open Directive (Node Mode)

structure Composed where
  rows : List Row := []
  deps : DependencyMap := {}
  deriving DecidableEq, Repr

namespace Composed

def append (a b : Composed) : Composed := ⟨a.rows ++ b.rows, a.deps.merge b.deps⟩

instance : Append Composed := ⟨append⟩

def shift (levels : Int) (c : Composed) : Composed :=
  { c with rows := c.rows.map (Row.shift levels) }

end Composed

/-- Content for the block of a name, its rows seen from no indentation. -/
structure Override where
  name : Text
  mode : Mode
  rows : List Row
  deriving DecidableEq, Repr

/-- Of two overrides of a name the first one counts. -/
abbrev Overrides := List Override

def Overrides.find? (table : Overrides) (name : Text) : Option Override :=
  List.find? (·.name = name) table

abbrev Enter (m : Type → Type) := Overrides → Path → m Composed

def fillBlock (indent : Nat) (override : Option Override) (body : Composed) : Composed :=
  match override with
  | none => body
  | some o =>
    let injected : Composed := { rows := o.rows.map (Row.shift indent) }
    match o.mode with
    | .replace => injected
    | .append => body ++ injected
    | .prepend => injected ++ body

def isReplaced (override : Option Override) : Bool := override.any (·.mode = .replace)

variable {m : Type → Type} [Monad m]

mutual

def composeNode (rules : Rules) (enter : Enter m) (directory : Path) (table : Overrides) :
    Node → m Composed
  | .text indent t => return { rows := [⟨indent, t⟩] }
  | .inclusion indent _ target => do
    let included ← enter [] (directory.resolve ⟨target⟩)
    let content := render rules.indentUnit rules.separator included.rows
    return { included with rows := [⟨indent, content⟩] }
  | .parent .. => return {}
  | .block indent _ name _ children =>
    if isReplaced (table.find? name) then return fillBlock indent (table.find? name) {}
    else do
      let body ← composeNodes rules enter directory table children
      return fillBlock indent (table.find? name) (body.shift (-1))

def composeNodes (rules : Rules) (enter : Enter m) (directory : Path) (table : Overrides) :
    List Node → m Composed
  | [] => return {}
  | node :: rest => do
    let first ← composeNode rules enter directory table node
    return first ++ (← composeNodes rules enter directory table rest)

end

def parent? : List Node → Option (Text × List Node)
  | [] => none
  | .parent _ _ target :: rest => some (target, rest)
  | _ :: rest => parent? rest

/-- The overrides that blocks make, the last one of a name first. Other nodes make none. -/
def overrides (rules : Rules) (enter : Enter m) (directory : Path) (table : Overrides) :
    List Node → m (Overrides × DependencyMap)
  | [] => return ([], {})
  | .block indent _ name mode children :: rest => do
    let body ← composeNodes rules enter directory table children
    let (later, deps) ← overrides rules enter directory table rest
    let own : Override := ⟨name, mode, (body.shift (-(indent + 1))).rows⟩
    return (later ++ [own], body.deps.merge deps)
  | _ :: rest => overrides rules enter directory table rest

def composeTemplate (rules : Rules) (enter : Enter m) (table : Overrides) (t : Template) :
    m Composed := do
  let own := DependencyMap.empty.insert t.path t.assets
  match parent? t.nodes with
  | none =>
    let composed ← composeNodes rules enter t.directory table t.nodes
    return { composed with deps := own.merge composed.deps }
  | some (target, rest) =>
    let (made, deps) ← overrides rules enter t.directory table rest
    let parent ← enter (table ++ made) (t.directory.resolve ⟨target⟩)
    return { parent with deps := (own.merge deps).merge parent.deps }

end PugWeave.Composition
