import PugWeave.Text.Basic

/-!
Paths are texts with `/` between their parts. Two spellings of a path are the same when their
components agree: empty parts and inner `.` parts do not count. A path is shown as it was written,
and resolving `.` and `..` never looks at a file system.
-/

namespace PugWeave

structure Path where
  text : Text
  deriving DecidableEq, Repr

namespace Path

inductive Component
  | root
  | here
  | up
  | name (text : Text)
  deriving DecidableEq, Repr

instance : ToString Path := ⟨fun p => String.ofList p.text⟩

def ofString (s : String) : Path := ⟨s.toList⟩

def parts (p : Path) : List Text := Text.split ['/'] p.text

def isAbsolute (p : Path) : Bool := p.text.head? = some '/'

def Component.ofPart? (part : Text) : Option Component :=
  if part.isEmpty || part = ['.'] then none
  else if part = ['.', '.'] then some .up
  else some (.name part)

def Component.ofFirst? (part : Text) : Option Component :=
  if part = ['.'] then some .here else ofPart? part

def components (p : Path) : List Component :=
  if p.isAbsolute then .root :: p.parts.filterMap Component.ofPart?
  else
    match p.parts with
    | [] => []
    | first :: rest => (Component.ofFirst? first).toList ++ rest.filterMap Component.ofPart?

def same (p q : Path) : Bool := p.components = q.components

@[simp] theorem same_self (p : Path) : p.same p = true := by simp [same]

theorem same_iff {p q : Path} : p.same q = true ↔ p.components = q.components := by simp [same]

def addNew (paths : List Path) (p : Path) : List Path :=
  if paths.any p.same then paths else paths ++ [p]

def distinct (paths : List Path) : List Path := paths.foldl addNew []

def Component.text : Component → Text
  | .root => []
  | .here => ['.']
  | .up => ['.', '.']
  | .name t => t

def ofComponents : List Component → Path
  | [.root] => ⟨['/']⟩
  | cs => ⟨Text.join ['/'] (cs.map Component.text)⟩

/-- Adds a component to a resolved path, which is kept with its last component first. A `..` takes
the name before it away, and stays at the root. -/
def Component.addTo (resolved : List Component) : Component → List Component
  | .here => resolved
  | .up =>
    match resolved with
    | .name _ :: rest => rest
    | .root :: rest => .root :: rest
    | _ => .up :: resolved
  | c => c :: resolved

/-- The path without `.` and, where a name goes before it, without `..`. -/
def normalize (p : Path) : Path :=
  ofComponents (p.components.foldl Component.addTo []).reverse

def join (base p : Path) : Path :=
  if p.isAbsolute then p
  else if base.text.isEmpty || base.text.getLast? = some '/' then ⟨base.text ++ p.text⟩
  else ⟨base.text ++ '/' :: p.text⟩

def resolve (base p : Path) : Path := (base.join p).normalize

def specifier (p : Path) : Text :=
  let verbatim := "\\\\?\\".toList
  let share := "\\\\?\\UNC\\".toList
  let plain :=
    if share.isPrefixOf p.text then "//".toList ++ p.text.drop share.length
    else if verbatim.isPrefixOf p.text then p.text.drop verbatim.length
    else p.text
  plain.map fun c => if c = '\\' then '/' else c

end Path

end PugWeave
