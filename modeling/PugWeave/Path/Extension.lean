import PugWeave.Path.Basic

namespace PugWeave.Path

def isSilent (before : List Text) (part : Text) : Bool :=
  part.isEmpty && !before.isEmpty || part = ['.'] && !before.isEmpty

def dropSilent : List Text → List Text
  | [] => []
  | part :: before => if isSilent before part then dropSilent before else part :: before

def ofParts : List Text → Path
  | [[]] => ⟨['/']⟩
  | parts => ⟨Text.join ['/'] parts.reverse⟩

def parent (p : Path) : Path :=
  match dropSilent p.parts.reverse with
  | [] => ⟨[]⟩
  | [_] => ⟨[]⟩
  | _ :: before => ofParts (dropSilent before)

def fileName? (p : Path) : Option Text :=
  match p.components.getLast? with
  | some (.name t) => some t
  | _ => none

def hasExtension (name : Text) : Bool := name.tail.contains '.'

/-- The path with the extension added if its file name has none. No path changes for an empty
extension, and neither does one that ends in no name. -/
def complete (extension : Text) (p : Path) : Path :=
  match p.fileName? with
  | none => p
  | some name =>
    if hasExtension name || extension.isEmpty then p
    else ⟨(ofParts (dropSilent p.parts.reverse)).text ++ '.' :: extension⟩

end PugWeave.Path
