import PugWeave.Error

namespace PugWeave

inductive Content
  | text (t : Text)
  | unreadable (failure : IoFailure)
  | directory
  deriving DecidableEq, Repr

structure File where
  content : Content
  modified : Nat
  reads : Nat := 0
  deriving DecidableEq, Repr

/-- In a hierarchy the way to a path matters: it leads through directories, and names and paths are
of limited length. -/
structure Files where
  entries : List (Path × File) := []
  hierarchical : Bool := false
  deriving DecidableEq, Repr

namespace Files

def find? (fs : Files) (p : Path) : Option File :=
  (fs.entries.find? fun (q, _) => p.same q).map Prod.snd

def update (fs : Files) (p : Path) (f : File → File) : Files :=
  { fs with entries := fs.entries.map fun (q, file) => (q, if p.same q then f file else file) }

def put (fs : Files) (p : Path) (file : File) : Files :=
  if (fs.find? p).isSome then fs.update p fun _ => file
  else { fs with entries := fs.entries ++ [(p, file)] }

def write (fs : Files) (p : Path) (t : Text) (modified : Nat) : Files :=
  fs.put p { content := .text t, modified }

def edit (fs : Files) (p : Path) (t : Text) : Files :=
  fs.update p fun file => { file with content := .text t }

def touch (fs : Files) (p : Path) (delay : Nat) : Files :=
  fs.update p fun file => { file with modified := file.modified + delay }

def remove (fs : Files) (p : Path) : Files :=
  { fs with entries := fs.entries.filter fun (q, _) => !p.same q }

def reads (fs : Files) (p : Path) : Nat := ((fs.find? p).map File.reads).getD 0

def nameLimit : Nat := 255

def pathLimit : Nat := 4096

def isLegal (p : Path) : Bool := !p.text.contains '\x00' && Text.byteLength p.text < pathLimit

def enter (fs : Files) (place : Path) : Except IoFailure Path :=
  match fs.find? place with
  | some ⟨.directory, _, _⟩ => .ok place
  | some _ => .error .other
  | none => .error .notFound

def step (fs : Files) (place : Path) : Path.Component → Except IoFailure Path
  | .root => .ok ⟨['/']⟩
  | .here => .ok place
  | .up => (fs.enter place).map (·.resolve ⟨['.', '.']⟩)
  | .name t => do
    let place ← fs.enter place
    if nameLimit < Text.byteLength t then .error .other else .ok (place.join ⟨t⟩)

def follow (fs : Files) (directory p : Path) : Except IoFailure Path :=
  if p.text.isEmpty then .error .notFound
  else if !isLegal p then .error .other
  else do
    let place ← (directory.join p).components.foldlM fs.step ⟨[]⟩
    match p.parts.getLast? with
    | some [] | some ['.'] => fs.enter place
    | _ => .ok place

def absence (fs : Files) (p : Path) : IoFailure :=
  if !fs.hierarchical then .notFound
  else
    match fs.follow ⟨['/']⟩ p with
    | .error failure => failure
    | .ok _ => .notFound

def modified (fs : Files) (p : Path) : Except IoFailure Nat :=
  match fs.find? p with
  | some file => .ok file.modified
  | none => .error (fs.absence p)

def text (fs : Files) (p : Path) : Except IoFailure Text :=
  match fs.find? p with
  | some ⟨.text t, _, _⟩ => .ok t
  | some ⟨.unreadable failure, _, _⟩ => .error failure
  | some ⟨.directory, _, _⟩ => .error .other
  | none => .error (fs.absence p)

def markRead (fs : Files) (p : Path) : Files :=
  fs.update p fun file => { file with reads := file.reads + 1 }

def paths (fs : Files) : List Path := fs.entries.map Prod.fst

@[simp] theorem paths_update (fs : Files) (p : Path) (f : File → File) :
    (fs.update p f).paths = fs.paths := by simp [paths, update, Function.comp_def]

def ancestors (p : Path) : List Path :=
  (List.range (p.components.length - 1)).map fun k => .ofComponents (p.components.take (k + 1))

def makeRoom (fs : Files) (p : Path) : Files :=
  (ancestors p).foldl
    (fun fs q =>
      if (fs.find? q).isSome then fs else fs.put q { content := .directory, modified := 0 })
    fs

def install (fs : Files) (p : Path) (file : File) : Files := (fs.makeRoom p).put p file

def makeStep : Files × Path → Path.Component → Except IoFailure (Files × Path)
  | (fs, place), c => do
    let place ← fs.step place c
    match fs.find? place with
    | some ⟨.directory, _, _⟩ => .ok (fs, place)
    | some _ => .error .other
    | none => .ok (fs.put place { content := .directory, modified := 0 }, place)

def makeDirectory (fs : Files) (directory p : Path) : Except IoFailure Files :=
  if !isLegal p then .error .other
  else ((directory.join p).components.foldlM makeStep (fs, ⟨[]⟩)).map Prod.fst

theorem mem_paths_of_modified {fs : Files} {p : Path} {time : Nat}
    (h : fs.modified p = .ok time) : fs.paths.any p.same = true := by
  simp only [modified, find?] at h
  cases hf : fs.entries.find? fun (q, _) => p.same q with
  | none => simp [hf] at h
  | some e =>
    have hm := List.mem_of_find?_eq_some hf
    have hs := List.find?_some hf
    simp only [paths, List.any_map, List.any_eq_true]
    exact ⟨e, hm, hs⟩

end Files

end PugWeave
