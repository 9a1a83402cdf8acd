import PugWeave.Template.Basic
import PugWeave.Template.Files

namespace PugWeave

structure Cache where
  templates : List Template := []
  hits : Nat := 0
  loads : Nat := 0

namespace Cache

def find? (c : Cache) (p : Path) : Option Template := c.templates.find? fun t => p.same t.path

def keep (c : Cache) (t : Template) : Cache :=
  if (c.find? t.path).isSome then
    { c with templates := c.templates.map fun old => if t.path.same old.path then t else old }
  else { c with templates := c.templates ++ [t] }

def drop (c : Cache) (p : Path) : Cache :=
  { c with templates := c.templates.filter fun t => !p.same t.path }

def hit (c : Cache) : Cache := { c with hits := c.hits + 1 }

def load (c : Cache) : Cache := { c with loads := c.loads + 1 }

end Cache

structure Workspace where
  rules : Rules
  files : Files
  cache : Cache := {}
  directory : Path := ⟨['/']⟩

namespace Workspace

def read (w : Workspace) (p : Path) (modified : Nat) : Except Error Template :=
  match w.files.text p with
  | .error failure => .error (.ofIo p failure)
  | .ok raw => Template.read w.rules p modified raw

/-- Reads the template of a file that was changed at this time. A file that is no template leaves
the one kept before it alone. -/
def load (w : Workspace) (p : Path) (modified : Nat) : Except Error Template × Workspace :=
  let w' := { w with files := w.files.markRead p, cache := w.cache.load }
  match w.read p modified with
  | .error e => (.error e, w')
  | .ok t => (.ok t, { w' with cache := w'.cache.keep t })

def fetch (w : Workspace) (p : Path) : Except Error Template × Workspace :=
  match w.files.modified p with
  | .error failure => (.error (.ofIo p failure), w)
  | .ok modified =>
    match w.cache.find? p with
    | none => w.load p modified
    | some t =>
      if t.modified = modified then (.ok t, { w with cache := w.cache.hit }) else w.load p modified

def get (w : Workspace) (p : Path) : Except Error Template × Workspace :=
  w.fetch (w.rules.complete p)

def invalidate (w : Workspace) (p : Path) : Except Error Bool × Workspace :=
  let p := w.rules.complete p
  let dropped := { w with cache := w.cache.drop p }
  match w.cache.find? p, w.files.modified p with
  | none, _ => (.ok false, w)
  | some t, .ok modified => if t.modified = modified then (.ok false, w) else (.ok true, dropped)
  | some _, .error failure => (.error (.ofIo p failure), dropped)

def isStale (w : Workspace) (p : Path) : Bool :=
  match w.cache.find? (w.rules.complete p), w.files.modified (w.rules.complete p) with
  | some t, .ok modified => t.modified ≠ modified
  | _, _ => true

def contains (w : Workspace) (p : Path) : Bool := (w.cache.find? (w.rules.complete p)).isSome

def clear (w : Workspace) : Workspace := { w with cache := { w.cache with templates := [] } }

@[simp] theorem paths_fetch (w : Workspace) (p : Path) :
    (w.fetch p).2.files.paths = w.files.paths := by
  have load (modified : Nat) : (w.load p modified).2.files.paths = w.files.paths := by
    rw [load]
    split <;> simp [Files.markRead]
  simp only [fetch]
  split
  · rfl
  · split
    · exact load _
    · split
      · rfl
      · exact load _

theorem listed_of_fetch {w : Workspace} {p : Path} {t : Template}
    (h : (w.fetch p).1 = .ok t) : w.files.paths.any p.same = true := by
  simp only [fetch] at h
  split at h
  · simp at h
  · rename_i hm
    exact Files.mem_paths_of_modified hm

end Workspace

end PugWeave
