import PugWeave.Path.Basic

namespace PugWeave.Composition

structure DependencyMap where
  entries : List (Path × List Path) := []
  deriving DecidableEq, Repr

namespace DependencyMap

def empty : DependencyMap := {}

def contains (m : DependencyMap) (template : Path) : Bool :=
  m.entries.any fun (t, _) => t.same template

def get? (m : DependencyMap) (template : Path) : Option (List Path) :=
  (m.entries.find? fun (t, _) => t.same template).map Prod.snd

def insert (m : DependencyMap) (template : Path) (assets : List Path) : DependencyMap :=
  if m.contains template then m else ⟨m.entries ++ [(template, assets)]⟩

def merge (m n : DependencyMap) : DependencyMap :=
  n.entries.foldl (fun m (template, assets) => m.insert template assets) m

def templates (m : DependencyMap) : List Path := m.entries.map Prod.fst

def flatten (m : DependencyMap) : List Path := Path.distinct (m.entries.flatMap Prod.snd)

end DependencyMap

end PugWeave.Composition
