import PugWeave.Artifact.Json
import PugWeave.Composition.DependencyMap

namespace PugWeave

namespace Composition.DependencyMap

def json (m : DependencyMap) : Json :=
  .object (m.entries.map fun (template, assets) =>
    (template.text, .array (assets.map fun asset => .string asset.text)))

end Composition.DependencyMap

structure Artifact where
  content : Text
  deps : Composition.DependencyMap
  deriving DecidableEq, Repr

namespace Artifact

def assets (a : Artifact) : List Path := a.deps.flatten

def json (a : Artifact) : Json :=
  .object [("content".toList, .string a.content), ("deps".toList, a.deps.json)]

end Artifact

end PugWeave
