import PugWeave.Artifact.Basic

/-!
An artifact as a CommonJS module. The script requires each asset once, puts the quoted value of
each in place of its path, and exports the text. Longer paths are replaced first, so that a path
that begins another one does not spoil it.
-/

namespace PugWeave.Artifact

open Text

structure Requirement where
  template : Path
  asset : Path
  deriving DecidableEq, Repr

def addRequirement (found : List Requirement) (r : Requirement) : List Requirement :=
  if found.any (·.asset.same r.asset) then found else found ++ [r]

def firstRequirements (a : Artifact) : List Requirement :=
  (a.deps.entries.flatMap fun (template, assets) => assets.map (Requirement.mk template)).foldl
    addRequirement []

def requirements (a : Artifact) : List Requirement :=
  a.firstRequirements.mergeSort fun r s => byteLength s.asset.text ≤ byteLength r.asset.text

def Requirement.script (r : Requirement) : Text :=
  "try \x7b\n  requirePaths[".toList ++ Json.literal r.asset.text ++
  "] = require(".toList ++ Json.literal r.asset.specifier ++
  ");\n\x7d catch (error) \x7b\n  throw new Error(".toList ++
  Json.literal ("Error in ".toList ++ r.template.text ++ ":\n".toList) ++
  " + error.message);\n\x7d\n".toList

def substitution : Text :=
  (";\nfor (var originPath in requirePaths) \x7b\n" ++
    "  if (Object.prototype.hasOwnProperty.call(requirePaths, originPath)) \x7b\n" ++
    "    var rp = requirePaths[originPath];\n" ++
    "    tpl = tpl.split(originPath).join('\"' + rp + '\"');\n" ++
    "  \x7d\n\x7d\nmodule.exports = tpl;\n").toList

def script (a : Artifact) : Text :=
  "var requirePaths = \x7b\x7d;\n".toList ++ a.requirements.flatMap Requirement.script ++
  "var tpl = ".toList ++ Json.literal a.content ++ substitution

end PugWeave.Artifact
