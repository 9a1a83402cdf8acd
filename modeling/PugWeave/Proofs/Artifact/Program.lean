import PugWeave.Artifact.Script
import PugWeave.Proofs.Artifact.Language
import PugWeave.Proofs.Text.Replacement

namespace PugWeave

namespace Script

theorem textAll_append (depth : Nat) (a b : List Statement) :
    textAll depth (a ++ b) = textAll depth a ++ textAll depth b := by
  induction a with
  | nil => exact String.empty_append.symm
  | cons s a ih => simp only [List.cons_append, textAll, ih, String.append_assoc]

end Script

namespace Artifact

open Text Script

structure Call where
  key : Text
  specifier : Text
  message : Text
  deriving DecidableEq, Repr

def Call.statement (c : Call) : Statement :=
  .attempt [.put "requirePaths" (.literal c.key) (.require (.literal c.specifier))]
    "error" [.throw (.plus (.literal c.message) (.message (.name "error")))]

def replacing : Statement :=
  .ifOwn "requirePaths" "originPath" [
    .var "rp" (.entry (.name "requirePaths") (.name "originPath")),
    .set "tpl" (.join (.split (.name "tpl") (.name "originPath"))
      (.plus (.plus .quotation (.name "rp")) .quotation))]

def replacement : Statement := .forIn "originPath" "requirePaths" [replacing]

structure Program where
  calls : List Call
  content : Text
  deriving DecidableEq, Repr

def Program.statements (p : Program) : List Statement :=
  .var "requirePaths" .empty :: p.calls.map Call.statement ++
    [.var "tpl" (.literal p.content), replacement, .exports (.name "tpl")]

def Program.text (p : Program) : Text := (textAll 0 p.statements).toList

def Program.run (p : Program) (require : Text → Except Text Text) : Except Text Value :=
  Script.run require p.statements

def Call.text (c : Call) : Text := (c.statement.text 0).toList

theorem Call.text_eq (c : Call) : c.text =
    "try \x7b\n  requirePaths[".toList ++ Json.literal c.key ++
    "] = require(".toList ++ Json.literal c.specifier ++
    ");\n\x7d catch (error) \x7b\n  throw new Error(".toList ++ Json.literal c.message ++
    " + error.message);\n\x7d\n".toList := by
  simp [text, statement, Statement.text, textAll, Expr.text, margin]

theorem text_replacement : ";\n".toList ++
    (textAll 0 [replacement, .exports (.name "tpl")]).toList = substitution := by
  delta substitution
  simp only [textAll, replacement, replacing, Statement.text, Expr.text, margin, String.toList_append]
  decide +kernel

theorem Program.text_eq (p : Program) : p.text =
    "var requirePaths = \x7b\x7d;\n".toList ++ p.calls.flatMap Call.text ++
      "var tpl = ".toList ++ Json.literal p.content ++ substitution := by
  have calls : (textAll 0 (p.calls.map Call.statement)).toList = p.calls.flatMap Call.text := by
    induction p.calls with
    | nil => rfl
    | cons c rest ih =>
      rw [List.map_cons, textAll, String.toList_append, ih]
      rfl
  rw [← text_replacement, text, statements, textAll_append, String.toList_append, textAll,
    String.toList_append, calls, textAll, String.toList_append]
  simp [Statement.text, Expr.text, margin]

def Requirement.call (r : Requirement) : Call :=
  ⟨r.asset.text, r.asset.specifier, "Error in ".toList ++ r.template.text ++ ":\n".toList⟩

def program (a : Artifact) : Program := ⟨a.requirements.map Requirement.call, a.content⟩

theorem text_call (r : Requirement) : r.call.text = r.script := r.call.text_eq

theorem text_program (a : Artifact) : a.program.text = a.script := by
  have calls : a.program.calls.flatMap Call.text = a.requirements.flatMap Requirement.script := by
    simp only [program, List.flatMap_map, text_call]
  rw [Program.text_eq, calls]
  rfl

end Artifact

end PugWeave
