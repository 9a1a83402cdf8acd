import PugWeave.Proofs.Composition.Placement
import PugWeave.Proofs.Text.Occurrence

namespace PugWeave

open Directive (Node)

open PugWeave.Composition

inductive Directive.Node.Keeps (w : Workspace) : List Template → Template → Node → Text → Prop
  | text : Keeps w below t (.text indent s) s
  | inclusion : w.Chain (t.directory.resolve ⟨target⟩) way top → node ∈ top.nodes →
      Keeps w way top node s → Keeps w below t (.inclusion indent u target) s
  | body : (∀ o, origin? name below = some o → o.block.mode ≠ .replace) → node ∈ children →
      Keeps w below t node s → Keeps w below t (.block indent u name mode children) s
  | override : origin? name below = some o → node ∈ o.block.children →
      Keeps w o.nearer o.template node s → Keeps w below t (.block indent u name mode children) s

def Workspace.Keeps (w : Workspace) (path : Path) (s : Text) : Prop :=
  ∃ way top, w.Chain path way top ∧ ∃ node ∈ top.nodes, node.Keeps w way top s

theorem Directive.Node.keeps_iff {w : Workspace} {below : List Template} {t : Template}
    {node : Node} {s : Text} :
    node.Keeps w below t s ↔ ∃ row, node.Places w below t row ∧ row.text = s := by
  constructor
  · intro keeps
    induction keeps with
    | text => exact ⟨_, .text, rfl⟩
    | inclusion chain mem _ ih =>
      obtain ⟨row, places, rfl⟩ := ih
      exact ⟨_, .inclusion chain mem places, rfl⟩
    | body kept mem _ ih =>
      obtain ⟨row, places, rfl⟩ := ih
      exact ⟨_, .body kept mem places, rfl⟩
    | override found mem _ ih =>
      obtain ⟨row, places, rfl⟩ := ih
      exact ⟨_, .override found mem places, rfl⟩
  · rintro ⟨row, places, rfl⟩
    induction places with
    | text => exact .text
    | inclusion chain mem _ ih => exact .inclusion chain mem ih
    | body kept mem _ ih => exact .body kept mem ih
    | override found mem _ ih => exact .override found mem ih

theorem Workspace.keeps_iff {w : Workspace} {path : Path} {s : Text} :
    w.Keeps path s ↔ ∃ row, w.Places path row ∧ row.text = s := by
  constructor
  · rintro ⟨way, top, chain, node, mem, keeps⟩
    obtain ⟨row, places, same⟩ := Node.keeps_iff.1 keeps
    exact ⟨row, ⟨way, top, chain, node, mem, places⟩, same⟩
  · rintro ⟨row, ⟨way, top, chain, node, mem, places⟩, same⟩
    exact ⟨way, top, chain, node, mem, Node.keeps_iff.2 ⟨row, places, same⟩⟩

theorem Path.solid {p : Path} (absolute : p.isAbsolute = true)
    (line : p.text.any Text.isBreak = false) : p.text.Solid := by
  obtain ⟨r, hr⟩ := List.head?_eq_some_iff.1 (of_decide_eq_true absolute)
  exact ⟨⟨'/', r, hr, rfl⟩, fun c hc => Bool.eq_false_iff.2 (List.any_eq_false.1 line c hc)⟩

namespace Workspace

theorem occurs_content_iff {w : Workspace} {entry : Path} {a : Artifact}
    (h : (w.resolve entry).1 = .ok a) {x : Text} (hx : x.Solid) :
    Text.occurs x a.content = true ↔
      ∃ s, w.Keeps (w.entryPath entry) s ∧ Text.occurs x s = true := by
  obtain ⟨c, hc, rfl⟩ := resolve_eq_ok_iff.1 h
  have reads : Reads w fun row => x <:+: row.text :=
    ⟨fun _ _ => hx.infix_render w.rules _⟩
  rw [Text.occurs_iff, artifact, hx.infix_render, ← Shown, shown_session hc reads]
  constructor
  · rintro ⟨row, places, within⟩
    exact ⟨row.text, keeps_iff.2 ⟨row, places, rfl⟩, Text.occurs_iff.2 within⟩
  · rintro ⟨s, keeps, within⟩
    obtain ⟨row, places, rfl⟩ := keeps_iff.1 keeps
    exact ⟨row, places, Text.occurs_iff.1 within⟩

/-- An asset that an artifact reports stands in its document if and only if it stands in a statement
that composition keeps. -/
theorem asset_present_iff {w : Workspace} {entry : Path} {a : Artifact}
    (h : (w.resolve entry).1 = .ok a) :
    ∀ p ∈ a.assets, p.isAbsolute = true → p.text.any Text.isBreak = false →
      (Text.occurs p.text a.content = true ↔
        ∃ s, w.Keeps (w.entryPath entry) s ∧ Text.occurs p.text s = true) := by
  intro p _ absolute line
  exact occurs_content_iff h (Path.solid absolute line)

theorem asset_present_iff_override :
    let file (t : String) : File := { content := .text t.toList, modified := 1 }
    let page := file "extends layout\nblock content\n  img(src='b.png')"
    let layout := file "block content\n  img(src='a.png')"
    let w : Workspace := {
      rules := ⟨2, .lf, [⟨some "img".toList, "src".toList⟩], "pug".toList, by decide⟩
      files := { entries := [(.ofString "/page.pug", page), (.ofString "/layout.pug", layout)] } }
    let a : Artifact := {
      content := "img(src=/b.png)".toList
      deps := ⟨[(.ofString "/page.pug", [.ofString "/b.png"]),
        (.ofString "/layout.pug", [.ofString "/a.png"])]⟩ }
    (w.resolve (.ofString "page")).1 = .ok a ∧
      (∃ s, w.Keeps (.ofString "/page") s ∧ Text.occurs "/b.png".toList s = true) ∧
      ¬∃ s, w.Keeps (.ofString "/page") s ∧ Text.occurs "/a.png".toList s = true := by
  intro file page layout w a
  have done : (w.session (w.entryPath (.ofString "page"))).1 =
      .ok { rows := [⟨0, "img(src=/b.png)".toList⟩], deps := a.deps } :=
    session_of_within (by decide : 2 < 3) (by decide +kernel)
  have resolved : (w.resolve (.ofString "page")).1 = .ok a :=
    resolve_eq_ok_iff.2 ⟨_, done, by decide +kernel⟩
  have at_entry : w.entryPath (.ofString "page") = .ofString "/page" := by decide +kernel
  have present := asset_present_iff resolved
  rw [at_entry] at present
  refine ⟨resolved, ?_, ?_⟩
  · exact (present (.ofString "/b.png") (by decide +kernel) rfl rfl).1 (by decide +kernel)
  · intro kept
    have : Text.occurs "/a.png".toList a.content = true :=
      (present (.ofString "/a.png") (by decide +kernel) rfl rfl).2 kept
    exact absurd this (by decide +kernel)

theorem asset_absent_replaced :
    let file (t : String) : File := { content := .text t.toList, modified := 0 }
    let page := file "extends layout\nblock content\n  p hi"
    let layout := file "block content\n  img(src='a.png')"
    let w : Workspace := {
      rules := ⟨2, .lf, [⟨some "img".toList, "src".toList⟩], "pug".toList, by decide⟩
      files := { entries := [(.ofString "/page.pug", page), (.ofString "/layout.pug", layout)] } }
    ∃ a, (w.resolve (.ofString "/page.pug")).1 = .ok a ∧
      ∃ p ∈ a.assets, Text.occurs p.text a.content = false := by
  intro file page layout w
  let a : Artifact := {
    content := "p hi".toList
    deps := ⟨[(.ofString "/page.pug", []), (.ofString "/layout.pug", [.ofString "/a.png"])]⟩ }
  have done : (w.session (w.entryPath (.ofString "/page.pug"))).1 =
      .ok { rows := [⟨0, "p hi".toList⟩], deps := a.deps } :=
    session_of_within (by decide : 2 < 3) (by decide +kernel)
  have resolved : (w.resolve (.ofString "/page.pug")).1 = .ok a :=
    resolve_eq_ok_iff.2 ⟨_, done, by decide +kernel⟩
  exact ⟨a, resolved, .ofString "/a.png", by decide +kernel, by decide +kernel⟩

end Workspace

end PugWeave
