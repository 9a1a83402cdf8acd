import PugWeave.Proofs.Composition.Laws
import PugWeave.Proofs.Composition.Levels
import PugWeave.Proofs.Directive.Outline

namespace PugWeave

open Text PugWeave.Composition
open Directive (Node Statement)

namespace Directive

theorem meaning_of_tree {ss : List Statement}
    (plain : ∀ node ∈ tree ss, ∃ indent t, node = .text indent t) :
    ∀ s ∈ ss, s.meaning = .text := by
  induction ss using tree.induct with
  | case1 => simp
  | case2 s rest _ _ outer =>
    rw [tree, List.forall_mem_cons] at plain
    obtain ⟨⟨indent, t, first⟩, later⟩ := plain
    have own : s.meaning = .text := by
      rw [Node.ofStatement] at first
      cases hm : s.meaning <;> rw [hm] at first <;> cases first
    have all : following s rest = rest := by simp [following, own, Meaning.isBlock]
    rw [all] at later outer
    exact List.forall_mem_cons.2 ⟨own, outer later⟩

theorem parse_eq_texts {unit : Nat} {sep t : Text}
    (plain : ∀ node ∈ parse unit sep t, ∃ indent t, node = .text indent t) :
    (∀ line ∈ fullLines sep t, Meaning.of line = .text) ∧
      parse unit sep t = ((fullLines sep t).map (Statement.ofLine unit)).map fun s =>
        .text s.indent s.text := by
  have meaning : ∀ line ∈ fullLines sep t, Meaning.of line = .text := fun line hl =>
    meaning_of_tree plain (.ofLine unit line) (List.mem_map_of_mem hl)
  refine ⟨meaning, ?_⟩
  rw [parse_eq_map fun line hl => by rw [meaning line hl]; rfl, List.map_map]
  refine List.map_congr_left fun line hl => ?_
  have : (Statement.ofLine unit line).meaning = .text := meaning line hl
  rw [Function.comp_apply, Node.ofStatement, this]

end Directive

namespace Composition

def Row.ofStatement (s : Statement) : Row := ⟨s.indent, s.text⟩

theorem shiftText_ofLine (rules : Rules) {line : Text} (whole : Line rules.separator line)
    (text : Directive.Meaning.of line = .text) :
    let row := Row.ofStatement (.ofLine rules.indentUnit line)
    shiftText (row.indent * rules.indentUnit) rules.separator row.text = trimEnd line := by
  intro row
  have own : Line rules.separator row.text := (Statement.opaque_ofLine whole text).line
  have edge : 0 ≤ row.indent := Int.natCast_nonneg _
  have back : spaces (row.indent.toNat * rules.indentUnit) ++ row.text = trimEnd line :=
    Statement.spaces_append_text rules.indentUnit whole.full
  rw [Workspace.shiftText_of_deep rules edge, own.fullLines_eq rules.separator_ne_nil]
  split
  · rename_i flush
    rw [flush] at back
    simpa [spaces] using back
  · simpa [join] using back

theorem render_plain (rules : Rules) {t : Text}
    (plain : ∀ line ∈ fullLines rules.separator t, Directive.Meaning.of line = .text) :
    render rules.indentUnit rules.separator
        (((fullLines rules.separator t).map (Statement.ofLine rules.indentUnit)).map
          Row.ofStatement) =
      join rules.separator ((fullLines rules.separator t).map trimEnd) := by
  rw [render, List.map_map, List.map_map]
  congr 1
  refine List.map_congr_left fun line hl => ?_
  exact shiftText_ofLine rules (line_of_mem_fullLines rules.separator_ne_nil hl) (plain line hl)

theorem parent?_texts (ss : List Statement) :
    parent? (ss.map fun s => .text s.indent s.text) = none := by
  induction ss with
  | nil => rfl
  | cons s rest ih => exact ih

section

variable {m : Type → Type} [Monad m] [LawfulMonad m] {rules : Rules} {enter : Enter m}
  {table : Overrides}

theorem composeNodes_texts (directory : Path) (ss : List Statement) :
    composeNodes rules enter directory table (ss.map fun s => .text s.indent s.text) =
      pure { rows := ss.map Row.ofStatement } := by
  induction ss with
  | nil => rw [List.map_nil, composeNodes]; rfl
  | cons s rest ih =>
    rw [List.map_cons, composeNodes, composeNode, pure_bind, ih, pure_bind]
    rfl

theorem composeTemplate_texts {t : Template} {ss : List Statement}
    (nodes : t.nodes = ss.map fun s => .text s.indent s.text) :
    composeTemplate rules enter table t =
      pure ⟨ss.map Row.ofStatement, ⟨[(t.path, t.assets)]⟩⟩ := by
  rw [composeTemplate, nodes, parent?_texts]
  dsimp only
  rw [composeNodes_texts, pure_bind]
  rfl

end

end Composition

namespace Workspace

theorem session_of_composeTemplate {w : Workspace} {path : Path} {t : Template} {c : Composed}
    (found : w.template (w.rules.complete path) = .ok t)
    (made : ∀ enter : Enter (Run w.files.paths), composeTemplate w.rules enter [] t = pure c) :
    (w.session path).1 = .ok c := by
  have asked := Run.template_ask [] (w.rules.complete path) w.opened
  have found : (w.opened.workspace.fetch (w.rules.complete path)).1 = .ok t := found
  rcases hask : Run.ask [] (w.rules.complete path) w.opened with ⟨e | b, s⟩
  · rw [hask, found] at asked
    cases asked
  · rw [hask, found] at asked
    obtain rfl : b.template = t := Except.ok.inj asked
    rw [session, Composition.resolve]
    dsimp only
    rw [dif_neg (by simp)]
    refine (congrArg Prod.fst (Run.bind_apply hask _)).trans ?_
    exact congrArg (fun run => (run s).1) (made _)

/-- A template that is all text is passed on: its document has the lines that are not blank, without
the blanks at their ends. -/
theorem resolve_plain {w : Workspace} (empty : w.cache.templates = []) (events : List Event) :
    ∀ u ∈ w.moments events, ∀ entry t,
      u.template (u.rules.complete (u.entryPath entry)) = .ok t →
      (∀ node ∈ t.nodes, ∃ indent s, node = .text indent s) →
      (u.resolve entry).1 = .ok {
        content := join u.rules.separator ((fullLines u.rules.separator t.content).map trimEnd)
        deps := ⟨[(t.path, t.assets)]⟩ } := by
  intro u hu entry t found plain
  have nodes := (sound_of_empty empty events u hu).nodes_eq found
  rw [nodes] at plain
  obtain ⟨meaning, texts⟩ := Directive.parse_eq_texts plain
  have composed := session_of_composeTemplate found fun enter =>
    composeTemplate_texts (nodes.trans texts)
  rw [resolve, compose]
  dsimp only
  rw [composed, ← render_plain u.rules meaning]
  rfl

theorem resolve_plain_page :
    let w : Workspace := {
      rules := ⟨2, .lf, [], "pug".toList, by decide⟩
      files := { entries := [(.ofString "/page.pug",
        { content := .text "ul  \n \t \n  li one \u00a0\n   b two\n    | x \r y\r\n\n".toList
          modified := 1 })] } }
    ∃ t, w.template (.ofString "/page.pug") = .ok t ∧
      (∀ node ∈ t.nodes, ∃ indent s, node = .text indent s) ∧
      (w.resolve (.ofString "/page")).1 =
        .ok ⟨"ul\n  li one\n   b two\n    | x \r y".toList, ⟨[(t.path, t.assets)]⟩⟩ := by
  intro w
  obtain ⟨t, found, content⟩ : ∃ t, w.template (.ofString "/page.pug") = .ok t ∧
      t.content = "ul  \n \t \n  li one \u00a0\n   b two\n    | x \r y\n\n".toList := by
    have read : (w.template (.ofString "/page.pug")).map (·.content) =
        .ok "ul  \n \t \n  li one \u00a0\n   b two\n    | x \r y\n\n".toList := by decide +kernel
    cases ht : w.template (.ofString "/page.pug") with
    | error e => rw [ht] at read; cases read
    | ok t => rw [ht] at read; exact ⟨t, rfl, Except.ok.inj read⟩
  have plain : ∀ node ∈ t.nodes, ∃ indent s, node = .text indent s := by
    have meaning : ∀ line ∈ fullLines ['\n'] t.content, Directive.Meaning.of line = .text := by
      rw [content]
      decide +kernel
    have nodes := (sound_of_empty (w := w) rfl [] w (by simp [moments])).nodes_eq found
    rw [nodes, Directive.parse_eq_map fun line hl => by rw [meaning line hl]; rfl]
    exact List.forall_mem_map.2 fun line hl =>
      Directive.Node.ofStatement_eq_text_iff.2 (meaning line hl)
  refine ⟨t, found, plain, ?_⟩
  have whole : w.rules.complete (w.entryPath (.ofString "/page")) = .ofString "/page.pug" := by
    decide +kernel
  have lines : join ['\n'] ((fullLines ['\n'] t.content).map trimEnd) =
      "ul\n  li one\n   b two\n    | x \r y".toList := by
    rw [content]
    decide +kernel
  rw [resolve_plain (w := w) rfl [] w (by simp [moments]) _ t (whole ▸ found) plain, ← lines]
  rfl

end Workspace

end PugWeave
