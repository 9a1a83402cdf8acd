import PugWeave.Proofs.Composition.Depth

namespace PugWeave

open Text PugWeave.Composition
open Directive (Node argument?)

namespace Workspace

variable {w : Workspace} {entry : Path} {a : Artifact}

theorem reads_line (parsed : w.Parsed) (line : Text) : Reads w fun row =>
    line ∈ (fullLines w.rules.separator row.text).map
      (shiftLine (row.indent * w.rules.indentUnit)) := by
  constructor
  intro progress path c indent hc
  have deep := deep_resolve parsed deep_nil hc
  have moved (row : Row) (hr : row ∈ c.rows) (l : Text) :
      shiftLine (indent * w.rules.indentUnit) (shiftLine (row.indent * w.rules.indentUnit) l) =
        shiftLine ((row.shift indent).indent * w.rules.indentUnit) l := by
    have edge : 0 ≤ row.indent * w.rules.indentUnit := Int.mul_nonneg (deep row hr) (by simp)
    rw [shiftLine_shiftLine _ edge, Row.shift, ← Int.add_mul, Int.add_comm]
  rw [fullLines_render]
  simp only [Shown, List.map_flatMap, List.mem_flatMap, List.map_map]
  refine exists_congr fun row => and_congr_right fun hr => ?_
  have same : (fullLines w.rules.separator row.text).map (shiftLine (indent * w.rules.indentUnit) ∘
      shiftLine (row.indent * w.rules.indentUnit)) =
      (fullLines w.rules.separator (row.shift indent).text).map
        (shiftLine ((row.shift indent).indent * w.rules.indentUnit)) :=
    List.map_congr_left fun l _ => moved row hr l
  rw [same]

theorem mem_fullLines_content (parsed : w.Parsed) (h : (w.resolve entry).1 = .ok a) {line : Text} :
    line ∈ fullLines w.rules.separator a.content ↔ ∃ row, w.Places (w.entryPath entry) row ∧
      line = spaces (row.indent.toNat * w.rules.indentUnit) ++ row.text := by
  obtain ⟨c, hc, rfl⟩ := resolve_eq_ok_iff.1 h
  have shown := shown_session hc (reads_line parsed line)
  simp only [Shown] at shown
  rw [artifact, fullLines_render, List.mem_flatMap, shown]
  refine exists_congr fun row => and_congr_right fun places => ?_
  obtain ⟨edge, plain⟩ := places.sound parsed
  have columns : row.indent * w.rules.indentUnit =
      ((row.indent.toNat * w.rules.indentUnit : Nat) : Int) := by
    rw [Int.natCast_mul, Int.toNat_of_nonneg edge]
  rw [plain.line.fullLines_eq w.rules.separator_ne_nil, List.map_singleton, List.mem_singleton,
    columns, shiftLine_of_nonneg (Int.natCast_nonneg _), Int.toNat_natCast]

theorem meaning_of_mem_content (parsed : w.Parsed) (h : (w.resolve entry).1 = .ok a) {line : Text}
    (hl : line ∈ fullLines w.rules.separator a.content) :
    ∃ row, w.Places (w.entryPath entry) row ∧ Directive.Meaning.of line =
      if row.indent = 0 then ((argument? "extends" row.text).map Directive.Meaning.parent).getD .text
      else .text := by
  obtain ⟨row, places, rfl⟩ := (mem_fullLines_content parsed h).1 hl
  obtain ⟨edge, plain⟩ := places.sound parsed
  refine ⟨row, places, ?_⟩
  have flush : row.indent.toNat * w.rules.indentUnit = 0 ↔ row.indent = 0 := by
    have := w.rules.indentUnit_pos
    rw [Nat.mul_eq_zero]
    omega
  rw [plain.meaning, if_congr flush rfl rfl]

theorem text_or_parent_of_mem_content (parsed : w.Parsed) (h : (w.resolve entry).1 = .ok a)
    {line : Text} (hl : line ∈ fullLines w.rules.separator a.content) :
    Directive.Meaning.of line = .text ∨ ∃ target, Directive.Meaning.of line = .parent target := by
  obtain ⟨row, -, meaning⟩ := meaning_of_mem_content parsed h hl
  rw [meaning]
  split
  · cases argument? "extends" row.text <;> simp
  · exact .inl rfl

theorem parse_content (parsed : w.Parsed) (h : (w.resolve entry).1 = .ok a) :
    Directive.parse w.rules.indentUnit w.rules.separator a.content =
      (fullLines w.rules.separator a.content).map fun line =>
        .ofStatement (.ofLine w.rules.indentUnit line) [] := by
  apply Directive.parse_eq_map
  intro line hl
  rcases text_or_parent_of_mem_content parsed h hl with hm | ⟨target, hm⟩ <;> rw [hm] <;> rfl

/-- Parsing a document again finds no include and no block. It finds nothing but text if and only if
composition keeps no `extends` at the left edge. -/
theorem content_parses {w : Workspace} (empty : w.cache.templates = []) (events : List Event) :
    ∀ u ∈ w.moments events, ∀ entry a, (u.resolve entry).1 = .ok a →
      let nodes := Directive.parse u.rules.indentUnit u.rules.separator a.content
      (∀ node ∈ nodes, (∃ indent s, node = .text indent s) ∨
        ∃ indent s target, node = .parent indent s target) ∧
      ((∀ node ∈ nodes, ∃ indent s, node = .text indent s) ↔
        ∀ s, u.Places (u.entryPath entry) ⟨0, s⟩ → argument? "extends" s = none) := by
  intro u hu entry a h nodes
  have parsed : u.Parsed := (sound_of_empty empty events u hu).parsed
  have flat : nodes = _ := parse_content parsed h
  rw [flat]
  simp only [List.forall_mem_map]
  refine ⟨?_, ?_, ?_⟩
  · intro line hl
    rw [Node.ofStatement, Directive.Statement.ofLine]
    rcases text_or_parent_of_mem_content parsed h hl with hm | ⟨target, hm⟩ <;> simp [hm]
  · intro text s places
    have hl : s ∈ fullLines u.rules.separator a.content :=
      (mem_fullLines_content parsed h).2 ⟨⟨0, s⟩, places, by simp [spaces]⟩
    exact (Directive.Meaning.of_eq_text_iff.1 (Node.ofStatement_eq_text_iff.1 (text s hl))).2.1
  · intro none line hl
    obtain ⟨row, places, meaning⟩ := meaning_of_mem_content parsed h hl
    apply Node.ofStatement_eq_text_iff.2
    rw [Directive.Statement.ofLine, meaning]
    split
    · rename_i edge
      obtain ⟨indent, s⟩ := row
      obtain rfl : indent = 0 := edge
      rw [none s places]
      rfl
    · rfl

theorem content_parses_deep :
    let file (t : String) : File := { content := .text t.toList, modified := 1 }
    let w : Workspace := {
      rules := ⟨2, .lf, [⟨some "img".toList, "src".toList⟩], "pug".toList, by decide⟩
      files := { entries := [(.ofString "/page.pug", file "extends layout\nblock b\n  include part"),
        (.ofString "/layout.pug", file "div\n  block b"),
        (.ofString "/part.pug", file "p\n  extends other")] } }
    let a : Artifact := {
      content := "div\n  p\n    extends other".toList
      deps := ⟨[(.ofString "/page.pug", []), (.ofString "/part.pug", []),
        (.ofString "/layout.pug", [])]⟩ }
    (w.resolve (.ofString "page")).1 = .ok a ∧
      (∀ node ∈ Directive.parse 2 ['\n'] a.content, ∃ indent s, node = .text indent s) ∧
      ∀ s, w.Places (.ofString "/page") ⟨0, s⟩ → argument? "extends" s = none := by
  intro file w a
  have done : (w.session (w.entryPath (.ofString "page"))).1 = .ok {
      rows := [⟨0, "div".toList⟩, ⟨1, "p\n  extends other".toList⟩], deps := a.deps } :=
    session_of_within (by decide : 3 < 4) (by decide +kernel)
  have resolved : (w.resolve (.ofString "page")).1 = .ok a :=
    resolve_eq_ok_iff.2 ⟨_, done, by decide +kernel⟩
  have at_entry : w.entryPath (.ofString "page") = .ofString "/page" := by decide +kernel
  obtain ⟨-, text⟩ := content_parses (w := w) rfl [] w (by simp [moments]) _ a resolved
  rw [at_entry] at text
  have lines : ∀ line ∈ fullLines ['\n'] a.content, Directive.Meaning.of line = .text := by
    decide +kernel
  have all : ∀ node ∈ Directive.parse 2 ['\n'] a.content, ∃ indent s, node = .text indent s := by
    rw [Directive.parse_eq_map fun line hl => by rw [lines line hl]; rfl, List.forall_mem_map]
    exact fun line hl => Node.ofStatement_eq_text_iff.2 (lines line hl)
  exact ⟨resolved, all, text.1 all⟩

theorem content_extends_unwrapped :
    let file (t : String) : File := { content := .text t.toList, modified := 0 }
    let w : Workspace := {
      rules := ⟨2, .lf, [⟨some "img".toList, "src".toList⟩], "pug".toList, by decide⟩
      files := { entries := [(.ofString "/page.pug", file "block content\n  extends foo"),
        (.ofString "/foo.pug", file "p hi")] } }
    ∃ a, (w.resolve (.ofString "/page.pug")).1 = .ok a ∧
      ∃ node ∈ Directive.parse 2 ['\n'] a.content, ¬∃ indent s, node = .text indent s := by
  intro file w
  let a : Artifact := { content := "extends foo".toList, deps := ⟨[(.ofString "/page.pug", [])]⟩ }
  have done : (w.session (w.entryPath (.ofString "/page.pug"))).1 =
      .ok { rows := [⟨0, "extends foo".toList⟩], deps := a.deps } :=
    session_of_within (by decide : 2 < 3) (by decide +kernel)
  have resolved : (w.resolve (.ofString "/page.pug")).1 = .ok a :=
    resolve_eq_ok_iff.2 ⟨_, done, by decide +kernel⟩
  have lines : fullLines ['\n'] a.content = [a.content] := by decide +kernel
  have meaning : Directive.Meaning.of a.content = .parent "foo".toList := by decide +kernel
  refine ⟨a, resolved, .ofStatement (.ofLine 2 a.content) [], ?_, fun text => ?_⟩
  · rw [Directive.parse_eq_map, lines]
    · exact List.mem_singleton_self _
    · rw [lines, List.forall_mem_singleton, meaning]
      rfl
  · have : Directive.Meaning.of a.content = .text := Node.ofStatement_eq_text_iff.1 text
    rw [meaning] at this
    cases this

end Workspace

end PugWeave
