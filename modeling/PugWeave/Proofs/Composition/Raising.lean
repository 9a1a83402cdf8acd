import PugWeave.Proofs.Composition.Inlining

namespace PugWeave

namespace Directive

open Text PugWeave.Composition

theorem argument?_spaces {keyword : String} {c : Char} {r : Text} (hk : keyword.toList = c :: r)
    (hc : c ≠ ' ') (n : Nat) (t : Text) : argument? keyword (spaces (n + 1) ++ t) = none := by
  rw [argument?, Option.bind_eq_none_iff]
  intro rest hr
  have front := prefix_of_after? hr
  rw [hk] at front
  exact absurd (List.cons_prefix_cons.1 front).1 hc

theorem Meaning.of_spaces_append (n : Nat) {line : Text}
    (other : ∀ target, Meaning.of line ≠ .parent target) :
    Meaning.of (spaces n ++ line) = Meaning.of line := by
  cases n with
  | zero => rfl
  | succ n =>
    rw [Meaning.of_eq, Meaning.of_eq, trimStart_spaces_append, argument?_spaces rfl (by decide)]
    cases hi : argument? "include" (trimStart line) with
    | some target => rfl
    | none =>
      cases ha : argument? "extends" line with
      | none => rfl
      | some target => exact absurd (by rw [Meaning.of_eq, hi, ha]) (other target)

def Statement.raise (levels : Nat) (s : Statement) : Statement :=
  { s with indent := s.indent + levels }

theorem Statement.ofLine_spaces_append (rules : Rules) (levels : Nat) {line : Text}
    (other : ∀ target, Meaning.of line ≠ .parent target) :
    ofLine rules.indentUnit (spaces (levels * rules.indentUnit) ++ line) =
      (ofLine rules.indentUnit line).raise levels := by
  have front : ((spaces (levels * rules.indentUnit) ++ line).takeWhile (· = ' ')).length /
      rules.indentUnit = (line.takeWhile (· = ' ')).length / rules.indentUnit + levels := by
    rw [List.takeWhile_append_of_pos (by simp [spaces]), List.length_append, spaces,
      List.length_replicate, Nat.mul_comm, Nat.mul_add_div rules.indentUnit_pos, Nat.add_comm]
  simp only [ofLine, raise, front, Meaning.of_spaces_append _ other]
  congr 2
  rw [Nat.add_mul, Nat.add_comm, ← List.drop_drop]
  simp [spaces]

theorem Node.ofStatement_raise (levels : Nat) (s : Statement) (children : List Node) :
    ofStatement (s.raise levels) (Directive.raise levels children) =
      (ofStatement s children).raise levels := by
  obtain ⟨indent, t, meaning⟩ := s
  cases meaning <;> simp [ofStatement, Statement.raise, Node.raise]

theorem nested_map_raise (levels : Nat) (s : Statement) (rest : List Statement) :
    nested (s.raise levels) (rest.map (Statement.raise levels)) =
      (nested s rest).map (Statement.raise levels) := by
  cases hb : s.meaning.isBlock with
  | true => simp [nested, Statement.raise, hb, List.takeWhile_map, Function.comp_def]
  | false => simp [nested, Statement.raise, hb]

theorem following_map_raise (levels : Nat) (s : Statement) (rest : List Statement) :
    following (s.raise levels) (rest.map (Statement.raise levels)) =
      (following s rest).map (Statement.raise levels) := by
  cases hb : s.meaning.isBlock with
  | true => simp [following, Statement.raise, hb, List.dropWhile_map, Function.comp_def]
  | false => simp [following, Statement.raise, hb]

theorem tree_map_raise (levels : Nat) (ss : List Statement) :
    tree (ss.map (Statement.raise levels)) = raise levels (tree ss) := by
  induction ss using tree.induct with
  | case1 => simp [tree, raise]
  | case2 s rest _ inner outer =>
    rw [List.map_cons, tree, nested_map_raise, following_map_raise, inner, outer,
      Node.ofStatement_raise, tree, raise]

theorem parse_shiftText (rules : Rules) (levels : Nat) {t : Text}
    (other : ∀ line ∈ fullLines rules.separator t, ∀ target, Meaning.of line ≠ .parent target) :
    parse rules.indentUnit rules.separator
        (shiftText (levels * rules.indentUnit) rules.separator t) =
      raise levels (parse rules.indentUnit rules.separator t) := by
  have columns : (levels * rules.indentUnit : Int) = ((levels * rules.indentUnit : Nat) : Int) := by
    push_cast
    rfl
  rw [parse, parse, ← fullLines, ← fullLines, columns, Rules.separator, fullLines_shiftText,
    List.map_map, ← tree_map_raise, List.map_map]
  congr 1
  refine List.map_congr_left fun line hl => ?_
  rw [Function.comp_apply, shiftLine_of_nonneg (Int.natCast_nonneg _), Int.toNat_natCast,
    Statement.ofLine_spaces_append rules levels (other line hl)]
  rfl

end Directive

namespace Composition

open Directive (Meaning parse raise)

/-- A text without `extends` says the same when it is indented, only deeper. And nodes that are
deeper come to what they came to before, in every session and whatever they refer to: to the same
error, or to the same assets and to rows that are deeper. -/
theorem composition_raise (rules : Rules) (levels : Nat) :
    (∀ t, (∀ line ∈ Text.fullLines rules.separator t, ∀ target, Meaning.of line ≠ .parent target) →
      parse rules.indentUnit rules.separator
          (shiftText (levels * rules.indentUnit) rules.separator t) =
        raise levels (parse rules.indentUnit rules.separator t)) ∧
      ∀ (paths progress : List Path) directory table nodes (s : Session paths),
        let compose :=
          composeNodes rules (resolve (Run.source paths) rules progress) directory table
        compose (raise levels nodes) s =
          ((compose nodes s).1.map (Composed.shift levels), (compose nodes s).2) := by
  refine ⟨fun t other => Directive.parse_shiftText rules levels other, ?_⟩
  intro paths progress directory table nodes s
  dsimp only
  rw [composeNodes_raise, Run.map_apply]

theorem composition_raise_block :
    let rules : Rules := ⟨2, .lf, [], "pug".toList, by decide⟩
    let t := "ul\n\n block items\n   li one".toList
    let w : Workspace := { rules, files := {} }
    let table : Overrides := [⟨"items".toList, .append, [⟨0, "li two".toList⟩]⟩]
    let nodes : List Directive.Node := [.text 0 "ul".toList,
      .block 0 " block items".toList "items".toList .replace [.text 1 " li one".toList]]
    parse 2 ['\n'] "  ul\n   block items\n     li one".toList = raise 1 (parse 2 ['\n'] t) ∧
      (composeNodes rules (resolve (Run.source w.files.paths) rules []) ⟨['/']⟩ table
        (raise 1 nodes) w.opened).1 = .ok { rows :=
          [⟨1, "ul".toList⟩, ⟨1, " li one".toList⟩, ⟨1, "li two".toList⟩] } := by
  intro rules t w table nodes
  have means : (Text.fullLines ['\n'] t).map Meaning.of =
      [.text, .block "items".toList .replace, .text] := by decide +kernel
  have other : ∀ line ∈ Text.fullLines ['\n'] t, ∀ target, Meaning.of line ≠ .parent target := by
    intro line hl target h
    have mem : Meaning.parent target ∈ (Text.fullLines ['\n'] t).map Meaning.of :=
      List.mem_map.2 ⟨line, hl, h⟩
    rw [means] at mem
    simp at mem
  obtain ⟨parsed, composed⟩ := composition_raise rules 1
  constructor
  · have moved : shiftText (1 * 2) ['\n'] t = "  ul\n   block items\n     li one".toList := by
      decide +kernel
    rw [← moved]
    exact parsed t other
  · have still : (composeNodes rules (resolve (Run.source w.files.paths) rules []) ⟨['/']⟩ table
        nodes w.opened).1 = .ok { rows :=
          [⟨0, "ul".toList⟩, ⟨0, " li one".toList⟩, ⟨0, "li two".toList⟩] } := by
      decide +kernel
    rw [composed, still]
    rfl

end Composition

end PugWeave
