import PugWeave.Proofs.Directive.Growth
import PugWeave.Proofs.Directive.Opaque

namespace PugWeave.Directive

open Text

mutual

def Node.statements : Node → List Statement
  | .text indent s => [⟨indent, s, .text⟩]
  | .inclusion indent s target => [⟨indent, s, .inclusion target⟩]
  | .parent indent s target => [⟨indent, s, .parent target⟩]
  | .block indent s name mode children => ⟨indent, s, .block name mode⟩ :: statements children

def statements : List Node → List Statement
  | [] => []
  | node :: rest => node.statements ++ statements rest

end

/-- A block holds a statement. Both are numbered from top to bottom. -/
inductive Holds : List Node → Nat → Nat → Prop
  | own : j < (statements children).length →
      Holds (.block indent s name mode children :: rest) 0 (j + 1)
  | inner : Holds children i j → Holds (.block indent s name mode children :: rest) (i + 1) (j + 1)
  | later : Holds rest i j →
      Holds (node :: rest) (node.statements.length + i) (node.statements.length + j)

/-- A statement is a block, and those that follow are deeper up to this one. -/
def Spans (ss : List Statement) (i j : Nat) : Prop :=
  i < j ∧ j < ss.length ∧ ∃ s, ss[i]? = some s ∧ s.meaning.isBlock = true ∧
    ∀ k, i < k → k ≤ j → ∀ u, ss[k]? = some u → s.indent < u.indent

theorem statements_ofStatement (s : Statement) (rest : List Statement)
    (inner : statements (tree (nested s rest)) = nested s rest) :
    (Node.ofStatement s (tree (nested s rest))).statements = s :: nested s rest := by
  obtain ⟨indent, t, meaning⟩ := s
  cases meaning with
  | block name mode => rw [Node.ofStatement, Node.statements, inner]
  | text | inclusion | parent => simp [Node.ofStatement, Node.statements, nested, Meaning.isBlock]

theorem statements_tree (ss : List Statement) : statements (tree ss) = ss := by
  induction ss using tree.induct with
  | case1 => simp [tree, statements]
  | case2 s rest _ inner outer =>
    rw [tree, statements, statements_ofStatement s rest inner, outer, List.cons_append,
      nested_append_following]

theorem lt_length_takeWhile_iff {α : Type} (p : α → Bool) (l : List α) (j : Nat) :
    j < (l.takeWhile p).length ↔ j < l.length ∧ ∀ k ≤ j, ∀ a, l[k]? = some a → p a = true := by
  induction l generalizing j with
  | nil => simp
  | cons b l ih =>
    cases hb : p b with
    | false =>
      simp only [List.takeWhile_cons, hb]
      constructor
      · simp
      · rintro ⟨-, h⟩
        have := h 0 (Nat.zero_le j) b rfl
        simp [hb] at this
    | true =>
      cases j with
      | zero => simp [hb]
      | succ j =>
        simp only [List.takeWhile_cons, hb, if_true, List.length_cons, Nat.add_lt_add_iff_right, ih]
        refine and_congr_right fun _ => ⟨fun h k hk a ha => ?_, fun h k hk a ha => ?_⟩
        · cases k with
          | zero =>
            cases ha
            exact hb
          | succ k => exact h k (Nat.le_of_succ_le_succ hk) a ha
        · exact h (k + 1) (Nat.succ_le_succ hk) a ha

theorem spans_zero {s : Statement} {rest : List Statement} {j : Nat} :
    Spans (s :: rest) 0 (j + 1) ↔ j < (nested s rest).length := by
  rw [nested]
  cases hb : s.meaning.isBlock with
  | false => simp [Spans, hb]
  | true =>
    rw [if_pos rfl, lt_length_takeWhile_iff]
    simp only [Spans, List.length_cons, Nat.zero_lt_succ, true_and, Nat.add_lt_add_iff_right,
      List.getElem?_cons_zero, Option.some.injEq, exists_eq_left', hb, decide_eq_true_eq]
    refine and_congr_right fun _ => ⟨fun h k hk u hu => ?_, fun h k pos hk u hu => ?_⟩
    · exact h (k + 1) k.succ_pos (Nat.succ_le_succ hk) u hu
    · obtain ⟨k, rfl⟩ := Nat.exists_eq_add_one.2 pos
      exact h k (Nat.le_of_succ_le_succ hk) u hu

theorem spans_append_left {a b : List Statement} {i j : Nat} (front : j < a.length) :
    Spans (a ++ b) i j ↔ Spans a i j := by
  have same : ∀ k ≤ j, (a ++ b)[k]? = a[k]? := fun k hk =>
    List.getElem?_append_left (Nat.lt_of_le_of_lt hk front)
  have fits : j < (a ++ b).length := by
    rw [List.length_append]
    exact Nat.lt_add_right _ front
  refine and_congr_right fun lt => and_congr (iff_of_true fits front) ?_
  rw [same i (Nat.le_of_lt lt)]
  refine exists_congr fun s => and_congr_right fun _ => and_congr_right fun _ =>
    forall_congr' fun k => forall_congr' fun _ => forall_congr' fun hk => ?_
  rw [same k hk]

theorem spans_append_right {a b : List Statement} {i j : Nat} :
    Spans (a ++ b) (a.length + i) (a.length + j) ↔ Spans b i j := by
  have same (k : Nat) : (a ++ b)[a.length + k]? = b[k]? := by
    rw [List.getElem?_append_right (Nat.le_add_right _ _), Nat.add_sub_cancel_left]
  simp only [Spans, List.length_append, Nat.add_lt_add_iff_left, same]
  refine and_congr_right fun _ => and_congr_right fun _ => exists_congr fun s =>
    and_congr_right fun _ => and_congr_right fun _ => ⟨fun h k lo hk u hu => ?_,
      fun h k lo hk u hu => ?_⟩
  · exact h (a.length + k) (by omega) (by omega) u ((same k).trans hu)
  · obtain ⟨k, rfl⟩ := Nat.exists_eq_add_of_le (show a.length ≤ k by omega)
    exact h k (by omega) (by omega) u ((same k).symm.trans hu)

theorem spans_succ {s : Statement} {rest : List Statement} {i j : Nat} :
    Spans (s :: rest) (i + 1) (j + 1) ↔ Spans rest i j := by
  rw [Nat.add_comm i, Nat.add_comm j]
  exact spans_append_right (a := [s])

theorem spans_append {a b : List Statement}
    (shallow : ∀ u ∈ b.head?, ∀ s ∈ a, s.meaning.isBlock = true → u.indent ≤ s.indent) {i j : Nat} :
    Spans (a ++ b) i j ↔
      Spans a i j ∨ ∃ i' j', i = a.length + i' ∧ j = a.length + j' ∧ Spans b i' j' := by
  constructor
  · intro h
    rcases Nat.lt_or_ge j a.length with front | beyond
    · exact .inl ((spans_append_left front).1 h)
    rcases Nat.lt_or_ge i a.length with front | behind
    · obtain ⟨-, fits, s, hs, block, deeper⟩ := h
      rw [List.getElem?_append_left front] at hs
      obtain ⟨u, hu⟩ : ∃ u, b.head? = some u := by
        cases b with
        | nil => simp at fits; omega
        | cons u b => exact ⟨u, rfl⟩
      have next : (a ++ b)[a.length]? = some u := by
        rw [List.getElem?_append_right (Nat.le_refl _), Nat.sub_self, ← List.head?_eq_getElem?, hu]
      have below := deeper a.length front beyond u next
      have above := shallow u hu s (List.mem_of_getElem? hs) block
      omega
    · obtain ⟨i, rfl⟩ := Nat.exists_eq_add_of_le behind
      obtain ⟨j, rfl⟩ := Nat.exists_eq_add_of_le beyond
      exact .inr ⟨i, j, rfl, rfl, spans_append_right.1 h⟩
  · rintro (h | ⟨i, j, rfl, rfl, h⟩)
    · exact (spans_append_left h.2.1).2 h
    · exact spans_append_right.2 h

theorem shallow_following (s : Statement) (rest : List Statement) :
    ∀ u ∈ (following s rest).head?, ∀ v ∈ s :: nested s rest, v.meaning.isBlock = true →
      u.indent ≤ v.indent := by
  intro u hu v hv block
  cases hs : s.meaning.isBlock with
  | false =>
    obtain rfl : v = s := by simpa [nested, hs] using hv
    rw [hs] at block
    cases block
  | true =>
    rw [following, if_pos hs] at hu
    have last : ¬s.indent < u.indent := by
      have := List.head?_dropWhile_not (fun v : Statement => decide (s.indent < v.indent)) rest
      rw [Option.mem_def.1 hu] at this
      simpa using this
    rcases List.mem_cons.1 hv with rfl | hv
    · exact Nat.not_lt.1 last
    · rw [nested, if_pos hs] at hv
      have inner : s.indent < v.indent := by
        simpa using List.all_eq_true.1 List.all_takeWhile v hv
      omega

theorem spans_cons_iff {s : Statement} {rest : List Statement} {i j : Nat} :
    Spans (s :: rest) i j ↔ Spans (s :: nested s rest) i j ∨ ∃ i' j',
      i = (s :: nested s rest).length + i' ∧ j = (s :: nested s rest).length + j' ∧
        Spans (following s rest) i' j' := by
  rw [← spans_append (shallow_following s rest), List.cons_append, nested_append_following]

theorem holds_cons_iff {node : Node} {rest : List Node} {i j : Nat} :
    Holds (node :: rest) i j ↔ Holds [node] i j ∨ ∃ i' j',
      i = node.statements.length + i' ∧ j = node.statements.length + j' ∧ Holds rest i' j' := by
  constructor
  · intro h
    cases h with
    | own h => exact .inl (.own h)
    | inner h => exact .inl (.inner h)
    | later h => exact .inr ⟨_, _, rfl, rfl, h⟩
  · rintro (h | ⟨i, j, rfl, rfl, h⟩)
    · cases h with
      | own h => exact .own h
      | inner h => exact .inner h
      | later h => cases h
    · exact .later h

theorem nested_nested (s : Statement) (rest : List Statement) :
    nested s (nested s rest) = nested s rest := by
  rw [nested, nested]
  split
  · rw [List.takeWhile_idem]
  · rfl

theorem holds_ofStatement_iff {s : Statement} {rest : List Statement}
    (inner : ∀ i j, Holds (tree (nested s rest)) i j ↔ Spans (nested s rest) i j) {i j : Nat} :
    Holds [.ofStatement s (tree (nested s rest))] i j ↔ Spans (s :: nested s rest) i j := by
  obtain ⟨indent, t, meaning⟩ := s
  cases meaning with
  | block name mode =>
    rw [Node.ofStatement]
    constructor
    · intro h
      cases h with
      | own h => rwa [spans_zero, nested_nested, ← statements_tree (nested _ rest)]
      | inner h => exact spans_succ.2 ((inner _ _).1 h)
      | later h => cases h
    · intro h
      obtain ⟨j, rfl⟩ := Nat.exists_eq_add_one.2 (Nat.zero_lt_of_lt h.1)
      cases i with
      | zero =>
        rw [spans_zero, nested_nested, ← statements_tree (nested _ rest)] at h
        exact .own h
      | succ i => exact .inner ((inner _ _).2 (spans_succ.1 h))
  | text | inclusion | parent =>
    rw [Node.ofStatement]
    constructor
    · intro h
      cases h with
      | later h => cases h
    · rintro ⟨lt, fits, -⟩
      simp [nested, Meaning.isBlock] at fits
      omega

theorem holds_tree_iff (ss : List Statement) (i j : Nat) : Holds (tree ss) i j ↔ Spans ss i j := by
  induction ss using tree.induct generalizing i j with
  | case1 =>
    constructor
    · intro h
      rw [tree] at h
      cases h
    · rintro ⟨-, fits, -⟩
      cases fits
  | case2 s rest _ inner outer =>
    rw [tree, holds_cons_iff, spans_cons_iff, holds_ofStatement_iff inner,
      statements_ofStatement s rest (statements_tree _)]
    simp only [outer]

theorem Statement.spaces_append_text (unit : Nat) {line : Text} (full : isBlankLine line = false) :
    spaces ((ofLine unit line).indent * unit) ++ (ofLine unit line).text = trimEnd line := by
  simp only [ofLine]
  generalize hn : (line.takeWhile (· = ' ')).length / unit * unit = n
  have few : n ≤ (line.takeWhile (· = ' ')).length := hn ▸ Nat.div_mul_le_self _ _
  have parts := spaces_append_drop few
  have inner : isBlankLine (line.drop n) = false := by
    rwa [← isBlankLine_spaces_append n, parts]
  rw [← trimEnd_append _ inner, parts]

theorem Statement.indent_of_parent {unit : Nat} {line target : Text}
    (h : Meaning.of line = .parent target) : (ofLine unit line).indent = 0 := by
  have extending : ∃ w, argument? "extends" line = some w := by
    rw [Meaning.of_eq] at h
    cases ha : argument? "extends" line with
    | some w => exact ⟨w, rfl⟩
    | none =>
      rw [ha] at h
      cases hi : argument? "include" (trimStart line) <;> rw [hi] at h <;> dsimp only at h
      · cases hb : block? (trimStart line) <;> rw [hb] at h <;> cases h
      · cases h
  obtain ⟨w, hw⟩ := extending
  obtain ⟨rest, hr, -⟩ := Option.bind_eq_some_iff.1 hw
  obtain ⟨u, rfl⟩ := prefix_of_after? hr
  have edge : (("extends".toList ++ u).takeWhile (· = ' ')).length = 0 := rfl
  simp only [ofLine, edge, Nat.zero_div]

theorem not_holds_of_parent {unit : Nat} {ls : List Text} {i j : Nat} {line target : Text}
    (hl : ls[j]? = some line) (h : Meaning.of line = .parent target) :
    ¬Holds (tree (ls.map (Statement.ofLine unit))) i j := by
  rw [holds_tree_iff]
  rintro ⟨lt, -, s, -, -, deeper⟩
  have := deeper j lt (Nat.le_refl j) (.ofLine unit line) (by simp [hl])
  rw [Statement.indent_of_parent h] at this
  omega

/-- The tree of a text, whatever its unit and separator, says from top to bottom what the lines say
that are not blank. Levels and statement make up the line. A block holds a line if and only if all
lines from behind the block up to that one are deeper. An `extends` is at the left edge and in no
block. The tree grows line by line, without a look at the lines that follow. -/
theorem parse_outline (unit : Nat) (sep t : Text) :
    let ls := fullLines sep t
    let nodes := parse unit sep t
    statements nodes = ls.map (Statement.ofLine unit) ∧
      (∀ line ∈ ls, spaces ((Statement.ofLine unit line).indent * unit) ++
        (Statement.ofLine unit line).text = trimEnd line) ∧
      (∀ i j, Holds nodes i j ↔ i < j ∧ j < ls.length ∧ ∃ line, ls[i]? = some line ∧
        (Meaning.of line).isBlock = true ∧ ∀ k, i < k → k ≤ j → ∀ later, ls[k]? = some later →
          (Statement.ofLine unit line).indent < (Statement.ofLine unit later).indent) ∧
      (∀ j line target, ls[j]? = some line → Meaning.of line = .parent target →
        (Statement.ofLine unit line).indent = 0 ∧ ∀ i, ¬Holds nodes i j) ∧
      nodes = (ls.foldl (fun g line => g.read (.ofLine unit line)) ({} : Growth)).finish := by
  intro ls nodes
  have made : nodes = tree (ls.map (Statement.ofLine unit)) := rfl
  refine ⟨?_, ?_, ?_, ?_, ?_⟩
  · rw [made, statements_tree]
  · intro line hl
    exact Statement.spaces_append_text unit (by simpa using (List.mem_filter.1 hl).2)
  · intro i j
    rw [made, holds_tree_iff, Spans]
    simp [Statement.ofLine]
  · intro j line target hl h
    exact ⟨Statement.indent_of_parent h, fun i => made ▸ not_holds_of_parent hl h⟩
  · rw [made, ← Growth.finish_foldl, List.foldl_map]

theorem parse_outline_page :
    let t := "extends base\nblock a\n\n      p deep\n  block b  \n    i\n b\nblock c".toList
    let nodes := parse 2 ['\n'] t
    statements nodes = [⟨0, "extends base".toList, .parent "base".toList⟩,
        ⟨0, "block a".toList, .block "a".toList .replace⟩, ⟨3, "p deep".toList, .text⟩,
        ⟨1, "block b".toList, .block "b".toList .replace⟩, ⟨2, "i".toList, .text⟩,
        ⟨0, " b".toList, .text⟩, ⟨0, "block c".toList, .block "c".toList .replace⟩] ∧
      Holds nodes 1 4 ∧ Holds nodes 3 4 ∧ ¬Holds nodes 1 5 ∧ ∀ i, ¬Holds nodes i 0 := by
  intro t nodes
  have lines : fullLines ['\n'] t = ["extends base".toList, "block a".toList,
      "      p deep".toList, "  block b  ".toList, "    i".toList, " b".toList,
      "block c".toList] := by
    decide +kernel
  obtain ⟨outline, -, holds, extending, -⟩ := parse_outline 2 ['\n'] t
  rw [lines] at outline holds extending
  refine ⟨outline.trans (by decide +kernel), (holds 1 4).2 ?_, (holds 3 4).2 ?_, ?_, ?_⟩
  · refine ⟨by decide, by decide, "block a".toList, rfl, by decide +kernel, ?_⟩
    intro k lo hk later h
    obtain rfl | rfl | rfl : k = 2 ∨ k = 3 ∨ k = 4 := by omega
    all_goals
      obtain rfl := Option.some.inj h
      decide +kernel
  · refine ⟨by decide, by decide, "  block b  ".toList, rfl, by decide +kernel, ?_⟩
    intro k lo hk later h
    obtain rfl : k = 4 := by omega
    obtain rfl := Option.some.inj h
    decide +kernel
  · rw [holds]
    rintro ⟨-, -, line, hl, -, deeper⟩
    obtain rfl := Option.some.inj hl
    exact absurd (deeper 5 (by decide) (by decide) " b".toList rfl) (by decide +kernel)
  · exact (extending 0 "extends base".toList "base".toList rfl (by decide +kernel)).2

end PugWeave.Directive
