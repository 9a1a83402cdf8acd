import PugWeave.Directive.Node
import PugWeave.Proofs.Directive.Keywords
import PugWeave.Proofs.Text.FullLines

namespace PugWeave

namespace Directive

open Text

section

variable {b : Text} (blank : isBlankLine b = true)
include blank

theorem word?_append {t w : Text} (h : word? t = some w) : word? (t ++ b) = some w := by
  have stops : b.takeWhile (!isBlank ·) = [] := by
    cases b with
    | nil => rfl
    | cons c r =>
      have : isBlank c = true := by
        rw [isBlankLine, List.all_cons, Bool.and_eq_true] at blank
        exact blank.1
      simp [this]
  have same : (t ++ b).takeWhile (!isBlank ·) = t.takeWhile (!isBlank ·) := by
    rw [List.takeWhile_append, stops, List.append_nil]
    split
    · rename_i all
      exact ((List.takeWhile_prefix _).eq_of_length all).symm
    · rfl
  rw [word?, same]
  exact h

omit blank in
theorem not_blank_of_word? {t w : Text} (h : word? t = some w) : isBlankLine t = false := by
  cases t with
  | nil => cases h
  | cons c r =>
    cases hc : isBlank c with
    | false => simp [isBlankLine, hc]
    | true => simp [word?, hc] at h

omit blank in
theorem after?_append {keyword : String} {t rest : Text} (h : after? keyword t = some rest)
    (full : isBlankLine rest = false) (b : Text) : after? keyword (t ++ b) = some (rest ++ b) := by
  obtain ⟨s, rfl⟩ := prefix_of_after? h
  rw [after?_keyword_append] at h
  rw [List.append_assoc, after?_keyword_append]
  cases s with
  | nil => cases h
  | cons c r =>
    rw [pastGap?] at h
    split at h
    · rename_i hc
      cases h
      have inner : isBlankLine r = false := by
        cases hr : isBlankLine r with
        | false => rfl
        | true =>
          rw [trimStart_eq_nil_iff.2 hr] at full
          cases full
      simp [pastGap?, hc, trimStart_append inner]
    · cases h

theorem argument?_append {keyword : String} {t w : Text} (h : argument? keyword t = some w) :
    argument? keyword (t ++ b) = some w := by
  obtain ⟨rest, hr, hw⟩ := Option.bind_eq_some_iff.1 h
  rw [argument?, after?_append hr (not_blank_of_word? hw)]
  exact word?_append blank hw

omit blank in
theorem extension?_isSome_iff {t : Text} : (extension? t).isSome = true ↔
    (∃ w, argument? "append" t = some w) ∨ ∃ w, argument? "prepend" t = some w := by
  rw [extension?]
  cases argument? "append" t <;> simp [Option.isSome_iff_exists]

theorem extension?_append {t : Text} (h : (extension? t).isSome = true) :
    (extension? (t ++ b)).isSome = true := by
  rw [extension?_isSome_iff] at h ⊢
  exact h.imp (fun ⟨w, hw⟩ => ⟨w, argument?_append blank hw⟩)
    (fun ⟨w, hw⟩ => ⟨w, argument?_append blank hw⟩)

omit blank in
theorem not_blank_of_extension? {t : Text} (h : (extension? t).isSome = true) :
    ∃ c r, t = c :: r ∧ isBlank c = false ∧ c ≠ 'b' := by
  have first {keyword : String} {w : Text} (c : Char) (r : Text) (hk : keyword.toList = c :: r)
      (hw : argument? keyword t = some w) : ∃ r, t = c :: r := by
    obtain ⟨rest, hr, -⟩ := Option.bind_eq_some_iff.1 hw
    have front := prefix_of_after? hr
    rw [hk] at front
    obtain ⟨u, rfl⟩ := front
    exact ⟨_, rfl⟩
  rcases extension?_isSome_iff.1 h with ⟨w, hw⟩ | ⟨w, hw⟩
  · obtain ⟨r, rfl⟩ := first 'a' _ rfl hw
    exact ⟨'a', r, rfl, rfl, by decide⟩
  · obtain ⟨r, rfl⟩ := first 'p' _ rfl hw
    exact ⟨'p', r, rfl, rfl, by decide⟩

theorem block?_append {t : Text} (h : (block? t).isSome = true) :
    (block? (t ++ b)).isSome = true := by
  rw [block?] at h
  cases ha : after? "block" t with
  | some rest =>
    rw [ha] at h
    replace h : (extension? rest).isSome = true ∨ (word? rest).isSome = true := by simpa using h
    rcases h with he | hw
    · obtain ⟨c, r, rfl, hc, -⟩ := not_blank_of_extension? he
      have full : isBlankLine (c :: r) = false := by simp [isBlankLine, hc]
      rw [block?, after?_append ha full]
      have longer := extension?_append blank he
      simp only [Option.orElse_eq_orElse, Option.orElse_eq_or, Option.isSome_or, longer,
        Bool.true_or]
    · obtain ⟨w, hw⟩ := Option.isSome_iff_exists.1 hw
      rw [block?, after?_append ha (not_blank_of_word? hw)]
      simp [word?_append blank hw]
  | none =>
    rw [ha] at h
    obtain ⟨c, r, rfl, -, hc⟩ := not_blank_of_extension? h
    have other : after? "block" (c :: r ++ b) = none := by
      cases hb : after? "block" (c :: r ++ b) with
      | none => rfl
      | some rest =>
        have front := (List.cons_prefix_cons.1 (prefix_of_after? hb)).1
        exact absurd front.symm hc
    rw [block?, other]
    exact extension?_append blank h

end

structure Opaque (sep s : Text) : Prop where
  line : Line sep s
  inclusion : argument? "include" (trimStart s) = none
  block : block? (trimStart s) = none

theorem Meaning.of_eq_text_iff {line : Text} : Meaning.of line = .text ↔
    argument? "include" (trimStart line) = none ∧ argument? "extends" line = none ∧
      block? (trimStart line) = none := by
  rw [Meaning.of_eq]
  cases argument? "include" (trimStart line) with
  | some target => simp
  | none =>
    cases argument? "extends" line with
    | some target => simp
    | none => cases block? (trimStart line) <;> simp

theorem Opaque.meaning {sep s : Text} (h : Opaque sep s) (n : Nat) : Meaning.of (spaces n ++ s) =
    if n = 0 then ((argument? "extends" s).map Meaning.parent).getD .text else .text := by
  rw [Meaning.of_eq, trimStart_spaces_append, h.inclusion, h.block]
  cases n with
  | zero =>
    have : spaces 0 ++ s = s := rfl
    rw [this]
    cases argument? "extends" s <;> rfl
  | succ n => rfl

theorem Statement.opaque_ofLine {rules : Rules} {line : Text} (h : Line rules.separator line)
    (text : (ofLine rules.indentUnit line).meaning = .text) :
    Opaque rules.separator (ofLine rules.indentUnit line).text := by
  obtain ⟨inclusion, -, block⟩ := Meaning.of_eq_text_iff.1 text
  simp only [ofLine]
  generalize hn : (line.takeWhile (· = ' ')).length / rules.indentUnit * rules.indentUnit = n
  have few : n ≤ (line.takeWhile (· = ' ')).length := hn ▸ Nat.div_mul_le_self _ _
  -- The line is a text between spaces and blanks.
  obtain ⟨b, blank, back⟩ := exists_blank_trimEnd (line.drop n)
  generalize trimEnd (line.drop n) = s at back
  have parts : line = spaces n ++ (s ++ b) := by rw [back, spaces_append_drop few]
  rw [parts, Rules.separator, line_spaces_append] at h
  have full : isBlankLine s = false := by
    have := h.full
    rwa [isBlankLine_append, blank, Bool.and_true] at this
  rw [parts, trimStart_spaces_append, trimStart_append full] at inclusion block
  refine ⟨⟨fun within => h.whole (within.trans (List.prefix_append s b).isInfix), full⟩, ?_, ?_⟩
  · rw [Option.eq_none_iff_forall_ne_some]
    intro target ht
    rw [argument?_append blank ht] at inclusion
    cases inclusion
  · rw [← Option.not_isSome_iff_eq_none]
    intro found
    have := block?_append blank found
    rw [block] at this
    cases this

inductive Node.Sound (sep : Text) : Nat → Node → Prop
  | text : depth ≤ indent → Opaque sep s → Sound sep depth (.text indent s)
  | inclusion : depth ≤ indent → Sound sep depth (.inclusion indent s target)
  | parent : depth ≤ indent → Sound sep depth (.parent indent s target)
  | block : depth ≤ indent → (∀ node ∈ children, Sound sep (indent + 1) node) →
      Sound sep depth (.block indent s name mode children)

theorem sound_tree {sep : Text} {statements : List Statement} {depth : Nat}
    (h : ∀ s ∈ statements, depth ≤ s.indent ∧ (s.meaning = .text → Opaque sep s.text)) :
    ∀ node ∈ tree statements, node.Sound sep depth := by
  induction statements using tree.induct generalizing depth with
  | case1 => simp [tree]
  | case2 s rest _ inner outer =>
    rw [tree]
    have all (u : Statement) (hu : u ∈ nested s rest ++ following s rest) :=
      h u (by rw [nested_append_following] at hu; exact .tail _ hu)
    intro node hnode
    rcases List.mem_cons.1 hnode with rfl | hnode
    · obtain ⟨deep, text⟩ := h s List.mem_cons_self
      rw [Node.ofStatement]
      cases hm : s.meaning with
      | text => exact .text deep (text hm)
      | inclusion target => exact .inclusion deep
      | parent target => exact .parent deep
      | block name mode =>
        refine .block deep (inner fun u hu => ⟨?_, (all u (List.mem_append_left _ hu)).2⟩)
        rw [nested, hm] at hu
        have := List.all_eq_true.1 List.all_takeWhile u hu
        exact of_decide_eq_true this
    · exact outer (fun u hu => all u (List.mem_append_right _ hu)) node hnode

theorem sound_parse (rules : Rules) (t : Text) :
    ∀ node ∈ parse rules.indentUnit rules.separator t, node.Sound rules.separator 0 := by
  apply sound_tree
  intro s hs
  obtain ⟨line, hl, rfl⟩ := List.mem_map.1 hs
  exact ⟨Nat.zero_le _, Statement.opaque_ofLine (line_of_mem_fullLines rules.separator_ne_nil hl)⟩

theorem tree_eq_map {statements : List Statement} (h : ∀ s ∈ statements, s.meaning.isBlock = false) :
    tree statements = statements.map fun s => .ofStatement s [] := by
  induction statements with
  | nil => simp [tree]
  | cons s rest ih =>
    have single := h s List.mem_cons_self
    rw [tree, nested, following, single]
    simp [tree, ih fun u hu => h u (.tail _ hu)]

theorem parse_eq_map {unit : Nat} {sep t : Text}
    (h : ∀ line ∈ fullLines sep t, (Meaning.of line).isBlock = false) :
    parse unit sep t = (fullLines sep t).map fun line => .ofStatement (.ofLine unit line) [] := by
  rw [parse, ← fullLines, tree_eq_map, List.map_map]
  · rfl
  · exact List.forall_mem_map.2 h

theorem Node.ofStatement_eq_text_iff {s : Statement} :
    (∃ indent t, Node.ofStatement s [] = .text indent t) ↔ s.meaning = .text := by
  rw [Node.ofStatement]
  cases s.meaning <;> simp

end Directive

end PugWeave
