import PugWeave.Composition.Row
import PugWeave.Proofs.Path.Components
import PugWeave.Proofs.Text.Blanks
import PugWeave.Settings

namespace PugWeave

namespace Text

theorem occurs_iff {x t : Text} : occurs x t = true ↔ x <:+: t := by
  induction t with
  | nil => simp [occurs]
  | cons c r ih =>
    rw [occurs, Bool.or_eq_true, List.isPrefixOf_iff_prefix, ih, List.infix_cons_iff]

theorem infix_append_of_not_mem {c : Char} {r b : Text} (h : c ∉ b) (t : Text) :
    c :: r <:+: b ++ t ↔ c :: r <:+: t := by
  induction b with
  | nil => rfl
  | cons d b ih =>
    rw [List.mem_cons, not_or] at h
    rw [List.cons_append, List.infix_cons_iff, ih h.2, or_iff_right]
    intro front
    exact h.1 (List.cons_prefix_cons.1 front).1

theorem join_singleton (sep l : Text) : join sep [l] = l := by
  simp [join]

theorem join_cons_cons (sep l m : Text) (ls : List Text) :
    join sep (l :: m :: ls) = l ++ (sep ++ join sep (m :: ls)) := by
  rw [join, List.intercalate_cons_of_ne_nil (List.cons_ne_nil _ _), List.append_assoc, join]

structure Solid (x : Text) : Prop where
  first : ∃ c r, x = c :: r ∧ isBlank c = false
  line : ∀ c ∈ x, isBreak c = false

namespace Solid

variable {x : Text} (hx : x.Solid)
include hx

theorem ne_nil : x ≠ [] := by
  obtain ⟨c, r, rfl, -⟩ := hx.first
  exact List.cons_ne_nil c r

theorem infix_blank_append {b : Text} (h : isBlankLine b = true) (t : Text) :
    x <:+: b ++ t ↔ x <:+: t := by
  obtain ⟨c, r, rfl, hc⟩ := hx.first
  refine infix_append_of_not_mem (fun mem => ?_) t
  rw [List.all_eq_true.1 h c mem] at hc
  cases hc

theorem not_infix_of_isBlankLine {t : Text} (h : isBlankLine t = true) : ¬x <:+: t := by
  have := hx.infix_blank_append h []
  simp [hx.ne_nil] at this
  exact this

theorem infix_append_cons {c : Char} (hc : isBreak c = true) (a b : Text) :
    x <:+: a ++ c :: b ↔ x <:+: a ∨ x <:+: b := by
  have other : c ∉ x := by
    intro h
    rw [hx.line c h] at hc
    cases hc
  have rest : x <:+: c :: b ↔ x <:+: b :=
    hx.infix_blank_append (b := [c]) (by simpa [isBlankLine] using isBlank_of_isBreak hc) b
  rw [List.infix_append_iff, rest]
  constructor
  · rintro (h | h | ⟨y, z, rfl, hy, hz⟩)
    · exact .inl h
    · exact .inr h
    · -- A part of `x` that goes on behind `c` would hold `c`.
      rcases List.prefix_cons_iff.1 hz with rfl | ⟨z, rfl, -⟩
      · rw [List.append_nil]
        exact .inl hy.isInfix
      · simp at other
  · rintro (h | h)
    · exact .inl h
    · exact .inr (.inl h)

theorem infix_join {sep : Text} (ne : sep ≠ []) (breaks : ∀ c ∈ sep, isBreak c = true)
    (lines : List Text) : x <:+: join sep lines ↔ ∃ l ∈ lines, x <:+: l := by
  have apart (a b : Text) : x <:+: a ++ (sep ++ b) ↔ x <:+: a ∨ x <:+: b := by
    obtain ⟨c, sep, rfl⟩ := List.exists_cons_of_ne_nil ne
    have blank : isBlankLine sep = true :=
      List.all_eq_true.2 fun d hd => isBlank_of_isBreak (breaks d (.tail _ hd))
    rw [List.cons_append, hx.infix_append_cons (breaks c List.mem_cons_self),
      hx.infix_blank_append blank]
  induction lines with
  | nil => simp [join, hx.ne_nil]
  | cons l rest ih =>
    cases rest with
    | nil => simp [join]
    | cons l' rest =>
      rw [join_cons_cons, apart]
      refine (or_congr_right ih).trans ?_
      simp

end Solid

theorem join_consFirst (sep : Text) (c : Char) (pieces : List Text) :
    join sep (consFirst c pieces) = c :: join sep pieces := by
  cases pieces with
  | nil => simp [consFirst, join]
  | cons p ps => cases ps <;> simp [consFirst, join, List.intercalate_cons_of_ne_nil]

theorem splitFrom_ne_nil (sep : Text) (skip : Nat) (t : Text) : splitFrom sep skip t ≠ [] := by
  fun_induction splitFrom sep skip t with
  | case1 | case3 => exact List.cons_ne_nil _ _
  | case2 skip c r ih => exact ih
  | case4 c r h ih => cases hs : splitFrom sep 0 r <;> simp [consFirst]

theorem join_splitFrom {sep : Text} (ne : sep ≠ []) (skip : Nat) (t : Text) :
    join sep (splitFrom sep skip t) = t.drop skip := by
  fun_induction splitFrom sep skip t with
  | case1 skip => simp [join]
  | case2 skip c r ih => rw [ih, List.drop_succ_cons]
  | case3 c r h ih =>
    have front := List.prefix_iff_eq_append.1 (List.isPrefixOf_iff_prefix.1 h)
    obtain ⟨d, sep, rfl⟩ := List.exists_cons_of_ne_nil ne
    rw [join, List.intercalate_cons_of_ne_nil (splitFrom_ne_nil _ _ _), ← join, ih]
    exact front
  | case4 c r h ih => rw [join_consFirst, ih]; rfl

theorem join_split {sep : Text} (ne : sep ≠ []) (t : Text) : join sep (split sep t) = t := by
  rw [split, if_neg (by simpa using ne), join_splitFrom ne]
  rfl

end Text

theorem LineBreak.text_ne_nil (b : LineBreak) : b.text ≠ [] := by
  cases b <;> exact List.cons_ne_nil _ _

theorem LineBreak.isBreak_of_mem_text (b : LineBreak) : ∀ c ∈ b.text, Text.isBreak c = true := by
  cases b <;> simp [text, Text.isBreak]

theorem Rules.separator_ne_nil (r : Rules) : r.separator ≠ [] := r.lineBreak.text_ne_nil

theorem Rules.isBreak_of_mem_separator (r : Rules) : ∀ c ∈ r.separator, Text.isBreak c = true :=
  r.lineBreak.isBreak_of_mem_text

namespace Composition

open Text

theorem exists_spaces_shiftLine (columns : Int) (line : Text) :
    ∃ n, shiftLine columns line = spaces n ++ line ∨ line = spaces n ++ shiftLine columns line := by
  rw [shiftLine]
  split
  · exact ⟨_, .inl rfl⟩
  · exact ⟨_, .inr (spaces_append_drop (Nat.min_le_left _ _)).symm⟩

end Composition

namespace Text.Solid

open PugWeave.Composition

variable {x : Text} (hx : x.Solid)
include hx

theorem infix_shiftLine (columns : Int) (line : Text) :
    x <:+: shiftLine columns line ↔ x <:+: line := by
  obtain ⟨n, h | h⟩ := exists_spaces_shiftLine columns line
  · rw [h, hx.infix_blank_append (isBlankLine_spaces n)]
  · have := hx.infix_blank_append (isBlankLine_spaces n) (shiftLine columns line)
    rw [← h] at this
    exact this.symm

theorem infix_shiftText (rules : Rules) (columns : Int) (t : Text) :
    x <:+: shiftText columns rules.separator t ↔ x <:+: t := by
  have breaks := rules.isBreak_of_mem_separator
  have ne := rules.separator_ne_nil
  rw [shiftText]
  split
  · rfl
  · have lines := hx.infix_join ne breaks (split rules.separator t)
    rw [join_split ne] at lines
    rw [lines, hx.infix_join ne breaks]
    simp only [List.mem_map, List.mem_filter]
    constructor
    · rintro ⟨_, ⟨l, ⟨hl, -⟩, rfl⟩, within⟩
      exact ⟨l, hl, (hx.infix_shiftLine columns l).1 within⟩
    · rintro ⟨l, hl, within⟩
      have full : isBlankLine l ≠ true := fun h => hx.not_infix_of_isBlankLine h within
      exact ⟨_, ⟨l, ⟨hl, by simpa using full⟩, rfl⟩, (hx.infix_shiftLine columns l).2 within⟩

theorem infix_render (rules : Rules) (rows : List Row) :
    x <:+: render rules.indentUnit rules.separator rows ↔ ∃ row ∈ rows, x <:+: row.text := by
  rw [render, hx.infix_join rules.separator_ne_nil rules.isBreak_of_mem_separator]
  simp [hx.infix_shiftText]

end Text.Solid

end PugWeave
