import Mathlib.Data.List.Basic
import PugWeave.Proofs.Text.Occurrence

namespace PugWeave

namespace Text

def fullLines (sep t : Text) : List Text := (split sep t).filter (!isBlankLine ·)

theorem splitFrom_eq_drop (sep : Text) (skip : Nat) (t : Text) :
    splitFrom sep skip t = splitFrom sep 0 (t.drop skip) := by
  induction t generalizing skip with
  | nil => cases skip <;> rfl
  | cons c r ih =>
    cases skip with
    | zero => rfl
    | succ skip =>
      rw [splitFrom, List.drop_succ_cons]
      exact ih skip

theorem consFirst_append {pieces : List Text} (h : pieces ≠ []) (c : Char) (more : List Text) :
    consFirst c (pieces ++ more) = consFirst c pieces ++ more := by
  cases pieces with
  | nil => exact absurd rfl h
  | cons p ps => rfl

section

variable {c : Char} {r : Text} (new : c ∉ r)
include new

theorem prefix_of_prefix_append_separator {x : Char} {a b : Text}
    (h : c :: r <+: x :: a ++ (c :: r ++ b)) : c :: r <+: x :: a := by
  rcases List.prefix_or_prefix_of_prefix h (List.prefix_append _ _) with h' | ⟨t, ht⟩
  · exact h'
  · cases t with
    | nil => simp [← ht]
    | cons d t =>
      have h : x :: a ++ d :: t <+: x :: a ++ (c :: r ++ b) := by rwa [ht]
      rw [List.prefix_append_right_inj] at h
      obtain rfl : d = c := (List.cons_prefix_cons.1 h).1
      obtain ⟨-, rfl⟩ := List.cons.inj ht
      simp at new

theorem splitFrom_append (a b : Text) {skip : Nat} (h : skip ≤ a.length) :
    splitFrom (c :: r) skip (a ++ (c :: r ++ b)) =
      splitFrom (c :: r) skip a ++ splitFrom (c :: r) 0 b := by
  induction a generalizing skip with
  | nil =>
    obtain rfl : skip = 0 := Nat.le_zero.1 h
    have front : (c :: r).isPrefixOf (c :: (r ++ b)) = true :=
      List.isPrefixOf_iff_prefix.2 (List.prefix_append (c :: r) b)
    have before : splitFrom (c :: r) 0 [] = [[]] := rfl
    rw [List.nil_append, List.cons_append, splitFrom.eq_3, if_pos front, splitFrom_eq_drop, before]
    simp
  | cons x a ih =>
    cases skip with
    | succ skip => exact ih (Nat.le_of_succ_le_succ h)
    | zero =>
      rw [List.cons_append, splitFrom, splitFrom]
      have front : (c :: r).isPrefixOf (x :: (a ++ (c :: r ++ b))) = true ↔
          (c :: r).isPrefixOf (x :: a) = true := by
        rw [List.isPrefixOf_iff_prefix, List.isPrefixOf_iff_prefix]
        exact ⟨prefix_of_prefix_append_separator new, fun h => h.trans (List.prefix_append _ _)⟩
      simp only [front]
      split
      · rename_i hp
        have fits : (c :: r).length - 1 ≤ a.length := by
          have := (List.isPrefixOf_iff_prefix.1 hp).length_le
          simpa using this
        rw [ih fits]
        rfl
      · rw [ih (Nat.zero_le _), consFirst_append (splitFrom_ne_nil _ _ _)]

theorem fullLines_append (a b : Text) :
    fullLines (c :: r) (a ++ (c :: r ++ b)) = fullLines (c :: r) a ++ fullLines (c :: r) b := by
  have split_eq (t : Text) : split (c :: r) t = splitFrom (c :: r) 0 t := rfl
  rw [fullLines, split_eq, splitFrom_append new a b (Nat.zero_le _), List.filter_append]
  rfl

end

theorem not_infix_of_mem_splitFrom {sep : Text} (ne : sep ≠ []) (skip : Nat) (t : Text) :
    (∀ l ∈ splitFrom sep skip t, ¬sep <:+: l) ∧
      ∀ l, (splitFrom sep skip t).head? = some l → l <+: t.drop skip := by
  -- The first piece is a front of the text, so that what is found in it was found in the text.
  fun_induction splitFrom sep skip t with
  | case1 skip => simp [ne]
  | case2 skip c r ih => simpa using ih
  | case3 c r h ih =>
    refine ⟨?_, by simp⟩
    intro l hl
    rcases List.mem_cons.1 hl with rfl | hl
    · simpa using ne
    · exact ih.1 l hl
  | case4 c r h ih =>
    cases hs : splitFrom sep 0 r with
    | nil => exact absurd hs (splitFrom_ne_nil _ _ _)
    | cons p ps =>
      rw [hs] at ih
      have front : c :: p <+: c :: r := by
        rw [List.cons_prefix_cons]
        exact ⟨rfl, ih.2 p rfl⟩
      constructor
      · intro l hl
        rcases List.mem_cons.1 hl with rfl | hl
        · rw [List.infix_cons_iff]
          rintro (hp | hp)
          · exact h (List.isPrefixOf_iff_prefix.2 (hp.trans front))
          · exact ih.1 p List.mem_cons_self hp
        · exact ih.1 l (.tail _ hl)
      · rintro l hl
        cases hl
        exact front

theorem splitFrom_of_not_infix {sep l : Text} (h : ¬sep <:+: l) : splitFrom sep 0 l = [l] := by
  induction l with
  | nil => rfl
  | cons c r ih =>
    rw [List.infix_cons_iff, not_or] at h
    rw [splitFrom, if_neg fun hp => h.1 (List.isPrefixOf_iff_prefix.1 hp), ih h.2]
    rfl

structure Line (sep l : Text) : Prop where
  whole : ¬sep <:+: l
  full : isBlankLine l = false

theorem Line.fullLines_eq {sep l : Text} (h : Line sep l) (ne : sep ≠ []) :
    fullLines sep l = [l] := by
  rw [fullLines, split, if_neg (by simpa using ne), splitFrom_of_not_infix h.whole]
  simp [h.full]

theorem line_of_mem_fullLines {sep l t : Text} (ne : sep ≠ []) (h : l ∈ fullLines sep t) :
    Line sep l := by
  rw [fullLines, split, if_neg (by simpa using ne), List.mem_filter] at h
  exact ⟨(not_infix_of_mem_splitFrom ne 0 t).1 l h.1, by simpa using h.2⟩

end Text

namespace LineBreak

theorem exists_text (b : LineBreak) :
    ∃ c rest, b.text = c :: rest ∧ c ∉ rest ∧ Text.isBreak c = true := by
  cases b with
  | lf => exact ⟨'\n', [], rfl, by simp, rfl⟩
  | crlf => exact ⟨'\r', ['\n'], rfl, by simp, rfl⟩
  | cr => exact ⟨'\r', [], rfl, by simp, rfl⟩

end LineBreak

namespace Text

variable (s : LineBreak)

@[simp] theorem fullLines_nil : fullLines s.text [] = [] := by
  rw [fullLines, split, if_neg (by simpa using s.text_ne_nil)]
  rfl

theorem fullLines_join (texts : List Text) :
    fullLines s.text (join s.text texts) = texts.flatMap (fullLines s.text) := by
  obtain ⟨c, r, sep, new, -⟩ := s.exists_text
  induction texts with
  | nil => exact fullLines_nil s
  | cons t rest ih =>
    cases rest with
    | nil => simp [join]
    | cons t' rest =>
      rw [join_cons_cons, List.flatMap_cons, ← ih, sep]
      exact fullLines_append new _ _

theorem infix_spaces_append (n : Nat) (t : Text) : s.text <:+: spaces n ++ t ↔ s.text <:+: t := by
  obtain ⟨c, r, sep, -, breaks⟩ := s.exists_text
  rw [sep]
  refine infix_append_of_not_mem (fun h => ?_) t
  rw [List.eq_of_mem_replicate h] at breaks
  cases breaks

theorem line_spaces_append (n : Nat) {l : Text} : Line s.text (spaces n ++ l) ↔ Line s.text l := by
  constructor
  · rintro ⟨whole, full⟩
    exact ⟨by rwa [infix_spaces_append] at whole, by rwa [isBlankLine_spaces_append] at full⟩
  · rintro ⟨whole, full⟩
    exact ⟨by rwa [infix_spaces_append], by rwa [isBlankLine_spaces_append]⟩

end Text

namespace Composition

open Text

theorem line_shiftLine (s : LineBreak) (columns : Int) {l : Text} :
    Line s.text (shiftLine columns l) ↔ Line s.text l := by
  obtain ⟨n, h | h⟩ := exists_spaces_shiftLine columns l
  · rw [h, line_spaces_append]
  · have := line_spaces_append s n (l := shiftLine columns l)
    rw [← h] at this
    exact this.symm

theorem shiftLine_zero (l : Text) : shiftLine 0 l = l := by simp [shiftLine]

theorem shiftLine_of_nonneg {columns : Int} (h : 0 ≤ columns) (l : Text) :
    shiftLine columns l = spaces columns.toNat ++ l := by
  rcases Int.le_iff_eq_or_lt.1 h with rfl | h
  · simp [shiftLine_zero, spaces]
  · rw [shiftLine, if_pos h]

theorem shiftLine_spaces_append (columns : Int) (n : Nat) (l : Text) :
    shiftLine columns (spaces n ++ l) = shiftLine (columns + n) l := by
  have front : ((spaces n ++ l).takeWhile (· = ' ')).length =
      n + (l.takeWhile (· = ' ')).length := by
    simp [List.takeWhile_append_of_pos, spaces]
  rw [shiftLine, shiftLine, front]
  simp only [spaces]
  generalize (l.takeWhile (· = ' ')).length = lead
  split
  · rw [if_pos (by omega), ← List.append_assoc, List.replicate_append_replicate]
    congr 2
    omega
  · split
    · have few : min (n + lead) (-columns).toNat = (-columns).toNat := by omega
      rw [few, List.drop_append_of_le_length (by simp; omega), List.drop_replicate]
      congr 2
      omega
    · have all : min (n + lead) (-columns).toNat =
          n + min lead (-(columns + n)).toNat := by omega
      rw [all, ← List.drop_drop]
      simp

theorem shiftLine_shiftLine (columns : Int) {later : Int} (h : 0 ≤ later) (l : Text) :
    shiftLine columns (shiftLine later l) = shiftLine (columns + later) l := by
  rw [shiftLine_of_nonneg h, shiftLine_spaces_append, Int.toNat_of_nonneg h]

@[simp] theorem shiftText_zero (sep t : Text) : shiftText 0 sep t = t := by simp [shiftText]

theorem shiftText_of_ne {columns : Int} (moves : columns ≠ 0) (s : LineBreak) (t : Text) :
    shiftText columns s.text t = join s.text ((fullLines s.text t).map (shiftLine columns)) := by
  rw [shiftText]
  split
  · rename_i h
    have empty : t.isEmpty = true := by simpa [moves] using h
    rw [List.isEmpty_iff.1 empty, fullLines_nil]
    rfl
  · rfl

theorem fullLines_shiftText (s : LineBreak) (columns : Int) (t : Text) :
    fullLines s.text (shiftText columns s.text t) =
      (fullLines s.text t).map (shiftLine columns) := by
  by_cases h : columns = 0
  · subst h
    have : shiftLine 0 = id := funext shiftLine_zero
    rw [shiftText_zero, this, List.map_id]
  · rw [shiftText_of_ne h, fullLines_join, List.flatMap_map, List.map_eq_flatMap]
    refine List.flatMap_congr fun l hl => ?_
    have line := line_of_mem_fullLines s.text_ne_nil hl
    exact ((line_shiftLine s columns).2 line).fullLines_eq s.text_ne_nil

theorem fullLines_render (rules : Rules) (rows : List Row) :
    fullLines rules.separator (render rules.indentUnit rules.separator rows) =
      rows.flatMap fun row =>
        (fullLines rules.separator row.text).map (shiftLine (row.indent * rules.indentUnit)) := by
  rw [Rules.separator, render, fullLines_join, List.flatMap_map]
  exact List.flatMap_congr fun row _ => fullLines_shiftText _ _ _

end Composition

end PugWeave
