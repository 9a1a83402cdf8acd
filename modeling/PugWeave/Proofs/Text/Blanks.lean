import Mathlib.Data.List.DropRight
import Mathlib.Data.List.TakeWhile
import PugWeave.Text.Letters
import PugWeave.Text.Reindent

namespace PugWeave.Text

theorem isBlank_of_isBreak {c : Char} (h : isBreak c = true) : isBlank c = true := by
  have : c = '\r' ∨ c = '\n' := by simpa [isBreak] using h
  rcases this with rfl | rfl <;> rfl

theorem isBlankLine_spaces (n : Nat) : isBlankLine (spaces n) = true := by
  refine List.all_eq_true.2 fun c hc => ?_
  obtain rfl := List.eq_of_mem_replicate hc
  rfl

theorem isBlankLine_append (a b : Text) :
    isBlankLine (a ++ b) = (isBlankLine a && isBlankLine b) := List.all_append

theorem isBlankLine_spaces_append (n : Nat) (l : Text) :
    isBlankLine (spaces n ++ l) = isBlankLine l := by
  rw [isBlankLine_append, isBlankLine_spaces, Bool.true_and]

theorem length_spaces (n : Nat) : (spaces n).length = n := List.length_replicate

theorem eq_spaces {t : Text} (h : ∀ c ∈ t, c = ' ') : t = spaces t.length :=
  List.eq_replicate_iff.2 ⟨rfl, h⟩

theorem spaces_append_drop {n : Nat} {line : Text}
    (few : n ≤ (line.takeWhile (· = ' ')).length) : spaces n ++ line.drop n = line := by
  have front : line.take n = spaces n := by
    rw [spaces, List.eq_replicate_iff]
    have prefixed : line.take n <+: line.takeWhile (· = ' ') :=
      List.prefix_of_prefix_length_le (List.take_prefix _ _) (List.takeWhile_prefix _)
        (Nat.le_trans (List.length_take_le _ _) few)
    constructor
    · exact List.length_take_of_le (Nat.le_trans few (List.takeWhile_prefix _).length_le)
    · intro c hc
      simpa using List.all_eq_true.1 List.all_takeWhile c (prefixed.subset hc)
  rw [← front, List.take_append_drop]

theorem blank_spaces (n : Nat) : ∀ c ∈ spaces n, isBlank c = true :=
  List.all_eq_true.1 (isBlankLine_spaces n)

theorem trimStart_blank_append {b : Text} (blank : ∀ c ∈ b, isBlank c = true) (t : Text) :
    trimStart (b ++ t) = trimStart t := by
  rw [trimStart, List.dropWhile_append_of_pos blank, trimStart]

theorem trimStart_spaces_append (n : Nat) (t : Text) : trimStart (spaces n ++ t) = trimStart t :=
  trimStart_blank_append (blank_spaces n) t

theorem trimStart_eq_nil_iff {t : Text} : trimStart t = [] ↔ isBlankLine t = true := by
  rw [trimStart, List.dropWhile_eq_nil_iff, isBlankLine, List.all_eq_true]

theorem trimStart_append {t : Text} (h : isBlankLine t = false) (b : Text) :
    trimStart (t ++ b) = trimStart t ++ b := by
  rw [trimStart, List.dropWhile_append, if_neg, trimStart]
  intro empty
  rw [trimStart_eq_nil_iff.1 (List.isEmpty_iff.1 empty)] at h
  cases h

theorem exists_blank_trimEnd (t : Text) : ∃ b, isBlankLine b = true ∧ trimEnd t ++ b = t := by
  refine ⟨(t.reverse.takeWhile isBlank).reverse, ?_, ?_⟩
  · rw [isBlankLine, List.all_reverse]
    exact List.all_takeWhile
  · rw [trimEnd, ← List.reverse_append, List.takeWhile_append_dropWhile, List.reverse_reverse]

theorem trimStart_eq_self {t : Text} (h : ∀ c ∈ t.head?, isBlank c = false) : trimStart t = t := by
  cases t with
  | nil => rfl
  | cons c r =>
    have := h c rfl
    rw [trimStart, List.dropWhile_cons_of_neg]
    simp [this]

theorem head?_trimStart (t : Text) : ∀ c ∈ (trimStart t).head?, isBlank c = false := by
  intro c hc
  have := List.head?_dropWhile_not isBlank t
  rw [trimStart] at hc
  rw [Option.mem_def.1 hc] at this
  simpa using this

theorem trimEnd_trimEnd (t : Text) : trimEnd (trimEnd t) = trimEnd t := by
  rw [trimEnd, trimEnd, List.reverse_reverse, List.dropWhile_idempotent]

theorem trimEnd_append (t : Text) {b : Text} (h : isBlankLine b = false) :
    trimEnd (t ++ b) = t ++ trimEnd b := by
  have full : isBlankLine b.reverse = false := by
    rw [isBlankLine, List.all_reverse, ← isBlankLine, h]
  rw [trimEnd, List.reverse_append, ← trimStart, trimStart_append full, List.reverse_append,
    List.reverse_reverse]
  rfl

theorem trim_of_append {read rest t : Text} (h : read ++ rest = trimStart t) :
    trim read = trimEnd read := by
  have start : trimStart read = read := by
    apply trimStart_eq_self
    intro c hc
    apply head?_trimStart t
    rw [← h]
    cases read with
    | nil => simp at hc
    | cons d r => simpa using hc
  rw [trim, start]

theorem isQuote_of_isBlank {c : Char} (h : isBlank c = true) : isQuote c = false := by
  cases hq : isQuote c with
  | false => rfl
  | true =>
    have : c = apostrophe ∨ c = quotationMark ∨ c = backtick := by simpa [isQuote, or_assoc] using hq
    rcases this with rfl | rfl | rfl <;> cases h

end PugWeave.Text
