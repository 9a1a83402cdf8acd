import PugWeave.Proofs.Text.Blanks
import PugWeave.Text.Regex

namespace PugWeave.Text.Regex

variable {α β : Type} {next : Captures → Text → Option α} {found : Captures}

theorem run_append (r s : Regex) (next : Captures → Text → Option α) (found : Captures) (t : Text) :
    (r ++ s).run next found t = r.run (s.run next) found t := rfl

theorem run_plus_cons (among : Char → Bool) (next : Captures → Text → Option α) (found : Captures)
    (c : Char) (t : Text) : (plus among).run next found (c :: t) =
      if among c then greedy among (next found) t else none := rfl

theorem run_optional (r : Regex) (next : Captures → Text → Option α) (found : Captures) (t : Text) :
    r.optional.run next found t = (r.run next found t <|> next found t) := rfl

theorem run_word_eq_none {w : Text} {c d : Char} (first : w.head? = some c) (other : c ≠ d)
    (next : Captures → Text → Option α) (found : Captures) (t : Text) :
    (word w).run next found (d :: t) = none := by
  cases w with
  | nil => cases first
  | cons c' w =>
    cases first
    simp [run, other]

theorem run_group_word (n : Nat) (w : Text) (next : Captures → Text → Option α) (found : Captures)
    (t : Text) : (group n (word w)).run next found t =
      if w.isPrefixOf t then next ((n, w) :: found) (t.drop w.length) else none := by
  simp only [run]
  split
  · rename_i h
    obtain ⟨rest, rfl⟩ := List.isPrefixOf_iff_prefix.1 h
    simp
  · rfl

theorem run_group_either (n : Nat) (r s : Regex) (next : Captures → Text → Option α)
    (found : Captures) (t : Text) : (group n (either r s)).run next found t =
      ((group n r).run next found t <|> (group n s).run next found t) := rfl

/-- A run of characters is never given back where its end does, or where no other end does. -/
theorem greedy_eq {among : Char → Bool} {next : Text → Option α} {t : Text}
    (h : (next (t.dropWhile among)).isSome = true ∨ ∀ c u, among c = true → next (c :: u) = none) :
    greedy among next t = next (t.dropWhile among) := by
  induction t with
  | nil => rfl
  | cons c t ih =>
    cases hc : among c with
    | false => simp [greedy, hc]
    | true =>
      rw [List.dropWhile_cons_of_pos hc] at h ⊢
      simp only [greedy, hc, if_true, ih h, Option.orElse_eq_orElse, Option.orElse_eq_or]
      rcases h with full | dead
      · exact Option.or_of_isSome full
      · rw [dead c t hc, Option.or_none]

theorem run_blanks (dead : ∀ c t, isBlank c = true → next found (c :: t) = none) (t : Text) :
    (star isBlank).run next found t = next found (trimStart t) := greedy_eq (.inr dead)

theorem run_word_blank_cons {w : Text} {c d : Char} (first : w.head? = some c)
    (solid : isBlank c = false) (blank : isBlank d = true) (t : Text) :
    (word w).run next found (d :: t) = none := by
  refine run_word_eq_none first ?_ next found t
  rintro rfl
  rw [solid] at blank
  cases blank

theorem run_group_plus_cons (among : Char → Bool) (n : Nat)
    (total : ∀ found t, (next found t).isSome = true) (found : Captures) (c : Char) (t : Text) :
    (group n (plus among)).run next found (c :: t) = if among c then
      next ((n, c :: t.takeWhile among) :: found) (t.dropWhile among) else none := by
  have parts : (c :: t.takeWhile among) ++ t.dropWhile among = c :: t := by simp
  have taken : (c :: t).take ((c :: t).length - (t.dropWhile among).length) =
      c :: t.takeWhile among := by
    rw [← parts, List.length_append, Nat.add_sub_cancel, List.take_left]
  rw [run, run_plus_cons, greedy_eq, taken]
  exact .inl (total _ _)

theorem map_run (r : Regex) (f : α → β) : (r.run next found t).map f =
    r.run (fun found t => (next found t).map f) found t := by
  induction r generalizing next found t with
  | word w => simp only [run]; split <;> rfl
  | one among =>
    cases t with
    | nil => rfl
    | cons c t => simp only [run]; split <;> rfl
  | star among =>
    simp only [run]
    induction t with
    | nil => rfl
    | cons c t ih =>
      simp only [greedy]
      split
      · simp only [← ih, Option.orElse_eq_orElse, Option.orElse_eq_or, Option.map_or]
      · rfl
  | seq r s ihr ihs =>
    simp only [run, ihr]
    congr
    funext found t
    exact ihs
  | either r s ihr ihs =>
    simp only [run, Option.orElse_eq_orElse, Option.orElse_eq_or, Option.map_or, ihr, ihs]
  | group n r ih => simp only [run, ih]

end PugWeave.Text.Regex
