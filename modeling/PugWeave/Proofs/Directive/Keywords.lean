import PugWeave.Directive.Statement
import PugWeave.Proofs.Text.Matching

namespace PugWeave.Directive

open Text

def pastGap? : Text → Option Text
  | [] => none
  | c :: r => if isBlank c then some (trimStart r) else none

def after? (keyword : String) (t : Text) : Option Text :=
  if keyword.toList.isPrefixOf t then pastGap? (t.drop keyword.toList.length) else none

def word? (t : Text) : Option Text :=
  match t.takeWhile (!isBlank ·) with
  | [] => none
  | w => some w

def argument? (keyword : String) (t : Text) : Option Text := (after? keyword t).bind word?

def extension? (t : Text) : Option (Text × Mode) :=
  (argument? "append" t).map (·, .append) <|> (argument? "prepend" t).map (·, .prepend)

def block? (t : Text) : Option (Text × Mode) :=
  match after? "block" t with
  | some rest => extension? rest <|> (word? rest).map (·, .replace)
  | none => extension? t

theorem prefix_of_after? {keyword : String} {t rest : Text} (h : after? keyword t = some rest) :
    keyword.toList <+: t := by
  rw [after?] at h
  split at h
  · rename_i hp
    exact List.isPrefixOf_iff_prefix.1 hp
  · cases h

theorem after?_keyword_append (keyword : String) (t : Text) :
    after? keyword (keyword.toList ++ t) = pastGap? t := by
  rw [after?, if_pos (List.isPrefixOf_iff_prefix.2 (List.prefix_append _ _)), List.drop_left]

theorem word?_blank_cons {c : Char} (blank : isBlank c = true) (t : Text) :
    word? (c :: t) = none := by
  simp [word?, blank]

theorem after?_eq_none {keyword : String} {c d : Char} {t : Text}
    (first : keyword.toList.head? = some c) (other : c ≠ d) : after? keyword (d :: t) = none := by
  refine Option.eq_none_iff_forall_ne_some.2 fun w hw => other ?_
  have := prefix_of_after? hw
  obtain ⟨u, hu⟩ := List.head?_eq_some_iff.1 first
  rw [hu] at this
  exact (List.cons_prefix_cons.1 this).1

section

variable {c : Char} (blank : isBlank c = true)
include blank

theorem after?_blank_cons {keyword : String} {d : Char} (first : keyword.toList.head? = some d)
    (solid : isBlank d = false) (t : Text) : after? keyword (c :: t) = none := by
  refine after?_eq_none first ?_
  rintro rfl
  rw [solid] at blank
  cases blank

theorem extension?_blank_cons (t : Text) : extension? (c :: t) = none := by
  have append : argument? "append" (c :: t) = none := by
    rw [argument?, after?_blank_cons blank rfl rfl, Option.bind_none]
  have prepend : argument? "prepend" (c :: t) = none := by
    rw [argument?, after?_blank_cons blank rfl rfl, Option.bind_none]
  rw [extension?, append, prepend]
  rfl

theorem block?_blank_cons (t : Text) : block? (c :: t) = none := by
  rw [block?, after?_blank_cons blank rfl rfl]
  exact extension?_blank_cons blank t

end

namespace Meaning

section

variable {α : Type} (g : Captures → α)

theorem run_gap {next : Captures → Text → Option α} {found : Captures}
    (dead : ∀ c r, isBlank c = true → next found (c :: r) = none) (t : Text) : gap.run next found t = (pastGap? t).bind (next found) := by
  cases t with
  | nil => rfl
  | cons c r =>
    rw [gap, Regex.run_plus_cons, pastGap?]
    cases isBlank c with
    | false => rfl
    | true => exact Regex.greedy_eq (.inr dead)

theorem run_name (n : Nat) (found : Captures) (t : Text) :
    (Regex.group n name).run (fun found _ => some (g found)) found t =
      (word? t).map fun w => g ((n, w) :: found) := by
  cases t with
  | nil => rfl
  | cons c r =>
    rw [name, Regex.run_group_plus_cons _ _ fun _ _ => rfl, word?]
    cases hc : isBlank c <;> simp [hc]

def named (n : Nat) (g : Captures → α) : Captures → Text → Option α :=
  gap.run ((Regex.group n name).run fun found _ => some (g found))

theorem named_eq (n : Nat) (found : Captures) (t : Text) :
    named n g found t = ((pastGap? t).bind word?).map fun w => g ((n, w) :: found) := by
  rw [named, run_gap, Option.map_bind]
  · refine congrArg (Option.bind _) (funext fun r => ?_)
    exact run_name g n found r
  · intro c r blank
    rw [run_name, word?_blank_cons blank, Option.map_none]

theorem run_keyword_named (keyword : String) (n : Nat) (found : Captures) (t : Text) :
    (Regex.word keyword.toList).run (named n g) found t =
      (argument? keyword t).map fun w => g ((n, w) :: found) := by
  rw [Regex.run, argument?, after?]
  split
  · exact named_eq g n found _
  · rfl

theorem run_amendment_named (m n : Nat) (found : Captures) (t : Text) :
    (Regex.group m amendment).run (named n g) found t =
      ((argument? "append" t).map (fun w => g ((n, w) :: (m, "append".toList) :: found)) <|>
        (argument? "prepend" t).map fun w => g ((n, w) :: (m, "prepend".toList) :: found)) := by
  have one (keyword : String) : (Regex.group m (.word keyword.toList)).run (named n g) found t =
      (argument? keyword t).map fun w => g ((n, w) :: (m, keyword.toList) :: found) := by
    rw [Regex.run_group_word, argument?, after?]
    split
    · exact named_eq g n _ _
    · rfl
  rw [amendment, Regex.run_group_either, one, one]

end

def ofGroups (found : Captures) : Text × Mode :=
  (found.text 3, .ofKeyword (found.lookup 1 <|> found.lookup 2))

theorem run_amendment {m : Nat} (hm : m = 1 ∨ m = 2) (t : Text) :
    (Regex.group m amendment).run (named 3 ofGroups) [] t = extension? t := by
  rw [run_amendment_named, extension?]
  rcases hm with rfl | rfl <;> rfl

/-- A mode belongs to the keyword only where a name follows it. -/
theorem run_block (t : Text) :
    (Regex.word "block".toList ++ .optional (gap ++ .group 1 amendment)).run (named 3 ofGroups) [] t =
      (after? "block" t).bind fun rest => extension? rest <|> (word? rest).map (·, .replace) := by
  rw [Regex.run_append, Regex.run, after?]
  split
  · rw [Regex.run_optional, Regex.run_append, named_eq, run_gap]
    · cases pastGap? (t.drop "block".toList.length) with
      | none => rfl
      | some rest => exact congrArg (· <|> _) (run_amendment (.inl rfl) rest)
    · intro c r blank
      rw [run_amendment (.inl rfl), extension?_blank_cons blank]
  · rfl

theorem includes_captures? (line : Text) : (includes.captures? line).map (·.text 1) =
    argument? "include" (trimStart line) := by
  rw [Regex.captures?, Regex.map_run, includes, Regex.run_append, Regex.run_append,
    Regex.run_append, Regex.run_blanks fun c r blank => Regex.run_word_blank_cons rfl rfl blank r]
  exact (run_keyword_named _ "include" 1 [] _).trans Option.map_id'

theorem inherits_captures? (line : Text) :
    (inherits.captures? line).map (·.text 1) = argument? "extends" line := by
  rw [Regex.captures?, Regex.map_run, inherits, Regex.run_append, Regex.run_append]
  exact (run_keyword_named _ "extends" 1 [] _).trans Option.map_id'

theorem opens_captures? (line : Text) : (opens.captures? line).map ofGroups =
    block? (trimStart line) := by
  have either (t : Text) :
      (Regex.either (.word "block".toList ++ .optional (gap ++ .group 1 amendment))
        (.group 2 amendment)).run (named 3 ofGroups) [] t = block? t := by
    rw [Regex.run, run_block, run_amendment (.inr rfl), block?]
    cases ha : after? "block" t with
    | none => rfl
    | some rest =>
      obtain ⟨u, rfl⟩ := prefix_of_after? ha
      have other : extension? ("block".toList ++ u) = none := rfl
      rw [other, Option.orElse_eq_orElse, Option.orElse_eq_or, Option.or_none]
      rfl
  rw [Regex.captures?, Regex.map_run, opens, Regex.run_append, Regex.run_append, Regex.run_append]
  refine (Regex.run_blanks (fun c r blank => ?_) line).trans (either _)
  exact (either _).trans (block?_blank_cons blank r)

theorem of_eq (line : Text) : Meaning.of line =
    match argument? "include" (trimStart line) with
    | some target => .inclusion target
    | none =>
      match argument? "extends" line with
      | some target => .parent target
      | none =>
        match block? (trimStart line) with
        | some (name, mode) => .block name mode
        | none => .text := by
  rw [Meaning.of, ← includes_captures?, ← inherits_captures?, ← opens_captures?]
  cases includes.captures? line with
  | some found => rfl
  | none =>
    cases inherits.captures? line with
    | some found => rfl
    | none => cases opens.captures? line <;> rfl

end Meaning

end PugWeave.Directive
