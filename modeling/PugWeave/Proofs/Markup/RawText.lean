import PugWeave.Proofs.Markup.Lookahead
import PugWeave.Proofs.Markup.Positions

namespace PugWeave.Markup

open Text

namespace Lexer

/-- The lexer comes to a line of a text, under the indentation of raw text or not, with its number
and what is left of the text. -/
inductive Reached (t : Text) : Option Nat → Nat → Text → Prop
  | start : Reached t none 1 (join ['\n'] (lines t))
  | step {read : List Spot} : Reached t block line s →
      readLine block line s = .ok (read, next, cursor) → after cursor.rest = '\n' :: rest →
      Reached t next (cursor.line + 1) rest

/-- A line opens raw text: it is a comment, a filter or a lone dash, or its tags end in a dot. The
number is that of the last line that belongs to it. -/
inductive Opens (line : Nat) (s : Text) : Nat → Prop
  | sign : LineKind.of (body s) = .rawText → Opens line s line
  | dot {read : List Spot} : LineKind.of (body s) = .tag →
      readTags line (inward s) = .ok (read, true, cursor) → Opens line s cursor.line

def OpensRaw (t : Text) (count width : Nat) : Prop :=
  ∃ block line s, Reached t block line s ∧ isPassedOver block s = false ∧
    isMixed (margin s) = false ∧ (margin s).length = width ∧ Opens line s count

def tokensFrom (block : Option Nat) (line : Nat) (s : Text) : Except LexError (List Token) :=
  (readLines block line s).map (·.map Spot.token)

section

variable {block next : Option Nat} {line : Nat} {s : Text} {read : List Spot} {cursor : Cursor}

theorem readLines_last (h : readLine block line s = .ok (read, next, cursor))
    (last : after cursor.rest = []) : readLines block line s = .ok read :=
  readLines_eq_ok_iff.2 ⟨_, _, _, [], h, .last last, List.append_nil _⟩

theorem readLines_more (h : readLine block line s = .ok (read, next, cursor)) {rest : Text}
    (more : after cursor.rest = '\n' :: rest) :
    readLines block line s = (readLines next (cursor.line + 1) rest).map (read ++ ·) := by
  rw [readLines.eq_def]
  split
  · rename_i he
    rw [h] at he
    cases he
  · rename_i hl
    rw [h] at hl
    cases hl
    split
    · rename_i last
      rw [after, last] at more
      cases more
    · rename_i again
      rw [after, again] at more
      cases more
      rfl

theorem readLines_error {e : LexError} (h : readLine block line s = .error e) :
    readLines block line s = .error e := by
  rw [readLines.eq_def]
  split
  · rename_i he
    rw [h] at he
    cases he
    rfl
  · rename_i hl
    rw [h] at hl
    cases hl

theorem after_line {l x : Text} (unbroken : '\n' ∉ l) (ends : Ends x) : after (l ++ x) = x := by
  have front := takeWhile_line unbroken ends
  have whole := List.takeWhile_append_dropWhile (p := (· ≠ '\n')) (l := l ++ x)
  rw [front] at whole
  exact List.append_cancel_left whole

theorem ends_after (t : Text) : Ends (after t) := by
  intro c hc
  have stops := List.head?_dropWhile_not (· ≠ '\n') t
  rw [← after, hc] at stops
  simpa using stops

theorem exists_line_of_after {t rest : Text} (h : after t = '\n' :: rest) :
    ∃ z, '\n' ∉ z ∧ z ++ '\n' :: rest = t := by
  have whole := List.takeWhile_append_dropWhile (p := (· ≠ '\n')) (l := t)
  rw [← after, h] at whole
  refine ⟨_, fun mem => ?_, whole⟩
  simpa using List.mem_takeWhile_imp mem

theorem Reached.exists_tokens {t : Text} (h : Reached t block line s) :
    ∃ x seen, x ++ s = join ['\n'] (lines t) ∧ line = 1 + breaks x ∧
      (∀ c ∈ x.getLast?, c = '\n') ∧
      ∀ u, tokensFrom none 1 (x ++ u) = (tokensFrom block line u).map (seen ++ ·) := by
  induction h with
  | start =>
    refine ⟨[], [], rfl, rfl, by simp, fun u => ?_⟩
    cases hu : tokensFrom none 1 u <;> simp [hu, Except.map]
  | @step block line s next cursor rest read _ hl more ih =>
    obtain ⟨x, seen, whole, rfl, ends, all⟩ := ih
    obtain ⟨y, hy, later⟩ := readLine_rest hl
    obtain ⟨y', hy', lines, -⟩ := (laid_of_readLine hl).passed.split
    obtain rfl : y' = y := List.append_cancel_right (hy'.trans hy.symm)
    obtain ⟨z, unbroken, split⟩ := exists_line_of_after more
    refine ⟨x ++ (y' ++ (z ++ ['\n'])), seen ++ read.map Spot.token, ?_, ?_, by simp, fun u => ?_⟩
    · rw [← whole, ← hy, ← split]
      simp
    · have single : breaks z = 0 := List.count_eq_zero.2 unbroken
      rw [lines, breaks_append, breaks_append, breaks_append, single]
      change _ = 1 + (breaks x + (breaks y' + (0 + 1)))
      omega
    -- The line goes on with `z`, whatever the lines below it are.
    · have same : SameLine cursor.rest (z ++ '\n' :: u) := by
        rw [← split]
        exact (SameLine.ends (.newline _) (.newline _)).append z
      obtain ⟨read', hl', tokens⟩ := later _ same
      have behind := readLines_more hl' (after_line unbroken (.newline u))
      have shape : x ++ (y' ++ (z ++ ['\n'])) ++ u = x ++ (y' ++ (z ++ '\n' :: u)) := by simp
      rw [shape, all, tokensFrom, behind, tokensFrom]
      cases readLines next (cursor.line + 1) u <;> simp [Except.map, tokens]

theorem Reached.exists_rest {t : Text} (h : Reached t block line s)
    (hl : readLine block line s = .ok (read, next, cursor))
    (more : cursor.line < (lines t).length) : ∃ rest, after cursor.rest = '\n' :: rest := by
  obtain ⟨x, seen, whole, rfl, -, -⟩ := h.exists_tokens
  obtain ⟨y, rfl, here, -⟩ := (laid_of_readLine hl).passed.split
  obtain ⟨l, ls, ht⟩ := List.exists_cons_of_ne_nil (lines_ne_nil t)
  have unbroken := newline_not_mem_lines t
  rw [ht] at whole more unbroken
  have total := breaks_join unbroken
  rw [← whole, breaks_append, breaks_append] at total
  rcases (ends_after cursor.rest).cases with last | rest
  · have none : breaks cursor.rest = 0 := List.count_eq_zero.2 fun mem => by
      simpa using List.dropWhile_eq_nil_iff.1 last _ mem
    rw [List.length_cons] at more
    omega
  · exact rest

theorem Opens.readLine {count : Nat} (h : Opens line s count)
    (content : isPassedOver block s = false) (pure : isMixed (margin s) = false) : ∃ read cursor,
      readLine block line s = .ok (read, some (margin s).length, cursor) ∧ cursor.line = count := by
  cases h with
  | sign kind => exact ⟨_, _, readLine_sign content pure line kind, rfl⟩
  | dot kind tags => exact ⟨_, _, readLine_tags content pure kind tags, rfl⟩

/-! ### Lines of raw text -/

def IsRaw (width : Nat) (l : Text) : Prop := isBlankLine l = true ∨ width < (indentation l).length

instance (width : Nat) : DecidablePred (IsRaw width) :=
  fun l => inferInstanceAs (Decidable (isBlankLine l = true ∨ width < (indentation l).length))

variable {width : Nat}

theorem readLine_raw {l x : Text} (raw : IsRaw width l) (unbroken : '\n' ∉ l) (ends : Ends x)
    (line : Nat) : readLine (some width) line (l ++ x) = .ok ([], some width, ⟨line, l ++ x⟩) := by
  have passed : isPassedOver (some width) (l ++ x) = true := by
    rw [isPassedOver, body_line unbroken ends, (margin_line unbroken ends).1]
    rcases raw with blank | further
    · rw [trimStart_eq_nil_iff.2 blank]
      rfl
    · simp [further]
  rw [readLine_eq, if_pos passed]

theorem readLines_raw {l m : Text} {ls : List Text} (raw : IsRaw width l) (unbroken : '\n' ∉ l)
    (line : Nat) : readLines (some width) line (join ['\n'] (l :: m :: ls)) =
      readLines (some width) (line + 1) (join ['\n'] (m :: ls)) := by
  have ends := Ends.newline (join ['\n'] (m :: ls))
  rw [join_cons, readLines_more (readLine_raw raw unbroken ends line) (after_line unbroken ends)]
  cases readLines (some width) (line + 1) (join ['\n'] (m :: ls)) <;> simp [Except.map]

theorem readLines_raw_last {l : Text} (raw : IsRaw width l) (unbroken : '\n' ∉ l) (line : Nat) :
    readLines (some width) line (join ['\n'] [l]) = .ok [] := by
  rw [join_singleton, ← List.append_nil l]
  exact readLines_last (readLine_raw raw unbroken .nil line) (after_line unbroken .nil)

theorem readLines_raw_eq {raw raw' behind : List Text} (count : raw'.length = raw.length)
    (inside : ∀ l ∈ raw, IsRaw width l ∧ '\n' ∉ l) (inside' : ∀ l ∈ raw', IsRaw width l ∧ '\n' ∉ l)
    (line : Nat) : readLines (some width) line (join ['\n'] (raw' ++ behind)) =
      readLines (some width) line (join ['\n'] (raw ++ behind)) := by
  induction raw generalizing raw' line with
  | nil =>
    obtain rfl := List.length_eq_zero_iff.1 count
    rfl
  | cons l raw ih =>
    obtain ⟨l', raw', rfl⟩ := List.exists_cons_of_length_eq_add_one count
    rw [List.forall_mem_cons] at inside inside'
    have count : raw'.length = raw.length := by simpa using count
    rw [List.cons_append, List.cons_append]
    cases hr : raw ++ behind with
    | nil =>
      obtain ⟨rfl, rfl⟩ := List.append_eq_nil_iff.1 hr
      obtain rfl := List.length_eq_zero_iff.1 count
      rw [List.nil_append, readLines_raw_last inside.1.1 inside.1.2,
        readLines_raw_last inside'.1.1 inside'.1.2]
    | cons m ls =>
      have longer : (raw' ++ behind).length = ls.length + 1 := by
        rw [List.length_append, count, ← List.length_append, hr, List.length_cons]
      obtain ⟨m', ls', hr'⟩ := List.exists_cons_of_length_eq_add_one longer
      rw [hr', readLines_raw inside.1.1 inside.1.2, readLines_raw inside'.1.1 inside'.1.2, ← hr,
        ← hr', ih count inside.2 inside'.2]

/-! ### Whole lines -/

def closed (ls : List Text) : Text := ls.flatMap (· ++ ['\n'])

theorem join_append_closed (ls : List Text) {more : List Text} (full : more ≠ []) :
    join ['\n'] (ls ++ more) = closed ls ++ join ['\n'] more := by
  induction ls with
  | nil => rfl
  | cons l ls ih =>
    obtain ⟨m, ms, hm⟩ := List.exists_cons_of_ne_nil (List.append_ne_nil_of_right_ne_nil ls full)
    rw [List.cons_append, hm, join_cons, ← hm, ih, closed, closed, List.flatMap_cons]
    simp

theorem breaks_closed {ls : List Text} (unbroken : ∀ l ∈ ls, '\n' ∉ l) :
    breaks (closed ls) = ls.length := by
  induction ls with
  | nil => rfl
  | cons l ls ih =>
    rw [List.forall_mem_cons] at unbroken
    have single : breaks l = 0 := List.count_eq_zero.2 unbroken.1
    rw [closed, List.flatMap_cons, breaks_append, breaks_append, single, ← closed, ih unbroken.2,
      List.length_cons]
    change 0 + 1 + _ = _
    omega

theorem getLast?_closed (ls : List Text) : ∀ c ∈ (closed ls).getLast?, c = '\n' := by
  induction ls using List.reverseRecOn with
  | nil => simp [closed]
  | append_singleton ls l => simp [closed]

theorem eq_of_breaks {x y a b : Text} (whole : x ++ a = y ++ b) (count : breaks x = breaks y)
    (ends : ∀ c ∈ x.getLast?, c = '\n') (ends' : ∀ c ∈ y.getLast?, c = '\n') : x = y := by
  have none {z w : Text} (ends : ∀ c ∈ (z ++ w).getLast?, c = '\n')
      (count : breaks (z ++ w) = breaks z) : w = [] := by
    rw [breaks_append] at count
    have unbroken : '\n' ∉ w := List.count_eq_zero.1 (show breaks w = 0 by omega)
    cases hw : w.getLast? with
    | none => exact List.getLast?_eq_none_iff.1 hw
    | some c =>
      obtain rfl : c = '\n' := ends c (by rw [List.getLast?_append, hw]; rfl)
      exact absurd (List.mem_of_getLast? hw) unbroken
  rcases List.append_eq_append_iff.1 whole with ⟨w, rfl, -⟩ | ⟨w, rfl, -⟩
  · rw [none ends' count.symm, List.append_nil]
  · rw [none ends count, List.append_nil]

end

end Lexer

open Lexer

/-- What stands in raw text counts for nothing but the number of its lines. -/
theorem tokenize_raw_text {t t' : Text} {before raw raw' behind : List Text} {width : Nat}
    (opens : OpensRaw t before.length width) (ht : lines t = before ++ (raw ++ behind))
    (ht' : lines t' = before ++ (raw' ++ behind)) (count : raw'.length = raw.length)
    (inside : ∀ l ∈ raw, IsRaw width l) (inside' : ∀ l ∈ raw', IsRaw width l) :
    tokenize t' = tokenize t := by
  have unbroken := newline_not_mem_lines t
  have unbroken' := newline_not_mem_lines t'
  rw [ht] at unbroken
  rw [ht'] at unbroken'
  simp only [List.forall_mem_append] at unbroken unbroken'
  obtain ⟨block, line, s, reached, content, pure, rfl, opens⟩ := opens
  obtain ⟨read, cursor, hl, last⟩ := opens.readLine content pure
  change tokensFrom none 1 (join ['\n'] (lines t')) = tokensFrom none 1 (join ['\n'] (lines t))
  rw [ht, ht']
  by_cases empty : raw ++ behind = []
  · obtain ⟨rfl, rfl⟩ := List.append_eq_nil_iff.1 empty
    obtain rfl := List.length_eq_zero_iff.1 count
    rfl
  · have full : raw' ++ behind ≠ [] := by
      intro none
      rw [← List.length_eq_zero_iff, List.length_append, count, ← List.length_append,
        List.length_eq_zero_iff] at none
      exact empty none
    rw [join_append_closed _ empty, join_append_closed _ full]
    have longer : cursor.line < (Text.lines t).length := by
      rw [ht, List.length_append, last]
      have := List.length_pos_of_ne_nil empty
      omega
    obtain ⟨rest, more⟩ := reached.exists_rest hl longer
    obtain ⟨x, seen, whole, lines, ends, all⟩ := (reached.step hl more).exists_tokens
    -- What was read up to the raw text is as many whole lines as `before`, and so is `before`.
    obtain rfl : x = closed before := by
      rw [ht, join_append_closed _ empty] at whole
      refine eq_of_breaks whole ?_ ends (getLast?_closed before)
      rw [breaks_closed unbroken.1]
      omega
    rw [all, all, tokensFrom, tokensFrom, readLines_raw_eq count]
    · exact fun l hl => ⟨inside l hl, unbroken.2.1 l hl⟩
    · exact fun l hl => ⟨inside' l hl, unbroken'.2.1 l hl⟩

theorem tokenize_raw_text_nested :
    let t := "ul\n  li: p(a='1'\n  b).\n\t\t\t(\n\n     x('\n  img".toList
    let t' := "ul\r\n  li: p(a='1'\r\n  b).\r\n    p:\r\n   \r\n\r\n  img".toList
    OpensRaw t 3 2 ∧ tokenize t' = tokenize t ∧
      tokenize t = .ok [.tag "ul".toList 1, .tag "li".toList 2, .tag "p".toList 2,
        .attr "a".toList "'1'".toList 2, .attr "b".toList none 3, .tag "img".toList 7] := by
  intro t t'
  have opens : OpensRaw t 3 2 := by
    let list := "  li: p(a='1'\n  b).\n\t\t\t(\n\n     x('\n  img".toList
    let rest := ".\n\t\t\t(\n\n     x('\n  img".toList
    have first : readLine none 1 (join ['\n'] (lines t)) =
        .ok ([⟨.tag "ul".toList 1, 43⟩], none, ⟨1, '\n' :: list⟩) := by decide +kernel
    have tags : readTags 2 (inward list) = .ok ([⟨.tag "li".toList 2, 38⟩,
        ⟨.tag "p".toList 2, 34⟩, ⟨.attr "a".toList "'1'".toList 2, 30⟩,
        ⟨.attr "b".toList none 3, 24⟩], true, ⟨3, rest⟩) := by decide +kernel
    exact ⟨none, 2, list, .step .start first rfl, by decide +kernel, by decide +kernel,
      by decide +kernel, .dot (by decide +kernel) tags⟩
  have same : tokenize t' = tokenize t :=
    @tokenize_raw_text t t' ["ul".toList, "  li: p(a='1'".toList, "  b).".toList]
      ["\t\t\t(".toList, [], "     x('".toList] ["    p:".toList, "   ".toList, []]
      ["  img".toList] 2 opens (by decide +kernel) (by decide +kernel) rfl (by decide) (by decide)
  exact ⟨opens, same, by decide +kernel⟩

end PugWeave.Markup
