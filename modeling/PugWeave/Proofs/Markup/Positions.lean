import PugWeave.Proofs.Markup.Normalization

namespace PugWeave.Markup

open Lexer (Passed)
open Text

theorem Laid.passed {line line' : Nat} {s rest : Text} {spots : List Spot}
    (h : Laid line s spots line' rest) : Passed line s line' rest := by
  induction h with
  | nil h => exact h
  | bare _ _ ih => exact ih
  | value front _ back _ _ ih => exact front.trans (back.trans ih)

namespace Lexer

def IsLineOf (line : Nat) (s : Text) (n : Nat) : Prop := line ≤ n ∧ n ≤ line + breaks s

namespace IsLineOf

variable {line n : Nat} {s r : Text}

theorem first (line : Nat) (s : Text) : IsLineOf line s line :=
  ⟨Nat.le_refl _, Nat.le_add_right _ _⟩

theorem append {x : Text} (h : IsLineOf (line + breaks x) r n) : IsLineOf line (x ++ r) n := by
  obtain ⟨low, high⟩ := h
  rw [IsLineOf, breaks_append]
  omega

theorem suffix (h : IsLineOf line r n) (within : r <:+ s) : IsLineOf line s n := by
  obtain ⟨x, rfl⟩ := within
  obtain ⟨low, high⟩ := h
  rw [IsLineOf, breaks_append]
  omega

theorem cons {c : Char} (h : IsLineOf line r n) : IsLineOf line (c :: r) n :=
  h.suffix (List.suffix_cons _ _)

theorem char {c : Char} (h : IsLineOf (line + breaks [c]) r n) : IsLineOf line (c :: r) n :=
  append (x := [c]) h

end IsLineOf

theorem Passed.isLineOf {line line' n : Nat} {s rest : Text} (passed : Passed line s line' rest)
    (h : IsLineOf line' rest n) : IsLineOf line s n := by
  obtain ⟨x, rfl, rfl, -⟩ := passed.split
  exact .append h

theorem passing_eq_error_iff {seen : List α} {scan : Except LexError (List α × β)} {e : LexError} :
    passing seen scan = .error e ↔ scan = .error e := by
  cases scan <;> simp [passing, Except.map]

end Lexer

/-! ### Tokens -/

def Token.Shows (k : Token) (s : Text) : Prop :=
  ∀ name value line, k = .attr name value line → name <:+: s.takeWhile (· ≠ '\n')

/-- Spots stand in a text from one line on to another, each on its line, one behind the other, and
what is left after them. -/
inductive Placed : Nat → Text → List Spot → Nat → Text → Prop
  | nil : Passed line s line' rest → Placed line s [] line' rest
  | cons : Passed line s spot.token.line t → spot.token.Shows t →
      Placed spot.token.line t more line' rest → Placed line s (spot :: more) line' rest

namespace Placed

variable {line mid line' : Nat} {s m rest : Text} {spots more : List Spot}

theorem of_passed (passed : Passed line s mid m) (h : Placed mid m spots line' rest) :
    Placed line s spots line' rest := by
  cases h with
  | nil h => exact .nil (passed.trans h)
  | cons front shows later => exact .cons (passed.trans front) shows later

theorem append (h : Placed line s spots mid m) (later : Placed mid m more line' rest) :
    Placed line s (spots ++ more) line' rest := by
  induction h with
  | nil h => exact later.of_passed h
  | cons front shows _ ih => exact .cons front shows (ih later)

theorem exists_of_mem (h : Placed line s spots line' rest) {spot : Spot} (mem : spot ∈ spots) :
    ∃ t, Passed line s spot.token.line t ∧ spot.token.Shows t := by
  induction h with
  | nil => cases mem
  | cons front shows _ ih =>
    rcases List.mem_cons.1 mem with rfl | mem
    · exact ⟨_, front, shows⟩
    · obtain ⟨t, passed, shows⟩ := ih mem
      exact ⟨t, front.trans passed, shows⟩

theorem isLineOf (h : Placed line s spots line' rest) {spot : Spot} (mem : spot ∈ spots) :
    Lexer.IsLineOf line s spot.token.line := by
  obtain ⟨t, passed, -⟩ := h.exists_of_mem mem
  exact passed.isLineOf (.first _ t)

theorem pairwise (h : Placed line s spots line' rest) :
    spots.Pairwise fun a b => a.token.line ≤ b.token.line := by
  induction h with
  | nil => exact .nil
  | cons _ _ later ih => exact .cons (fun _ mem => (later.isLineOf mem).1) ih

end Placed

namespace Lexer

section

variable {line opened : Nat} {s : Text} {read : List Spot} {cursor : Cursor}

theorem prefix_takeWhile_newline {x r : Text} (h : '\n' ∉ x) :
    x <+: (x ++ r).takeWhile (· ≠ '\n') := by
  have inline : ∀ c ∈ x, decide (c ≠ '\n') = true := by
    intro c hc
    refine decide_eq_true ?_
    rintro rfl
    exact h hc
  rw [List.takeWhile_append_of_pos inline]
  exact List.prefix_append _ _

theorem infix_of_readName {c : Char} {r name rest : Text}
    (h : readName line c r = .ok (name, rest)) : name <:+: (c :: r).takeWhile (· ≠ '\n') := by
  rw [readName] at h
  split at h
  · rename_i quoted
    obtain ⟨quote, single⟩ : isQuote c = true ∧ c ≠ backtick := by
      have : c = apostrophe ∨ c = quotationMark := by simpa using quoted
      rcases this with rfl | rfl <;> decide
    cases hs : readString c line r with
    | error e => simp [hs, Except.map] at h
    | ok p =>
      obtain ⟨body, after⟩ := p
      obtain ⟨rfl, rfl⟩ : body.dropLast = name ∧ after = rest := by simpa [hs, Except.map] using h
      have inline : '\n' ∉ c :: body := by
        rw [List.mem_cons, not_or]
        refine ⟨?_, newline_not_mem_of_readString quote single hs⟩
        rintro rfl
        cases quote
      have front : c :: body <+: (c :: r).takeWhile (· ≠ '\n') := by
        rw [← append_of_readString hs]
        exact prefix_takeWhile_newline inline
      exact (((List.dropLast_prefix body).isInfix).trans (List.suffix_cons c body).isInfix).trans
        front.isInfix
  · split at h
    · rename_i plain
      cases h
      have inline : '\n' ∉ c :: r.takeWhile isPlainNameChar := by
        have no : isPlainNameChar '\n' = false := rfl
        intro mem
        rcases List.mem_cons.1 mem with rfl | mem
        · rw [no] at plain
          cases plain
        · cases no.symm.trans (List.mem_takeWhile_imp mem)
      have front := prefix_takeWhile_newline (r := r.dropWhile isPlainNameChar) inline
      rw [List.cons_append, List.takeWhile_append_dropWhile] at front
      exact front.isInfix
    · cases h

theorem placed_of_readAttr {c : Char} {r : Text} {spot : Spot}
    (h : readAttr opened line c r = .ok (spot, cursor)) :
    Placed line (c :: r) [spot] cursor.line cursor.rest := by
  have passed := (laid_of_readAttr h).passed
  have stands : spot.token.line = line ∧ spot.token.Shows (c :: r) := by
    rw [readAttr] at h
    split at h
    · cases h
    · rename_i name rest hn
      have shows (value : Option Text) : Token.Shows (.attr name value line) (c :: r) := by
        intro _ _ _ same
        cases same
        exact infix_of_readName hn
      split at h
      · cases h
        exact ⟨rfl, shows none⟩
      · split at h
        · cases h
        · cases h
          exact ⟨rfl, shows _⟩
  obtain ⟨rfl, shows⟩ := stands
  exact .cons (.refl _ _) shows (.nil passed)

theorem placed_of_readList (h : readList opened line s = .ok (read, cursor)) :
    Placed line s read cursor.line cursor.rest := by
  fun_induction readList opened line s generalizing read with
  | case2 _ _ _ separates ih => exact (ih h).of_passed (passed_separator separates _)
  | case3 =>
    cases h
    exact .nil (.inner _ _ _ rfl (by decide))
  | case5 _ _ _ _ _ _ _ ha _ ih =>
    obtain ⟨tail, hr, rfl⟩ := passing_eq_ok_iff.1 h
    exact (placed_of_readAttr ha).append (ih hr)
  | _ => simp_all

theorem placed_of_readTail (h : readTail line s = .ok (read, cursor)) :
    Placed line s read cursor.line cursor.rest := by
  fun_induction readTail line s generalizing read with
  | case1 | case7 =>
    cases h
    exact .nil (.refl _ _)
  | case2 _ _ _ dot _ ih => exact (ih h).of_passed (passed_shorthand dot _)
  | case4 _ _ _ _ hl _ _ ih =>
    obtain ⟨tail, hr, rfl⟩ := passing_eq_ok_iff.1 h
    exact ((placed_of_readList hl).append (ih hr)).of_passed (.inner _ _ _ rfl (by decide))
  | case6 _ _ _ _ _ attr _ hl _ ih =>
    obtain ⟨hc, attr⟩ := Bool.and_eq_true_iff.1 attr
    rw [of_decide_eq_true hc]
    exact (ih h).of_passed (passed_spread attr hl)
  | _ => simp at h

theorem placed_tag {line' : Nat} {rest : Text} {more : List Spot}
    (h : Placed line (tagName s).2 more line' rest) :
    Placed line s (tagSpot line s :: more) line' rest := by
  have shows : (tagSpot line s).token.Shows s := by
    intro _ _ _ tag
    cases tag
  exact .cons (.refl _ _) shows (h.of_passed (passed_tagName line s))

theorem placed_of_readTags {opens : Bool} (h : readTags line s = .ok (read, opens, cursor)) :
    Placed line s read cursor.line cursor.rest := by
  fun_induction readTags line s generalizing read with
  | case1 =>
    cases h
    exact .nil (.refl _ _)
  | case2 => simp at h
  | case3 _ _ _ _ _ ht _ =>
    cases h
    exact placed_tag (placed_of_readTail ht)
  | case4 _ _ _ _ _ ht _ hn _ _ _ ih =>
    obtain ⟨tail, hr, rfl⟩ := passing_eq_ok_iff.1 h
    have nested := (ih hr).of_passed (passed_of_nested? hn _)
    exact placed_tag ((placed_of_readTail ht).append nested)

theorem passed_inward (line : Nat) (s : Text) : Passed line s line (inward s) := by
  have passed := passed_margin line s
  rwa [indentation_takeWhile, drop_margin] at passed

theorem placed_of_readLine {block next : Option Nat}
    (h : readLine block line s = .ok (read, next, cursor)) :
    Placed line s read cursor.line cursor.rest := by
  have passed := (laid_of_readLine h).passed
  rcases readLine_cases h with ⟨rfl, -⟩ | ⟨⟨opens, ht⟩, -⟩
  · exact .nil passed
  · exact (placed_of_readTags ht).of_passed (passed_inward line s)

theorem placed_of_readLines {block : Option Nat} (h : readLines block line s = .ok read) :
    ∃ line' rest, Placed line s read line' rest := by
  induction hn : s.length using Nat.strongRecOn generalizing block line s read with
  | ind n ih =>
    subst hn
    obtain ⟨first, next, cursor, below, hl, hbelow, rfl⟩ := readLines_eq_ok_iff.1 h
    have front := placed_of_readLine hl
    cases hbelow with
    | last =>
      rw [List.append_nil]
      exact ⟨_, _, front⟩
    | more more hbelow =>
      obtain ⟨line', rest, later⟩ :=
        ih _ (length_lt_of_after (suffix_of_readLine hl) more) hbelow rfl
      exact ⟨line', rest, front.append (later.of_passed (passed_line more _))⟩

/-! ### Tags in front -/

theorem exists_of_readTags {opens : Bool} (h : readTags line s = .ok (read, opens, cursor)) :
    read = [] ∨ ∃ more, read = tagSpot line s :: more := by
  cases tag : (tagName s).1.isEmpty with
  | true =>
    rw [readTags, if_pos tag] at h
    cases h
    exact .inl rfl
  | false =>
    obtain ⟨spots, mid, -, h⟩ := (readTags_eq_ok_iff tag).1 h
    split at h
    · exact .inr ⟨spots, h.1.symm⟩
    · obtain ⟨tail, -, rfl⟩ := h
      exact .inr ⟨spots ++ tail, rfl⟩

theorem head?_of_readLine {block next : Option Nat}
    (h : readLine block line s = .ok (read, next, cursor)) :
    ∀ spot ∈ read.head?, ∃ name n, spot.token = .tag name n := by
  rcases readLine_cases h with ⟨rfl, -⟩ | ⟨⟨opens, ht⟩, -⟩
  · simp
  · rcases exists_of_readTags ht with rfl | ⟨more, rfl⟩
    · simp
    · simp [tagSpot]

theorem head?_of_readLines {block : Option Nat} (h : readLines block line s = .ok read) :
    ∀ spot ∈ read.head?, ∃ name n, spot.token = .tag name n := by
  induction hn : s.length using Nat.strongRecOn generalizing block line s read with
  | ind n ih =>
    subst hn
    obtain ⟨first, next, cursor, below, hl, hbelow, rfl⟩ := readLines_eq_ok_iff.1 h
    have front := head?_of_readLine hl
    cases first with
    | cons spot more => exact front
    | nil =>
      cases hbelow with
      | last => simp
      | more more hbelow =>
        exact ih _ (length_lt_of_after (suffix_of_readLine hl) more) hbelow rfl

end

/-! ### Errors -/

section

variable {line opened : Nat} {s : Text} {e : LexError}

theorem line_of_readString_error {quote : Char} {start : Nat}
    (h : readString quote start s = .error e) : e.line = start := by
  fun_induction readString quote start s with
  | case3 _ _ _ ih | case6 _ _ _ _ _ ih => exact ih (passing_eq_error_iff.1 h)
  | case4 => cases h
  | _ =>
    cases h
    rfl

theorem line_of_readName_error {c : Char} {r : Text} (h : readName line c r = .error e) :
    e.line = line := by
  rw [readName] at h
  split at h
  · cases hs : readString c line r with
    | error e' =>
      obtain rfl : e' = e := by simpa [hs, Except.map] using h
      exact line_of_readString_error hs
    | ok p => simp [hs, Except.map] at h
  · split at h
    · cases h
    · cases h
      rfl

theorem isLineOf_of_readValue {depth : Nat} {last : Char}
    (h : readValue opened depth last line s = .error e) :
    e.line = opened ∨ IsLineOf line s e.line := by
  fun_induction readValue opened depth last line s with
  | case1 =>
    cases h
    exact .inl rfl
  | case2 _ _ line c r _ _ hs =>
    cases h
    rw [line_of_readString_error hs]
    exact .inr (.first _ _)
  | case3 _ _ _ _ _ hc _ _ hs _ ih =>
    exact (ih (passing_eq_error_iff.1 h)).imp_right (passed_of_readString hc hs _).isLineOf
  | case4 | case5 | case7 =>
    rename_i ih
    exact (ih (passing_eq_error_iff.1 h)).imp_right .cons
  | case8 =>
    rename_i ih
    exact (ih (passing_eq_error_iff.1 h)).imp_right .char
  | case9 _ _ line c r _ _ _ _ _ _ _ _ ih =>
    refine (ih (passing_eq_error_iff.1 h)).imp_right fun inner => ?_
    have whole := IsLineOf.append (x := c :: indentation r) inner
    rwa [List.cons_append, indentation_append_trimStart] at whole
  | case6 | case10 => cases h

theorem isLineOf_of_readAttr {c : Char} {r : Text} (h : readAttr opened line c r = .error e) :
    e.line = opened ∨ IsLineOf line (c :: r) e.line := by
  rw [readAttr] at h
  split at h
  · rename_i hn
    cases h
    rw [line_of_readName_error hn]
    exact .inr (.first _ _)
  · rename_i name rest hn
    split at h
    · cases h
    · rename_i s ha
      split at h
      · rename_i hv
        cases h
        refine (isLineOf_of_readValue hv).imp_right fun inner => ?_
        have value := IsLineOf.append (x := indentation s) inner
        rw [indentation_append_trimStart] at value
        exact (value.suffix ((suffix_of_assigned? ha).trans (suffix_of_readName hn))).cons
      · cases h

theorem isLineOf_of_readList (h : readList opened line s = .error e) :
    e.line = opened ∨ IsLineOf line s e.line := by
  fun_induction readList opened line s with
  | case1 =>
    cases h
    exact .inl rfl
  | case2 _ _ _ _ ih => exact (ih h).imp_right .char
  | case3 => cases h
  | case4 _ _ _ _ _ _ ha =>
    cases h
    exact isLineOf_of_readAttr ha
  | case5 _ _ _ _ _ _ _ ha _ ih =>
    exact (ih (passing_eq_error_iff.1 h)).imp_right (laid_of_readAttr ha).passed.isLineOf

theorem isLineOf_of_readBalanced {depth : Nat} (h : readBalanced opened depth line s = .error e) :
    e.line = opened ∨ IsLineOf line s e.line := by
  fun_induction readBalanced opened depth line s with
  | case1 =>
    cases h
    exact .inl rfl
  | case2 _ _ _ _ _ _ hs =>
    cases h
    rw [line_of_readString_error hs]
    exact .inr (.first _ _)
  | case3 _ _ _ _ hc _ _ hs _ ih => exact (ih h).imp_right (passed_of_readString hc hs _).isLineOf
  | case4 | case6 =>
    rename_i ih
    exact (ih h).imp_right .cons
  | case5 => cases h
  | case7 =>
    rename_i ih
    exact (ih h).imp_right .char

theorem isLineOf_of_first (h : e.line = line ∨ IsLineOf line s e.line) :
    IsLineOf line s e.line := by
  rcases h with same | inner
  · rw [same]
    exact .first _ _
  · exact inner

theorem isLineOf_of_readSpread (h : readSpread line s = .error e) : IsLineOf line s e.line := by
  fun_induction readSpread line s with
  | case2 => exact (isLineOf_of_first (isLineOf_of_readBalanced h)).cons
  | case4 _ _ _ _ ih => exact (ih h).cons
  | _ => cases h

theorem isLineOf_of_readTail (h : readTail line s = .error e) : IsLineOf line s e.line := by
  fun_induction readTail line s with
  | case1 | case7 => cases h
  | case2 _ _ _ dot _ ih => exact (passed_shorthand dot _).isLineOf (ih h)
  | case3 _ _ _ hl =>
    cases h
    exact (isLineOf_of_first (isLineOf_of_readList hl)).cons
  | case4 _ _ _ _ hl _ _ ih =>
    exact ((laid_of_readList hl).passed.isLineOf (ih (passing_eq_error_iff.1 h))).cons
  | case5 _ _ _ _ _ _ _ hl =>
    cases h
    exact (isLineOf_of_readSpread hl).cons
  | case6 _ _ _ _ _ attr _ hl _ ih =>
    obtain ⟨hc, attr⟩ := Bool.and_eq_true_iff.1 attr
    rw [of_decide_eq_true hc]
    exact (passed_spread attr hl).isLineOf (ih h)

theorem isLineOf_of_readTags (h : readTags line s = .error e) : IsLineOf line s e.line := by
  fun_induction readTags line s with
  | case1 | case3 => cases h
  | case2 _ s _ _ ht =>
    cases h
    exact (isLineOf_of_readTail ht).suffix (suffix_of_tagName s)
  | case4 _ s _ _ _ ht _ hn _ _ _ ih =>
    have nested := (passed_of_nested? hn _).isLineOf (ih (passing_eq_error_iff.1 h))
    exact ((laid_of_readTail ht).passed.isLineOf nested).suffix (suffix_of_tagName s)

theorem isLineOf_of_readLine {block : Option Nat} (h : readLine block line s = .error e) :
    IsLineOf line s e.line := by
  rw [readLine_eq] at h
  split at h
  · cases h
  · split at h
    · cases h
      exact .first _ _
    · split at h
      · cases h
      · cases h
      · split at h
        · rename_i ht
          cases h
          exact (passed_inward line s).isLineOf (isLineOf_of_readTags ht)
        · cases h

theorem isLineOf_of_readLines {block : Option Nat} (h : readLines block line s = .error e) :
    IsLineOf line s e.line := by
  fun_induction readLines block line s with
  | case1 _ _ _ _ hl =>
    cases h
    exact isLineOf_of_readLine hl
  | case2 => cases h
  | case3 _ _ _ _ next cursor hl _ rest hd _ _ ih =>
    cases hr : readLines next (cursor.line + 1) rest with
    | error e' =>
      obtain rfl : e' = e := by simpa [hr, Except.map] using h
      exact ((laid_of_readLine hl).passed.trans (passed_line hd _)).isLineOf (ih hr)
    | ok below => simp [hr, Except.map] at h

end

/-! ### Lines of a text -/

theorem exists_first_line {x t y : Text} (unbroken : '\n' ∉ x ++ t) (ends : Ends y)
    (ls : List Text) :
    ∃ m, ((x ++ t) :: ls)[breaks x]? = some m ∧ (t ++ y).takeWhile (· ≠ '\n') <:+ m := by
  rw [List.mem_append, not_or] at unbroken
  have first : breaks x = 0 := List.count_eq_zero.2 unbroken.1
  rw [first, takeWhile_line unbroken.2 ends]
  exact ⟨x ++ t, rfl, List.suffix_append x t⟩

theorem exists_line_of_append {l : Text} {ls : List Text} (unbroken : ∀ m ∈ l :: ls, '\n' ∉ m)
    {x t : Text} (h : x ++ t = join ['\n'] (l :: ls)) :
    ∃ m, (l :: ls)[breaks x]? = some m ∧ t.takeWhile (· ≠ '\n') <:+ m := by
  induction ls generalizing l x with
  | nil =>
    rw [join_singleton] at h
    subst h
    simpa using exists_first_line (y := []) (unbroken _ List.mem_cons_self) .nil []
  | cons m ls ih =>
    rw [join_cons] at h
    rw [List.forall_mem_cons] at unbroken
    -- The cut is in the first line or behind it.
    rcases List.append_eq_append_iff.1 h with ⟨y, rfl, rfl⟩ | ⟨y, rfl, hy⟩
    · exact exists_first_line unbroken.1 (.newline _) (m :: ls)
    · cases y with
      | nil =>
        obtain rfl : t = '\n' :: join ['\n'] (m :: ls) := by simpa using hy.symm
        have front : '\n' ∉ l ++ [] := by simpa using unbroken.1
        simpa using exists_first_line front (.newline (join ['\n'] (m :: ls))) (m :: ls)
      | cons c y =>
        obtain ⟨rfl, behind⟩ := List.cons.inj hy
        obtain ⟨found, stands, left⟩ := ih unbroken.2 behind.symm
        have count : breaks (l ++ '\n' :: y) = breaks y + 1 := by
          rw [breaks, List.count_append, List.count_eq_zero.2 unbroken.1, List.count_cons_self,
            Nat.zero_add, breaks]
        rw [count]
        exact ⟨found, stands, left⟩

theorem breaks_join {l : Text} {ls : List Text} (unbroken : ∀ m ∈ l :: ls, '\n' ∉ m) :
    breaks (join ['\n'] (l :: ls)) = ls.length := by
  induction ls generalizing l with
  | nil =>
    rw [join_singleton]
    exact List.count_eq_zero.2 (unbroken _ List.mem_cons_self)
  | cons m ls ih =>
    rw [List.forall_mem_cons] at unbroken
    rw [join_cons, breaks, List.count_append, List.count_eq_zero.2 unbroken.1,
      List.count_cons_self, ← breaks, ih unbroken.2, Nat.zero_add, List.length_cons]

theorem isLineOf_lines_iff {t : Text} {n : Nat} :
    IsLineOf 1 (join ['\n'] (lines t)) n ↔ 1 ≤ n ∧ n ≤ (lines t).length := by
  obtain ⟨l, ls, ht⟩ := List.exists_cons_of_ne_nil (lines_ne_nil t)
  have unbroken := newline_not_mem_lines t
  rw [ht] at unbroken ⊢
  rw [IsLineOf, breaks_join unbroken, List.length_cons, Nat.add_comm]

theorem exists_line_of_passed {t rest name : Text} {line : Nat}
    (passed : Passed 1 (join ['\n'] (lines t)) line rest)
    (shown : name <:+: rest.takeWhile (· ≠ '\n')) :
    ∃ l, (lines t)[line - 1]? = some l ∧ name <:+: l := by
  obtain ⟨x, whole, rfl, -⟩ := passed.split
  obtain ⟨l, ls, ht⟩ := List.exists_cons_of_ne_nil (lines_ne_nil t)
  have unbroken := newline_not_mem_lines t
  rw [ht] at whole unbroken ⊢
  obtain ⟨found, stands, left⟩ := exists_line_of_append unbroken whole
  rw [Nat.add_sub_cancel_left]
  exact ⟨found, stands, shown.trans left.isInfix⟩

end Lexer

open Lexer

/-- Tokens stand on lines of the text and in their order, each attribute behind a tag and on a line
that has its name. An error stands on a line of the text, too. -/
theorem tokenize_positions (t : Text) :
    match tokenize t with
    | .ok tokens =>
      tokens.Pairwise (·.line ≤ ·.line) ∧
      (∀ k ∈ tokens, 1 ≤ k.line ∧ k.line ≤ (lines t).length) ∧
      (∀ before name value line after, tokens = before ++ .attr name value line :: after →
        ∃ tag n, .tag tag n ∈ before) ∧
      ∀ name value line, .attr name value line ∈ tokens →
        ∃ l, (lines t)[line - 1]? = some l ∧ name <:+: l
    | .error e => 1 ≤ e.line ∧ e.line ≤ (lines t).length := by
  rw [tokenize]
  cases hs : spots t with
  | error e => exact isLineOf_lines_iff.1 (isLineOf_of_readLines hs)
  | ok read =>
    obtain ⟨line', rest, placed⟩ := placed_of_readLines hs
    refine ⟨List.pairwise_map.2 placed.pairwise, ?_, ?_, ?_⟩
    · intro k mem
      obtain ⟨spot, among, rfl⟩ := List.mem_map.1 mem
      exact isLineOf_lines_iff.1 (placed.isLineOf among)
    · intro before name value line after split
      have first := head?_of_readLines hs
      cases before with
      | nil =>
        obtain ⟨spot, more, rfl, hk, -⟩ := List.map_eq_cons_iff.1 split
        obtain ⟨tag, n, ht⟩ := first spot rfl
        rw [hk] at ht
        cases ht
      | cons k before =>
        obtain ⟨spot, more, rfl, rfl, -⟩ := List.map_eq_cons_iff.1 split
        obtain ⟨tag, n, ht⟩ := first spot rfl
        exact ⟨tag, n, ht ▸ List.mem_cons_self⟩
    · intro name value line mem
      obtain ⟨spot, mem, hk⟩ := List.mem_map.1 mem
      obtain ⟨t', passed, shows⟩ := placed.exists_of_mem mem
      rw [hk] at passed shows
      exact exists_line_of_passed passed (shows name value line rfl)

theorem tokenize_positions_list :
    let t := "p\r\nimg(\r  src='a.png'\n\n  'alt')".toList
    let tokens := [.tag "p".toList 1, .tag "img".toList 2, .attr "src".toList "'a.png'".toList 3,
      .attr "alt".toList none 5]
    tokenize t = .ok tokens ∧ (lines t)[2]? = some "  src='a.png'".toList ∧
      (∀ k ∈ tokens, 1 ≤ k.line ∧ k.line ≤ 5) ∧
      ∃ e, tokenize "p\rimg(src=`a\n".toList = .error e ∧ 1 ≤ e.line ∧ e.line ≤ 3 := by
  intro t tokens
  have read : tokenize t = .ok tokens := by decide +kernel
  have places := tokenize_positions t
  rw [read] at places
  have fails : tokenize "p\rimg(src=`a\n".toList = .error ⟨2, .unclosedList⟩ := by decide +kernel
  have place := tokenize_positions "p\rimg(src=`a\n".toList
  rw [fails] at place
  exact ⟨read, by decide +kernel, places.2.1, _, fails, place⟩

end PugWeave.Markup
