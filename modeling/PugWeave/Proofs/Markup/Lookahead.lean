import PugWeave.Proofs.Markup.Normalization

namespace PugWeave.Markup.Lexer

open Text

/-! ### Runs of characters -/

section

variable {p : Char → Bool} {x : Text}

theorem takeWhile_eq_nil (h : x.head?.any p = false) : x.takeWhile p = [] := by
  cases x with
  | nil => rfl
  | cons c x => simp_all

theorem dropWhile_eq_self (h : x.head?.any p = false) : x.dropWhile p = x := by
  cases x with
  | nil => rfl
  | cons c x => simp_all

theorem any_head_dropWhile (p : Char → Bool) (x : Text) : (x.dropWhile p).head?.any p = false := by
  induction x with
  | nil => rfl
  | cons c x ih =>
    cases hp : p c with
    | true => simpa [hp] using ih
    | false => simp [hp]

end

/-! ### Strings and values -/

theorem readString_rest {quote : Char} (hq : isQuote quote = true) {start : Nat}
    {s body rest : Text} (h : readString quote start s = .ok (body, rest)) (start' : Nat)
    (t : Text) : readString quote start' (body ++ t) = .ok (body, t) := by
  have slash : quote ≠ '\\' := by
    rintro rfl
    cases hq
  fun_induction readString quote start s generalizing body with
  | case3 c r inline ih =>
    obtain ⟨tail, hr, rfl⟩ := passing_eq_ok_iff.1 h
    rw [List.append_assoc, List.cons_append, List.singleton_append, readString_escape,
      if_neg inline, ih hr]
    rfl
  | case4 =>
    cases h
    rw [List.singleton_append, readString_char _ _ slash, if_pos rfl]
  | case6 c r escape other inline ih =>
    obtain ⟨tail, hr, rfl⟩ := passing_eq_ok_iff.1 h
    have plain : c ≠ '\\' := by
      rintro rfl
      cases r with
      | nil => simp [readString] at hr
      | cons d r => exact escape d r rfl rfl
    rw [List.append_assoc, List.singleton_append, readString_char _ _ plain, if_neg other,
      if_neg inline, ih hr]
    rfl
  | _ => simp_all

theorem trimStart_run {b t : Text} (blank : ∀ c ∈ b, isBlank c = true)
    (full : ∀ c ∈ t.head?, isBlank c = false) :
    trimStart (b ++ t) = t ∧ indentation (b ++ t) = b := by
  have first : t.head?.any isBlank = false := by
    cases t with
    | nil => rfl
    | cons c t => exact full c rfl
  rw [trimStart_blank_append blank, trimStart_eq_self full, indentation,
    List.takeWhile_append_of_pos blank, takeWhile_eq_nil first, List.append_nil]
  exact ⟨rfl, rfl⟩

theorem head?_append_eq {x r t : Text} (same : t.head? = r.head?) :
    (x ++ t).head? = (x ++ r).head? := by
  rw [List.head?_append, List.head?_append, same]

theorem readValue_onward {opened line : Nat} {last c : Char} {r t : Text} (blank : isBlank c = true)
    (goes : continues last (trimStart r).head? = true) (same : t.head? = (trimStart r).head?) :
    readValue opened 0 last line (c :: (indentation r ++ t)) = passing (c :: indentation r)
      (readValue opened 0 last (line + breaks (c :: indentation r)) t) := by
  have run : ∀ d ∈ c :: indentation r, isBlank d = true :=
    List.forall_mem_cons.2 ⟨blank, fun d hd => List.mem_takeWhile_imp hd⟩
  have full : ∀ d ∈ t.head?, isBlank d = false := by
    rw [same]
    exact head?_trimStart r
  obtain ⟨start, front⟩ := trimStart_run run full
  rw [readValue_gap _ _ _ blank, ← List.cons_append, start, front, same, if_pos goes]

theorem readValue_rest {opened depth line : Nat} {last : Char} {s read : Text} {cursor : Cursor}
    (h : readValue opened depth last line s = .ok (read, cursor)) {t : Text}
    (first : t.head? = cursor.rest.head?)
    (next : (trimStart t).head? = (trimStart cursor.rest).head?) :
    readValue opened depth last line (read ++ t) = .ok (read, ⟨cursor.line, t⟩) := by
  fun_induction readValue opened depth last line s generalizing read with
  | case3 _ _ _ c r hc body rest hs _ ih =>
    obtain ⟨tail, hr, rfl⟩ := passing_eq_ok_iff.1 h
    rw [List.append_assoc, List.cons_append]
    refine (readValue_quote_eq_ok_iff hc).2 ⟨body, tail ++ t, readString_rest hc hs _ _, ?_⟩
    rw [ih hr]
    rfl
  | case4 _ _ _ _ _ quote opening ih =>
    obtain ⟨tail, hr, rfl⟩ := passing_eq_ok_iff.1 h
    rw [List.singleton_append, List.cons_append, readValue, if_neg quote, if_pos opening,
      ih hr]
    rfl
  | case5 _ _ _ _ _ quote opening closing ih =>
    obtain ⟨tail, hr, rfl⟩ := passing_eq_ok_iff.1 h
    rw [List.singleton_append, List.cons_append, readValue, if_neg quote, if_neg opening,
      if_pos closing, ih hr]
    rfl
  | case6 depth last line c r quote opening closing ends =>
    cases h
    obtain ⟨u, rfl⟩ := List.head?_eq_some_iff.1 first
    rw [List.nil_append, readValue, if_neg quote, if_neg opening, if_neg closing, if_pos ends]
  | case7 _ _ _ _ _ quote opening closing ends full ih =>
    obtain ⟨tail, hr, rfl⟩ := passing_eq_ok_iff.1 h
    rw [List.singleton_append, List.cons_append, readValue, if_neg quote, if_neg opening,
      if_neg closing, if_neg ends, if_pos full, ih hr]
    rfl
  | case8 depth last line c r _ _ _ _ blank inner ih =>
    obtain ⟨tail, hr, rfl⟩ := passing_eq_ok_iff.1 h
    rw [List.singleton_append, List.cons_append, readValue_blank _ inner _ _ (by simpa using blank),
      ih hr]
    rfl
  | case9 depth last line c r _ _ _ _ blank outer goes _ ih =>
    obtain ⟨tail, hr, rfl⟩ := passing_eq_ok_iff.1 h
    obtain rfl : depth = 0 := by omega
    -- The character behind the blanks is that of the value's rest, or of `t` if that is empty.
    have same : (tail ++ t).head? = (trimStart r).head? := by
      rw [← append_of_readValue hr]
      exact head?_append_eq first
    rw [List.append_assoc, List.cons_append, readValue_onward (by simpa using blank) goes same,
      ih hr]
    rfl
  | case10 depth last line c r _ _ _ _ blank outer ends =>
    cases h
    obtain rfl : depth = 0 := by omega
    have blank : isBlank c = true := by simpa using blank
    obtain ⟨u, rfl⟩ := List.head?_eq_some_iff.1 first
    have start (w : Text) : trimStart (c :: w) = trimStart w := by simp [trimStart, blank]
    rw [List.nil_append, readValue_gap _ _ _ blank, next, start, if_neg ends]
  | _ => simp_all

/-! ### Lists -/

inductive Closing (a b : Text) : Text → Text → Prop
  | rest : Closing a b (')' :: a) (')' :: b)
  | char {c : Char} {r r' : Text} : Closing a b r r' → Closing a b (c :: r) (c :: r')

namespace Closing

variable {a b s s' : Text}

theorem of_append (a b x : Text) : Closing a b (x ++ ')' :: a) (x ++ ')' :: b) := by
  induction x with
  | nil => exact .rest
  | cons c x ih => exact .char ih

theorem length_lt (h : Closing a b s s') : a.length < s.length := by
  induction h with
  | rest => simp
  | char _ ih =>
    rw [List.length_cons]
    omega

theorem head?_eq (h : Closing a b s s') : s'.head? = s.head? := by
  cases h <;> rfl

theorem of_suffix {x rest : Text} (h : Closing a b (x ++ rest) s')
    (longer : a.length < rest.length) : ∃ rest', s' = x ++ rest' ∧ Closing a b rest rest' := by
  induction x generalizing s' with
  | nil => exact ⟨s', rfl, h⟩
  | cons c x ih =>
    cases h with
    | rest =>
      have longer : (x ++ rest).length < rest.length := longer
      rw [List.length_append] at longer
      omega
    | char h =>
      obtain ⟨rest', rfl, within⟩ := ih h
      exact ⟨rest', rfl, within⟩

theorem dropWhile (h : Closing a b s s') {p : Char → Bool} (stops : p ')' = false) :
    s'.takeWhile p = s.takeWhile p ∧ Closing a b (s.dropWhile p) (s'.dropWhile p) := by
  induction h with
  | rest => simpa [stops] using Closing.rest
  | @char c r r' h ih =>
    cases hp : p c with
    | true => simpa [hp] using ih
    | false => simpa [hp] using Closing.char h

theorem trimStart (h : Closing a b s s') :
    indentation s' = indentation s ∧ Closing a b (trimStart s) (trimStart s') :=
  h.dropWhile rfl

theorem assigned? (h : Closing a b s s') :
    Option.Rel (Closing a b) (assigned? s) (assigned? s') := by
  obtain ⟨-, h⟩ := h.dropWhile (p := isSpaceOrTab) rfl
  rw [Lexer.assigned?, Lexer.assigned?]
  generalize s.dropWhile isSpaceOrTab = t, s'.dropWhile isSpaceOrTab = t' at h
  split
  · cases h with
    | char h => exact .some h
  · cases h with
    | char h =>
      cases h with
      | char h => exact .some h
  · rename_i equals differs
    split
    · cases h with
      | char => exact absurd rfl (equals _)
    · cases h with
      | char h =>
        cases h with
        | char => exact absurd rfl (differs _)
    · exact .none

end Closing

section

variable {opened line : Nat} {s s' a b : Text} {cursor : Cursor}

theorem readName_rest {c : Char} {r name rest : Text} (h : readName line c r = .ok (name, rest)) :
    ∃ x, x ++ rest = r ∧ ∀ line' t, t.head?.any isPlainNameChar = rest.head?.any isPlainNameChar →
      readName line' c (x ++ t) = .ok (name, t) := by
  rw [readName] at h
  split at h
  · rename_i quoted
    have quote : isQuote c = true := by
      rw [isQuote, Bool.or_eq_true]
      exact .inl quoted
    cases hs : readString c line r with
    | error e => simp [hs, Except.map] at h
    | ok p =>
      obtain ⟨body, after⟩ := p
      obtain ⟨rfl, rfl⟩ : body.dropLast = name ∧ after = rest := by simpa [hs, Except.map] using h
      refine ⟨body, append_of_readString hs, fun line' t _ => ?_⟩
      rw [readName, if_pos quoted, readString_rest quote hs]
      rfl
  · rename_i quoted
    split at h
    · rename_i plain
      cases h
      refine ⟨_, List.takeWhile_append_dropWhile, fun line' t ends => ?_⟩
      have all : ∀ d ∈ r.takeWhile isPlainNameChar, isPlainNameChar d = true := fun d hd =>
        List.mem_takeWhile_imp hd
      rw [any_head_dropWhile] at ends
      rw [readName, if_neg quoted, if_pos plain, List.takeWhile_append_of_pos all,
        List.dropWhile_append_of_pos all, takeWhile_eq_nil ends, dropWhile_eq_self ends,
        List.append_nil]
    · cases h

theorem assigned?_rest {r : Text} (h : assigned? s = some r) :
    ∃ x, x ++ r = s ∧ x ≠ [] ∧ ∀ t, assigned? (x ++ t) = some t := by
  obtain ⟨front, equals, rfl, blank, sign⟩ := exists_of_assigned? h
  refine ⟨front ++ equals, List.append_assoc _ _ _, ?_, fun t => ?_⟩
  · rcases sign with rfl | rfl <;> simp
  · rw [assigned?, List.append_assoc, List.dropWhile_append_of_pos blank]
    rcases sign with rfl | rfl <;> rfl

theorem readAttr_rest {c : Char} {r : Text} {spot : Spot}
    (h : readAttr opened line c r = .ok (spot, cursor)) :
    ∃ x, x ++ cursor.rest = r ∧ ∀ t, t.head? = cursor.rest.head? →
      (trimStart t).head? = (trimStart cursor.rest).head? →
      (assigned? cursor.rest = none → assigned? t = none) →
      ∃ spot', readAttr opened line c (x ++ t) = .ok (spot', ⟨cursor.line, t⟩) ∧
        spot'.token = spot.token := by
  rw [readAttr] at h
  split at h
  · cases h
  · rename_i name rest hn
    obtain ⟨x, rfl, hname⟩ := readName_rest hn
    split at h
    · rename_i bare
      cases h
      refine ⟨x, rfl, fun t first _ unassigned =>
        ⟨⟨.attr name none line, (c :: (x ++ t)).length⟩, ?_, rfl⟩⟩
      rw [readAttr, hname line t (by rw [first])]
      simp only [unassigned bare]
    · rename_i u ha
      split at h
      · cases h
      · rename_i read cursor' hv
        cases h
        obtain ⟨y, rfl, full, hassigned⟩ := assigned?_rest ha
        have whole := append_of_readValue hv
        refine ⟨x ++ (y ++ (indentation u ++ read)), by simp [whole], fun t first next _ => ?_⟩
        have same : (read ++ t).head? = (trimStart u).head? := by
          rw [← whole]
          exact head?_append_eq first
        obtain ⟨start, front⟩ := trimStart_run (b := indentation u) (t := read ++ t)
          (fun d hd => List.mem_takeWhile_imp hd) (by rw [same]; exact head?_trimStart u)
        have value := readValue_rest hv first next
        have behind : x ++ (y ++ (indentation u ++ read)) ++ t =
            x ++ (y ++ (indentation u ++ (read ++ t))) := by simp
        refine ⟨⟨.attr name (some (trim read)) line, (read ++ t).length⟩, ?_, rfl⟩
        rw [behind, readAttr, hname line _ (by
          rw [List.head?_append_of_ne_nil _ full, List.head?_append_of_ne_nil _ full])]
        simp only [hassigned]
        rw [start, front, value]

theorem Closing.readAttr {c : Char} {r r' : Text} {spot : Spot} (h : Closing a b r r')
    (hs : readAttr opened line c r = .ok (spot, cursor)) (longer : a.length < cursor.rest.length) :
    ∃ spot' rest', readAttr opened line c r' = .ok (spot', ⟨cursor.line, rest'⟩) ∧
      Closing a b cursor.rest rest' ∧ spot'.token = spot.token := by
  obtain ⟨x, rfl, later⟩ := readAttr_rest hs
  obtain ⟨rest', rfl, within⟩ := h.of_suffix longer
  have unassigned (bare : Lexer.assigned? cursor.rest = none) : Lexer.assigned? rest' = none := by
    have values := within.assigned?
    rw [bare] at values
    cases hr : Lexer.assigned? rest' with
    | none => rfl
    | some u =>
      rw [hr] at values
      cases values
  obtain ⟨spot', ha, token⟩ :=
    later rest' within.head?_eq within.trimStart.2.head?_eq unassigned
  exact ⟨spot', rest', ha, within, token⟩

theorem exists_of_readList {read : List Spot} (h : readList opened line s = .ok (read, cursor)) :
    ∃ x, x ++ ')' :: cursor.rest = s := by
  fun_induction readList opened line s generalizing read with
  | case1 => cases h
  | case2 line c r _ ih =>
    obtain ⟨x, rfl⟩ := ih h
    exact ⟨c :: x, rfl⟩
  | case3 =>
    cases h
    exact ⟨[], rfl⟩
  | case4 => cases h
  | case5 line c r _ _ spot mid ha _ ih =>
    obtain ⟨tail, hr, rfl⟩ := passing_eq_ok_iff.1 h
    obtain ⟨x, whole⟩ := ih hr
    obtain ⟨y, rfl⟩ := suffix_of_readAttr ha
    exact ⟨c :: y ++ x, by rw [← whole]; simp⟩

theorem Closing.readList {read : List Spot} (h : Closing a b s s')
    (hs : readList opened line s = .ok (read, cursor)) (closes : cursor.rest = a) :
    ∃ read', readList opened line s' = .ok (read', ⟨cursor.line, b⟩) ∧
      read'.map Spot.token = read.map Spot.token := by
  fun_induction Lexer.readList opened line s generalizing s' read with
  | case1 => cases hs
  | case2 line c r separates ih =>
    cases h with
    | rest => cases separates
    | char h =>
      rw [readList_blank _ _ separates]
      exact ih h hs
  | case3 =>
    cases hs
    cases h with
    | rest => exact ⟨[], readList_close _ _ _, rfl⟩
    | char h =>
      have longer := h.length_lt
      rw [← closes] at longer
      exact absurd longer (Nat.lt_irrefl _)
  | case4 => cases hs
  | case5 line c r separates ends spot mid ha less ih =>
    obtain ⟨tail, hr, rfl⟩ := passing_eq_ok_iff.1 hs
    cases h with
    | rest => exact absurd rfl ends
    | char h =>
      -- The bracket is still to come behind the attribute, so that none looks past it.
      have longer : a.length < mid.rest.length := by
        obtain ⟨x, whole⟩ := exists_of_readList hr
        rw [← whole, ← closes, List.length_append, List.length_cons]
        omega
      obtain ⟨spot', rest', ha', within, token⟩ := h.readAttr ha longer
      obtain ⟨tail', hr', tokens⟩ := ih within hr
      refine ⟨spot' :: tail', ?_, by rw [List.map_cons, token, tokens]; rfl⟩
      exact (readList_attr_eq_ok_iff separates ends).2 ⟨spot', _, tail', ha', hr', rfl⟩

theorem readList_rest {read : List Spot} (h : readList opened line s = .ok (read, cursor)) :
    ∃ x, x ++ ')' :: cursor.rest = s ∧ ∀ t, ∃ read',
      readList opened line (x ++ ')' :: t) = .ok (read', ⟨cursor.line, t⟩) ∧
        read'.map Spot.token = read.map Spot.token := by
  obtain ⟨x, rfl⟩ := exists_of_readList h
  exact ⟨x, rfl, fun t => (Closing.of_append _ t x).readList h rfl⟩

theorem readBalanced_rest {depth : Nat} (h : readBalanced opened depth line s = .ok cursor) :
    ∃ x, x ++ cursor.rest = s ∧
      ∀ t, readBalanced opened depth line (x ++ t) = .ok ⟨cursor.line, t⟩ := by
  fun_induction readBalanced opened depth line s with
  | case1 => cases h
  | case2 => cases h
  | case3 _ _ c r hc body rest hs _ ih =>
    obtain ⟨x, rfl, later⟩ := ih h
    refine ⟨c :: body ++ x, by simp [← append_of_readString hs], fun t => ?_⟩
    rw [List.append_assoc, List.cons_append]
    exact (readBalanced_quote_eq_ok_iff hc).2 ⟨body, x ++ t, readString_rest hc hs _ _, later t⟩
  | case4 _ _ _ _ ih =>
    obtain ⟨x, rfl, later⟩ := ih h
    exact ⟨'(' :: x, rfl, fun t => (readBalanced_opening _ _ _ _).trans (later t)⟩
  | case5 =>
    cases h
    exact ⟨[')'], rfl, fun t => readBalanced_closing _ _ _ _⟩
  | case6 =>
    rename_i ih
    obtain ⟨x, rfl, later⟩ := ih h
    exact ⟨')' :: x, rfl, fun t => (readBalanced_closing _ _ _ _).trans (later t)⟩
  | case7 _ _ c r quote opening closing ih =>
    obtain ⟨x, rfl, later⟩ := ih h
    refine ⟨c :: x, rfl, fun t => ?_⟩
    rw [List.cons_append, readBalanced_char (by simpa using quote) opening closing]
    exact later t

end

/-! ### Lines -/

inductive SameLine : Text → Text → Prop
  | ends : Ends r → Ends r' → SameLine r r'
  | char {c : Char} {r r' : Text} : c ≠ '\n' → SameLine r r' → SameLine (c :: r) (c :: r')

theorem Ends.cases {x : Text} (ends : Ends x) : x = [] ∨ ∃ r, x = '\n' :: r := by
  cases x with
  | nil => exact .inl rfl
  | cons c r => exact .inr ⟨r, by rw [ends c rfl]⟩

theorem Ends.any_head {x : Text} (ends : Ends x) {p : Char → Bool} (stops : p '\n' = false) :
    x.head?.any p = false := by
  rcases ends.cases with rfl | ⟨r, rfl⟩
  · rfl
  · exact stops

namespace SameLine

variable {s s' : Text} (h : SameLine s s')
include h

theorem append (x : Text) : SameLine (x ++ s) (x ++ s') := by
  induction x with
  | nil => exact h
  | cons c x ih =>
    by_cases line : c = '\n'
    · subst line
      exact .ends (.newline _) (.newline _)
    · exact .char line ih

theorem behind {x t : Text} (whole : x ++ s = t) : SameLine t (x ++ s') :=
  whole ▸ h.append x

theorem dropWhile {p : Char → Bool} (stops : p '\n' = false) :
    s'.takeWhile p = s.takeWhile p ∧ SameLine (s.dropWhile p) (s'.dropWhile p) := by
  induction h with
  | ends ends ends' =>
    have first := ends.any_head stops
    have first' := ends'.any_head stops
    rw [takeWhile_eq_nil first, takeWhile_eq_nil first', dropWhile_eq_self first,
      dropWhile_eq_self first']
    exact ⟨rfl, .ends ends ends'⟩
  | @char c r r' other h ih =>
    cases hp : p c with
    | true => simpa [hp] using ih
    | false => simpa [hp] using SameLine.char other h

theorem any_head {p : Char → Bool} (stops : p '\n' = false) : s'.head?.any p = s.head?.any p := by
  cases h with
  | ends ends ends' => rw [ends.any_head stops, ends'.any_head stops]
  | char => rfl

theorem isPrefixOf_eq {a : Text} (line : '\n' ∉ a) : a.isPrefixOf s' = a.isPrefixOf s := by
  induction a generalizing s s' with
  | nil => simp
  | cons c a ih =>
    rw [List.mem_cons, not_or] at line
    have none {x : Text} (ends : Ends x) : (c :: a).isPrefixOf x = false := by
      rcases ends.cases with rfl | ⟨r, rfl⟩
      · rfl
      · have other : (c == '\n') = false := by simpa using Ne.symm line.1
        rw [List.isPrefixOf, other, Bool.false_and]
    cases h with
    | ends ends ends' => rw [none ends, none ends']
    | char _ h => rw [List.isPrefixOf, List.isPrefixOf, ih h line.2]

theorem endsInDot : endsInDot s' = endsInDot s := by
  have none {x : Text} (ends : Ends x) : Lexer.endsInDot x = false := by
    rcases ends.cases with rfl | ⟨r, rfl⟩ <;> rfl
  cases h with
  | ends ends ends' => rw [none ends, none ends']
  | @char c r r' _ h =>
    by_cases dot : c = '.'
    · subst dot
      rw [Lexer.endsInDot, Lexer.endsInDot, (h.dropWhile (p := (· ≠ '\n')) rfl).1]
    · simp [Lexer.endsInDot, dot]

theorem nested?_eq_none (last : nested? s = none) : nested? s' = none := by
  have none {x : Text} (ends : Ends x) :
      Lexer.nested? x = .none ∧ Lexer.nested? (':' :: x) = .none := by
    rcases ends.cases with rfl | ⟨r, rfl⟩ <;> exact ⟨rfl, rfl⟩
  cases h with
  | ends _ ends' => exact (none ends').1
  | @char c r r' _ h =>
    by_cases colon : c = ':'
    · subst colon
      cases h with
      | ends _ ends' => exact (none ends').2
      | @char d r r' other h =>
        rw [nested?] at last ⊢
        split at last
        · cases last
        · rename_i within
          rw [if_neg within]
    · simp [nested?, colon]

end SameLine

/-! ### Tags -/

section

variable {line : Nat} {s : Text} {read : List Spot} {cursor : Cursor}

theorem SameLine.ends_of_ends {s s' : Text} (h : SameLine s s') (ends : Ends s) : Ends s' := by
  cases h with
  | ends _ ends' => exact ends'
  | char other => exact absurd (ends _ rfl) other

theorem SameLine.tagName_fst {s s' : Text} (h : SameLine s s') :
    (tagName s').1 = (tagName s).1 := by
  have letters : (isAlphabetic '\n' || decide ('\n' = '_')) = false := by decide +kernel
  have names : (isNameChar '\n' || decide ('\n' = ':')) = false := by
    rw [isNameChar_newline]
    rfl
  rw [tagName, tagName, h.any_head (p := fun c => c = '.' || c = '#') rfl]
  split
  · rfl
  · rw [readTagName, readTagName, h.any_head (p := fun c => isAlphabetic c || c = '_') letters]
    split
    · dsimp only
      rw [(h.dropWhile (p := fun c => isNameChar c || c = ':') names).1]
    · rfl

theorem tagName_rest (s : Text) : ∃ x, x ++ (tagName s).2 = s ∧
    ∀ t, SameLine (tagName s).2 t → tagName (x ++ t) = ((tagName s).1, t) := by
  cases mark : s.head?.any isMark with
  | true =>
    rw [tagName_snd, if_pos mark]
    refine ⟨[], rfl, fun t same => Prod.ext same.tagName_fst ?_⟩
    rw [List.nil_append, tagName_snd, if_pos (by rwa [same.any_head rfl])]
  | false =>
    have unmarked : ¬s.head?.any isMark = true := by rw [mark, Bool.not_eq_true]
    have front := (prefix_of_tagName mark).trans (List.takeWhile_prefix _)
    have whole := List.prefix_iff_eq_append.1 front
    rw [tagName_snd, if_neg unmarked]
    refine ⟨(tagName s).1, whole, fun t same => ?_⟩
    have same := same.behind whole
    refine Prod.ext same.tagName_fst ?_
    rw [tagName_snd, if_neg (by rwa [same.any_head rfl]), same.tagName_fst, List.drop_left]

theorem nested?_rest {r : Text} (h : nested? s = some r) :
    ∃ x, x ++ r = s ∧ ∀ t, SameLine r t → nested? (x ++ t) = some t := by
  simp only [nested?] at h
  split at h
  · rename_i c r'
    split at h
    · rename_i blank
      cases h
      have whole := List.takeWhile_append_dropWhile (p := isSpaceOrTab) (l := c :: r')
      have run : ∀ d ∈ (c :: r').takeWhile isSpaceOrTab, isSpaceOrTab d = true := fun d hd =>
        List.mem_takeWhile_imp hd
      refine ⟨':' :: (c :: r').takeWhile isSpaceOrTab, congrArg (':' :: ·) whole, fun t same => ?_⟩
      have left : t.dropWhile isSpaceOrTab = t := by
        refine dropWhile_eq_self ?_
        rw [same.any_head rfl]
        exact any_head_dropWhile _ _
      obtain ⟨u, hu⟩ : ∃ u, (c :: r').takeWhile isSpaceOrTab ++ t = c :: u := by
        have again := same.behind whole
        generalize (c :: r').takeWhile isSpaceOrTab ++ t = w at again
        cases again with
        | ends ends => simp [ends c rfl] at blank
        | char => exact ⟨_, rfl⟩
      rw [List.cons_append, hu, nested?, if_pos blank, ← hu, List.dropWhile_append_of_pos run, left]
    · cases h
  · cases h

theorem readSpread_rest (h : readSpread line s = .ok cursor) : ∃ x, x ++ cursor.rest = s ∧
    ∀ t, SameLine cursor.rest t → readSpread line (x ++ t) = .ok ⟨cursor.line, t⟩ := by
  have ends {t : Text} (ends : Ends t) : readSpread line t = .ok ⟨line, t⟩ := by
    rcases ends.cases with rfl | ⟨r, rfl⟩ <;> rfl
  fun_induction readSpread line s with
  | case1 =>
    cases h
    exact ⟨[], rfl, fun t same => ends (same.ends_of_ends .nil)⟩
  | case2 r =>
    obtain ⟨x, rfl, later⟩ := readBalanced_rest h
    exact ⟨'(' :: x, rfl, fun t _ => later t⟩
  | case3 r =>
    cases h
    exact ⟨[], rfl, fun t same => ends (same.ends_of_ends (.newline _))⟩
  | case4 c r opening single ih =>
    obtain ⟨x, rfl, later⟩ := ih h
    refine ⟨c :: x, rfl, fun t same => ?_⟩
    rw [List.cons_append, readSpread, if_neg opening, if_neg single, later t same]

theorem readTail_shorthand {c : Char} {r : Text}
    (named : ((c = '.' || c = '#') && r.head?.any isNameChar) = true) :
    readTail line (c :: r) = readTail line (r.dropWhile isNameChar) := by
  rw [readTail, if_pos named]

theorem readTail_shorthand_append {c : Char} {r t : Text}
    (named : ((c = '.' || c = '#') && r.head?.any isNameChar) = true)
    (same : SameLine (r.dropWhile isNameChar) t) :
    readTail line (c :: (r.takeWhile isNameChar ++ t)) = readTail line t := by
  have again := (same.behind List.takeWhile_append_dropWhile).any_head isNameChar_newline
  have left : t.dropWhile isNameChar = t := by
    refine dropWhile_eq_self ?_
    rw [same.any_head isNameChar_newline]
    exact any_head_dropWhile _ _
  rw [readTail_shorthand (by rwa [again]),
    List.dropWhile_append_of_pos fun d hd => List.mem_takeWhile_imp hd, left]

theorem readTail_rest (h : readTail line s = .ok (read, cursor)) :
    ∃ x, x ++ cursor.rest = s ∧ ∀ t, SameLine cursor.rest t → ∃ read',
      readTail line (x ++ t) = .ok (read', ⟨cursor.line, t⟩) ∧
        read'.map Spot.token = read.map Spot.token := by
  have ends {line : Nat} {t : Text} (ends : Ends t) : readTail line t = .ok ([], ⟨line, t⟩) := by
    rcases ends.cases with rfl | ⟨r, rfl⟩
    · rw [readTail]
    · exact readTail_end _ (by simp) (by decide) (by simp)
  fun_induction readTail line s generalizing read with
  | case1 line =>
    cases h
    exact ⟨[], rfl, fun t same => ⟨[], ends (same.ends_of_ends .nil), rfl⟩⟩
  | case2 line c r named _ ih =>
    obtain ⟨x, whole, later⟩ := ih h
    have front : r.takeWhile isNameChar ++ (x ++ cursor.rest) = r := by
      rw [whole, List.takeWhile_append_dropWhile]
    refine ⟨c :: (r.takeWhile isNameChar ++ x), by simpa using front, fun t same => ?_⟩
    obtain ⟨read', ht, tokens⟩ := later t same
    refine ⟨read', ?_, tokens⟩
    rw [List.cons_append, List.append_assoc, readTail_shorthand_append named (same.behind whole), ht]
  | case3 => cases h
  | case4 line r spots mid hl _ _ ih =>
    obtain ⟨tail, hr, rfl⟩ := passing_eq_ok_iff.1 h
    obtain ⟨x, hx, list⟩ := readList_rest hl
    obtain ⟨y, hy, later⟩ := ih hr
    refine ⟨'(' :: (x ++ ')' :: y), by simp [hx, hy], fun t same => ?_⟩
    obtain ⟨spots', hl', tokens⟩ := list (y ++ t)
    obtain ⟨tail', ht', more⟩ := later t same
    refine ⟨spots' ++ tail', ?_, by rw [List.map_append, List.map_append, tokens, more]⟩
    rw [List.cons_append, List.append_assoc, List.cons_append, readTail_list_eq_ok_iff]
    exact ⟨spots', _, tail', hl', ht', rfl⟩
  | case5 => cases h
  | case6 line c r _ _ spreads mid hl _ ih =>
    obtain ⟨hc, attr⟩ := Bool.and_eq_true_iff.1 spreads
    rw [of_decide_eq_true hc]
    obtain ⟨x, hx, spread⟩ := readSpread_rest hl
    obtain ⟨y, hy, later⟩ := ih h
    refine ⟨'&' :: (x ++ y), by simp [hx, hy], fun t same => ?_⟩
    obtain ⟨read', ht', tokens⟩ := later t same
    have again := same.behind hy
    -- Whether a spread object begins depends on this line alone.
    have front := again.behind hx
    refine ⟨read', ?_, tokens⟩
    rw [List.cons_append, List.append_assoc, readTail_spread_eq_ok_iff
      (by rw [front.isPrefixOf_eq (by decide), attr])]
    exact ⟨_, spread _ again, ht'⟩
  | case7 line c r named list spread =>
    cases h
    refine ⟨[], rfl, fun t same => ⟨[], ?_, rfl⟩⟩
    cases same with
    | ends _ ends' => exact ends ends'
    | char _ same =>
      rw [← same.any_head isNameChar_newline] at named
      rw [← same.isPrefixOf_eq (by decide)] at spread
      exact readTail_end _ named list spread

theorem readTags_rest {opens : Bool} (h : readTags line s = .ok (read, opens, cursor)) :
    ∃ x, x ++ cursor.rest = s ∧ ∀ t, SameLine cursor.rest t → ∃ read',
      readTags line (x ++ t) = .ok (read', opens, ⟨cursor.line, t⟩) ∧
        read'.map Spot.token = read.map Spot.token := by
  fun_induction readTags line s generalizing read with
  | case1 line s tag =>
    cases h
    refine ⟨[], rfl, fun t same => ⟨[], ?_, rfl⟩⟩
    rw [List.nil_append, readTags, if_pos (by rwa [same.tagName_fst])]
  | case2 => cases h
  | case3 line s tag spots mid ht hn =>
    cases h
    obtain ⟨x, hx, front⟩ := tagName_rest s
    obtain ⟨y, hy, later⟩ := readTail_rest ht
    refine ⟨x ++ y, by rw [List.append_assoc, hy, hx], fun t same => ?_⟩
    obtain ⟨spots', ht', tokens⟩ := later t same
    have name := front _ (same.behind hy)
    refine ⟨tagSpot line (x ++ y ++ t) :: spots', ?_, ?_⟩
    · rw [readTags_eq_ok_iff (by rw [List.append_assoc, name]; simpa using tag), List.append_assoc,
        name]
      refine ⟨spots', _, ht', ?_⟩
      rw [same.nested?_eq_none hn]
      exact ⟨rfl, same.endsInDot, rfl⟩
    · rw [List.map_cons, List.map_cons, tokens, tagSpot, tagSpot, List.append_assoc, name]
  | case4 line s tag spots mid ht rest hn _ _ _ ih =>
    obtain ⟨tail, hr, rfl⟩ := passing_eq_ok_iff.1 h
    obtain ⟨x, hx, front⟩ := tagName_rest s
    obtain ⟨y, hy, first⟩ := readTail_rest ht
    obtain ⟨z, hz, nests⟩ := nested?_rest hn
    obtain ⟨w, hw, later⟩ := ih hr
    refine ⟨x ++ (y ++ (z ++ w)), by simp [hx, hy, hz, hw], fun t same => ?_⟩
    -- Each reader sees the same line, from the last that reads to the first.
    have inner := same.behind hw
    have middle := inner.behind hz
    have outer := middle.behind hy
    obtain ⟨tail', hr', more⟩ := later t same
    obtain ⟨spots', ht', tokens⟩ := first _ middle
    have name := front _ outer
    refine ⟨tagSpot line (x ++ (y ++ (z ++ w)) ++ t) :: spots' ++ tail', ?_, ?_⟩
    · simp only [List.append_assoc] at name ⊢
      rw [readTags_eq_ok_iff (by rw [name]; simpa using tag), name]
      refine ⟨spots', _, ht', ?_⟩
      rw [nests _ inner]
      exact ⟨tail', hr', rfl⟩
    · simp only [List.append_assoc] at name ⊢
      simp [tokens, more, tagSpot, name]

section

variable {block : Option Nat} (content : isPassedOver block s = false)
  (pure : isMixed (margin s) = false)
include content pure

theorem readLine_sign (line : Nat) (kind : LineKind.of (body s) = .rawText) :
    readLine block line s = .ok ([], some (margin s).length, ⟨line, s⟩) := by
  rw [readLine_eq, content, pure, kind]
  rfl

theorem readLine_plain (line : Nat) (kind : LineKind.of (body s) = .plain) :
    readLine block line s = .ok ([], none, ⟨line, s⟩) := by
  rw [readLine_eq, content, pure, kind]
  rfl

theorem readLine_tags {opens : Bool} (kind : LineKind.of (body s) = .tag)
    (h : readTags line (inward s) = .ok (read, opens, cursor)) : readLine block line s =
      .ok (read, if opens then some (margin s).length else none, cursor) := by
  rw [readLine_eq, content, pure, kind]
  simp only [Bool.false_eq_true, if_false, h]

end

theorem readLine_rest {block next : Option Nat}
    (h : readLine block line s = .ok (read, next, cursor)) :
    ∃ x, x ++ cursor.rest = s ∧ ∀ t, SameLine cursor.rest t → ∃ read',
      readLine block line (x ++ t) = .ok (read', next, ⟨cursor.line, t⟩) ∧
        read'.map Spot.token = read.map Spot.token := by
  have front {t : Text} (same : SameLine s t) :
      margin t = margin s ∧ body t = body s ∧ isPassedOver block t = isPassedOver block s := by
    obtain ⟨margins, inner⟩ := same.dropWhile (p := isMarginal) rfl
    have bodies : body t = body s := (inner.dropWhile (p := (· ≠ '\n')) rfl).1
    refine ⟨margins, bodies, ?_⟩
    rw [isPassedOver, bodies, show margin t = margin s from margins]
    rfl
  rw [readLine_eq] at h
  split at h
  · rename_i passed
    cases h
    refine ⟨[], rfl, fun t same => ⟨[], ?_, rfl⟩⟩
    rw [List.nil_append, readLine_eq, if_pos (by rwa [(front same).2.2])]
  · rename_i content
    split at h
    · cases h
    · rename_i pure
      have front {t : Text} (same : SameLine s t) : margin t = margin s ∧ body t = body s ∧
          isPassedOver block t = false ∧ isMixed (margin t) = false := by
        obtain ⟨margins, bodies, skips⟩ := front same
        rw [margins, skips]
        exact ⟨rfl, bodies, Bool.not_eq_true _ ▸ content, Bool.not_eq_true _ ▸ pure⟩
      split at h
      · rename_i kind
        cases h
        refine ⟨[], rfl, fun t same => ⟨[], ?_, rfl⟩⟩
        obtain ⟨margins, bodies, content, pure⟩ := front same
        rw [List.nil_append, readLine_sign content pure line (bodies ▸ kind), margins]
      · rename_i kind
        cases h
        refine ⟨[], rfl, fun t same => ⟨[], ?_, rfl⟩⟩
        obtain ⟨-, bodies, content, pure⟩ := front same
        exact readLine_plain content pure line (bodies ▸ kind)
      · rename_i kind
        split at h
        · cases h
        · rename_i spots opens mid ht
          cases h
          obtain ⟨x, whole, later⟩ := readTags_rest ht
          have whole : margin s ++ x ++ cursor.rest = s := by
            rw [List.append_assoc, whole, margin_append_inward]
          refine ⟨margin s ++ x, whole, fun t same => ?_⟩
          obtain ⟨read', ht', tokens⟩ := later t same
          obtain ⟨margins, bodies, content, pure⟩ := front (same.behind whole)
          have inner : inward (margin s ++ x ++ t) = x ++ t := by
            have split := margin_append_inward (margin s ++ x ++ t)
            rw [margins] at split
            exact List.append_cancel_left (split.trans (List.append_assoc _ _ _))
          refine ⟨read', ?_, tokens⟩
          rw [readLine_tags content pure (bodies ▸ kind) (inner ▸ ht'), margins]

end

end PugWeave.Markup.Lexer
