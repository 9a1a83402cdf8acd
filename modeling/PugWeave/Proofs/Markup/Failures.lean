import PugWeave.Proofs.Markup.Lookahead
import PugWeave.Proofs.Markup.Positions

namespace PugWeave.Markup.Lexer

open Text

def Fatal (e : LexError) : Prop := e.fault ≠ .unclosedList

theorem readAttr_name {opened line : Nat} (c : Char) (r : Text) :
    readAttr opened line c r = (readName line c r).bind fun (name, rest) =>
      match assigned? rest with
      | none => .ok (⟨.attr name none line, (c :: r).length⟩, ⟨line, rest⟩)
      | some s =>
        (readValue opened 0 '=' (line + breaks (indentation s)) (trimStart s)).map
          fun (read, cursor) => (⟨.attr name (some (trim read)) line, (trimStart s).length⟩, cursor) := by
  rw [readAttr]
  cases readName line c r with
  | error => rfl
  | ok p =>
    dsimp only [Except.bind]
    cases assigned? p.2 with
    | none => rfl
    | some s =>
      dsimp only
      cases readValue opened 0 '=' (line + breaks (indentation s)) (trimStart s) <;> rfl

section

variable {s s' t : Text}

theorem SameLine.extend (ends : Ends t) (s : Text) : SameLine s (s ++ t) := by
  simpa using (SameLine.ends .nil ends).append s

theorem SameLine.cut (s y : Text) : SameLine (s ++ '\n' :: y) s := by
  simpa using (SameLine.ends (.newline y) .nil).append s

theorem SameLine.assigned?_eq_none (h : SameLine s s') (bare : assigned? s = none) :
    assigned? s' = none := by
  obtain ⟨-, h⟩ := h.dropWhile (p := isSpaceOrTab) rfl
  rw [assigned?] at bare ⊢
  generalize s.dropWhile isSpaceOrTab = u, s'.dropWhile isSpaceOrTab = u' at h bare
  cases h with
  | ends _ ends' => rcases ends'.cases with rfl | ⟨r, rfl⟩ <;> rfl
  | @char c r r' _ h =>
    by_cases equals : c = '='
    · subst equals
      cases bare
    · by_cases bang : c = '!'
      · subst bang
        cases h with
        | ends _ ends' => rcases ends'.cases with rfl | ⟨w, rfl⟩ <;> rfl
        | @char d r r' _ h =>
          by_cases sign : d = '='
          · subst sign
            cases bare
          · simp [sign]
      · simp [equals, bang]

end

section

variable {opened line : Nat} {s t : Text} {e : LexError}

theorem single_of_fatal (fatal : Fatal e) {quote : Char} {start : Nat}
    (h : readString quote start [] = .error e) :
    quote ≠ backtick ∧ e = ⟨start, .unterminatedString⟩ := by
  cases h
  by_cases template : quote = backtick
  · rw [if_pos template] at fatal
    exact absurd rfl fatal
  · exact ⟨template, by rw [if_neg template]⟩

theorem ne_nil_of_readValue (fatal : Fatal e) {depth : Nat} {last : Char}
    (h : readValue opened depth last line s = .error e) : s ≠ [] := by
  rintro rfl
  rw [readValue] at h
  cases h
  exact fatal rfl

theorem readList_blanks (opened line : Nat) (blank : isBlankLine s = true) :
    readList opened line s = .error ⟨opened, .unclosedList⟩ := by
  induction s generalizing line with
  | nil =>
    rw [readList.eq_def]
  | cons c r ih =>
    rw [isBlankLine, List.all_cons, Bool.and_eq_true] at blank
    rw [readList_blank _ _ (by simp [blank.1]), ih _ blank.2]

theorem trimStart_ne_nil_of_readList (fatal : Fatal e) (h : readList opened line s = .error e) :
    trimStart s ≠ [] := by
  intro empty
  rw [readList_blanks _ _ (trimStart_eq_nil_iff.1 empty)] at h
  cases h
  exact fatal rfl

theorem ne_nil_of_trimStart (full : trimStart s ≠ []) : s ≠ [] := by
  rintro rfl
  exact full rfl

theorem trimStart_append_of_ne_nil (full : trimStart s ≠ []) (t : Text) :
    trimStart (s ++ t) = trimStart s ++ t ∧ indentation (s ++ t) = indentation s := by
  have same : (trimStart s ++ t).head? = (trimStart s).head? := List.head?_append_of_ne_nil _ full
  have split := trimStart_run (b := indentation s) (t := trimStart s ++ t)
    (fun d hd => List.mem_takeWhile_imp hd) (by rw [same]; exact head?_trimStart s)
  rwa [← List.append_assoc, indentation_append_trimStart] at split

variable (fatal : Fatal e) (ends : Ends t)
include fatal ends

theorem readString_fatal {quote : Char} (hq : isQuote quote = true) {start : Nat}
    (h : readString quote start s = .error e) : readString quote start (s ++ t) = .error e := by
  have line : '\n' ≠ quote := by
    rintro rfl
    cases hq
  fun_induction readString quote start s with
  | case1 =>
    obtain ⟨single, rfl⟩ := single_of_fatal fatal h
    rcases ends.cases with rfl | ⟨r, rfl⟩
    · exact h
    · rw [List.nil_append, readString_char _ _ (by decide), if_neg line,
        if_pos (by simpa using single)]
  | case2 c r single =>
    cases h
    rw [List.cons_append, List.cons_append, readString_escape, if_pos single]
  | case3 c r inline ih =>
    rw [List.cons_append, List.cons_append, readString_escape, if_neg inline,
      ih (passing_eq_error_iff.1 h)]
    rfl
  | case4 => cases h
  | case5 c r escape other single =>
    cases h
    have plain : c ≠ '\\' := by
      rintro rfl
      simp at single
    rw [List.cons_append, readString_char _ _ plain, if_neg other, if_pos single]
  | case6 c r escape other inline ih =>
    by_cases slash : c = '\\'
    · -- A backslash hides the end of its line, and the string stays open all the same.
      subst slash
      obtain rfl : r = [] := by
        cases r with
        | nil => rfl
        | cons d r => exact (escape d r rfl rfl).elim
      obtain ⟨single, rfl⟩ := single_of_fatal fatal (passing_eq_error_iff.1 h)
      rcases ends.cases with rfl | ⟨r, rfl⟩
      · rw [List.append_nil, readString, if_neg other, if_neg inline, h]
        exact escape
      · rw [List.singleton_append, readString_escape, if_pos (by simpa using single)]
    · rw [List.cons_append, readString_char _ _ slash, if_neg other, if_neg inline,
        ih (passing_eq_error_iff.1 h)]
      rfl

theorem readValue_fatal {depth : Nat} {last : Char}
    (h : readValue opened depth last line s = .error e) :
    readValue opened depth last line (s ++ t) = .error e := by
  fun_induction readValue opened depth last line s with
  | case1 =>
    cases h
    exact absurd rfl fatal
  | case2 _ _ line c r quote e' hs =>
    cases h
    rw [List.cons_append, readValue_quote quote, readString_fatal fatal ends quote hs]
    rfl
  | case3 _ _ line c r quote body rest hs _ ih =>
    rw [passing_eq_error_iff] at h
    rw [List.cons_append, readValue_quote quote, ← append_of_readString hs, List.append_assoc,
      readString_rest quote hs]
    exact passing_eq_error_iff.2 (ih h)
  | case4 _ _ _ _ _ quote opening ih =>
    rw [passing_eq_error_iff] at h
    rw [List.cons_append, readValue, if_neg quote, if_pos opening, passing_eq_error_iff, ih h]
  | case5 _ _ _ _ _ quote opening closing ih =>
    rw [passing_eq_error_iff] at h
    rw [List.cons_append, readValue, if_neg quote, if_neg opening, if_pos closing,
      passing_eq_error_iff, ih h]
  | case7 _ _ _ _ _ quote opening closing ends full ih =>
    rw [passing_eq_error_iff] at h
    rw [List.cons_append, readValue, if_neg quote, if_neg opening, if_neg closing, if_neg ends,
      if_pos full, passing_eq_error_iff, ih h]
  | case8 depth last line c r _ _ _ _ blank inner ih =>
    rw [passing_eq_error_iff] at h
    rw [List.cons_append, readValue_blank _ inner _ _ (by simpa using blank), passing_eq_error_iff,
      ih h]
  | case9 depth last line c r _ _ _ _ blank outer goes _ ih =>
    rw [passing_eq_error_iff] at h
    obtain rfl : depth = 0 := by omega
    have same : (trimStart r ++ t).head? = (trimStart r).head? :=
      List.head?_append_of_ne_nil _ (ne_nil_of_readValue fatal h)
    have whole : c :: r ++ t = c :: (indentation r ++ (trimStart r ++ t)) := by
      rw [← List.append_assoc, indentation_append_trimStart, List.cons_append]
    rw [whole, readValue_onward (by simpa using blank) goes same, passing_eq_error_iff, ih h]
  | _ => cases h

theorem readName_fatal {c : Char} {r : Text} (h : readName line c r = .error e) :
    readName line c (r ++ t) = .error e := by
  rw [readName] at h ⊢
  split at h
  · rename_i quoted
    have quote : isQuote c = true := by
      rw [isQuote, Bool.or_eq_true]
      exact .inl quoted
    rw [if_pos quoted]
    cases hs : readString c line r with
    | error e' =>
      obtain rfl : e' = e := by simpa [hs, Except.map] using h
      rw [readString_fatal fatal ends quote hs]
      rfl
    | ok p => simp [hs, Except.map] at h
  · rename_i quoted
    split at h
    · cases h
    · rename_i plain
      rw [if_neg quoted, if_neg plain, h]

theorem readAttr_fatal {c : Char} {r : Text} (h : readAttr opened line c r = .error e) :
    readAttr opened line c (r ++ t) = .error e := by
  rw [readAttr] at h
  split at h
  · rename_i hn
    cases h
    rw [readAttr, readName_fatal fatal ends hn]
  · rename_i name rest hn
    obtain ⟨x, rfl, hname⟩ := readName_rest hn
    split at h
    · cases h
    · rename_i u ha
      obtain ⟨y, rfl, full, hassigned⟩ := assigned?_rest ha
      split at h
      · rename_i hv
        cases h
        obtain ⟨start, front⟩ := trimStart_append_of_ne_nil (ne_nil_of_readValue fatal hv) t
        rw [List.append_assoc, List.append_assoc, readAttr, hname line _ (by
          rw [List.head?_append_of_ne_nil _ full, List.head?_append_of_ne_nil _ full])]
        simp only [hassigned]
        rw [start, front, readValue_fatal fatal ends hv]
      · cases h

theorem readList_fatal (h : readList opened line s = .error e) :
    readList opened line (s ++ t) = .error e := by
  fun_induction readList opened line s with
  | case1 =>
    cases h
    exact absurd rfl fatal
  | case2 _ _ _ separates ih => rw [List.cons_append, readList_blank _ _ separates, ih h]
  | case3 => cases h
  | case4 _ _ _ separates closes _ ha =>
    cases h
    rw [List.cons_append, readList_attr separates closes, readAttr_fatal fatal ends ha]
    rfl
  | case5 line c r separates closes spot mid ha _ ih =>
    rw [passing_eq_error_iff] at h
    have inner : trimStart mid.rest ≠ [] := trimStart_ne_nil_of_readList fatal h
    obtain ⟨x, rfl, later⟩ := readAttr_rest ha
    obtain ⟨spot', ha', -⟩ := later (mid.rest ++ t)
      (List.head?_append_of_ne_nil _ (ne_nil_of_trimStart inner))
      (by rw [(trimStart_append_of_ne_nil inner t).1, List.head?_append_of_ne_nil _ inner])
      (SameLine.extend ends mid.rest).assigned?_eq_none
    rw [List.cons_append, List.append_assoc, readList_attr separates closes, ha']
    exact passing_eq_error_iff.2 (ih h)

theorem readBalanced_fatal {depth : Nat} (h : readBalanced opened depth line s = .error e) :
    readBalanced opened depth line (s ++ t) = .error e := by
  fun_induction readBalanced opened depth line s with
  | case1 =>
    cases h
    exact absurd rfl fatal
  | case2 _ _ _ _ quote _ hs =>
    cases h
    rw [List.cons_append, readBalanced_quote quote, readString_fatal fatal ends quote hs]
    rfl
  | case3 _ _ c r quote body rest hs _ ih =>
    rw [List.cons_append, readBalanced_quote quote, ← append_of_readString hs, List.append_assoc,
      readString_rest quote hs]
    exact ih h
  | case4 _ _ _ _ ih => rw [List.cons_append, readBalanced_opening, ih h]
  | case5 => cases h
  | case6 =>
    rename_i ih
    rw [List.cons_append, readBalanced_closing]
    exact ih h
  | case7 _ _ c r quote opening closing ih =>
    rw [List.cons_append, readBalanced_char (by simpa using quote) opening closing, ih h]

theorem readSpread_fatal (h : readSpread line s = .error e) :
    readSpread line (s ++ t) = .error e := by
  fun_induction readSpread line s with
  | case2 =>
    rw [List.cons_append, readSpread, if_pos rfl, readBalanced_fatal fatal ends h]
  | case4 c r opening single ih =>
    rw [List.cons_append, readSpread, if_neg opening, if_neg single, ih h]
  | _ => cases h

theorem readTail_fatal (h : readTail line s = .error e) : readTail line (s ++ t) = .error e := by
  fun_induction readTail line s with
  | case1 | case7 => cases h
  | case2 line c r named _ ih =>
    have whole : c :: r ++ t = c :: (r.takeWhile isNameChar ++ (r.dropWhile isNameChar ++ t)) := by
      rw [← List.append_assoc, List.takeWhile_append_dropWhile, List.cons_append]
    rw [whole, readTail_shorthand_append named (.extend ends _), ih h]
  | case3 _ _ _ hl =>
    cases h
    rw [List.cons_append, readTail_list, readList_fatal fatal ends hl]
    rfl
  | case4 line r spots mid hl _ _ ih =>
    rw [passing_eq_error_iff] at h
    obtain ⟨x, rfl, list⟩ := readList_rest hl
    obtain ⟨spots', hl', -⟩ := list (mid.rest ++ t)
    rw [List.cons_append, List.append_assoc, List.cons_append, readTail_list, hl']
    exact passing_eq_error_iff.2 (ih h)
  | case5 line c r _ _ spreads _ hl =>
    cases h
    obtain ⟨hc, attr⟩ := Bool.and_eq_true_iff.1 spreads
    rw [of_decide_eq_true hc, List.cons_append, readTail_spread
      (by rw [(SameLine.extend ends r).isPrefixOf_eq (by decide), attr]),
      readSpread_fatal fatal ends hl]
    rfl
  | case6 line c r _ _ spreads mid hl _ ih =>
    obtain ⟨hc, attr⟩ := Bool.and_eq_true_iff.1 spreads
    obtain ⟨x, rfl, spread⟩ := readSpread_rest hl
    rw [of_decide_eq_true hc, List.cons_append, readTail_spread
      (by rw [(SameLine.extend ends _).isPrefixOf_eq (by decide), attr]), List.append_assoc,
      spread _ (.extend ends _)]
    exact ih h

theorem readTags_fatal (h : readTags line s = .error e) : readTags line (s ++ t) = .error e := by
  fun_induction readTags line s with
  | case1 | case3 => cases h
  | case2 line s tag _ ht =>
    cases h
    obtain ⟨x, hx, front⟩ := tagName_rest s
    have name := front _ (.extend ends _)
    rw [← hx, List.append_assoc, readTags_tag (by rw [name]; simpa using tag), name,
      readTail_fatal fatal ends ht]
    rfl
  | case4 line s tag spots mid ht rest hn _ _ _ ih =>
    rw [passing_eq_error_iff] at h
    obtain ⟨x, hx, front⟩ := tagName_rest s
    obtain ⟨y, hy, later⟩ := readTail_rest ht
    obtain ⟨z, hz, nests⟩ := nested?_rest hn
    have name := front _ (.extend ends _)
    obtain ⟨spots', ht', -⟩ := later _ (.extend ends _)
    rw [← hx, List.append_assoc, readTags_tag (by rw [name]; simpa using tag), name, ← hy,
      List.append_assoc, ht']
    dsimp only [Except.bind]
    rw [← hz, List.append_assoc, nests _ (.extend ends _)]
    exact passing_eq_error_iff.2 (ih h)

end

end PugWeave.Markup.Lexer
