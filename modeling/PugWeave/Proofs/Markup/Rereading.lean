import PugWeave.Proofs.Markup.Respacing

namespace PugWeave.Markup

namespace Lexer

open Text

section

variable {K : Text → Text → Prop}

structure Matches (K : Text → Text → Prop) (read read' : List Spot) (cursor cursor' : Cursor) :
    Prop where
  outlines : read'.map (·.token.outline) = read.map (·.token.outline)
  line : cursor'.line = cursor.line
  rest : Respaced K cursor.rest cursor'.rest

namespace Matches

variable {read read' more more' : List Spot} {mid mid' cursor cursor' : Cursor}

theorem append (h : Matches K read read' mid mid') (later : Matches K more more' cursor cursor') :
    Matches K (read ++ more) (read' ++ more') cursor cursor' :=
  ⟨by rw [List.map_append, List.map_append, h.outlines, later.outlines], later.line, later.rest⟩

end Matches

theorem Respaced.readAttr {opened line : Nat} {c : Char} {r r' : Text} {spot : Spot}
    {cursor : Cursor} (h : Respaced K r r')
    (hs : readAttr opened line c r = .ok (spot, cursor)) :
    ∃ spot' cursor', readAttr opened line c r' = .ok (spot', cursor') ∧
      Matches K [spot] [spot'] cursor cursor' := by
  rw [Lexer.readAttr] at hs ⊢
  cases hname : Lexer.readName line c r with
  | error e => simp [hname] at hs
  | ok p =>
    obtain ⟨name, rest⟩ := p
    obtain ⟨rest', hname', rests⟩ := h.readName hname
    have assigned := rests.assigned?
    simp only [hname, hname'] at hs ⊢
    generalize Lexer.assigned? rest = a, Lexer.assigned? rest' = a' at assigned hs
    cases assigned with
    | none =>
      cases hs
      exact ⟨_, _, rfl, rfl, rfl, rests⟩
    | some values =>
      dsimp only at hs ⊢
      split at hs
      · cases hs
      · rename_i hv
        cases hs
        obtain ⟨x', cursor', hv', same, after⟩ := values.trimStart.readValue hv
        rw [values.breaks_indentation, hv']
        exact ⟨_, _, rfl, rfl, same, after⟩

theorem readList_blank (opened line : Nat) {c : Char} (h : (isBlank c || c = ',') = true)
    (r : Text) : readList opened line (c :: r) = readList opened (line + breaks [c]) r := by
  rw [readList.eq_def]
  simp only [h, if_true]

theorem readList_close (opened line : Nat) (r : Text) :
    readList opened line (')' :: r) = .ok ([], ⟨line, r⟩) := by
  rw [readList.eq_def]
  rfl

theorem readList_margin (opened line : Nat) (s : Text) :
    readList opened line s = readList opened line (inward s) := by
  refine eq_of_margin (p := fun _ scan => scan) (fun _ => rfl) (fun _ _ _ => rfl)
    (fun c r blank stays => ?_) s
  rw [readList_blank _ _ (by simp [blank]), breaks_of_ne stays, Nat.add_zero]

theorem readList_attr {opened line : Nat} {c : Char} (other : ¬(isBlank c || c = ',') = true) (opens : c ≠ ')')
    (r : Text) : readList opened line (c :: r) = (readAttr opened line c r).bind
      fun (spot, mid) => passing [spot] (readList opened mid.line mid.rest) := by
  rw [readList.eq_def]
  simp only [other, opens, Bool.false_eq_true, if_false]
  split <;> rename_i ha <;> simp [ha, Except.bind]

theorem readList_attr_eq_ok_iff {opened line : Nat} {c : Char} {r : Text} {read : List Spot}
    {cursor : Cursor} (other : ¬(isBlank c || c = ',') = true) (opens : c ≠ ')') :
    readList opened line (c :: r) = .ok (read, cursor) ↔
      ∃ spot mid tail, readAttr opened line c r = .ok (spot, mid) ∧
        readList opened mid.line mid.rest = .ok (tail, cursor) ∧ spot :: tail = read := by
  rw [readList_attr other opens, bind_eq_ok_iff, Prod.exists]
  simp [passing_eq_ok_iff]

theorem Respaced.readList {opened line : Nat} {s s' : Text}
    {read : List Spot} {cursor : Cursor} (h : Respaced K s s')
    (hs : readList opened line s = .ok (read, cursor)) :
    ∃ read' cursor', readList opened line s' = .ok (read', cursor') ∧
      Matches K read read' cursor cursor' := by
  induction hn : s.length using Nat.strongRecOn generalizing line s s' read with
  | ind n ih =>
    subst hn
    cases h with
    | nil =>
      rw [Lexer.readList.eq_def] at hs
      cases hs
    | newline _ hr =>
      rw [readList_blank _ _ (by decide), readList_margin] at hs ⊢
      exact ih _ (Nat.lt_succ_of_le (length_inward_le _)) hr hs rfl
    | @char c r r' other hr =>
      by_cases blank : (isBlank c || c = ',') = true
      · rw [readList_blank _ _ blank] at hs ⊢
        exact ih _ (by simp) hr hs rfl
      · by_cases ends : c = ')'
        · subst ends
          rw [readList_close] at hs ⊢
          cases hs
          exact ⟨[], _, rfl, rfl, rfl, hr⟩
        · obtain ⟨spot, mid, tail, ha, htail, rfl⟩ := (readList_attr_eq_ok_iff blank ends).1 hs
          obtain ⟨spot', mid', ha', first⟩ := hr.readAttr ha
          have less : mid.rest.length < (c :: r).length :=
            Nat.lt_succ_of_le (suffix_of_readAttr ha).length_le
          obtain ⟨tail', cursor', htail', later⟩ := ih _ less first.rest htail rfl
          refine ⟨spot' :: tail', cursor', ?_, first.append later⟩
          rw [readList_attr_eq_ok_iff blank ends]
          exact ⟨spot', mid', tail', ha', by rw [first.line]; exact htail', rfl⟩

theorem readBalanced_quote {opened depth line : Nat} {c : Char} (hq : isQuote c = true) (r : Text) :
    readBalanced opened depth line (c :: r) = (readString c line r).bind
      fun (body, rest) => readBalanced opened depth (line + breaks body) rest := by
  rw [readBalanced.eq_def]
  simp only [hq, if_true]
  split <;> rename_i hs <;> simp [hs, Except.bind]

theorem readBalanced_quote_eq_ok_iff {opened depth line : Nat} {c : Char} (hq : isQuote c = true)
    {r : Text} {cursor : Cursor} : readBalanced opened depth line (c :: r) = .ok cursor ↔
      ∃ x rest, readString c line r = .ok (x, rest) ∧
        readBalanced opened depth (line + breaks x) rest = .ok cursor := by
  rw [readBalanced_quote hq, bind_eq_ok_iff, Prod.exists]

theorem readBalanced_char {opened depth line : Nat} {c : Char} (hq : isQuote c = false)
    (opening : c ≠ '(') (closing : c ≠ ')') (r : Text) : readBalanced opened depth line (c :: r) =
      readBalanced opened depth (line + breaks [c]) r := by
  rw [readBalanced.eq_def]
  simp [hq, opening, closing]

theorem readBalanced_opening (opened depth line : Nat) (r : Text) :
    readBalanced opened depth line ('(' :: r) = readBalanced opened (depth + 1) line r := by
  rw [readBalanced.eq_def]
  rfl

theorem readBalanced_closing (opened depth line : Nat) (r : Text) :
    readBalanced opened depth line (')' :: r) =
      match depth with
      | 0 => .ok ⟨line, r⟩
      | depth + 1 => readBalanced opened depth line r := by
  rw [readBalanced.eq_def]
  rfl

theorem readBalanced_margin (opened depth line : Nat) (s : Text) :
    readBalanced opened depth line s = readBalanced opened depth line (inward s) := by
  refine eq_of_margin (p := fun _ scan => scan) (fun _ => rfl) (fun _ _ _ => rfl)
    (fun c r blank stays => ?_) s
  have opening : c ≠ '(' := by
    rintro rfl
    cases blank
  have closing : c ≠ ')' := by
    rintro rfl
    cases blank
  rw [readBalanced_char (isQuote_of_isBlank blank) opening closing, breaks_of_ne stays,
    Nat.add_zero]

theorem Respaced.readBalanced {opened depth line : Nat} {s s' : Text}
    {cursor : Cursor} (h : Respaced K s s') (hs : readBalanced opened depth line s = .ok cursor) :
    ∃ cursor', readBalanced opened depth line s' = .ok cursor' ∧ cursor'.line = cursor.line ∧
      Respaced K cursor.rest cursor'.rest := by
  induction hn : s.length using Nat.strongRecOn generalizing depth line s s' with
  | ind n ih =>
    subst hn
    cases h with
    | nil => simp [Lexer.readBalanced] at hs
    | newline _ hr =>
      rw [readBalanced_char rfl (by decide) (by decide), readBalanced_margin] at hs ⊢
      exact ih _ (Nat.lt_succ_of_le (length_inward_le _)) hr hs rfl
    | @char c r r' other hr =>
      cases hq : isQuote c with
      | true =>
        obtain ⟨x, rest, hx, hs⟩ := (readBalanced_quote_eq_ok_iff hq).1 hs
        obtain ⟨x', rest', hx', rests, -⟩ := hr.readString hq hx
        have count := hr.breaks_front rests (append_of_readString hx) (append_of_readString hx')
        have shorter : rest.length ≤ r.length := by simp [← append_of_readString hx]
        obtain ⟨cursor', hs', after⟩ := ih _ (Nat.lt_succ_of_le shorter) rests hs rfl
        rw [← count] at hs'
        exact ⟨cursor', (readBalanced_quote_eq_ok_iff hq).2 ⟨x', rest', hx', hs'⟩, after⟩
      | false =>
        by_cases opening : c = '('
        · subst opening
          rw [readBalanced_opening] at hs ⊢
          exact ih _ (by simp) hr hs rfl
        · by_cases closing : c = ')'
          · subst closing
            rw [readBalanced_closing] at hs ⊢
            cases depth with
            | zero =>
              cases hs
              exact ⟨_, rfl, rfl, hr⟩
            | succ depth => exact ih _ (by simp) hr hs rfl
          · rw [readBalanced_char hq opening closing] at hs ⊢
            exact ih _ (by simp) hr hs rfl

theorem Respaced.readSpread {line : Nat} {s s' : Text} {cursor : Cursor}
    (h : Respaced K s s') (hs : readSpread line s = .ok cursor) :
    ∃ cursor', readSpread line s' = .ok cursor' ∧ cursor'.line = cursor.line ∧
      Respaced K cursor.rest cursor'.rest := by
  induction h with
  | nil =>
    cases hs
    exact ⟨_, rfl, rfl, .nil⟩
  | newline line hr =>
    cases hs
    exact ⟨_, rfl, rfl, .newline line hr⟩
  | @char c r r' other hr ih =>
    rw [Lexer.readSpread] at hs ⊢
    split at hs
    · rename_i opening
      rw [if_pos opening]
      exact hr.readBalanced hs
    · rename_i opening
      rw [if_neg opening, if_neg other]
      exact ih hs

theorem isNameChar_newline : isNameChar '\n' = false := by decide +kernel

theorem readTail_list {line : Nat} (r : Text) : readTail line ('(' :: r) = (readList line line r).bind
    fun (spots, mid) => passing spots (readTail mid.line mid.rest) := by
  rw [readTail, if_neg (by simp), if_pos rfl]
  split <;> rename_i hl <;> simp [hl, Except.bind]

theorem readTail_list_eq_ok_iff {line : Nat} {r : Text} {read : List Spot} {cursor : Cursor} :
    readTail line ('(' :: r) = .ok (read, cursor) ↔
      ∃ spots mid tail, readList line line r = .ok (spots, mid) ∧
        readTail mid.line mid.rest = .ok (tail, cursor) ∧ spots ++ tail = read := by
  rw [readTail_list, bind_eq_ok_iff, Prod.exists]
  simp [passing_eq_ok_iff]

theorem readTail_spread {line : Nat} {r : Text} (attr : "attr".toList.isPrefixOf r = true) :
    readTail line ('&' :: r) = (readSpread line r).bind fun mid => readTail mid.line mid.rest := by
  rw [readTail, if_neg (by simp), if_neg (by decide), if_pos (by rw [attr]; rfl)]
  split <;> rename_i hl <;> simp [hl, Except.bind]

theorem readTail_spread_eq_ok_iff {line : Nat} {r : Text} {read : List Spot} {cursor : Cursor}
    (attr : "attr".toList.isPrefixOf r = true) : readTail line ('&' :: r) = .ok (read, cursor) ↔
      ∃ mid, readSpread line r = .ok mid ∧ readTail mid.line mid.rest = .ok (read, cursor) := by
  rw [readTail_spread attr, bind_eq_ok_iff]

theorem readTail_end (line : Nat) {c : Char} {r : Text}
    (named : ¬((c = '.' || c = '#') && r.head?.any isNameChar) = true) (list : c ≠ '(')
    (spread : ¬(c = '&' && "attr".toList.isPrefixOf r) = true) :
    readTail line (c :: r) = .ok ([], ⟨line, c :: r⟩) := by
  rw [readTail, if_neg named, if_neg list, if_neg spread]

theorem Respaced.readTail {line : Nat} {s s' : Text} {read : List Spot}
    {cursor : Cursor} (h : Respaced K s s') (hs : readTail line s = .ok (read, cursor)) :
    ∃ read' cursor', readTail line s' = .ok (read', cursor') ∧
      Matches K read read' cursor cursor' := by
  induction hn : s.length using Nat.strongRecOn generalizing line s s' read with
  | ind n ih =>
    subst hn
    cases h with
    | nil =>
      rw [Lexer.readTail] at hs ⊢
      cases hs
      exact ⟨_, _, rfl, rfl, rfl, .nil⟩
    | newline margins hr =>
      rw [readTail_end _ (by simp) (by decide) (by simp)] at hs ⊢
      cases hs
      exact ⟨_, _, rfl, rfl, rfl, .newline margins hr⟩
    | @char c r r' other hr =>
      by_cases named : ((c = '.' || c = '#') && r.head?.any isNameChar) = true
      · have named' : ((c = '.' || c = '#') && r'.head?.any isNameChar) = true := by
          rwa [hr.head?_eq]
        rw [Lexer.readTail, if_pos named] at hs
        rw [Lexer.readTail, if_pos named']
        have shorter := (List.dropWhile_sublist isNameChar (l := r)).length_le
        exact ih _ (Nat.lt_succ_of_le shorter) (hr.dropWhile isNameChar_newline).2 hs rfl
      · by_cases list : c = '('
        · subst list
          obtain ⟨spots, mid, tail, hl, ht, rfl⟩ := readTail_list_eq_ok_iff.1 hs
          obtain ⟨spots', mid', hl', first⟩ := hr.readList hl
          have less := Nat.lt_succ_of_le (suffix_of_readList hl).length_le
          obtain ⟨tail', cursor', ht', later⟩ := ih _ less first.rest ht rfl
          rw [← first.line] at ht'
          exact ⟨_, cursor', readTail_list_eq_ok_iff.2 ⟨spots', mid', tail', hl', ht', rfl⟩,
            first.append later⟩
        · by_cases spread : (c = '&' && "attr".toList.isPrefixOf r) = true
          · obtain ⟨hc, attr⟩ := Bool.and_eq_true_iff.1 spread
            obtain rfl := of_decide_eq_true hc
            have attr' : "attr".toList.isPrefixOf r' = true := by
              rwa [hr.isPrefixOf_eq (by decide)]
            obtain ⟨mid, hl, ht⟩ := (readTail_spread_eq_ok_iff attr).1 hs
            obtain ⟨mid', hl', same, rest⟩ := hr.readSpread hl
            have less := Nat.lt_succ_of_le (suffix_of_readSpread hl).length_le
            obtain ⟨read', cursor', ht', later⟩ := ih _ less rest ht rfl
            rw [← same] at ht'
            exact ⟨read', cursor', (readTail_spread_eq_ok_iff attr').2 ⟨mid', hl', ht'⟩, later⟩
          · rw [readTail_end _ named list spread] at hs
            cases hs
            rw [← hr.head?_eq] at named
            rw [← hr.isPrefixOf_eq (by decide)] at spread
            exact ⟨_, _, readTail_end _ named list spread, rfl, rfl, .char other hr⟩

theorem Respaced.tagName {s s' : Text} (h : Respaced K s s') :
    (tagName s').1 = (tagName s).1 ∧ Respaced K (tagName s).2 (tagName s').2 := by
  rw [Lexer.tagName, Lexer.tagName, h.head?_eq]
  split
  · exact ⟨rfl, h⟩
  · rw [readTagName, readTagName, h.head?_eq]
    split
    · have stops : (isNameChar '\n' || decide ('\n' = ':')) = false := by
        rw [isNameChar_newline]
        rfl
      obtain ⟨same, -⟩ := h.dropWhile (p := fun c => isNameChar c || c = ':') stops
      dsimp only
      rw [same]
      generalize hrun : s.takeWhile (fun c => isNameChar c || c = ':') = run
      generalize hname : (run.reverse.dropWhile fun c => c = ':' || c = '-').reverse = name
      have front : name <+: run := hname ▸ List.rdropWhile_prefix _ _
      have whole : name ++ s.drop name.length = s :=
        List.prefix_iff_eq_append.1 (front.trans (hrun ▸ List.takeWhile_prefix _))
      have line : '\n' ∉ name := by
        intro hn
        have := List.mem_takeWhile_imp (hrun ▸ front.subset hn)
        rw [stops] at this
        cases this
      rw [← whole] at h
      obtain ⟨r', rfl, rest⟩ := h.of_append line
      rw [List.drop_left]
      exact ⟨rfl, rest⟩
    · exact ⟨rfl, h⟩

theorem Respaced.nested? {s s' : Text} (h : Respaced K s s') :
    Option.Rel (Respaced K) (nested? s) (nested? s') := by
  cases h with
  | nil => exact .none
  | newline => exact .none
  | @char c r r' _ h =>
    by_cases colon : c = ':'
    · subst colon
      cases h with
      | nil => exact .none
      | newline => exact .none
      | @char d r r' other h =>
        rw [Lexer.nested?, Lexer.nested?]
        split
        · exact .some ((Respaced.char other h).dropWhile rfl).2
        · exact .none
    · have none (t : Text) : Lexer.nested? (c :: t) = .none := by
        simp [Lexer.nested?, colon]
      rw [none, none]
      exact .none

theorem Respaced.endsInDot {s s' : Text} (h : Respaced K s s') :
    endsInDot s' = endsInDot s := by
  cases h with
  | nil => rfl
  | newline => rfl
  | @char c r r' _ h =>
    by_cases dot : c = '.'
    · subst dot
      rw [Lexer.endsInDot, Lexer.endsInDot, (h.dropWhile (p := (· ≠ '\n')) rfl).1]
    · simp [Lexer.endsInDot, dot]

theorem readTags_tag {line : Nat} {s : Text} (tag : (tagName s).1.isEmpty = false) :
    readTags line s = (readTail line (tagName s).2).bind fun (spots, mid) =>
      match nested? mid.rest with
      | none => .ok (tagSpot line s :: spots, endsInDot mid.rest, mid)
      | some rest => passing (tagSpot line s :: spots) (readTags mid.line rest) := by
  rw [readTags, if_neg (by simp [tag])]
  split
  · rename_i ht
    simp [ht, Except.bind]
  · rename_i ht
    split <;> rename_i hn <;> simp [ht, hn, Except.bind]

theorem readTags_eq_ok_iff {line : Nat} {s : Text} {read : List Spot} {opens : Bool}
    {cursor : Cursor} (tag : (tagName s).1.isEmpty = false) :
    readTags line s = .ok (read, opens, cursor) ↔
      ∃ spots mid, readTail line (tagName s).2 = .ok (spots, mid) ∧
        match nested? mid.rest with
        | none => tagSpot line s :: spots = read ∧ endsInDot mid.rest = opens ∧ mid = cursor
        | some rest => ∃ tail, readTags mid.line rest = .ok (tail, opens, cursor) ∧
            (tagSpot line s :: spots) ++ tail = read := by
  rw [readTags_tag tag, bind_eq_ok_iff, Prod.exists]
  refine exists_congr fun spots => exists_congr fun mid => and_congr_right fun _ => ?_
  dsimp only
  split
  · simp
  · simp [passing_eq_ok_iff]

theorem Respaced.readTags {line : Nat} {s s' : Text} {read : List Spot}
    {opens : Bool} {cursor : Cursor} (h : Respaced K s s')
    (hs : readTags line s = .ok (read, opens, cursor)) :
    ∃ read' cursor', readTags line s' = .ok (read', opens, cursor') ∧
      Matches K read read' cursor cursor' := by
  induction hn : s.length using Nat.strongRecOn generalizing line s s' read with
  | ind n ih =>
    subst hn
    obtain ⟨name, front⟩ := h.tagName
    cases tag : (Lexer.tagName s).1.isEmpty with
    | true =>
      rw [Lexer.readTags, if_pos tag] at hs
      cases hs
      rw [Lexer.readTags, if_pos (by rwa [name])]
      exact ⟨_, _, rfl, rfl, rfl, h⟩
    | false =>
      obtain ⟨spots, mid, ht, hs⟩ := (readTags_eq_ok_iff tag).1 hs
      obtain ⟨spots', mid', ht', tail⟩ := front.readTail ht
      have first : Matches K (tagSpot line s :: spots) (tagSpot line s' :: spots') mid mid' := by
        refine ⟨?_, tail.line, tail.rest⟩
        rw [List.map_cons, List.map_cons, tail.outlines, tagSpot, tagSpot, name]
      have tag' : (Lexer.tagName s').1.isEmpty = false := by rwa [name]
      simp only [readTags_eq_ok_iff tag', ht']
      have nested := tail.rest.nested?
      generalize hn : Lexer.nested? mid.rest = a, hn' : Lexer.nested? mid'.rest = a' at nested hs
      cases nested with
      | none =>
        obtain ⟨rfl, rfl, rfl⟩ := hs
        exact ⟨_, mid', ⟨spots', mid', rfl, by simp [hn', tail.rest.endsInDot]⟩, first⟩
      | @some rest rest' inner =>
        obtain ⟨more, hmore, rfl⟩ := hs
        have less : rest.length < s.length := by
          have := (suffix_of_nested? hn).2
          have := (suffix_of_readTail ht).length_le
          have := (suffix_of_tagName s).length_le
          omega
        obtain ⟨more', cursor', hmore', later⟩ := ih _ less inner hmore rfl
        rw [← tail.line] at hmore'
        refine ⟨_, cursor', ⟨spots', mid', rfl, ?_⟩, first.append later⟩
        rw [hn']
        exact ⟨more', hmore', rfl⟩

end

end Lexer

end PugWeave.Markup
