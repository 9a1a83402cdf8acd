import PugWeave.Proofs.Markup.Lookahead

namespace PugWeave

namespace Text

theorem isAlphabetic_of_isBlank {c : Char} (h : isBlank c = true) : isAlphabetic c = false := by
  have blanks : ∀ n ∈ [0x20, 0x85, 0xa0, 0x1680, 0x2028, 0x2029, 0x202f, 0x205f, 0x3000] ++
      (List.range' 9 5 ++ List.range' 0x2000 11), isAlphabetic (Char.ofNat n) = false := by
    decide +kernel
  have code (d : Char) : c = d ↔ c.toNat = d.toNat := Char.toNat_inj.symm
  have le (d e : Char) : d ≤ e ↔ d.toNat ≤ e.toNat := UInt32.le_iff_toNat_le
  rw [← Char.ofNat_toNat c]
  refine blanks c.toNat ?_
  simp only [isBlank, Bool.or_eq_true, Bool.and_eq_true, decide_eq_true_eq, code, le] at h
  simp only [List.mem_append, List.mem_range'_1, List.mem_cons, List.not_mem_nil, or_false]
  simp at h
  omega

theorem not_mem_marks_of_isAlphabetic {c : Char} (h : isAlphabetic c = true) :
    c ∉ ['/', ':', '|', '<', '-', '=', '+', '!', '#', '.'] := by
  have marks : ['/', ':', '|', '<', '-', '=', '+', '!', '#', '.'].any isAlphabetic = false := by
    decide +kernel
  exact fun mem => List.any_eq_false.1 marks c mem h

theorem isAlphabetic_of_isAlpha {c : Char} (h : c.isAlpha = true) : isAlphabetic c = true := by
  rw [isAlphabetic, h, Bool.true_or]

theorem isNameChar_of_isAlphanum {c : Char} (h : c.isAlphanum = true) : isNameChar c = true := by
  rw [isNameChar, isAlphanumeric, isAlphabetic, isNumeric]
  rcases Bool.or_eq_true_iff.1 h with letter | digit
  · simp [letter]
  · simp [digit]

theorem unify_eq_self_of_no_return {t : Text} (h : '\r' ∉ t) : unify t = t := by
  fun_induction unify t with
  | case1 => rfl
  | case2 => simp at h
  | case3 c r _ ih =>
    rw [List.mem_cons, not_or] at h
    rw [ih h.2]
    congr 1
    split
    · rename_i hc
      have : c = '\r' ∨ c = '\n' := by simpa [isBreak] using hc
      exact (this.resolve_left (Ne.symm h.1)).symm
    · rfl

theorem unify_join {separator : Char} (h : isBreak separator = false) (ls : List Text) :
    unify (join [separator] ls) = join [separator] (ls.map unify) := by
  have other : separator ≠ '\n' := by
    rintro rfl
    cases h
  induction ls with
  | nil => rfl
  | cons l ls ih =>
    cases ls with
    | nil => rw [List.map_singleton, join_singleton, join_singleton]
    | cons m ls =>
      rw [List.map_cons, List.map_cons, join_cons, join_cons,
        unify_append (.inr (by simpa using other)), unify_cons h, ih, List.map_cons]

end Text

namespace Markup

open Text

namespace Lexer

/-! ### Tags -/

structure IsTagName (tag : Text) : Prop where
  letter : tag.head?.any isAlphabetic = true
  chars : ∀ c ∈ tag, isNameChar c = true ∨ c = ':'
  last : ∀ c ∈ tag.getLast?, c ≠ ':' ∧ c ≠ '-'
  free : tag.takeWhile isNameChar ∉ keywords

namespace IsTagName

variable {tag : Text} (h : IsTagName tag) (s : Text)
include h

theorem exists_cons : ∃ c r, tag = c :: r ∧ isAlphabetic c = true := by
  have letter := h.letter
  cases tag with
  | nil => cases letter
  | cons c r => exact ⟨c, r, rfl, letter⟩

theorem tagName_append : tagName (tag ++ '(' :: s) = (tag, '(' :: s) := by
  obtain ⟨c, r, rfl, letter⟩ := h.exists_cons
  have marks := not_mem_marks_of_isAlphabetic letter
  simp only [List.mem_cons, List.not_mem_nil, or_false, not_or] at marks
  have run : (c :: r ++ '(' :: s).takeWhile (fun c => isNameChar c || c = ':') = c :: r := by
    have all : ∀ d ∈ c :: r, (isNameChar d || d = ':') = true := by simpa using h.chars
    have stops : ('(' :: s).takeWhile (fun c => isNameChar c || c = ':') = [] :=
      List.takeWhile_cons_of_neg (by decide +kernel)
    rw [List.takeWhile_append_of_pos all, stops, List.append_nil]
  have ends : (c :: r).reverse.dropWhile (fun c => c = ':' || c = '-') = (c :: r).reverse := by
    obtain ⟨d, u, hd⟩ :=
      List.exists_cons_of_ne_nil (List.reverse_ne_nil_iff.2 (List.cons_ne_nil c r))
    have last := h.last d
    rw [← List.head?_reverse, hd] at last
    rw [hd, List.dropWhile_cons_of_neg (by simpa using last rfl)]
  rw [tagName, if_neg (by simp [marks]), readTagName, if_pos (by simp [letter]), run]
  simp only [ends, List.reverse_reverse, List.drop_left]

theorem kind_append : LineKind.of (tag ++ '(' :: s) = .tag := by
  have word : (tag ++ '(' :: s).takeWhile isNameChar = tag.takeWhile isNameChar := by
    have stops : ¬isNameChar '(' = true := by decide +kernel
    rw [List.takeWhile_append]
    split
    · rename_i whole
      rw [List.takeWhile_cons_of_neg stops, List.append_nil]
      exact ((List.takeWhile_prefix _).eq_of_length whole).symm
    · rfl
  have key : keywords.contains (tag.takeWhile isNameChar) = false := by simpa using h.free
  obtain ⟨c, r, rfl, letter⟩ := h.exists_cons
  have marks := not_mem_marks_of_isAlphabetic letter
  simp only [List.mem_cons, List.not_mem_nil, or_false, not_or] at marks
  have name : isNameChar c = true := by simp [isNameChar, isAlphanumeric, letter]
  rw [LineKind.of]
  simp only [word, key]
  simp [List.isPrefixOf, marks, Ne.symm, name, letter]

theorem unbroken : ∀ c ∈ tag, isBreak c = false := by
  intro c mem
  cases hc : isBreak c with
  | false => rfl
  | true =>
    have breaks : isNameChar '\r' = false ∧ isNameChar '\n' = false := by decide +kernel
    have : c = '\r' ∨ c = '\n' := by simpa [isBreak] using hc
    rcases this with rfl | rfl <;> simpa [breaks] using h.chars _ mem

theorem readLine_eq_ok_iff {line : Nat} {read : List Spot} {next : Option Nat} {cursor : Cursor} :
    readLine none line (tag ++ '(' :: s) = .ok (read, next, cursor) ↔
      ∃ opens, readTags line (tag ++ '(' :: s) = .ok (read, opens, cursor) ∧
        (if opens then some 0 else none) = next := by
  obtain ⟨c, r, rfl, letter⟩ := h.exists_cons
  have full : isMarginal c = false := by
    cases hb : isBlank c with
    | false => simp [isMarginal, hb]
    | true =>
      rw [isAlphabetic_of_isBlank hb] at letter
      cases letter
  have front : margin (c :: r ++ '(' :: s) = [] := by simp [margin, full]
  have whole : inward (c :: r ++ '(' :: s) = c :: r ++ '(' :: s := by simp [inward, full]
  have line : ∀ d ∈ c :: r, decide (d ≠ '\n') = true := by
    intro d hd
    refine decide_eq_true ?_
    rintro rfl
    cases h.unbroken _ hd
  have first : body (c :: r ++ '(' :: s) = c :: r ++ '(' :: s.takeWhile (· ≠ '\n') := by
    rw [body, whole, List.takeWhile_append_of_pos line, List.takeWhile_cons_of_pos (by decide)]
  have kind := h.kind_append (s.takeWhile (· ≠ '\n'))
  rw [readLine_eq, isPassedOver, front, whole, first, kind]
  cases readTags _ (c :: r ++ '(' :: s) with
  | error e => simp [isMixed]
  | ok p =>
    obtain ⟨read', opens', cursor'⟩ := p
    constructor
    · intro whole
      obtain ⟨rfl, same, rfl⟩ : read' = read ∧ (if opens' then some 0 else none) = next ∧
          cursor' = cursor := by simpa [isMixed] using whole
      exact ⟨opens', rfl, same⟩
    · rintro ⟨opens, same, rfl⟩
      cases same
      simp [isMixed]

theorem readTags_eq_ok_iff {line : Nat} {read : List Spot} {opens : Bool} {cursor : Cursor} :
    readTags line (tag ++ '(' :: s) = .ok (read, opens, cursor) ↔
      ∃ list mid tail last, readList line line s = .ok (list, mid) ∧
        readTail mid.line mid.rest = .ok (tail, last) ∧
        match nested? last.rest with
        | none => tagSpot line (tag ++ '(' :: s) :: (list ++ tail) = read ∧
            endsInDot last.rest = opens ∧ last = cursor
        | some rest => ∃ more, readTags last.line rest = .ok (more, opens, cursor) ∧
            tagSpot line (tag ++ '(' :: s) :: (list ++ tail) ++ more = read := by
  have name := h.tagName_append s
  have full : (tagName (tag ++ '(' :: s)).1.isEmpty = false := by
    obtain ⟨c, r, rfl, -⟩ := h.exists_cons
    rw [name]
    rfl
  rw [Lexer.readTags_eq_ok_iff full, name]
  constructor
  · rintro ⟨spots, last, ht, later⟩
    obtain ⟨list, mid, tail, hl, behind, rfl⟩ := readTail_list_eq_ok_iff.1 ht
    exact ⟨list, mid, tail, last, hl, behind, later⟩
  · rintro ⟨list, mid, tail, last, hl, ht, later⟩
    exact ⟨_, last, readTail_list_eq_ok_iff.2 ⟨list, mid, tail, hl, ht, rfl⟩, later⟩

theorem readLines_of_readList {read : List Spot} {line : Nat}
    (hs : readList 1 1 s = .ok (read, ⟨line, []⟩)) :
    readLines none 1 (tag ++ '(' :: s) = .ok (tagSpot 1 (tag ++ '(' :: s) :: read) := by
  have tags : readTags 1 (tag ++ '(' :: s) =
      .ok (tagSpot 1 (tag ++ '(' :: s) :: read, false, ⟨line, []⟩) := by
    rw [h.readTags_eq_ok_iff]
    exact ⟨read, _, [], ⟨line, []⟩, hs, by rw [readTail], by simp, rfl, rfl⟩
  have first := (h.readLine_eq_ok_iff s).2 ⟨false, tags, rfl⟩
  exact readLines_eq_ok_iff.2 ⟨_, _, _, [], first, .last rfl, List.append_nil _⟩

theorem exists_of_readLines {found : List Spot}
    (hs : readLines none 1 (tag ++ '(' :: s) = .ok found) :
    ∃ read mid more, readList 1 1 s = .ok (read, mid) ∧
      found = tagSpot 1 (tag ++ '(' :: s) :: (read ++ more) := by
  obtain ⟨first, next, cursor, below, hl, -, rfl⟩ := readLines_eq_ok_iff.1 hs
  obtain ⟨opens, ht, -⟩ := (h.readLine_eq_ok_iff s).1 hl
  obtain ⟨list, mid, tail, last, hlist, -, later⟩ := (h.readTags_eq_ok_iff s).1 ht
  split at later
  · obtain ⟨rfl, -⟩ := later
    exact ⟨list, mid, tail ++ below, hlist, by simp⟩
  · obtain ⟨more, -, rfl⟩ := later
    exact ⟨list, mid, tail ++ (more ++ below), hlist, by simp⟩

end IsTagName

/-! ### Entries -/

def IsLiteral (v : Text) : Prop :=
  ∃ quote body, isQuote quote = true ∧ v = quote :: body ∧ readString quote 1 body = .ok (body, [])

end Lexer

open Lexer

structure Entry where
  name : Text
  spelling : Text
  value : Option Text

namespace Entry

def text (e : Entry) : Text :=
  match e.value with
  | none => e.spelling
  | some v => e.spelling ++ '=' :: v

def unified (e : Entry) : Entry := ⟨e.name, unify e.spelling, e.value.map unify⟩

theorem unify_text (e : Entry) : unify e.text = e.unified.text := by
  cases hv : e.value with
  | none => simp [text, unified, hv]
  | some v =>
    simp only [text, unified, hv, Option.map_some]
    rw [unify_append (.inr (by simp)), unify_cons (by rfl)]

structure Reads (e : Entry) : Prop where
  name : ∃ c r, e.spelling = c :: r ∧ readName 1 c r = .ok (e.name, [])
  value : ∀ v ∈ e.value, IsLiteral v

/-- What ends an entry that it stands behind: a comma, a bracket, or a blank if what stands behind
that is none that goes on with the entry. -/
inductive EndsAt (e : Entry) : Text → Prop
  | mark : c = ',' ∨ c = ')' → EndsAt e (c :: r)
  | blank : isBlank c = true → (trimStart r).head? = some d → d ≠ '=' → d ≠ '!' →
      (e.value.isSome = true → isOperator d = false) → EndsAt e (c :: r)

theorem EndsAt.append {e : Entry} {s : Text} (h : e.EndsAt s) (t : Text) : e.EndsAt (s ++ t) := by
  cases h with
  | mark hc => exact .mark hc
  | @blank c r d hc head equals differs operator =>
    refine .blank hc ?_ equals differs operator
    have full : isBlankLine r = false := by
      cases hb : isBlankLine r with
      | false => rfl
      | true =>
        rw [trimStart_eq_nil_iff.2 hb] at head
        cases head
    change (trimStart (r ++ t)).head? = some d
    rw [trimStart_append full, List.head?_append, head, Option.some_or]

theorem EndsAt.exists_cons {e : Entry} {t : Text} (h : e.EndsAt t) :
    ∃ c r, t = c :: r ∧ isPlainNameChar c = false := by
  cases h with
  | @mark c r hc =>
    refine ⟨c, r, rfl, ?_⟩
    rcases hc with rfl | rfl <;> decide
  | @blank c r d hc => exact ⟨c, r, rfl, by simp [isPlainNameChar, hc]⟩

end Entry

namespace Lexer

theorem not_operator_of_isQuote {c : Char} (h : isQuote c = true) :
    isOperator c = false ∧ isBlank c = false := by
  have : c = apostrophe ∨ c = quotationMark ∨ c = backtick := by simpa [isQuote, or_assoc] using h
  rcases this with rfl | rfl | rfl <;> decide

namespace IsLiteral

variable {v : Text} (h : IsLiteral v)
include h

theorem trimStart_append (t : Text) :
    trimStart (v ++ t) = v ++ t ∧ indentation (v ++ t) = [] := by
  obtain ⟨quote, body, hq, rfl, -⟩ := h
  refine trimStart_run (b := []) (by simp) ?_
  simpa using (not_operator_of_isQuote hq).2

theorem trim_eq : trim v = v := by
  have start : trimStart v = v := by simpa using (h.trimStart_append []).1
  obtain ⟨quote, body, hq, rfl, hs⟩ := h
  have full : isBlankLine [quote] = false := by simp [isBlankLine, (not_operator_of_isQuote hq).2]
  have slash : quote ≠ '\\' := by
    rintro rfl
    cases hq
  obtain ⟨init, last⟩ : ∃ init, body = init ++ [quote] :=
    List.getLast?_eq_some_iff.1 (scan_of_readString slash hs).2
  rw [trim, start, last, ← List.cons_append, trimEnd_append _ full]
  simp [trimEnd, (not_operator_of_isQuote hq).2]

end IsLiteral

section

variable {e : Entry} {t : Text}

theorem assigned?_of_endsAt (h : e.EndsAt t) : assigned? t = none := by
  refine Option.eq_none_iff_forall_ne_some.2 fun r hr => ?_
  obtain ⟨front, equals, rfl, spaces, sign⟩ := exists_of_assigned? hr
  have blank : ∀ c ∈ front, isBlank c = true := by
    intro c hc
    have : c = ' ' ∨ c = '\t' := by simpa [isSpaceOrTab] using spaces c hc
    rcases this with rfl | rfl <;> rfl
  have head : (trimStart (front ++ (equals ++ r))).head? = some '=' ∨
      (trimStart (front ++ (equals ++ r))).head? = some '!' := by
    rw [trimStart_blank_append blank]
    rcases sign with rfl | rfl
    · exact .inl rfl
    · exact .inr rfl
  -- Blanks never hide a sign, neither those in front of an assignment nor those of the end.
  generalize front ++ (equals ++ r) = t at h head
  cases h with
  | mark hc => rcases hc with rfl | rfl <;> rcases head with head | head <;> cases head
  | @blank c r d hc next equals differs =>
    rw [trimStart, List.dropWhile_cons_of_pos hc, ← trimStart, next] at head
    rcases head with head | head
    · exact equals (Option.some.inj head)
    · exact differs (Option.some.inj head)

theorem readValue_of_endsAt (opened line : Nat) {last : Char} (hl : isOperator last = false)
    (h : e.EndsAt t) (valued : e.value.isSome = true) :
    readValue opened 0 last line t = .ok ([], ⟨line, t⟩) := by
  cases h with
  | mark hc => rcases hc with rfl | rfl <;> rw [readValue] <;> rfl
  | @blank c r d hc next _ _ operator =>
    have next : (trimStart (c :: r)).head? = some d := by
      rwa [trimStart, List.dropWhile_cons_of_pos hc]
    rw [readValue_gap _ _ _ hc, next, if_neg (by simp [continues, hl, operator valued])]

theorem readValue_literal (opened line : Nat) (last : Char) {v : Text} (hv : IsLiteral v)
    (h : e.EndsAt t) (valued : e.value.isSome = true) :
    readValue opened 0 last line (v ++ t) = .ok (v, ⟨line + breaks v, t⟩) := by
  obtain ⟨quote, body, hq, rfl, hs⟩ := hv
  have single : quote ≠ '\n' := by
    rintro rfl
    cases hq
  have ends :=
    readValue_of_endsAt opened (line + breaks body) (not_operator_of_isQuote hq).1 h valued
  refine (readValue_quote_eq_ok_iff hq).2 ⟨body, t, readString_rest hq hs line t, ?_⟩
  rw [ends, breaks, breaks, List.count_cons_of_ne single]
  simp [passing, Except.map]

end

theorem readName_append {c : Char} {r name : Text} {d : Char} (hd : isPlainNameChar d = false)
    (h : readName 1 c r = .ok (name, [])) (line : Nat) (t : Text) :
    readName line c (r ++ d :: t) = .ok (name, d :: t) := by
  obtain ⟨x, rfl, read⟩ := readName_rest h
  rw [List.append_nil]
  exact read line (d :: t) hd

theorem breaks_of_readName {c : Char} {r name : Text} (h : readName 1 c r = .ok (name, [])) :
    breaks (c :: r) = 0 := by
  obtain ⟨written, whole, -, passed⟩ := exists_spelled_of_readName h
  obtain ⟨x, split, line, -⟩ := passed.split
  rw [List.append_nil] at split
  rw [split] at line
  omega

theorem head_of_readName {c : Char} {r name rest : Text}
    (h : readName 1 c r = .ok (name, rest)) :
    isBlank c = false ∧ c ∉ [',', ')', '=', '!'] := by
  rw [readName] at h
  split at h
  · rename_i quoted
    have : c = apostrophe ∨ c = quotationMark := by simpa using quoted
    rcases this with rfl | rfl <;> decide
  · split at h
    · rename_i plain
      obtain ⟨blank, other⟩ := isPlainNameChar_iff.1 plain
      simp_all
    · cases h

theorem readAttr_append (opened line : Nat) {e : Entry} (h : e.Reads) {t : Text}
    (ends : e.EndsAt t) : ∃ c r, e.text ++ t = c :: r ∧ isBlank c = false ∧ c ≠ ',' ∧ c ≠ ')' ∧
      ∃ spot, readAttr opened line c r = .ok (spot, ⟨line + breaks e.text, t⟩) ∧
        spot.token = .attr e.name e.value line := by
  obtain ⟨c, r, spelling, hname⟩ := h.name
  obtain ⟨blank, other⟩ := head_of_readName hname
  simp only [List.mem_cons, List.not_mem_nil, or_false, not_or] at other
  have inline := breaks_of_readName hname
  cases hv : e.value with
  | none =>
    obtain ⟨d, u, rfl, stops⟩ := ends.exists_cons
    have text : e.text = c :: r := by rw [Entry.text, hv]; exact spelling
    have name := readName_append stops hname line u
    refine ⟨c, r ++ d :: u, by rw [text]; rfl, blank, other.1, other.2.1,
      ⟨.attr e.name none line, (c :: (r ++ d :: u)).length⟩, ?_, rfl⟩
    rw [readAttr, name, text, inline]
    simp only [assigned?_of_endsAt ends]
    rfl
  | some v =>
    have text : e.text = c :: r ++ '=' :: v := by rw [Entry.text, hv, spelling]
    have literal := h.value v hv
    have valued : e.value.isSome = true := by rw [hv]; rfl
    have name := readName_append (d := '=') (by decide) hname line (v ++ t)
    have start := literal.trimStart_append t
    have assigned : assigned? ('=' :: (v ++ t)) = some (v ++ t) := rfl
    have count : breaks (c :: r ++ '=' :: v) = breaks v := by
      rw [breaks_append, inline, breaks, List.count_cons_of_ne (by decide), Nat.zero_add, breaks]
    have value := readValue_literal opened line '=' literal ends valued
    refine ⟨c, r ++ '=' :: (v ++ t), by rw [text]; simp, blank, other.1, other.2.1,
      ⟨.attr e.name (some v) line, (v ++ t).length⟩, ?_, rfl⟩
    rw [readAttr, name]
    have inline : breaks [] = 0 := rfl
    simp only [assigned, start.1, start.2, inline, Nat.add_zero]
    rw [value, text, count]
    simp only [literal.trim_eq]

theorem readList_gap (opened line : Nat) {gap : Text} (h : ∀ c ∈ gap, isBlank c = true ∨ c = ',')
    (s : Text) : readList opened line (gap ++ s) = readList opened (line + breaks gap) s := by
  induction gap generalizing line with
  | nil => rfl
  | cons c gap ih =>
    rw [List.forall_mem_cons] at h
    have count : line + breaks [c] + breaks gap = line + breaks (c :: gap) := by
      rw [Nat.add_assoc, ← breaks_append, List.singleton_append]
    rw [List.cons_append, readList_blank _ _ (by simpa using h.1), ih _ h.2, count]

theorem readList_entry (opened line : Nat) {gap : Text}
    (blank : ∀ c ∈ gap, isBlank c = true ∨ c = ',') {e : Entry} (h : e.Reads) {t : Text}
    (ends : e.EndsAt t) : ∃ spot : Spot, spot.token = .attr e.name e.value (line + breaks gap) ∧
      readList opened line (gap ++ (e.text ++ t)) =
        passing [spot] (readList opened (line + breaks (gap ++ e.text)) t) := by
  obtain ⟨c, r, text, full, comma, closes, spot, ha, token⟩ :=
    readAttr_append opened (line + breaks gap) h ends
  have other : ¬(isBlank c || c = ',') = true := by simp [full, comma]
  refine ⟨spot, token, ?_⟩
  rw [readList_gap opened line blank, text, breaks_append, ← Nat.add_assoc]
  rw [readList.eq_def]
  simp only [other, closes, Bool.false_eq_true, if_false]
  split
  · rename_i he
    rw [ha] at he
    cases he
  · rename_i hr
    rw [ha] at hr
    cases hr
    rfl

end Lexer

/-! ### Lists -/

def written (separator : Char) (items : List (Text × Entry)) : Text :=
  join [separator] (items.map fun (gap, e) => gap ++ e.text) ++ [')']

theorem written_singleton (separator : Char) (item : Text × Entry) :
    written separator [item] = item.1 ++ (item.2.text ++ [')']) := by
  rw [written, List.map_singleton, join_singleton, List.append_assoc]

theorem written_cons (separator : Char) (item next : Text × Entry) (later : List (Text × Entry)) :
    written separator (item :: next :: later) =
      item.1 ++ (item.2.text ++ separator :: written separator (next :: later)) := by
  rw [written, List.map_cons, List.map_cons, join_cons, List.append_assoc, List.append_assoc]
  rfl

theorem exists_of_written (separator : Char) (item : Text × Entry) (later : List (Text × Entry)) :
    ∃ u, written separator (item :: later) = item.1 ++ (item.2.text ++ u) := by
  cases later with
  | nil => exact ⟨_, written_singleton separator item⟩
  | cons next later => exact ⟨_, written_cons separator item next later⟩

theorem Entry.EndsAt.written {e : Entry} {separator : Char} {next : Text × Entry}
    (h : e.EndsAt (separator :: (next.1 ++ next.2.text))) (later : List (Text × Entry)) :
    e.EndsAt (separator :: written separator (next :: later)) := by
  obtain ⟨u, hu⟩ := exists_of_written separator next later
  rw [hu, ← List.append_assoc, ← List.cons_append]
  exact h.append u

def listing (tag : Text) (separator : Char) (items : List (Text × Entry)) : Text :=
  tag ++ '(' :: written separator items

def attrTokens (line : Nat) : List (Text × Entry) → List Token
  | [] => []
  | (gap, e) :: more => .attr e.name e.value (line + breaks gap) ::
      attrTokens (line + breaks (gap ++ e.text)) more

def unifiedItems (items : List (Text × Entry)) : List (Text × Entry) :=
  items.map fun (gap, e) => (gap, e.unified)

section

variable {items : List (Text × Entry)}
  (printed : ∀ item ∈ items, (∀ c ∈ item.1, c = ' ' ∨ c = '\n') ∧ item.2.unified.Reads)
include printed

theorem unifiedItems_ok :
    ∀ item ∈ unifiedItems items, (∀ c ∈ item.1, isBlank c = true) ∧ item.2.Reads := by
  intro _ among
  obtain ⟨item, mem, rfl⟩ := List.mem_map.1 among
  refine ⟨fun c hc => ?_, (printed item mem).2⟩
  rcases (printed item mem).1 c hc with rfl | rfl <;> rfl

theorem no_return_of_printed : ∀ item ∈ items, '\r' ∉ item.1 := by
  intro item mem hr
  rcases (printed item mem).1 _ hr with hr | hr <;> cases hr

end

theorem unify_listing {tag : Text} (unbroken : ∀ c ∈ tag, isBreak c = false) {separator : Char}
    (h : isBreak separator = false) {items : List (Text × Entry)}
    (gaps : ∀ item ∈ items, '\r' ∉ item.1) :
    unify (listing tag separator items) = listing tag separator (unifiedItems items) := by
  have pieces : (items.map fun (gap, e) => gap ++ e.text).map unify =
      (unifiedItems items).map fun (gap, e) => gap ++ e.text := by
    rw [unifiedItems, List.map_map, List.map_map]
    refine List.map_congr_left fun item mem => ?_
    have last : item.1.getLast? ≠ some '\r' := fun last =>
      gaps item mem (List.mem_of_getLast? last)
    simp only [Function.comp_apply]
    rw [unify_append (.inl last), unify_eq_self_of_no_return (gaps item mem), Entry.unify_text]
  rw [listing, unify_append (.inr (by simp)), unify_eq_self unbroken, unify_cons (by rfl), written,
    unify_append (.inr (by simp)), unify_join h, pieces]
  rfl

namespace Lexer

section

variable {separator : Char} (separates : separator = ',' ∨ separator = ' ')
include separates

theorem readList_separator (opened line : Nat) (s : Text) :
    readList opened line (separator :: s) = readList opened line s := by
  have stays : (isBlank separator || separator = ',') = true ∧ breaks [separator] = 0 := by
    rcases separates with rfl | rfl <;> decide
  rw [readList_blank _ _ stays.1, stays.2, Nat.add_zero]

variable {items : List (Text × Entry)}
  (items_ok : ∀ item ∈ items, (∀ c ∈ item.1, isBlank c = true) ∧ item.2.Reads)
include items_ok

theorem readList_written (opened line : Nat)
    (ends : items.IsChain fun a b => a.2.EndsAt (separator :: (b.1 ++ b.2.text))) :
    ∃ read line', readList opened line (written separator items) = .ok (read, ⟨line', []⟩) ∧
      read.map Spot.token = attrTokens line items := by
  induction items generalizing line with
  | nil => exact ⟨[], line, readList_close _ _ _, rfl⟩
  | cons item more ih =>
    rw [List.forall_mem_cons] at items_ok
    obtain ⟨⟨blank, reads⟩, later⟩ := items_ok
    have blank : ∀ c ∈ item.1, isBlank c = true ∨ c = ',' := fun c hc => .inl (blank c hc)
    cases more with
    | nil =>
      obtain ⟨spot, token, hl⟩ :=
        readList_entry opened line blank reads (t := [')']) (.mark (.inr rfl))
      refine ⟨[spot], line + breaks (item.1 ++ item.2.text), ?_, by simp [attrTokens, token]⟩
      rw [written_singleton, hl, readList_close]
      rfl
    | cons next more =>
      rw [List.isChain_cons_cons] at ends
      obtain ⟨read, line', hr, tokens⟩ := ih later (line + breaks (item.1 ++ item.2.text)) ends.2
      obtain ⟨spot, token, hl⟩ := readList_entry opened line blank reads (ends.1.written more)
      refine ⟨spot :: read, line', ?_, by rw [List.map_cons, token, tokens]; rfl⟩
      rw [written_cons, hl, readList_separator separates, hr]
      rfl

theorem readLines_listing {tag : Text} (h : IsTagName tag)
    (ends : items.IsChain fun a b => a.2.EndsAt (separator :: (b.1 ++ b.2.text))) :
    ∃ read, readLines none 1 (listing tag separator items) = .ok read ∧
      read.map Spot.token = .tag tag 1 :: attrTokens 1 items := by
  obtain ⟨read, line', hr, tokens⟩ := readList_written separates items_ok 1 1 ends
  refine ⟨_, h.readLines_of_readList _ hr, ?_⟩
  rw [List.map_cons, tokens, tagSpot, h.tagName_append]

end

end Lexer

theorem tokenize_eq (t : Text) :
    tokenize t = (readLines none 1 (unify t)).map (·.map Spot.token) := by
  rw [tokenize, spots, join_lines]

theorem tokenize_listing_of_ends {tag : Text} (name : IsTagName tag) {separator : Char}
    (separates : separator = ',' ∨ separator = ' ') {items : List (Text × Entry)}
    (printed : ∀ item ∈ items, (∀ c ∈ item.1, c = ' ' ∨ c = '\n') ∧ item.2.unified.Reads)
    (ends : (unifiedItems items).IsChain fun a b => a.2.EndsAt (separator :: (b.1 ++ b.2.text))) :
    tokenize (listing tag separator items) =
      .ok (.tag tag 1 :: attrTokens 1 (unifiedItems items)) := by
  obtain ⟨read, hr, tokens⟩ := readLines_listing separates (unifiedItems_ok printed) name ends
  have single : isBreak separator = false := by rcases separates with rfl | rfl <;> rfl
  rw [tokenize_eq, unify_listing name.unbroken single (no_return_of_printed printed), hr, ← tokens]
  rfl

structure Entry.Plain (e : Entry) : Prop where
  spelling : e.spelling = e.name
  full : e.name ≠ []
  name : ∀ c ∈ e.name, isBlank c = false ∧
    c ∉ ['=', '!', ',', ')', '(', apostrophe, quotationMark]
  value : ∀ v ∈ e.value, ∃ quote body, (quote = apostrophe ∨ quote = quotationMark) ∧
    v = quote :: (body ++ [quote]) ∧ ∀ c ∈ body, c ≠ quote ∧ c ≠ '\\' ∧ isBreak c = false

namespace Entry.Plain

variable {e : Entry} (h : e.Plain)
include h

theorem reads : e.Reads where
  name := by
    obtain ⟨c, r, hn⟩ := List.exists_cons_of_ne_nil h.full
    have plain : ∀ d ∈ c :: r, isPlainNameChar d = true := by
      intro d hd
      exact isPlainNameChar_iff.2 (h.name d (hn ▸ hd))
    have first := plain c List.mem_cons_self
    have unquoted : ¬(c = apostrophe || c = quotationMark) = true := by
      rintro quoted
      have : c = apostrophe ∨ c = quotationMark := by simpa using quoted
      rcases this with rfl | rfl <;> cases first
    have all : ∀ d ∈ r, isPlainNameChar d = true := fun d hd => plain d (.tail _ hd)
    refine ⟨c, r, h.spelling.trans hn, ?_⟩
    rw [readName, if_neg unquoted, if_pos first, List.takeWhile_eq_self_iff.2 all,
      List.dropWhile_eq_nil_iff.2 all, hn]
  value := by
    intro v hv
    obtain ⟨quote, body, single, rfl, inner⟩ := h.value v hv
    have hq : isQuote quote = true := by rcases single with rfl | rfl <;> rfl
    refine ⟨quote, _, hq, rfl, ?_⟩
    have slash : quote ≠ '\\' := by
      rintro rfl
      cases hq
    clear hv
    induction body with
    | nil => rw [List.nil_append, readString_char _ _ slash, if_pos rfl]
    | cons c body ih =>
      rw [List.forall_mem_cons] at inner
      obtain ⟨⟨other, plain, unbroken⟩, inner⟩ := inner
      have line : c ≠ '\n' := by
        rintro rfl
        cases unbroken
      rw [List.cons_append, readString_char _ _ plain, if_neg other, if_neg (by simp [line]),
        ih inner]
      rfl

theorem unbroken : ∀ c ∈ e.text, isBreak c = false := by
  have spelling : ∀ c ∈ e.spelling, isBreak c = false := by
    intro c hc
    refine isBreak_of_isPlainNameChar (isPlainNameChar_iff.2 (h.name c ?_))
    rwa [← h.spelling]
  intro c hc
  rw [text] at hc
  split at hc
  · exact spelling c hc
  · rename_i v hv
    obtain ⟨quote, body, single, rfl, inner⟩ := h.value v hv
    simp only [List.mem_append, List.mem_cons, List.not_mem_nil, or_false] at hc
    rcases hc with hc | rfl | rfl | hc | rfl
    · exact spelling c hc
    · rfl
    · rcases single with rfl | rfl <;> rfl
    · exact (inner c hc).2.2
    · rcases single with rfl | rfl <;> rfl

theorem unified_eq : e.unified = e := by
  have unbroken := h.unbroken
  obtain ⟨name, spelling, value⟩ := e
  cases value with
  | none =>
    have same : unify spelling = spelling := unify_eq_self unbroken
    simp [unified, same]
  | some v =>
    rw [text, List.forall_mem_append, List.forall_mem_cons] at unbroken
    simp [unified, unify_eq_self unbroken.1, unify_eq_self unbroken.2.2]

end Entry.Plain

theorem isTagName_of_alphanum {tag : Text} (letter : tag.head?.any Char.isAlpha = true)
    (chars : ∀ c ∈ tag, c.isAlphanum = true) (free : tag ∉ keywords) : IsTagName tag := by
  have names : ∀ c ∈ tag, isNameChar c = true := fun c hc => isNameChar_of_isAlphanum (chars c hc)
  refine ⟨?_, fun c hc => .inl (names c hc), ?_, ?_⟩
  · cases tag with
    | nil => cases letter
    | cons c r => exact isAlphabetic_of_isAlpha letter
  · intro c hc
    have := chars c (List.mem_of_getLast? hc)
    constructor <;>
    · rintro rfl
      cases this
  · rwa [List.takeWhile_eq_self_iff.2 names]

/-- Attributes that are printed behind a tag, with a comma between them and blanks and line breaks
behind the comma, are read as they were printed. -/
theorem tokenize_listing {tag : Text} {items : List (Text × Entry)}
    (letter : tag.head?.any Char.isAlpha = true) (chars : ∀ c ∈ tag, c.isAlphanum = true)
    (free : tag ∉ keywords)
    (printed : ∀ item ∈ items, (∀ c ∈ item.1, c = ' ' ∨ c = '\n') ∧ item.2.Plain) :
    tokenize (listing tag ',' items) = .ok (.tag tag 1 :: attrTokens 1 items) := by
  have same : unifiedItems items = items := by
    rw [unifiedItems]
    refine (List.map_congr_left fun item mem => ?_).trans (List.map_id items)
    change (item.1, item.2.unified) = item
    rw [(printed item mem).2.unified_eq]
  have reads : ∀ item ∈ items, (∀ c ∈ item.1, c = ' ' ∨ c = '\n') ∧ item.2.unified.Reads := by
    intro item mem
    rw [(printed item mem).2.unified_eq]
    exact (printed item mem).imp_right Entry.Plain.reads
  have read := tokenize_listing_of_ends (isTagName_of_alphanum letter chars free) (.inl rfl) reads
    (List.isChain_iff_getElem.2 fun _ _ => .mark (.inl rfl))
  rwa [same] at read

theorem tokenize_listing_lines :
    let items := [([], ⟨"href".toList, "href".toList, some "'a,b'".toList⟩),
      (" \n ".toList, ⟨"disabled".toList, "disabled".toList, none⟩),
      ("\n\n".toList, ⟨":alt".toList, ":alt".toList, some "\"it's\"".toList⟩)]
    listing "h1".toList ',' items = "h1(href='a,b', \n disabled,\n\n:alt=\"it's\")".toList ∧
      tokenize (listing "h1".toList ',' items) = .ok [.tag "h1".toList 1,
        .attr "href".toList "'a,b'".toList 1, .attr "disabled".toList none 2,
        .attr ":alt".toList "\"it's\"".toList 4] := by
  intro items
  have printed : ∀ item ∈ items, (∀ c ∈ item.1, c = ' ' ∨ c = '\n') ∧ item.2.Plain := by
    refine List.forall_mem_cons.2 ⟨⟨by simp, rfl, by decide, by simp; decide, ?_⟩,
      List.forall_mem_cons.2 ⟨⟨by simp, rfl, by decide, by simp; decide, by simp⟩,
        List.forall_mem_singleton.2 ⟨by simp, rfl, by decide, by simp; decide, ?_⟩⟩⟩
    · rintro _ ⟨⟩
      exact ⟨apostrophe, "a,b".toList, .inl rfl, rfl, by simp; decide⟩
    · rintro _ ⟨⟩
      exact ⟨quotationMark, "it's".toList, .inr rfl, rfl, by simp; decide⟩
  exact ⟨by decide, tokenize_listing (by decide) (by simp) (by decide) printed⟩

end Markup

end PugWeave
