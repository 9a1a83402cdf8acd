import Mathlib.Data.List.Chain
import PugWeave.Proofs.Markup.Listing

namespace PugWeave.Markup

open Lexer
open Text

/-- No attribute with a value stands directly in front of one whose name begins with an operator. -/
def Apart (items : List (Text × Entry)) : Prop :=
  items.IsChain fun a b => a.2.value.isSome = true → ∀ d ∈ b.2.spelling.head?, isOperator d = false

namespace Lexer

theorem plain_of_isOperator {d : Char} (h : isOperator d = true) :
    isQuote d = false ∧ isOpening d = false ∧ isClosing d = false ∧ isBlank d = false ∧
      d ≠ ')' ∧ d ≠ ',' := by
  have operators : ∀ d ∈ "+-*/%?:|&<>=!".toList, isQuote d = false ∧ isOpening d = false ∧
      isClosing d = false ∧ isBlank d = false ∧ d ≠ ')' ∧ d ≠ ',' := by simp; decide
  exact operators d (of_decide_eq_true h)

section

variable {opened depth line : Nat} {last d : Char} {v w read : Text} {cursor : Cursor}

theorem readValue_operator (h : isOperator d = true) (u : Text) :
    readValue opened depth last line (d :: u) = passing [d] (readValue opened depth d line u) := by
  obtain ⟨quote, opening, closing, blank, round, comma⟩ := plain_of_isOperator h
  rw [readValue, if_neg (by simp [quote]), if_neg (by simp [opening]), if_neg (by simp [closing]),
    if_neg (by simp [round, comma]), if_pos (by simp [blank])]

theorem exists_of_readValue_operator (hv : IsLiteral v) (next : (trimStart w).head? = some d)
    (h : isOperator d = true) (other : d ≠ '!')
    (hr : readValue opened 0 last line (v ++ ' ' :: w) = .ok (read, cursor)) :
    ∃ more, read = v ++ more ∧ d ∈ more := by
  obtain ⟨quote, body, hq, rfl, hs⟩ := hv
  obtain ⟨x, rest, hx, hr⟩ := (readValue_quote_eq_ok_iff hq).1 hr
  change readString quote line (body ++ ' ' :: w) = _ at hx
  rw [readString_rest hq hs] at hx
  cases hx
  have start : trimStart (' ' :: w) = trimStart w := rfl
  obtain ⟨u, hu⟩ := List.head?_eq_some_iff.1 next
  rw [readValue_gap _ _ _ (by rfl), start, hu, if_pos (by simp [continues, h, other]),
    readValue_operator h, passing_passing, passing_passing] at hr
  obtain ⟨more, -, rfl⟩ := passing_eq_ok_iff.1 hr
  exact ⟨indentation (' ' :: w) ++ (d :: more), by simp, by simp⟩

theorem IsLiteral.trim_append_ne (hv : IsLiteral v) {more : Text} (mem : d ∈ more)
    (full : isBlank d = false) : trim (v ++ more) ≠ v := by
  have full : isBlankLine more = false := by
    cases hb : isBlankLine more with
    | false => rfl
    | true =>
      rw [List.all_eq_true.1 hb d mem] at full
      cases full
  obtain ⟨b, blank, whole⟩ := exists_blank_trimEnd more
  rw [trim, (hv.trimStart_append more).1, trimEnd_append v full]
  intro same
  rw [show trimEnd more = [] by simpa using same, List.nil_append] at whole
  rw [← whole, blank] at full
  cases full

theorem readAttr_operator {e : Entry} (reads : e.Reads) (hv : e.value = some v)
    (next : (trimStart w).head? = some d) (h : isOperator d = true) (other : d ≠ '!') {c : Char}
    {r : Text} (text : e.text ++ ' ' :: w = c :: r) {spot : Spot}
    (hs : readAttr opened line c r = .ok (spot, cursor)) (here : Nat) :
    spot.token ≠ .attr e.name (some v) here := by
  obtain ⟨c', r', spelling, hname⟩ := reads.name
  have literal := reads.value v hv
  have name := readName_append (d := '=') (by decide) hname line (v ++ ' ' :: w)
  have assigned : assigned? ('=' :: (v ++ ' ' :: w)) = some (v ++ ' ' :: w) := rfl
  have start := literal.trimStart_append (' ' :: w)
  obtain ⟨rfl, rfl⟩ : c' = c ∧ r' ++ '=' :: (v ++ ' ' :: w) = r := by
    simpa [Entry.text, hv, spelling] using text
  rw [readAttr, name] at hs
  simp only [assigned, start.1, start.2] at hs
  split at hs
  · cases hs
  · rename_i read cursor hr
    cases hs
    obtain ⟨more, rfl, mem⟩ := exists_of_readValue_operator literal next h other hr
    intro same
    refine literal.trim_append_ne mem (plain_of_isOperator h).2.2.2.1 ?_
    injection same with _ value
    exact Option.some.inj value

end

theorem exists_text_of_reads {e : Entry} (reads : e.Reads) :
    ∃ c r, e.text = c :: r ∧ e.spelling.head? = some c ∧ isBlank c = false ∧
      c ∉ [',', ')', '=', '!'] := by
  obtain ⟨c, r, spelling, hname⟩ := reads.name
  have text : ∃ r, e.text = c :: r := by
    cases hv : e.value <;> simp [Entry.text, hv, spelling]
  obtain ⟨r', text⟩ := text
  exact ⟨c, r', text, by rw [spelling]; rfl, head_of_readName hname⟩

theorem head?_of_reads {e : Entry} (reads : e.Reads) {gap : Text}
    (blank : ∀ c ∈ gap, isBlank c = true) (u : Text) :
    ∃ d, e.spelling.head? = some d ∧ (trimStart (gap ++ (e.text ++ u))).head? = some d ∧
      d ≠ '=' ∧ d ≠ '!' := by
  obtain ⟨d, r, text, spelling, full, other⟩ := exists_text_of_reads reads
  simp only [List.mem_cons, List.not_mem_nil, or_false, not_or] at other
  refine ⟨d, spelling, ?_, other.2.2⟩
  rw [trimStart_blank_append blank, text, List.cons_append, trimStart_eq_self (by simpa using full),
    List.head?_cons]

theorem endsAt_space {e : Entry} {next : Text × Entry}
    (next_ok : (∀ c ∈ next.1, isBlank c = true) ∧ next.2.Reads)
    (apart : e.value.isSome = true → ∀ d ∈ next.2.spelling.head?, isOperator d = false) :
    e.EndsAt (' ' :: (next.1 ++ next.2.text)) := by
  obtain ⟨d, spelling, front, equals, differs⟩ := head?_of_reads next_ok.2 next_ok.1 []
  rw [List.append_nil] at front
  exact .blank (by rfl) front equals differs fun valued => apart valued d spelling

theorem apart_of_readList_cons {opened line : Nat} {item next : Text × Entry}
    {later : List (Text × Entry)} {read more : List Spot} {cursor : Cursor}
    (item_ok : (∀ c ∈ item.1, isBlank c = true) ∧ item.2.Reads)
    (next_ok : (∀ c ∈ next.1, isBlank c = true) ∧ next.2.Reads)
    (hr : readList opened line (written ' ' (item :: next :: later)) = .ok (read, cursor))
    (same : (read ++ more).map Spot.token = attrTokens line (item :: next :: later))
    (valued : item.2.value.isSome = true) : ∀ d ∈ next.2.spelling.head?, isOperator d = false := by
  intro d hd
  rw [← Bool.not_eq_true]
  intro operator
  obtain ⟨v, hv⟩ := Option.isSome_iff_exists.1 valued
  obtain ⟨u, hu⟩ := exists_of_written ' ' next later
  obtain ⟨d', spelling, front, -, differs⟩ := head?_of_reads next_ok.2 next_ok.1 u
  obtain rfl : d' = d := Option.some.inj (spelling.symm.trans hd)
  obtain ⟨c, r, text, -, full, other⟩ := exists_text_of_reads item_ok.2
  simp only [List.mem_cons, List.not_mem_nil, or_false, not_or] at other
  rw [written_cons, readList_gap opened line fun c hc => .inl (item_ok.1 c hc), text,
    List.cons_append] at hr
  obtain ⟨spot, mid, tail, ha, -, rfl⟩ :=
    (readList_attr_eq_ok_iff (by simp [full, other.1]) other.2.1).1 hr
  refine readAttr_operator item_ok.2 hv (hu ▸ front) operator differs ?_ ha
    (line + breaks item.1) ?_
  · rw [text, List.cons_append]
  · rw [← hv]
    exact (List.cons.inj same).1

section

variable {items : List (Text × Entry)}
  (items_ok : ∀ item ∈ items, (∀ c ∈ item.1, isBlank c = true) ∧ item.2.Reads)
include items_ok

theorem ends_of_apart (apart : Apart items) :
    items.IsChain fun a b => a.2.EndsAt (' ' :: (b.1 ++ b.2.text)) := by
  induction apart with
  | nil => exact .nil
  | singleton => exact .singleton _
  | cons_cons apart _ ih =>
    rw [List.forall_mem_cons] at items_ok
    exact .cons_cons (endsAt_space (items_ok.2 _ List.mem_cons_self) apart) (ih items_ok.2)

theorem apart_of_readList {opened line : Nat} {read more : List Spot} {cursor : Cursor}
    (hr : readList opened line (written ' ' items) = .ok (read, cursor))
    (same : (read ++ more).map Spot.token = attrTokens line items) : Apart items := by
  induction items generalizing line read with
  | nil => exact .nil
  | cons item later ih =>
    rw [List.forall_mem_cons] at items_ok
    obtain ⟨item_ok, later_ok⟩ := items_ok
    have blank : ∀ c ∈ item.1, isBlank c = true ∨ c = ',' := fun c hc => .inl (item_ok.1 c hc)
    cases later with
    | nil => exact .singleton _
    | cons next later =>
      have next_ok := later_ok _ List.mem_cons_self
      have apart := apart_of_readList_cons item_ok next_ok hr same
      -- The entry ends at its space after all, so that the rest is read as it was written, too.
      obtain ⟨spot, -, hl⟩ :=
        readList_entry opened line blank item_ok.2 ((endsAt_space next_ok apart).written later)
      rw [written_cons, hl, readList_separator (.inr rfl)] at hr
      obtain ⟨tail, ht, rfl⟩ := passing_eq_ok_iff.1 hr
      exact .cons_cons apart (ih later_ok ht (List.cons.inj same).2)

end

end Lexer

theorem operator_unify (t : Text) : (∀ d ∈ (unify t).head?, isOperator d = false) ↔
    ∀ d ∈ t.head?, isOperator d = false := by
  have breaks : isOperator '\r' = false ∧ isOperator '\n' = false := ⟨rfl, rfl⟩
  fun_cases unify t with
  | case1 => rfl
  | case2 => simp [breaks]
  | case3 c r =>
    cases hc : isBreak c with
    | true =>
      have : c = '\r' ∨ c = '\n' := by simpa [isBreak] using hc
      rcases this with rfl | rfl <;> simp [breaks]
    | false => simp

theorem apart_unifiedItems {items : List (Text × Entry)} :
    Apart (unifiedItems items) ↔ Apart items := by
  rw [Apart, unifiedItems, List.isChain_map, Apart]
  simp only [Entry.unified, Option.isSome_map, operator_unify]

/-- With a space for each comma, attributes are read as before exactly if they stand apart. -/
theorem tokenize_listing_space_iff {tag : Text} (name : IsTagName tag) {items : List (Text × Entry)}
    (printed : ∀ item ∈ items, (∀ c ∈ item.1, c = ' ' ∨ c = '\n') ∧ item.2.unified.Reads) :
    let tokens := .tag tag 1 :: attrTokens 1 (unifiedItems items)
    tokenize (listing tag ',' items) = .ok tokens ∧
      (tokenize (listing tag ' ' items) = .ok tokens ↔ Apart items) := by
  have items_ok := unifiedItems_ok printed
  refine ⟨tokenize_listing_of_ends name (.inl rfl) printed
    (List.isChain_iff_getElem.2 fun _ _ => .mark (.inl rfl)), fun read => ?_, fun apart => ?_⟩
  · rw [tokenize_eq, unify_listing name.unbroken rfl (no_return_of_printed printed)] at read
    cases hs : readLines none 1 (listing tag ' ' (unifiedItems items)) with
    | error e => simp [hs, Except.map] at read
    | ok found =>
      rw [hs] at read
      obtain ⟨first, mid, more, hl, rfl⟩ := name.exists_of_readLines _ hs
      have same := List.cons.inj (Except.ok.inj read)
      exact apart_unifiedItems.1 (apart_of_readList items_ok hl same.2)
  · exact tokenize_listing_of_ends name (.inr rfl) printed
      (ends_of_apart items_ok (apart_unifiedItems.2 apart))

theorem tokenize_listing_space_template :
    let items := [([], ⟨"x y".toList, "'x y'".toList, some "`1\r2`".toList⟩),
      ([], ⟨"b".toList, "b".toList, none⟩), ([], ⟨":c".toList, ":c".toList, some "'3'".toList⟩)]
    let tokens := [.tag "a".toList 1, .attr "x y".toList "`1\n2`".toList 1,
      .attr "b".toList none 2, .attr ":c".toList "'3'".toList 2]
    listing "a".toList ' ' items = "a('x y'=`1\r2` b :c='3')".toList ∧ Apart items ∧
      tokenize (listing "a".toList ',' items) = .ok tokens ∧
      tokenize (listing "a".toList ' ' items) = .ok tokens := by
  intro items tokens
  have printed : ∀ item ∈ items, (∀ c ∈ item.1, c = ' ' ∨ c = '\n') ∧ item.2.unified.Reads := by
    refine List.forall_mem_cons.2 ⟨⟨by simp, ⟨_, _, rfl, rfl⟩, ?_⟩,
      List.forall_mem_cons.2 ⟨⟨by simp, ⟨_, _, rfl, rfl⟩, by simp [Entry.unified]⟩,
        List.forall_mem_singleton.2 ⟨by simp, ⟨_, _, rfl, rfl⟩, ?_⟩⟩⟩
    · rintro _ ⟨⟩
      exact ⟨backtick, "1\n2`".toList, rfl, rfl, rfl⟩
    · rintro _ ⟨⟩
      exact ⟨apostrophe, "3'".toList, rfl, rfl, rfl⟩
  have apart : Apart items := by
    refine .cons_cons (fun _ => by simp; decide) (.cons_cons (fun valued => ?_) (.singleton _))
    cases valued
  have name : IsTagName "a".toList :=
    isTagName_of_alphanum (by decide) (by simp) (by decide)
  have read := tokenize_listing_space_iff name printed
  exact ⟨by decide, apart, read.1, read.2.2 apart⟩

theorem tokenize_listing_space_operator :
    let items := [([], ⟨"x".toList, "x".toList, some "'1'".toList⟩),
      ([], ⟨":y".toList, ":y".toList, some "'2'".toList⟩)]
    listing "a".toList ' ' items = "a(x='1' :y='2')".toList ∧
      (∀ item ∈ items, item.2.Reads) ∧
      tokenize (listing "a".toList ',' items) = .ok [.tag "a".toList 1,
        .attr "x".toList "'1'".toList 1, .attr ":y".toList "'2'".toList 1] ∧
      tokenize (listing "a".toList ' ' items) = .ok [.tag "a".toList 1,
        .attr "x".toList "'1' :y='2'".toList 1] ∧
      tokenize (listing "a".toList ' ' items) ≠ tokenize (listing "a".toList ',' items) := by
  intro items
  have reads : ∀ item ∈ items, item.2.Reads := by
    refine List.forall_mem_cons.2 ⟨⟨⟨_, _, rfl, rfl⟩, ?_⟩,
      List.forall_mem_singleton.2 ⟨⟨_, _, rfl, rfl⟩, ?_⟩⟩
    · rintro _ ⟨⟩
      exact ⟨apostrophe, "1'".toList, rfl, rfl, rfl⟩
    · rintro _ ⟨⟩
      exact ⟨apostrophe, "2'".toList, rfl, rfl, rfl⟩
  exact ⟨by decide, reads, by decide +kernel, by decide +kernel, by decide +kernel⟩

end PugWeave.Markup
