import PugWeave.Proofs.Markup.Attempts
import PugWeave.Proofs.Markup.RawText

/-! Lexing line by line comes to what is read of the whole text. As long as lines are added, nothing
that ends at one of their breaks is decided, so that a buffer that is lexed at last is read as the
text that begins with it. -/

namespace PugWeave.Markup

open Lexer Text

def under (ls : List Text) : Text := ls.flatMap ('\n' :: ·)

@[simp] theorem under_cons (l : Text) (ls : List Text) : under (l :: ls) = '\n' :: (l ++ under ls) := by
  simp [under]

theorem join_cons_eq (l : Text) (ls : List Text) : join ['\n'] (l :: ls) = l ++ under ls := by
  induction ls generalizing l with
  | nil => simp [under, join_singleton]
  | cons m ls ih => rw [join_cons, ih, under_cons]

theorem ends_under (ls : List Text) : Ends (under ls) := by
  cases ls with
  | nil => exact .nil
  | cons l ls =>
    rw [under_cons]
    exact .newline _

theorem breaks_eq_zero {l : Text} (single : '\n' ∉ l) : breaks l = 0 := List.count_eq_zero.2 single

/-- Nothing that a text holds up to one of its line breaks is decided. -/
def Open (line : Nat) (buffer : Text) : Prop := ¬Settles (fun _ => True) (readTags line) buffer

theorem open_of_line (line : Nat) {l : Text} (single : '\n' ∉ l) : Open line l := by
  rintro ⟨x, y, rfl, -⟩
  simp at single

theorem Open.line_below {line : Nat} {buffer l : Text} (h : Open line buffer) {e : LexError}
    (more : readTags line buffer = .error e) (unclosed : e.fault = .unclosedList)
    (single : '\n' ∉ l) : Open line (buffer ++ '\n' :: l) := by
  rintro ⟨x, y, cut, decided⟩
  -- The break at which all is decided stands in the buffer, at its end, or in the line below.
  rcases List.append_eq_append_iff.1 cut with ⟨a, rfl, behind⟩ | ⟨a, rfl, behind⟩
  · cases a with
    | nil =>
      rw [List.append_nil, more] at decided
      exact decided unclosed
    | cons c a =>
      obtain ⟨rfl, rfl⟩ : '\n' = c ∧ l = a ++ '\n' :: y := by simpa using behind
      simp at single
  · cases a with
    | nil =>
      rw [List.append_nil] at more
      rw [more] at decided
      exact decided unclosed
    | cons c a =>
      obtain ⟨rfl, rfl⟩ : '\n' = c ∧ y = a ++ '\n' :: l := by simpa using behind
      exact h ⟨x, a, rfl, decided⟩

theorem Open.tags_eq {line : Nat} {buffer : Text} (h : Open line buffer) :
    Buffer.tags ⟨line, buffer⟩ buffer =
      attempted (fun p => (p.1.map Spot.token, p.2.1)) (readTags line buffer) := by
  have first : Buffer.line ⟨line, buffer⟩ buffer = line := by
    rw [Buffer.line, Buffer.before_of_append (List.nil_append _)]
    rfl
  have tags := Buffer.tags_eq (b := ⟨line, buffer⟩) (List.suffix_refl buffer)
  rw [first] at tags
  exact tags.resolve_left h

theorem Open.rest {line : Nat} {buffer : Text} (h : Open line buffer) {spots : List Spot}
    {opens : Bool} {cursor : Cursor} (read : readTags line buffer = .ok (spots, opens, cursor)) :
    '\n' ∉ cursor.rest ∧ cursor.line = line + breaks buffer := by
  -- Else the buffer would have been lexed before the line with this break was added.
  have single : '\n' ∉ cursor.rest := by
    intro broken
    obtain ⟨w, z, cut⟩ := List.append_of_mem broken
    obtain ⟨x, whole, later⟩ := readTags_rest read
    obtain ⟨spots', again, -⟩ := later w (cut ▸ .cut w z)
    exact h ⟨x ++ w, z, by rw [← whole, cut, List.append_assoc], by rw [again]; trivial⟩
  obtain ⟨x, rfl, passed, -⟩ := (laid_of_readTags read).passed.split
  refine ⟨single, ?_⟩
  rw [passed, breaks_append, breaks_eq_zero single, Nat.add_zero]

/-- What gathering lines comes to is what is read of their text: the same tokens, with the rest of
the last line that was added left in front of the lines below it, or the same error. -/
theorem Open.gather_eq {line : Nat} {buffer : Text} (h : Open line buffer) {below : List Text}
    (unbroken : ∀ l ∈ below, '\n' ∉ l) :
    match gather line buffer below with
    | .error e => readTags line (buffer ++ under below) = .error e
    | .ok (tokens, opens, more) => ∃ spots l, '\n' ∉ l ∧ spots.map Spot.token = tokens ∧
        readTags line (buffer ++ under below) = .ok (spots, opens,
          ⟨line + breaks buffer + more, l ++ under (below.drop more)⟩) := by
  -- By the lines below. What is gathered stays open as long as more lines are asked for.
  fun_induction gather line buffer below with
  | case1 below buffer tokens opens tags =>
    rw [h.tags_eq, attempted_eq_ok_iff] at tags
    obtain ⟨⟨spots, _, cursor⟩, read, same⟩ := tags
    obtain ⟨rfl, rfl⟩ := Prod.mk.inj same
    obtain ⟨single, last⟩ := h.rest read
    obtain ⟨x, rfl, later⟩ := readTags_rest read
    obtain ⟨spots', again, tokens⟩ := later _ (.extend (ends_under below) cursor.rest)
    refine ⟨spots', cursor.rest, single, tokens, ?_⟩
    rw [List.append_assoc, again, last]
    rfl
  | case2 below buffer e tags =>
    rw [h.tags_eq, attempted_eq_error_iff] at tags
    obtain ⟨e', read, same⟩ := tags
    obtain ⟨fatal, rfl⟩ := Stop.of_eq_fatal_iff.1 same
    exact readTags_fatal fatal (ends_under below) read
  | case3 buffer start tags =>
    rw [h.tags_eq, attempted_eq_error_iff] at tags
    obtain ⟨e, read, same⟩ := tags
    obtain ⟨unclosed, rfl⟩ := Stop.of_eq_more_iff.1 same
    rw [under, List.flatMap_nil, List.append_nil, read, ← unclosed]
  | case4 buffer start tags l below ih =>
    rw [h.tags_eq, attempted_eq_error_iff] at tags
    obtain ⟨e, read, same⟩ := tags
    obtain ⟨unclosed, rfl⟩ := Stop.of_eq_more_iff.1 same
    obtain ⟨single, unbroken⟩ := List.forall_mem_cons.1 unbroken
    have grown := ih (h.line_below read unclosed single) unbroken
    have text : buffer ++ '\n' :: l ++ under below = buffer ++ under (l :: below) := by simp
    have lines : line + breaks (buffer ++ '\n' :: l) = line + breaks buffer + 1 := by
      rw [breaks_append, show '\n' :: l = ['\n'] ++ l from rfl, breaks_append, breaks_eq_zero single]
      rfl
    rw [text, lines] at grown
    cases hg : gather line (buffer ++ '\n' :: l) below with
    | error e =>
      rw [hg] at grown
      exact grown
    | ok p =>
      rw [hg] at grown
      obtain ⟨spots, m, last, tokens, read⟩ := grown
      refine ⟨spots, m, last, tokens, ?_⟩
      rw [read, List.drop_succ_cons, Nat.add_assoc _ 1, Nat.add_comm 1]

theorem tokensFrom_under {block next : Option Nat} {line : Nat} {s : Text} {read : List Spot}
    {cursor : Cursor} (h : readLine block line s = .ok (read, next, cursor)) {l : Text}
    (single : '\n' ∉ l) {ls : List Text} (rest : cursor.rest = l ++ under ls)
    (below : ∀ m ms, ls = m :: ms → tokensFrom next (cursor.line + 1) (m ++ under ms) =
      gatherAll next (cursor.line + 1) ls) :
    tokensFrom block line s =
      (gatherAll next (cursor.line + 1) ls).map (read.map Spot.token ++ ·) := by
  have after : after cursor.rest = under ls := by rw [rest, after_line single (ends_under ls)]
  cases ls with
  | nil =>
    rw [tokensFrom, readLines_last h after, gatherAll]
    simp [Except.map]
  | cons m ms =>
    rw [under_cons] at after
    rw [← below m ms rfl, tokensFrom, readLines_more h after, tokensFrom]
    cases readLines next (cursor.line + 1) (m ++ under ms) <;> simp [Except.map]

theorem isPassedOver_line (block : Option Nat) {l : Text} (single : '\n' ∉ l) (ls : List Text) :
    isPassedOver block (l ++ under ls) =
      (isBlankLine l || block.any (· < (indentation l).length)) := by
  have empty : (trimStart l).isEmpty = isBlankLine l := by
    rw [Bool.eq_iff_iff, List.isEmpty_iff, trimStart_eq_nil_iff]
  rw [isPassedOver, (margin_line single (ends_under ls)).1, body_line single (ends_under ls), empty]

theorem tokensFrom_tags {block : Option Nat} {line : Nat} {l : Text} {ls : List Text}
    (unbroken : ∀ m ∈ l :: ls, '\n' ∉ m) (content : isPassedOver block (l ++ under ls) = false)
    (pure : isMixed (margin (l ++ under ls)) = false)
    (kind : LineKind.of (body (l ++ under ls)) = .tag)
    (below : ∀ (next : Option Nat) (line more : Nat) (m : Text) (ms : List Text),
      ls.drop more = m :: ms →
        tokensFrom next line (m ++ under ms) = gatherAll next line (ls.drop more)) :
    tokensFrom block line (l ++ under ls) = match gather line (trimStart l) ls with
      | .error e => .error e
      | .ok (tokens, opens, more) =>
        (gatherAll (if opens then some (margin (l ++ under ls)).length else none) (line + 1 + more)
          (ls.drop more)).map (tokens ++ ·) := by
  obtain ⟨single, unbroken⟩ := List.forall_mem_cons.1 unbroken
  have inline : '\n' ∉ trimStart l := fun mem => single ((List.dropWhile_suffix _).subset mem)
  have gathers := (open_of_line line inline).gather_eq unbroken
  rw [← (margin_line single (ends_under ls)).2] at gathers
  split
  · rename_i e hg
    rw [hg] at gathers
    have fails : readLine block line (l ++ under ls) = .error e := by
      rw [readLine_eq, content, pure, kind]
      simp only [Bool.false_eq_true, if_false, gathers]
    rw [tokensFrom, readLines_error fails]
    rfl
  · rename_i tokens opens more hg
    rw [hg] at gathers
    obtain ⟨spots, k, last, rfl, read⟩ := gathers
    have next : line + breaks (trimStart l) + more + 1 = line + 1 + more := by
      rw [breaks_eq_zero inline]
      omega
    rw [tokensFrom_under (readLine_tags content pure kind read) last rfl (below _ _ more), next]

theorem tokensFrom_eq_gatherAll (block : Option Nat) (line : Nat) {l : Text} {ls : List Text}
    (unbroken : ∀ m ∈ l :: ls, '\n' ∉ m) :
    tokensFrom block line (l ++ under ls) = gatherAll block line (l :: ls) := by
  -- By the number of lines below: an attempt can take any number of them.
  induction hn : ls.length using Nat.strongRecOn generalizing block line l ls with
  | ind n ih =>
    subst hn
    obtain ⟨single, rest⟩ := List.forall_mem_cons.1 unbroken
    have below (next : Option Nat) (line more : Nat) (m : Text) (ms : List Text)
        (left : ls.drop more = m :: ms) :
        tokensFrom next line (m ++ under ms) = gatherAll next line (ls.drop more) := by
      have less : ms.length < ls.length := by
        have length := congrArg List.length left
        rw [List.length_drop, List.length_cons] at length
        omega
      rw [left]
      exact ih _ less _ _ (left ▸ fun k hk => rest k (List.mem_of_mem_drop hk)) rfl
    have silent {next : Option Nat} (h : readLine block line (l ++ under ls) =
        .ok ([], next, ⟨line, l ++ under ls⟩)) :
        tokensFrom block line (l ++ under ls) = gatherAll next (line + 1) ls := by
      rw [tokensFrom_under h single rfl (below _ _ 0)]
      cases gatherAll next (line + 1) ls <;> rfl
    have margins := (margin_line single (ends_under ls)).1
    have bodies := body_line single (ends_under ls)
    rw [gatherAll, ← isPassedOver_line block single ls, ← margins, ← bodies]
    split
    · rename_i passed
      exact silent (by rw [readLine_eq, if_pos passed])
    · rename_i content
      rw [Bool.not_eq_true] at content
      split
      · rename_i mixed
        have fails : readLine block line (l ++ under ls) = .error ⟨line, .mixedIndentation⟩ := by
          rw [readLine_eq, content]
          exact if_pos mixed
        rw [tokensFrom, readLines_error fails]
        rfl
      · rename_i pure
        rw [Bool.not_eq_true] at pure
        split
        · rename_i kind
          exact silent (readLine_sign content pure line kind)
        · rename_i kind
          exact silent (readLine_plain content pure line kind)
        · rename_i kind
          rw [bodies]
          exact tokensFrom_tags unbroken content pure kind below

/-- A text has the tokens that lexing its lines one by one comes to, or the same error. -/
theorem tokenize_eq_gatherAll (t : Text) : tokenize t = gatherAll none 1 (lines t) := by
  obtain ⟨l, ls, ht⟩ := List.exists_cons_of_ne_nil (lines_ne_nil t)
  have unbroken := newline_not_mem_lines t
  rw [ht] at unbroken ⊢
  rw [← tokensFrom_eq_gatherAll none 1 unbroken, ← join_cons_eq, ← ht]
  rfl

end PugWeave.Markup
