import Mathlib.Data.List.TakeWhile
import PugWeave.Markup.Lexer
import PugWeave.Proofs.Text.Blanks

namespace PugWeave.Markup

def Token.outline : Token → Token
  | .tag name line => .tag name line
  | .attr name _ line => .attr name none line

namespace Lexer

open Text

def isMarginal (c : Char) : Bool := isBlank c && c ≠ '\n'

def margin (s : Text) : Text := s.takeWhile isMarginal

def inward (s : Text) : Text := s.dropWhile isMarginal

def body (s : Text) : Text := (inward s).takeWhile (· ≠ '\n')

/-- Texts that differ in nothing but the margins after their line breaks. The margins of each line
that is not blank are in a relation. -/
inductive Respaced (K : Text → Text → Prop) : Text → Text → Prop
  | nil : Respaced K [] []
  | char : c ≠ '\n' → Respaced K r r' → Respaced K (c :: r) (c :: r')
  | newline : (body r ≠ [] → K (margin r) (margin r')) → Respaced K (inward r) (inward r') →
      Respaced K ('\n' :: r) ('\n' :: r')

@[simp] theorem margin_append_inward (s : Text) : margin s ++ inward s = s :=
  List.takeWhile_append_dropWhile

theorem isBlank_of_mem_margin {s : Text} {c : Char} (h : c ∈ margin s) :
    isBlank c = true ∧ c ≠ '\n' := by
  simpa [isMarginal] using List.mem_takeWhile_imp h

theorem breaks_margin (s : Text) : breaks (margin s) = 0 :=
  List.count_eq_zero.2 fun h => (isBlank_of_mem_margin h).2 rfl

theorem breaks_of_ne {c : Char} (line : c ≠ '\n') : breaks [c] = 0 := by
  simp [breaks, line]

theorem eq_of_margin {read : Text → α} {p : Text → α → α} (nil : ∀ a, p [] a = a)
    (append : ∀ m n a, p m (p n a) = p (m ++ n) a)
    (blank : ∀ c r, isBlank c = true → c ≠ '\n' → read (c :: r) = p [c] (read r)) (s : Text) :
    read s = p (margin s) (read (inward s)) := by
  induction s with
  | nil => exact (nil _).symm
  | cons c r ih =>
    cases hc : isMarginal c with
    | false => simp [margin, inward, hc, nil]
    | true =>
      have marginal : isBlank c = true ∧ c ≠ '\n' := by simpa [isMarginal] using hc
      rw [blank c r marginal.1 marginal.2, ih, append]
      simp [margin, inward, hc]

theorem length_inward_le (s : Text) : (inward s).length ≤ s.length :=
  (List.dropWhile_sublist _).length_le

theorem trimStart_inward (s : Text) : trimStart (inward s) = trimStart s := by
  conv_rhs => rw [← margin_append_inward s]
  exact (trimStart_blank_append (fun c hc => (isBlank_of_mem_margin hc).1) _).symm

theorem breaks_append (a b : Text) : breaks (a ++ b) = breaks a + breaks b := List.count_append

@[simp] theorem passing_nil (scan : Except LexError (List α × β)) : passing [] scan = scan := by
  cases scan <;> rfl

@[simp] theorem passing_passing (a b : List α) (scan : Except LexError (List α × β)) :
    passing a (passing b scan) = passing (a ++ b) scan := by
  cases scan with
  | error => rfl
  | ok p => simp [passing, Except.map]

namespace Respaced

variable {K : Text → Text → Prop} {s s' : Text}

theorem head?_eq (h : Respaced K s s') : s'.head? = s.head? := by
  cases h <;> rfl

theorem of_append {a r : Text} (h : Respaced K (a ++ r) s') (line : '\n' ∉ a) :
    ∃ r', s' = a ++ r' ∧ Respaced K r r' := by
  induction a generalizing s' with
  | nil => exact ⟨s', rfl, h⟩
  | cons c a ih =>
    rw [List.mem_cons, not_or] at line
    cases h with
    | char _ inner =>
      obtain ⟨r', rfl, behind⟩ := ih inner line.2
      exact ⟨r', rfl, behind⟩
    | newline => exact absurd rfl line.1

theorem append {a r r' : Text} (line : '\n' ∉ a) (h : Respaced K r r') :
    Respaced K (a ++ r) (a ++ r') := by
  induction a with
  | nil => exact h
  | cons c a ih =>
    rw [List.mem_cons, not_or] at line
    exact .char (Ne.symm line.1) (ih line.2)

theorem isPrefixOf_eq (h : Respaced K s s') {a : Text} (line : '\n' ∉ a) :
    a.isPrefixOf s' = a.isPrefixOf s := by
  induction a generalizing s s' with
  | nil => simp
  | cons c a ih =>
    rw [List.mem_cons, not_or] at line
    cases h with
    | nil => rfl
    | char _ h => simp [List.isPrefixOf, ih h line.2]
    | newline =>
      have other : (c == '\n') = false := by simpa using Ne.symm line.1
      simp [List.isPrefixOf, other]

theorem dropWhile (h : Respaced K s s') {p : Char → Bool} (stops : p '\n' = false) :
    s'.takeWhile p = s.takeWhile p ∧ Respaced K (s.dropWhile p) (s'.dropWhile p) := by
  induction h with
  | nil => exact ⟨rfl, .nil⟩
  | @char c r r' other h ih =>
    cases hp : p c with
    | true => simpa [hp] using ih
    | false => simpa [hp] using Respaced.char other h
  | newline line h => simpa [stops] using Respaced.newline line h

theorem breaks_eq (h : Respaced K s s') : breaks s' = breaks s := by
  induction h with
  | nil => rfl
  | char other _ ih => simpa [breaks, List.count_cons_of_ne other] using ih
  | @newline r r' _ _ ih =>
    have step (t : Text) : breaks ('\n' :: t) = breaks (inward t) + 1 := by
      conv_lhs => rw [← margin_append_inward t]
      change breaks (['\n'] ++ (margin t ++ inward t)) = _
      rw [breaks_append, breaks_append, breaks_margin]
      simp [breaks, Nat.add_comm]
    rw [step, step, ih]

theorem breaks_front {x x' rest rest' : Text} (h : Respaced K s s') (hr : Respaced K rest rest')
    (hx : x ++ rest = s) (hx' : x' ++ rest' = s') : breaks x' = breaks x := by
  have all := h.breaks_eq
  have left := hr.breaks_eq
  rw [← hx, ← hx', breaks_append, breaks_append] at all
  omega

theorem trimStart (h : Respaced K s s') : Respaced K (trimStart s) (trimStart s') := by
  induction h with
  | nil => exact .nil
  | @char c r r' other h ih =>
    cases hc : isBlank c with
    | true => simpa [Text.trimStart, hc] using ih
    | false => simpa [Text.trimStart, hc] using Respaced.char other h
  | newline line h ih =>
    rw [trimStart_inward, trimStart_inward] at ih
    exact ih

theorem breaks_indentation (h : Respaced K s s') :
    breaks (indentation s') = breaks (indentation s) :=
  h.breaks_front h.trimStart (indentation_append_trimStart s) (indentation_append_trimStart s')

end Respaced

section

variable {K : Text → Text → Prop}

theorem readString_escape (quote : Char) (start : Nat) (c : Char) (r : Text) :
    readString quote start ('\\' :: c :: r) =
      if c = '\n' && quote ≠ backtick then .error ⟨start, .unterminatedString⟩
      else passing ['\\', c] (readString quote start r) := by
  rw [readString]

theorem readString_char (quote : Char) (start : Nat) {c : Char} (plain : c ≠ '\\') (r : Text) :
    readString quote start (c :: r) =
      if c = quote then .ok ([c], r)
      else if c = '\n' && quote ≠ backtick then .error ⟨start, .unterminatedString⟩
      else passing [c] (readString quote start r) := by
  rw [readString]
  rintro _ _ rfl
  exact absurd rfl plain

theorem readString_margin {quote : Char} (hq : isQuote quote = true) (start : Nat) (s : Text) :
    readString quote start s = passing (margin s) (readString quote start (inward s)) := by
  refine eq_of_margin passing_nil passing_passing (fun c r blank line => ?_) s
  have other : c ≠ quote := by
    rintro rfl
    rw [isQuote_of_isBlank blank] at hq
    cases hq
  have plain : c ≠ '\\' := by
    rintro rfl
    cases blank
  rw [readString_char _ _ plain, if_neg other, if_neg (by simp [line])]

theorem Respaced.readString {quote : Char} (hq : isQuote quote = true)
    {start : Nat} {s s' x rest : Text} (h : Respaced K s s')
    (hs : readString quote start s = .ok (x, rest)) :
    ∃ x' rest', readString quote start s' = .ok (x', rest') ∧ Respaced K rest rest' ∧
      (quote ≠ backtick → x' = x) := by
  induction hn : s.length using Nat.strongRecOn generalizing s s' x with
  | ind n ih =>
    subst hn
    -- Behind a line break the margins are passed over first.
    have after {r r' y : Text} (less : r.length < s.length) (hr : Respaced K (inward r) (inward r'))
        (tail : Lexer.readString quote start r = .ok (y, rest)) :
        ∃ y' rest', Lexer.readString quote start r' = .ok (y', rest') ∧ Respaced K rest rest' := by
      rw [readString_margin hq] at tail
      obtain ⟨z, hz, rfl⟩ := passing_eq_ok_iff.1 tail
      obtain ⟨z', rest', hz', rests, -⟩ :=
        ih _ (Nat.lt_of_le_of_lt (length_inward_le r) less) hr hz rfl
      exact ⟨margin r' ++ z', rest', by rw [readString_margin hq, hz']; rfl, rests⟩
    cases h with
    | nil => simp [Lexer.readString] at hs
    | @char c r r' other h =>
      by_cases escape : c = '\\'
      · subst escape
        cases h with
        | nil =>
          have slash : '\\' ≠ quote := by
            rintro rfl
            cases hq
          simp [Lexer.readString, slash, passing, Except.map] at hs
        | @char d r r' other h =>
          rw [readString_escape, if_neg (by simp [other])] at hs ⊢
          obtain ⟨y, hy, rfl⟩ := passing_eq_ok_iff.1 hs
          have less : r.length < ('\\' :: d :: r).length := by
            simp only [List.length_cons]
            omega
          obtain ⟨y', rest', hy', rests, same⟩ := ih _ less h hy rfl
          exact ⟨'\\' :: d :: y', rest', by rw [hy']; rfl, rests, fun single => by
            rw [same single]; rfl⟩
        | @newline r r' _ h =>
          rw [readString_escape] at hs ⊢
          split at hs
          · cases hs
          · rename_i template
            obtain ⟨y, hy, rfl⟩ := passing_eq_ok_iff.1 hs
            obtain ⟨y', rest', hy', rests⟩ := after (by simp only [List.length_cons]; omega) h hy
            rw [if_neg template, hy']
            exact ⟨_, rest', rfl, rests, fun single => absurd (by simpa using template) single⟩
      · rw [readString_char _ _ escape] at hs ⊢
        split at hs
        · rename_i closes
          cases hs
          rw [if_pos closes]
          exact ⟨_, r', rfl, h, fun _ => rfl⟩
        · rename_i within
          rw [if_neg (by simp [other])] at hs
          obtain ⟨y, hy, rfl⟩ := passing_eq_ok_iff.1 hs
          obtain ⟨y', rest', hy', rests, same⟩ := ih _ (by simp) h hy rfl
          rw [if_neg within, if_neg (by simp [other]), hy']
          exact ⟨c :: y', rest', rfl, rests, fun single => by rw [same single]; rfl⟩
    | @newline r r' _ h =>
      rw [readString_char _ _ (by decide)] at hs ⊢
      have within : '\n' ≠ quote := by
        rintro rfl
        cases hq
      rw [if_neg within] at hs ⊢
      split at hs
      · cases hs
      · rename_i template
        obtain ⟨y, hy, rfl⟩ := passing_eq_ok_iff.1 hs
        obtain ⟨y', rest', hy', rests⟩ := after (by simp) h hy
        rw [if_neg template, hy']
        exact ⟨_, rest', rfl, rests, fun single => absurd (by simpa using template) single⟩

theorem bind_eq_ok_iff {α β : Type} {scan : Except LexError α} {next : α → Except LexError β} {b : β} :
    scan.bind next = .ok b ↔ ∃ a, scan = .ok a ∧ next a = .ok b := by
  cases scan <;> simp [Except.bind]

theorem readValue_quote {opened depth line : Nat} {last c : Char} (hq : isQuote c = true) (r : Text) :
    readValue opened depth last line (c :: r) = (readString c line r).bind fun (body, rest) =>
      passing (c :: body) (readValue opened depth c (line + breaks body) rest) := by
  rw [readValue, if_pos hq]
  split <;> rename_i hs <;> simp [hs, Except.bind]

theorem readValue_quote_eq_ok_iff {opened depth line : Nat} {last c : Char} (hq : isQuote c = true)
    {r read : Text} {cursor : Cursor} :
    readValue opened depth last line (c :: r) = .ok (read, cursor) ↔
      ∃ x rest, readString c line r = .ok (x, rest) ∧
        passing (c :: x) (readValue opened depth c (line + breaks x) rest) =
          .ok (read, cursor) := by
  rw [readValue_quote hq, bind_eq_ok_iff, Prod.exists]

theorem isOpening_of_isBlank {c : Char} (h : isBlank c = true) : isOpening c = false := by
  cases ho : isOpening c with
  | false => rfl
  | true =>
    have : c = '(' ∨ c = '[' ∨ c = '\x7b' := by simpa [isOpening, or_assoc] using ho
    rcases this with rfl | rfl | rfl <;> cases h

theorem isClosing_of_isBlank {c : Char} (h : isBlank c = true) : isClosing c = false := by
  cases hc : isClosing c with
  | false => rfl
  | true =>
    have : c = ')' ∨ c = ']' ∨ c = '\x7d' := by simpa [isClosing, or_assoc] using hc
    rcases this with rfl | rfl | rfl <;> cases h

theorem readValue_blank (opened : Nat) {depth : Nat} (inner : 0 < depth) (last : Char) (line : Nat)
    {c : Char} (h : isBlank c = true) (r : Text) : readValue opened depth last line (c :: r) =
      passing [c] (readValue opened depth last (line + breaks [c]) r) := by
  rw [readValue, if_neg (by simp [isQuote_of_isBlank h]), if_neg (by simp [isOpening_of_isBlank h]),
    if_neg (by simp [isClosing_of_isBlank h]), if_neg (by simp; omega), if_neg (by simp [h]),
    if_pos inner]

theorem readValue_margin (opened : Nat) {depth : Nat} (inner : 0 < depth) (last : Char) (line : Nat)
    (s : Text) : readValue opened depth last line s =
      passing (margin s) (readValue opened depth last line (inward s)) := by
  refine eq_of_margin passing_nil passing_passing (fun c r blank stays => ?_) s
  rw [readValue_blank opened inner last line blank, breaks_of_ne stays, Nat.add_zero]

theorem readValue_gap (opened : Nat) (last : Char) (line : Nat) {c : Char} (h : isBlank c = true)
    (r : Text) : readValue opened 0 last line (c :: r) =
      if continues last (trimStart (c :: r)).head? then
        passing (indentation (c :: r)) (readValue opened 0 last
          (line + breaks (indentation (c :: r))) (trimStart (c :: r)))
      else .ok ([], ⟨line, c :: r⟩) := by
  have start : trimStart (c :: r) = trimStart r := by simp [trimStart, h]
  have front : indentation (c :: r) = c :: indentation r := by simp [indentation, h]
  have comma : (c = ')' || c = ',') = false := by
    cases hc : (c = ')' || c = ',' : Bool) with
    | false => rfl
    | true =>
      have : c = ')' ∨ c = ',' := by simpa using hc
      rcases this with rfl | rfl <;> cases h
  rw [start, front, readValue, if_neg (by simp [isQuote_of_isBlank h]),
    if_neg (by simp [isOpening_of_isBlank h]), if_neg (by simp [isClosing_of_isBlank h]),
    if_neg (by simp [comma]), if_neg (by simp [h]), if_neg (by simp)]

theorem Respaced.readValue {opened depth line : Nat} {last : Char}
    {s s' read : Text} {cursor : Cursor} (h : Respaced K s s')
    (hs : readValue opened depth last line s = .ok (read, cursor)) :
    ∃ read' cursor', readValue opened depth last line s' = .ok (read', cursor') ∧
      cursor'.line = cursor.line ∧ Respaced K cursor.rest cursor'.rest := by
  induction hn : s.length using Nat.strongRecOn generalizing depth line last s s' read with
  | ind n ih =>
    subst hn
    -- What is passed in front of the rest may differ, since it can hold margins.
    have next {r r' front front' x : Text} {depth line : Nat} {last : Char} (hr : Respaced K r r')
        (less : r.length < s.length)
        (hs : passing front (Lexer.readValue opened depth last line r) = .ok (x, cursor)) :
        ∃ read' cursor', passing front' (Lexer.readValue opened depth last line r') =
          .ok (read', cursor') ∧ cursor'.line = cursor.line ∧
            Respaced K cursor.rest cursor'.rest := by
      obtain ⟨y, hy, rfl⟩ := passing_eq_ok_iff.1 hs
      obtain ⟨y', cursor', hy', rest⟩ := ih _ less hr hy rfl
      exact ⟨front' ++ y', cursor', by rw [hy']; rfl, rest⟩
    cases s with
    | nil => simp [Lexer.readValue] at hs
    | cons c r =>
      cases hb : isBlank c with
      | true =>
        rcases Nat.eq_zero_or_pos depth with rfl | inner
        · obtain ⟨r', rfl⟩ : ∃ r', s' = c :: r' := by cases h <;> exact ⟨_, rfl⟩
          rw [readValue_gap _ _ _ hb] at hs ⊢
          rw [h.trimStart.head?_eq, h.breaks_indentation]
          split at hs
          · rename_i goes
            rw [if_pos goes]
            refine next h.trimStart ?_ hs
            have shorter : (Text.trimStart r).length ≤ r.length :=
              (List.dropWhile_sublist _).length_le
            simp [Text.trimStart, hb] at shorter ⊢
            omega
          · rename_i ends
            cases hs
            rw [if_neg ends]
            exact ⟨[], _, rfl, rfl, h⟩
        · cases h with
          | char other hr =>
            rw [readValue_blank _ inner _ _ hb] at hs ⊢
            exact next hr (by simp) hs
          | newline _ hr =>
            rw [readValue_blank _ inner _ _ hb, readValue_margin _ inner, passing_passing] at hs ⊢
            exact next hr (Nat.lt_succ_of_le (length_inward_le r)) hs
      | false =>
        cases h with
        | newline => cases hb
        | @char _ _ r' other hr =>
          cases hq : isQuote c with
          | true =>
            obtain ⟨x, rest, hx, hs⟩ := (readValue_quote_eq_ok_iff hq).1 hs
            obtain ⟨x', rest', hx', rests, -⟩ := hr.readString hq hx
            have count := hr.breaks_front rests (append_of_readString hx) (append_of_readString hx')
            have shorter : rest.length ≤ r.length := by simp [← append_of_readString hx]
            obtain ⟨read', cursor', hs', after⟩ := next rests (Nat.lt_succ_of_le shorter) hs
            refine ⟨read', cursor', (readValue_quote_eq_ok_iff hq).2 ⟨x', rest', hx', ?_⟩, after⟩
            rw [count]
            exact hs'
          | false =>
            rw [Lexer.readValue] at hs ⊢
            simp only [hq, hb, Bool.false_eq_true, if_false, Bool.not_false, if_true] at hs ⊢
            split at hs
            · rename_i opening
              rw [if_pos opening]
              exact next hr (by simp) hs
            · rename_i opening
              rw [if_neg opening]
              split at hs
              · rename_i closing
                rw [if_pos closing]
                exact next hr (by simp) hs
              · rename_i closing
                rw [if_neg closing]
                split at hs
                · rename_i ends
                  rw [if_pos ends]
                  cases hs
                  exact ⟨[], _, rfl, rfl, .char other hr⟩
                · rename_i ends
                  rw [if_neg ends]
                  exact next hr (by simp) hs

theorem Respaced.readName {line : Nat} {c : Char} {r r' name rest : Text}
    (h : Respaced K r r') (hn : readName line c r = .ok (name, rest)) :
    ∃ rest', readName line c r' = .ok (name, rest') ∧ Respaced K rest rest' := by
  rw [Lexer.readName] at hn ⊢
  split at hn
  · rename_i quoted
    rw [if_pos quoted]
    have hq : isQuote c = true := by
      rw [isQuote, Bool.or_eq_true]
      exact .inl quoted
    have single : c ≠ backtick := by
      rintro rfl
      cases quoted
    cases hx : Lexer.readString c line r with
    | error e => simp [hx, Except.map] at hn
    | ok p =>
      obtain ⟨x, after⟩ := p
      obtain ⟨rfl, rfl⟩ : x.dropLast = name ∧ after = rest := by simpa [hx, Except.map] using hn
      obtain ⟨x', rest', hx', rests, same⟩ := h.readString hq hx
      rw [hx', same single]
      exact ⟨rest', rfl, rests⟩
  · rename_i quoted
    rw [if_neg quoted]
    split at hn
    · rename_i plain
      obtain ⟨rfl, rfl⟩ : c :: r.takeWhile isPlainNameChar = name ∧
          r.dropWhile isPlainNameChar = rest := by simpa using hn
      obtain ⟨same, rests⟩ := h.dropWhile (p := isPlainNameChar) rfl
      rw [if_pos plain, same]
      exact ⟨_, rfl, rests⟩
    · cases hn

theorem Respaced.assigned? {s s' : Text} (h : Respaced K s s') :
    Option.Rel (Respaced K) (assigned? s) (assigned? s') := by
  obtain ⟨-, h⟩ := h.dropWhile (p := isSpaceOrTab) rfl
  rw [Lexer.assigned?, Lexer.assigned?]
  generalize s.dropWhile isSpaceOrTab = t, s'.dropWhile isSpaceOrTab = t' at h
  split
  · cases h with
    | char _ h => exact .some h
  · cases h with
    | char _ h =>
      cases h with
      | char _ h => exact .some h
  · rename_i equals differs
    split
    · cases h with
      | char => exact absurd rfl (equals _)
    · cases h with
      | char _ h =>
        cases h with
        | char => exact absurd rfl (differs _)
    · exact .none

end

end Lexer

end PugWeave.Markup
