import PugWeave.Markup.Token
import PugWeave.Text.Letters
import PugWeave.Text.Lines

/-!
Reading tokens. A scan takes the characters that are left, all of them after the line it stands on
included, and returns what it read and the rest; it also carries the number of its line. A tag and
what belongs to it stay on one line, only an attribute list runs on over the following lines. Where
tokens stand is written down on the way.
-/

namespace PugWeave.Markup.Lexer

open Text

structure Cursor where
  line : Nat
  rest : Text
  deriving DecidableEq, Repr

def breaks (t : Text) : Nat := t.count '\n'

def passing (seen : List α) (scan : Except ε (List α × β)) : Except ε (List α × β) :=
  scan.map fun (read, rest) => (seen ++ read, rest)

theorem passing_eq_ok_iff {seen read : List α} {rest : β} {scan : Except ε (List α × β)} :
    passing seen scan = .ok (read, rest) ↔
      ∃ tail, scan = .ok (tail, rest) ∧ seen ++ tail = read := by
  cases scan with
  | error => simp [passing, Except.map]
  | ok p => cases p; simp [passing, Except.map, and_comm, and_assoc]

/-- Reads a string after its opening quote, with the closing quote. A backslash hides the character
after it, and only a template string runs over a line break. -/
def readString (quote : Char) (start : Nat) : Text → Except LexError (Text × Text)
  | [] => .error ⟨start, if quote = backtick then .unclosedList else .unterminatedString⟩
  | '\\' :: c :: r =>
    if c = '\n' && quote ≠ backtick then .error ⟨start, .unterminatedString⟩
    else passing ['\\', c] (readString quote start r)
  | c :: r =>
    if c = quote then .ok ([c], r)
    else if c = '\n' && quote ≠ backtick then .error ⟨start, .unterminatedString⟩
    else passing [c] (readString quote start r)

theorem append_of_readString {quote : Char} {start : Nat} {s body rest : Text}
    (h : readString quote start s = .ok (body, rest)) : body ++ rest = s := by
  fun_induction readString quote start s generalizing body with
  | case3 c r _ ih | case6 c r _ _ _ ih =>
    obtain ⟨tail, hr, rfl⟩ := passing_eq_ok_iff.1 h
    simp [ih hr]
  | case4 =>
    obtain ⟨rfl, rfl⟩ : [quote] = body ∧ _ = rest := by simpa using h
    rfl
  | _ => simp_all

def isOperator (c : Char) : Bool := c ∈ "+-*/%?:|&<>=!".toList

def isOpening (c : Char) : Bool := c = '(' || c = '[' || c = '\x7b'

def isClosing (c : Char) : Bool := c = ')' || c = ']' || c = '\x7d'

/-- A blank outside brackets does not end a value next to an operator. A `!` after the blank opens
the `!=` of an attribute and is none. -/
def continues (last : Char) (next : Option Char) : Bool :=
  isOperator last || next.any fun c => isOperator c && c ≠ '!'

/-- Reads a value up to the blank, comma or bracket that ends it. `opened` is the line of the
attribute list, `depth` the number of open brackets and `last` the last character that is not
blank. -/
def readValue (opened depth : Nat) (last : Char) (line : Nat) (s : Text) :
    Except LexError (Text × Cursor) :=
  match s with
  | [] => .error ⟨opened, .unclosedList⟩
  | c :: r =>
    if isQuote c then
      match h : readString c line r with
      | .error e => .error e
      | .ok (body, rest) =>
        have : rest.length ≤ r.length := by simp [← append_of_readString h]
        passing (c :: body) (readValue opened depth c (line + breaks body) rest)
    else if isOpening c then passing [c] (readValue opened (depth + 1) c line r)
    else if isClosing c && depth > 0 then passing [c] (readValue opened (depth - 1) c line r)
    else if depth = 0 && (c = ')' || c = ',') then .ok ([], ⟨line, s⟩)
    else if !isBlank c then passing [c] (readValue opened depth c line r)
    else if depth > 0 then passing [c] (readValue opened depth last (line + breaks [c]) r)
    else if continues last (trimStart r).head? then
      have : (trimStart r).length ≤ r.length := (List.dropWhile_sublist _).length_le
      passing (c :: indentation r)
        (readValue opened depth last (line + breaks (c :: indentation r)) (trimStart r))
    else .ok ([], ⟨line, s⟩)
  termination_by s.length

theorem append_of_readValue {opened depth line : Nat} {last : Char} {s read : Text}
    {cursor : Cursor} (h : readValue opened depth last line s = .ok (read, cursor)) :
    read ++ cursor.rest = s := by
  fun_induction readValue opened depth last line s generalizing read with
  | case3 _ _ _ _ _ _ body rest hs _ ih =>
    obtain ⟨tail, hr, rfl⟩ := passing_eq_ok_iff.1 h
    simp [ih hr, append_of_readString hs]
  | case4 | case5 | case7 | case8 | case9 =>
    rename_i ih
    obtain ⟨tail, hr, rfl⟩ := passing_eq_ok_iff.1 h
    simp [ih hr]
  | case6 | case10 =>
    obtain ⟨rfl, rfl⟩ : [] = read ∧ _ = cursor := by simpa using h
    rfl
  | _ => simp_all

def isPlainNameChar (c : Char) : Bool :=
  !isBlank c && c ∉ ['=', '!', ',', ')', '(', apostrophe, quotationMark]

def readName (line : Nat) (c : Char) (r : Text) : Except LexError (Text × Text) :=
  if c = apostrophe || c = quotationMark then
    (readString c line r).map fun (body, rest) => (body.dropLast, rest)
  else if isPlainNameChar c then
    .ok (c :: r.takeWhile isPlainNameChar, r.dropWhile isPlainNameChar)
  else .error ⟨line, .unexpected c⟩

theorem suffix_of_readName {line : Nat} {c : Char} {r name rest : Text}
    (h : readName line c r = .ok (name, rest)) : rest <:+ r := by
  simp only [readName] at h
  split at h
  · cases hs : readString c line r with
    | error => simp [hs, Except.map] at h
    | ok p =>
      obtain ⟨_, rfl⟩ : _ ∧ p.2 = rest := by simpa [hs, Except.map] using h
      simp [← append_of_readString hs]
  · split at h
    · obtain ⟨_, rfl⟩ : _ ∧ r.dropWhile isPlainNameChar = rest := by simpa using h
      exact List.dropWhile_suffix _
    · simp at h

def isSpaceOrTab (c : Char) : Bool := c = ' ' || c = '\t'

def assigned? (s : Text) : Option Text :=
  match s.dropWhile isSpaceOrTab with
  | '=' :: r => some r
  | '!' :: '=' :: r => some r
  | _ => none

theorem suffix_of_assigned? {s r : Text} (h : assigned? s = some r) : r <:+ s := by
  have suffix := List.dropWhile_suffix isSpaceOrTab (l := s)
  simp only [assigned?] at h
  split at h
  · rename_i hd
    cases h
    rw [hd] at suffix
    exact (List.suffix_cons _ _).trans suffix
  · rename_i hd
    cases h
    rw [hd] at suffix
    exact (List.suffix_append ['!', '='] r).trans suffix
  · simp at h

def readAttr (opened line : Nat) (c : Char) (r : Text) : Except LexError (Spot × Cursor) :=
  match readName line c r with
  | .error e => .error e
  | .ok (name, rest) =>
    match assigned? rest with
    | none => .ok (⟨.attr name none line, (c :: r).length⟩, ⟨line, rest⟩)
    | some s =>
      match readValue opened 0 '=' (line + breaks (indentation s)) (trimStart s) with
      | .error e => .error e
      | .ok (read, cursor) =>
        .ok (⟨.attr name (some (trim read)) line, (trimStart s).length⟩, cursor)

theorem suffix_of_readValue {opened depth line : Nat} {last : Char} {s read : Text}
    {cursor : Cursor} (h : readValue opened depth last line s = .ok (read, cursor)) :
    cursor.rest <:+ s := ⟨read, append_of_readValue h⟩

theorem suffix_of_readAttr {opened line : Nat} {c : Char} {r : Text} {spot : Spot}
    {cursor : Cursor} (h : readAttr opened line c r = .ok (spot, cursor)) :
    cursor.rest <:+ r := by
  simp only [readAttr] at h
  split at h
  · simp at h
  · rename_i hn
    split at h
    · obtain ⟨_, rfl⟩ : _ ∧ _ = cursor := by simpa using h
      exact suffix_of_readName hn
    · rename_i s ha
      split at h
      · simp at h
      · rename_i hv
        obtain ⟨_, rfl⟩ : _ ∧ _ = cursor := by simpa using h
        have value := (suffix_of_readValue hv).trans (List.dropWhile_suffix _)
        exact value.trans ((suffix_of_assigned? ha).trans (suffix_of_readName hn))

def readList (opened line : Nat) (s : Text) : Except LexError (List Spot × Cursor) :=
  match s with
  | [] => .error ⟨opened, .unclosedList⟩
  | c :: r =>
    if isBlank c || c = ',' then readList opened (line + breaks [c]) r
    else if c = ')' then .ok ([], ⟨line, r⟩)
    else
      match h : readAttr opened line c r with
      | .error e => .error e
      | .ok (spot, cursor) =>
        have := (suffix_of_readAttr h).length_le
        passing [spot] (readList opened cursor.line cursor.rest)
  termination_by s.length

theorem suffix_of_readList {opened line : Nat} {s : Text} {spots : List Spot} {cursor : Cursor}
    (h : readList opened line s = .ok (spots, cursor)) : cursor.rest <:+ s := by
  fun_induction readList opened line s generalizing spots with
  | case2 _ _ _ _ ih => exact (ih h).trans (List.suffix_cons _ _)
  | case3 =>
    obtain ⟨_, rfl⟩ : _ ∧ _ = cursor := by simpa using h
    exact List.suffix_cons _ _
  | case5 _ _ _ _ _ _ _ ha _ ih =>
    obtain ⟨tail, hr, _⟩ := passing_eq_ok_iff.1 h
    exact ((ih hr).trans (suffix_of_readAttr ha)).trans (List.suffix_cons _ _)
  | _ => simp_all

def readBalanced (opened depth line : Nat) (s : Text) : Except LexError Cursor :=
  match s with
  | [] => .error ⟨opened, .unclosedList⟩
  | c :: r =>
    if isQuote c then
      match h : readString c line r with
      | .error e => .error e
      | .ok (body, rest) =>
        have : rest.length ≤ r.length := by simp [← append_of_readString h]
        readBalanced opened depth (line + breaks body) rest
    else if c = '(' then readBalanced opened (depth + 1) line r
    else if c = ')' then
      match depth with
      | 0 => .ok ⟨line, r⟩
      | depth + 1 => readBalanced opened depth line r
    else readBalanced opened depth (line + breaks [c]) r
  termination_by s.length

theorem suffix_of_readBalanced {opened depth line : Nat} {s : Text} {cursor : Cursor}
    (h : readBalanced opened depth line s = .ok cursor) : cursor.rest <:+ s := by
  fun_induction readBalanced opened depth line s with
  | case3 _ _ _ _ _ body _ hs _ ih =>
    exact ((ih h).trans ⟨body, append_of_readString hs⟩).trans (List.suffix_cons _ _)
  | case4 | case6 | case7 =>
    rename_i ih
    exact (ih h).trans (List.suffix_cons _ _)
  | case5 =>
    obtain rfl : _ = cursor := by simpa using h
    exact List.suffix_cons _ _
  | _ => simp_all

/-- Reads a spread object: all up to its opening bracket, and on to the closing one. If no bracket
opens on the line, that is the rest of the line. -/
def readSpread (line : Nat) : Text → Except LexError Cursor
  | [] => .ok ⟨line, []⟩
  | c :: r =>
    if c = '(' then readBalanced line 0 line r
    else if c = '\n' then .ok ⟨line, c :: r⟩
    else readSpread line r

theorem suffix_of_readSpread {line : Nat} {s : Text} {cursor : Cursor}
    (h : readSpread line s = .ok cursor) : cursor.rest <:+ s := by
  fun_induction readSpread line s with
  | case2 => exact (suffix_of_readBalanced h).trans (List.suffix_cons _ _)
  | case4 _ _ _ _ ih => exact (ih h).trans (List.suffix_cons _ _)
  | _ =>
    obtain rfl : _ = cursor := by simpa using h
    exact List.suffix_refl _

def readTail (line : Nat) (s : Text) : Except LexError (List Spot × Cursor) :=
  match s with
  | [] => .ok ([], ⟨line, []⟩)
  | c :: r =>
    if (c = '.' || c = '#') && r.head?.any isNameChar then
      have : (r.dropWhile isNameChar).length ≤ r.length := (List.dropWhile_sublist _).length_le
      readTail line (r.dropWhile isNameChar)
    else if c = '(' then
      match h : readList line line r with
      | .error e => .error e
      | .ok (spots, cursor) =>
        have := (suffix_of_readList h).length_le
        passing spots (readTail cursor.line cursor.rest)
    else if c = '&' && "attr".toList.isPrefixOf r then
      match h : readSpread line r with
      | .error e => .error e
      | .ok cursor =>
        have := (suffix_of_readSpread h).length_le
        readTail cursor.line cursor.rest
    else .ok ([], ⟨line, s⟩)
  termination_by s.length

theorem suffix_of_readTail {line : Nat} {s : Text} {spots : List Spot} {cursor : Cursor}
    (h : readTail line s = .ok (spots, cursor)) : cursor.rest <:+ s := by
  fun_induction readTail line s generalizing spots with
  | case1 | case7 =>
    obtain ⟨_, rfl⟩ : _ ∧ _ = cursor := by simpa using h
    exact List.suffix_refl _
  | case2 _ _ _ _ _ ih =>
    exact ((ih h).trans (List.dropWhile_suffix _)).trans (List.suffix_cons _ _)
  | case4 _ _ _ _ hl _ _ ih =>
    obtain ⟨tail, hr, _⟩ := passing_eq_ok_iff.1 h
    exact ((ih hr).trans (suffix_of_readList hl)).trans (List.suffix_cons _ _)
  | case6 _ _ _ _ _ _ _ hl _ ih =>
    exact ((ih h).trans (suffix_of_readSpread hl)).trans (List.suffix_cons _ _)
  | _ => simp at h

/-- Reads a tag's name. The name ends in a character of a word, so that a colon after it is left
over. -/
def readTagName (s : Text) : Text × Text :=
  if s.head?.any fun c => isAlphabetic c || c = '_' then
    let run := s.takeWhile fun c => isNameChar c || c = ':'
    let name := (run.reverse.dropWhile fun c => c = ':' || c = '-').reverse
    (name, s.drop name.length)
  else ([], s)

/-- The name of the tag at the front of a text and the text after it. A class or an id without a
tag belongs to a `div`. -/
def tagName (s : Text) : Text × Text :=
  if s.head?.any fun c => c = '.' || c = '#' then ("div".toList, s) else readTagName s

theorem suffix_of_tagName (s : Text) : (tagName s).2 <:+ s := by
  simp only [tagName, readTagName]
  split
  · exact List.suffix_refl _
  · split
    · exact List.drop_suffix _ _
    · exact List.suffix_refl _

def nested? : Text → Option Text
  | ':' :: c :: r => if isBlank c && c ≠ '\n' then some ((c :: r).dropWhile isSpaceOrTab) else none
  | _ => none

theorem suffix_of_nested? {s r : Text} (h : nested? s = some r) :
    r <:+ s ∧ r.length < s.length := by
  simp only [nested?] at h
  split at h
  · rename_i c r'
    split at h
    · cases h
      have suffix := List.dropWhile_suffix isSpaceOrTab (l := c :: r')
      exact ⟨suffix.trans (List.suffix_cons _ _), Nat.lt_succ_of_le suffix.length_le⟩
    · simp at h
  · simp at h

def endsInDot : Text → Bool
  | '.' :: r => isBlankLine (r.takeWhile (· ≠ '\n'))
  | _ => false

def tagSpot (line : Nat) (s : Text) : Spot := ⟨.tag (tagName s).1 line, s.length⟩

/-- Reads a tag and the tags nested in it on the same line. The flag tells whether the line ends in
a dot, which opens raw text. -/
def readTags (line : Nat) (s : Text) : Except LexError (List Spot × Bool × Cursor) :=
  if (tagName s).1.isEmpty then .ok ([], false, ⟨line, s⟩)
  else
    match h : readTail line (tagName s).2 with
    | .error e => .error e
    | .ok (spots, cursor) =>
      match hn : nested? cursor.rest with
      | none => .ok (tagSpot line s :: spots, endsInDot cursor.rest, cursor)
      | some rest =>
        have := (suffix_of_readTail h).length_le
        have := (suffix_of_tagName s).length_le
        have := (suffix_of_nested? hn).2
        passing (tagSpot line s :: spots) (readTags cursor.line rest)
  termination_by s.length

theorem suffix_of_readTags {line : Nat} {s : Text} {spots : List Spot} {opens : Bool}
    {cursor : Cursor} (h : readTags line s = .ok (spots, opens, cursor)) :
    cursor.rest <:+ s := by
  fun_induction readTags line s generalizing spots with
  | case1 =>
    obtain ⟨_, _, rfl⟩ : _ ∧ _ ∧ _ = cursor := by simpa using h
    exact List.suffix_refl _
  | case2 => simp at h
  | case3 _ s _ _ _ ht _ =>
    obtain ⟨_, _, rfl⟩ : _ ∧ _ ∧ _ = cursor := by simpa using h
    exact (suffix_of_readTail ht).trans (suffix_of_tagName s)
  | case4 _ s _ _ _ ht _ hn _ _ _ ih =>
    obtain ⟨tail, hr, _⟩ := passing_eq_ok_iff.1 h
    have nested := (ih hr).trans (suffix_of_nested? hn).1
    exact nested.trans ((suffix_of_readTail ht).trans (suffix_of_tagName s))

inductive LineKind
  | tag
  | rawText
  | plain
  deriving DecidableEq, Repr

def keywords : List Text :=
  ["append", "block", "case", "default", "doctype", "each", "else", "extends", "for", "if",
    "include", "mixin", "prepend", "unless", "when", "while", "yield"].map String.toList

def endsKeyword (after : Text) : Bool :=
  after.head?.all fun c => c = ' ' || c = '\t' || c = '(' || c = ':'

def LineKind.of (body : Text) : LineKind :=
  let starts (s : String) : Bool := s.toList.isPrefixOf body
  if starts "//" || starts ":" || body = ['-'] then .rawText
  else if ["|", "<", "-", "=", "+", "!=", "#["].any starts then .plain
  else if starts "." || starts "#" then .tag
  else
    let word := body.takeWhile isNameChar
    if !word.head?.any isAlphabetic then .plain
    else if keywords.contains word && endsKeyword (body.drop word.length) then .plain
    else .tag

/-- Reads the line that the text begins with, and the lines over which an attribute list on it
runs. `block` is the width of the indentation under which lines are raw text. The cursor returned
is on the last line that was read, at no matter what character. -/
def readLine (block : Option Nat) (line : Nat) (s : Text) :
    Except LexError (List Spot × Option Nat × Cursor) :=
  let margin := indentation (s.takeWhile (· ≠ '\n'))
  let body := trimStart (s.takeWhile (· ≠ '\n'))
  if body.isEmpty || block.any (· < margin.length) then .ok ([], block, ⟨line, s⟩)
  else if margin.contains ' ' && margin.contains '\t' then .error ⟨line, .mixedIndentation⟩
  else
    match LineKind.of body with
    | .rawText => .ok ([], some margin.length, ⟨line, s⟩)
    | .plain => .ok ([], none, ⟨line, s⟩)
    | .tag =>
      match readTags line (s.drop margin.length) with
      | .error e => .error e
      | .ok (spots, opens, cursor) =>
        .ok (spots, if opens then some margin.length else none, cursor)

theorem suffix_of_readLine {block block' : Option Nat} {line : Nat} {s : Text}
    {spots : List Spot} {cursor : Cursor}
    (h : readLine block line s = .ok (spots, block', cursor)) : cursor.rest <:+ s := by
  simp only [readLine] at h
  split at h
  · obtain ⟨_, _, rfl⟩ : _ ∧ _ ∧ _ = cursor := by simpa using h
    exact List.suffix_refl _
  · split at h
    · simp at h
    · split at h
      · obtain ⟨_, _, rfl⟩ : _ ∧ _ ∧ _ = cursor := by simpa using h
        exact List.suffix_refl _
      · obtain ⟨_, _, rfl⟩ : _ ∧ _ ∧ _ = cursor := by simpa using h
        exact List.suffix_refl _
      · split at h
        · simp at h
        · rename_i ht
          obtain ⟨_, _, rfl⟩ : _ ∧ _ ∧ _ = cursor := by simpa using h
          exact (suffix_of_readTags ht).trans (List.drop_suffix _ _)

def readLines (block : Option Nat) (line : Nat) (s : Text) : Except LexError (List Spot) :=
  match h : readLine block line s with
  | .error e => .error e
  | .ok (spots, block', cursor) =>
    match hd : cursor.rest.dropWhile (· ≠ '\n') with
    | [] => .ok spots
    | _ :: rest =>
      have := (suffix_of_readLine h).length_le
      have : rest.length < cursor.rest.length := by
        have := (List.dropWhile_sublist (· ≠ '\n') (l := cursor.rest)).length_le
        rw [hd] at this
        exact this
      (readLines block' (cursor.line + 1) rest).map (spots ++ ·)
  termination_by s.length

end Lexer

def spots (t : Text) : Except LexError (List Spot) :=
  Lexer.readLines none 1 (Text.join ['\n'] (Text.lines t))

def tokenize (t : Text) : Except LexError (List Token) := (spots t).map (·.map Spot.token)

end PugWeave.Markup
