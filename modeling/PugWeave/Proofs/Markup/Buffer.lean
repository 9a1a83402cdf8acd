import PugWeave.Markup.Lexer

/-! Lexing line by line. A line with tags is lexed on its own, and when something on it is still
open at its end, all of it is lexed again with the next line behind it. -/

namespace PugWeave.Markup

open Lexer Text

/-- Why a buffer is not lexed. A bracket or a template string that a line opened may be closed on a
line to come. -/
inductive Stop
  | more (line : Nat)
  | fatal (e : LexError)
  deriving DecidableEq, Repr

/-- The text of some lines, the number of the first of which is `first`. A place in it is given by
the text from there on. -/
structure Buffer where
  first : Nat
  text : Text
  deriving DecidableEq, Repr

namespace Buffer

variable (b : Buffer)

def before (s : Text) : Text := b.text.take (b.text.length - s.length)

def line (s : Text) : Nat := b.first + breaks (b.before s)

def last? (s : Text) : Option Char := (b.before s).reverse.find? (!isBlank ·)

def string (quote : Char) (start : Nat) : Text → Except Stop (Text × Text)
  | [] | ['\\'] =>
    .error (if quote = backtick then .more start else .fatal ⟨start, .unterminatedString⟩)
  | '\\' :: c :: r => passing ['\\', c] (string quote start r)
  | c :: r =>
    if c = '\n' && quote ≠ backtick then .error (.fatal ⟨start, .unterminatedString⟩)
    else if c = quote then .ok ([c], r)
    else passing [c] (string quote start r)

theorem append_of_string {quote : Char} {start : Nat} {s body rest : Text}
    (h : string quote start s = .ok (body, rest)) : body ++ rest = s := by
  fun_induction string quote start s generalizing body with
  | case3 c r ih | case6 c r _ _ _ _ ih =>
    obtain ⟨tail, hr, rfl⟩ := passing_eq_ok_iff.1 h
    simp [ih hr]
  | case5 =>
    obtain ⟨rfl, rfl⟩ : [quote] = body ∧ _ = rest := by simpa using h
    rfl
  | _ => simp_all

def goesOn (s : Text) : Bool :=
  (b.last? s).any isOperator || (trimStart s).head?.any fun c => isOperator c && c ≠ '!'

def value (opened depth : Nat) (s : Text) : Except Stop (Text × Text) :=
  match s with
  | [] => .error (.more opened)
  | c :: r =>
    if isQuote c then
      match h : string c (b.line (c :: r)) r with
      | .error e => .error e
      | .ok (body, rest) =>
        have : rest.length ≤ r.length := by simp [← append_of_string h]
        passing (c :: body) (value opened depth rest)
    else if isOpening c then passing [c] (value opened (depth + 1) r)
    else if isClosing c && depth > 0 then passing [c] (value opened (depth - 1) r)
    else if depth = 0 && (c = ')' || c = ',') then .ok ([], s)
    else if isBlank c && depth = 0 then
      if b.goesOn (c :: r) then
        have : (trimStart r).length ≤ r.length := (List.dropWhile_sublist _).length_le
        passing (c :: indentation r) (value opened depth (trimStart r))
      else .ok ([], s)
    else passing [c] (value opened depth r)
  termination_by s.length

theorem append_of_value {opened depth : Nat} {s read rest : Text}
    (h : b.value opened depth s = .ok (read, rest)) : read ++ rest = s := by
  fun_induction b.value opened depth s generalizing read with
  | case3 _ _ _ _ body _ hs _ ih =>
    obtain ⟨tail, hr, rfl⟩ := passing_eq_ok_iff.1 h
    simp [ih hr, append_of_string hs]
  | case4 | case5 | case7 | case9 =>
    rename_i ih
    obtain ⟨tail, hr, rfl⟩ := passing_eq_ok_iff.1 h
    simp [ih hr]
  | case6 | case8 =>
    obtain ⟨rfl, rfl⟩ : [] = read ∧ _ = rest := by simpa using h
    rfl
  | _ => simp_all

def name (start : Nat) (c : Char) (r : Text) : Except Stop (Text × Text) :=
  if c = apostrophe || c = quotationMark then
    (string c start r).map fun (body, rest) => (body.dropLast, rest)
  else if isPlainNameChar c then
    .ok (c :: r.takeWhile isPlainNameChar, r.dropWhile isPlainNameChar)
  else .error (.fatal ⟨start, .unexpected c⟩)

theorem suffix_of_name {start : Nat} {c : Char} {r name rest : Text}
    (h : Buffer.name start c r = .ok (name, rest)) : rest <:+ r := by
  simp only [Buffer.name] at h
  split at h
  · cases hs : string c start r with
    | error => simp [hs, Except.map] at h
    | ok p =>
      obtain ⟨_, rfl⟩ : _ ∧ p.2 = rest := by simpa [hs, Except.map] using h
      simp [← append_of_string hs]
  · split at h
    · obtain ⟨_, rfl⟩ : _ ∧ r.dropWhile isPlainNameChar = rest := by simpa using h
      exact List.dropWhile_suffix _
    · simp at h

def attr (opened : Nat) (c : Char) (r : Text) : Except Stop (Token × Text) :=
  match name (b.line (c :: r)) c r with
  | .error e => .error e
  | .ok (name, rest) =>
    match assigned? rest with
    | none => .ok (.attr name none (b.line (c :: r)), rest)
    | some s =>
      match b.value opened 0 (trimStart s) with
      | .error e => .error e
      | .ok (read, rest) => .ok (.attr name (some (trim read)) (b.line (c :: r)), rest)

theorem suffix_of_attr {opened : Nat} {c : Char} {r rest : Text} {token : Token}
    (h : b.attr opened c r = .ok (token, rest)) : rest <:+ r := by
  simp only [attr] at h
  split at h
  · simp at h
  · rename_i hn
    split at h
    · obtain ⟨_, rfl⟩ : _ ∧ _ = rest := by simpa using h
      exact suffix_of_name hn
    · rename_i s ha
      split at h
      · simp at h
      · rename_i hv
        obtain ⟨_, rfl⟩ : _ ∧ _ = rest := by simpa using h
        have value : _ <:+ trimStart s := ⟨_, b.append_of_value hv⟩
        exact (value.trans (List.dropWhile_suffix _)).trans
          ((suffix_of_assigned? ha).trans (suffix_of_name hn))

def list (opened : Nat) (s : Text) : Except Stop (List Token × Text) :=
  match s with
  | [] => .error (.more opened)
  | c :: r =>
    if isBlank c || c = ',' then list opened r
    else if c = ')' then .ok ([], r)
    else
      match h : b.attr opened c r with
      | .error e => .error e
      | .ok (token, rest) =>
        have := (b.suffix_of_attr h).length_le
        passing [token] (list opened rest)
  termination_by s.length

theorem suffix_of_list {opened : Nat} {s rest : Text} {tokens : List Token}
    (h : b.list opened s = .ok (tokens, rest)) : rest <:+ s := by
  fun_induction b.list opened s generalizing tokens with
  | case2 _ _ _ ih => exact (ih h).trans (List.suffix_cons _ _)
  | case3 =>
    obtain ⟨_, rfl⟩ : _ ∧ _ = rest := by simpa using h
    exact List.suffix_cons _ _
  | case5 _ _ _ _ _ _ ha _ ih =>
    obtain ⟨tail, hr, _⟩ := passing_eq_ok_iff.1 h
    exact ((ih hr).trans (b.suffix_of_attr ha)).trans (List.suffix_cons _ _)
  | _ => simp_all

def balanced (opened depth : Nat) (s : Text) : Except Stop Text :=
  match s with
  | [] => .error (.more opened)
  | c :: r =>
    if isQuote c then
      match h : string c (b.line (c :: r)) r with
      | .error e => .error e
      | .ok (body, rest) =>
        have : rest.length ≤ r.length := by simp [← append_of_string h]
        balanced opened depth rest
    else if c = '(' then balanced opened (depth + 1) r
    else if c = ')' then if depth - 1 = 0 then .ok r else balanced opened (depth - 1) r
    else balanced opened depth r
  termination_by s.length

theorem suffix_of_balanced {opened depth : Nat} {s rest : Text}
    (h : b.balanced opened depth s = .ok rest) : rest <:+ s := by
  fun_induction b.balanced opened depth s with
  | case3 _ _ _ _ body _ hs _ ih =>
    exact ((ih h).trans ⟨body, append_of_string hs⟩).trans (List.suffix_cons _ _)
  | case4 | case6 | case7 =>
    rename_i ih
    exact (ih h).trans (List.suffix_cons _ _)
  | case5 =>
    obtain rfl : _ = rest := by simpa using h
    exact List.suffix_cons _ _
  | _ => simp_all

def spread (s : Text) : Except Stop Text :=
  match s.dropWhile (· ≠ '(') with
  | [] => .ok []
  | c :: r => b.balanced (b.line (c :: r)) 0 (c :: r)

theorem suffix_of_spread {s rest : Text} (h : b.spread s = .ok rest) : rest <:+ s := by
  simp only [spread] at h
  split at h
  · cases h
    exact List.nil_suffix
  · rename_i hd
    have within := List.dropWhile_suffix (fun c => decide (c ≠ '(')) (l := s)
    rw [hd] at within
    exact (b.suffix_of_balanced h).trans within

def tail (s : Text) : Except Stop (List Token × Text) :=
  match s with
  | [] => .ok ([], [])
  | c :: r =>
    if (c = '.' || c = '#') && r.head?.any isNameChar then
      have : (r.dropWhile isNameChar).length ≤ r.length := (List.dropWhile_sublist _).length_le
      tail (r.dropWhile isNameChar)
    else if c = '(' then
      match h : b.list (b.line (c :: r)) r with
      | .error e => .error e
      | .ok (tokens, rest) =>
        have := (b.suffix_of_list h).length_le
        passing tokens (tail rest)
    else if c = '&' && "attr".toList.isPrefixOf r then
      match h : b.spread r with
      | .error e => .error e
      | .ok rest =>
        have := (b.suffix_of_spread h).length_le
        tail rest
    else .ok ([], s)
  termination_by s.length

theorem suffix_of_tail {s rest : Text} {tokens : List Token}
    (h : b.tail s = .ok (tokens, rest)) : rest <:+ s := by
  fun_induction b.tail s generalizing tokens with
  | case1 | case7 =>
    cases h
    exact List.suffix_refl _
  | case2 _ _ _ _ ih =>
    exact ((ih h).trans (List.dropWhile_suffix _)).trans (List.suffix_cons _ _)
  | case4 _ _ _ _ hl _ ih =>
    obtain ⟨tail, hr, _⟩ := passing_eq_ok_iff.1 h
    exact ((ih hr).trans (b.suffix_of_list hl)).trans (List.suffix_cons _ _)
  | case6 _ _ _ _ _ _ hl _ ih =>
    exact ((ih h).trans (b.suffix_of_spread hl)).trans (List.suffix_cons _ _)
  | _ => simp at h

def tag (s : Text) : Token := .tag (tagName s).1 (b.line (tagName s).2)

/-- The text behind a colon and blanks, or behind no more than the colon if a line ends there. -/
def nested? : Text → Option Text
  | ':' :: c :: r => if isBlank c then some ((c :: r).dropWhile isSpaceOrTab) else none
  | _ => none

theorem length_of_nested? {s r : Text} (h : nested? s = some r) : r.length < s.length := by
  simp only [nested?] at h
  split at h
  · split at h
    · cases h
      exact Nat.lt_succ_of_le (List.dropWhile_sublist _).length_le
    · simp at h
  · simp at h

def endsInDot : Text → Bool
  | '.' :: r => isBlankLine r
  | _ => false

def tags (s : Text) : Except Stop (List Token × Bool) :=
  if (tagName s).1.isEmpty then .ok ([], false)
  else
    match h : b.tail (tagName s).2 with
    | .error e => .error e
    | .ok (tokens, rest) =>
      match hn : nested? rest with
      | none => .ok (b.tag s :: tokens, endsInDot rest)
      | some r =>
        have := (b.suffix_of_tail h).length_le
        have := (suffix_of_tagName s).length_le
        have := length_of_nested? hn
        passing (b.tag s :: tokens) (tags r)
  termination_by s.length

end Buffer

/-- Lexes a buffer, with as many of the lines below it as it takes. What comes of it are the tokens,
whether they open raw text, and how many lines were added. -/
def gather (first : Nat) (buffer : Text) (below : List Text) :
    Except LexError (List Token × Bool × Nat) :=
  match Buffer.tags ⟨first, buffer⟩ buffer with
  | .ok (tokens, opens) => .ok (tokens, opens, 0)
  | .error (.fatal e) => .error e
  | .error (.more start) =>
    match below with
    | [] => .error ⟨start, .unclosedList⟩
    | l :: below =>
      (gather first (buffer ++ '\n' :: l) below).map fun (tokens, opens, more) =>
        (tokens, opens, more + 1)

def gatherAll (block : Option Nat) (line : Nat) (ls : List Text) : Except LexError (List Token) :=
  match ls with
  | [] => .ok []
  | l :: below =>
    let margin := indentation l
    if isBlankLine l || block.any (· < margin.length) then gatherAll block (line + 1) below
    else if margin.contains ' ' && margin.contains '\t' then .error ⟨line, .mixedIndentation⟩
    else
      match LineKind.of (trimStart l) with
      | .rawText => gatherAll (some margin.length) (line + 1) below
      | .plain => gatherAll none (line + 1) below
      | .tag =>
        match gather line (trimStart l) below with
        | .error e => .error e
        | .ok (tokens, opens, more) =>
          (gatherAll (if opens then some margin.length else none) (line + 1 + more)
            (below.drop more)).map (tokens ++ ·)
  termination_by ls.length

end PugWeave.Markup
