import PugWeave.Text.Letters

namespace PugWeave.Toml

open Text

def isPlain (c : Char) : Bool := c = '\t' || (0x20 ≤ c.toNat && c.toNat ≠ 0x7f)

def hexDigit? (c : Char) : Option Nat :=
  if c.isDigit then some (c.toNat - '0'.toNat)
  else if 'a' ≤ c && c ≤ 'f' then some (c.toNat - 'a'.toNat + 10)
  else if 'A' ≤ c && c ≤ 'F' then some (c.toNat - 'A'.toNat + 10)
  else none

def codePoint? (digits : Nat) (t : Text) : Option (Char × Text) := do
  let written ← (t.take digits).mapM hexDigit?
  let n := written.foldl (fun n d => 16 * n + d) 0
  if written.length = digits && n.isValidChar then some (Char.ofNat n, t.drop digits) else none

def escape? : Text → Option (Char × Text)
  | 'b' :: r => some ('\x08', r)
  | 'e' :: r => some ('\x1b', r)
  | 't' :: r => some ('\t', r)
  | 'n' :: r => some ('\n', r)
  | 'f' :: r => some ('\x0c', r)
  | 'r' :: r => some ('\r', r)
  | '\x22' :: r => some ('\x22', r)
  | '\\' :: r => some ('\\', r)
  | 'x' :: r => codePoint? 2 r
  | 'u' :: r => codePoint? 4 r
  | 'U' :: r => codePoint? 8 r
  | _ => none

def newline? : Text → Option (Text × Text)
  | '\n' :: r => some (['\n'], r)
  | '\r' :: '\n' :: r => some (['\r', '\n'], r)
  | _ => none

def isMargin (c : Char) : Bool := c = ' ' || c = '\t'

def skipBreaks : Text → Text
  | [] => []
  | '\r' :: '\n' :: r => skipBreaks r
  | c :: r => if isMargin c || c = '\n' then skipBreaks r else c :: r

def continued? (t : Text) : Option Text :=
  (newline? (t.dropWhile isMargin)).map fun (_, r) => skipBreaks r

def basic : Nat → Text → Option (Text × Text)
  | 0, _ => none
  | _, [] => none
  | fuel + 1, c :: r =>
    if c = quotationMark then some ([], r)
    else if c = '\\' then do
      let (d, r) ← escape? r
      let (body, rest) ← basic fuel r
      some (d :: body, rest)
    else if isPlain c then (basic fuel r).map fun (body, rest) => (c :: body, rest)
    else none

def literal : Text → Option (Text × Text)
  | [] => none
  | c :: r =>
    if c = apostrophe then some ([], r)
    else if isPlain c then (literal r).map fun (body, rest) => (c :: body, rest)
    else none

def closing? (quote : Char) (t : Text) : Option (Text × Text) :=
  let quotes := (t.takeWhile (· = quote)).take 5
  if 3 ≤ quotes.length then some (quotes.drop 3, t.drop quotes.length) else none

def lines (quote : Char) : Nat → Text → Option (Text × Text)
  | 0, _ => none
  | _, [] => none
  | fuel + 1, c :: r =>
    match closing? quote (c :: r), newline? (c :: r) with
    | some found, _ => some found
    | none, some (nl, r) => (lines quote fuel r).map fun (body, rest) => (nl ++ body, rest)
    | none, none =>
      if c = '\\' && quote = quotationMark then
        match continued? r with
        | some r => lines quote fuel r
        | none => do
          let (d, r) ← escape? r
          let (body, rest) ← lines quote fuel r
          some (d :: body, rest)
      else if isPlain c then (lines quote fuel r).map fun (body, rest) => (c :: body, rest)
      else none

def afterOpening (t : Text) : Text := ((newline? t).map Prod.snd).getD t

def string? (t : Text) : Option (Text × Text) :=
  match t with
  | [] => none
  | c :: r =>
    let long := List.replicate 3 c
    if c ≠ quotationMark && c ≠ apostrophe then none
    else if long.isPrefixOf t then lines c t.length (afterOpening (t.drop 3))
    else if c = quotationMark then basic t.length r
    else literal r

def lineString? (t : Text) : Option (Text × Text) :=
  match t with
  | c :: r =>
    if c = quotationMark then basic t.length r else if c = apostrophe then literal r else none
  | [] => none

end PugWeave.Toml
