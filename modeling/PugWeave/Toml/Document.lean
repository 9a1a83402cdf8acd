import PugWeave.Toml.Scalar
import PugWeave.Toml.Table

namespace PugWeave.Toml

open Text

def skipMargin (t : Text) : Text := t.dropWhile isMargin

def skipComment (t : Text) : Text :=
  if t.head? = some '#' then t.dropWhile isPlain else t

def skipLines : Nat → Text → Text
  | 0, t => t
  | fuel + 1, t =>
    let t := skipComment (skipMargin t)
    match newline? t with
    | some (_, r) => skipLines fuel r
    | none => t

def isBareChar (c : Char) : Bool := c.isAlphanum || c = '_' || c = '-'

def simpleKey? (t : Text) : Option (Text × Text) :=
  match t.takeWhile isBareChar with
  | [] => lineString? t
  | key => some (key, t.drop key.length)

def depthLimit : Nat := 80

def parts? : Nat → Text → Option ((List Text × Text) × Text)
  | 0, _ => none
  | limit + 1, t => do
    let (first, rest) ← simpleKey? (skipMargin t)
    match skipMargin rest with
    | '.' :: r =>
      let ((path, last), rest) ← parts? limit r
      some ((first :: path, last), rest)
    | rest => some (([], first), rest)

def key? : Text → Option ((List Text × Text) × Text) := parts? depthLimit

def isInRange (n : Int) : Bool :=
  -0x80000000000000000000000000000000 ≤ n && n < 0x100000000000000000000000000000000

def scalar? (t : Text) : Option (Item × Text) :=
  let (written, rest) := atom t
  match integer? written with
  | some n => if isInRange n then some (.integer n, rest) else none
  | none =>
    if written = "true".toList || written = "false".toList || isFloat written || isMoment written
    then some (.scalar, rest)
    else none

mutual

def value? : Nat → Nat → Text → Option (Item × Text)
  | 0, _, _ => none
  | _, _, [] => none
  | fuel + 1, depth, c :: r =>
    if c = quotationMark || c = apostrophe then
      (string? (c :: r)).map fun (t, rest) => (.string t, rest)
    else if c = '[' then
      if depth = 0 then none
      else (items? fuel (depth - 1) r).map fun (items, rest) => (.array items, rest)
    else if c = '\x7b' then
      if depth = 0 then none
      else do
        let (assignments, rest) ← members? fuel (depth - 1) r
        let table ← assignAll ⟨false, false, []⟩ assignments
        some (.inline table.entries, rest)
    else scalar? (c :: r)

def items? : Nat → Nat → Text → Option (List Item × Text)
  | 0, _, _ => none
  | fuel + 1, depth, t =>
    match skipLines t.length t with
    | ']' :: rest => some ([], rest)
    | t => do
      let (item, rest) ← value? fuel depth t
      match skipLines rest.length rest with
      | ',' :: r =>
        let (items, rest) ← items? fuel depth r
        some (item :: items, rest)
      | ']' :: rest => some ([item], rest)
      | _ => none

def members? : Nat → Nat → Text → Option (List Assignment × Text)
  | 0, _, _ => none
  | fuel + 1, depth, t =>
    match skipLines t.length t with
    | '\x7d' :: rest => some ([], rest)
    | t => do
      let ((path, key), rest) ← key? t
      let rest ← expect? '=' (skipLines rest.length rest)
      let (item, rest) ← value? fuel depth (skipLines rest.length rest)
      match skipLines rest.length rest with
      | ',' :: r =>
        let (assignments, rest) ← members? fuel depth r
        some (⟨path, key, item⟩ :: assignments, rest)
      | '\x7d' :: rest => some ([⟨path, key, item⟩], rest)
      | _ => none

end

def assignment? (t : Text) : Option (Assignment × Text) := do
  let ((path, key), rest) ← key? t
  let rest ← expect? '=' rest
  let (item, rest) ← value? (2 * t.length) depthLimit (skipMargin rest)
  some (⟨path, key, item⟩, rest)

inductive Entry
  | header (h : Header)
  | assignment (a : Assignment)

def entry? (t : Text) : Option (Entry × Text) :=
  match t with
  | '[' :: '[' :: r => do
    let ((path, key), rest) ← key? r
    match rest with
    | ']' :: ']' :: rest => some (.header (.element path key), rest)
    | _ => none
  | '[' :: r => do
    let ((path, key), rest) ← key? r
    match rest with
    | ']' :: rest => some (.header (.table path key), rest)
    | _ => none
  | t => (assignment? t).map fun (a, rest) => (.assignment a, rest)

def entries? : Nat → Text → Option (List Entry)
  | 0, _ => none
  | fuel + 1, t =>
    match skipLines t.length t with
    | [] => some []
    | t => do
      let (entry, rest) ← entry? t
      match skipComment (skipMargin rest) with
      | [] => some [entry]
      | rest =>
        let (_, r) ← newline? rest
        return entry :: (← entries? fuel r)

def sections (entries : List Entry) : List Section :=
  let close (s : Section) : Section := { s with assignments := s.assignments.reverse }
  let (last, done) := entries.foldl
    (fun (current, done) entry =>
      match entry with
      | .header h => (⟨h, []⟩, close current :: done)
      | .assignment a => ({ current with assignments := a :: current.assignments }, done))
    ((⟨.root, []⟩ : Section), ([] : List Section))
  (close last :: done).reverse

def parse? (t : Text) : Option Entries := do
  let t := if t.head? = some '\ufeff' then t.drop 1 else t
  ofSections (sections (← entries? (t.length + 1) t))

end PugWeave.Toml
