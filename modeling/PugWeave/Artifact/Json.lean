import PugWeave.Text.Basic

namespace PugWeave

inductive Json
  | string (t : Text)
  | array (items : List Json)
  | object (members : List (Text × Json))
  deriving Repr

namespace Json

def hex2 (n : Nat) : Text := [Nat.digitChar (n / 16), Nat.digitChar (n % 16)]

def escape (c : Char) : Text :=
  if c = '\x22' then ['\\', '\x22']
  else if c = '\\' then ['\\', '\\']
  else if c = '\x08' then ['\\', 'b']
  else if c = '\x0c' then ['\\', 'f']
  else if c = '\n' then ['\\', 'n']
  else if c = '\r' then ['\\', 'r']
  else if c = '\t' then ['\\', 't']
  else if c.toNat < 0x20 then "\\u00".toList ++ hex2 c.toNat
  else [c]

def literal (t : Text) : Text := '\x22' :: t.flatMap escape ++ ['\x22']

def separated : List Text → Text := Text.join [',']

mutual

def compact : Json → Text
  | .string t => literal t
  | .array items => '[' :: separated (compactItems items) ++ [']']
  | .object members => '\x7b' :: separated (compactMembers members) ++ ['\x7d']

def compactItems : List Json → List Text
  | [] => []
  | item :: rest => compact item :: compactItems rest

def compactMembers : List (Text × Json) → List Text
  | [] => []
  | (key, value) :: rest => (literal key ++ ':' :: compact value) :: compactMembers rest

end

def block (opening closing : Char) (depth : Nat) (items : List Text) : Text :=
  if items.isEmpty then [opening, closing]
  else
    let margin (depth : Nat) : Text := '\n' :: List.replicate (2 * depth) ' '
    opening :: separated (items.map (margin (depth + 1) ++ ·)) ++ margin depth ++ [closing]

mutual

def pretty (depth : Nat) : Json → Text
  | .string t => literal t
  | .array items => block '[' ']' depth (prettyItems (depth + 1) items)
  | .object members => block '\x7b' '\x7d' depth (prettyMembers (depth + 1) members)

def prettyItems (depth : Nat) : List Json → List Text
  | [] => []
  | item :: rest => pretty depth item :: prettyItems depth rest

def prettyMembers (depth : Nat) : List (Text × Json) → List Text
  | [] => []
  | (key, value) :: rest =>
    (literal key ++ ':' :: ' ' :: pretty depth value) :: prettyMembers depth rest

end

end Json

end PugWeave
