/-!
Text is a list of characters, so that the rules on templates are recursions and folds on data.
This module holds cutting at a separator and putting together again.
-/

namespace PugWeave

abbrev Text := List Char

namespace Text

def byteLength : Text → Nat
  | [] => 0
  | c :: rest => c.utf8Size + byteLength rest

def consFirst (c : Char) : List Text → List Text
  | [] => [[c]]
  | p :: ps => (c :: p) :: ps

/-- The pieces of a text around a separator, while `skip` characters of a found separator are
still to be passed. -/
def splitFrom (sep : Text) : Nat → Text → List Text
  | _, [] => [[]]
  | skip + 1, _ :: r => splitFrom sep skip r
  | 0, c :: r =>
    if sep.isPrefixOf (c :: r) then [] :: splitFrom sep (sep.length - 1) r
    else consFirst c (splitFrom sep 0 r)

/-- The pieces of a text around a separator, found from the left without overlap. The empty
separator stands before, between and after all characters. -/
def split (sep t : Text) : List Text :=
  if sep.isEmpty then [] :: t.map ([·]) ++ [[]] else splitFrom sep 0 t

def join (sep : Text) (pieces : List Text) : Text := sep.intercalate pieces

def cut (mark : Char) : Text → Option (Text × Text)
  | [] => none
  | c :: r => if c = mark then some ([], r) else (cut mark r).map fun (p, q) => (c :: p, q)

def occurs (piece : Text) : Text → Bool
  | [] => piece.isEmpty
  | c :: r => piece.isPrefixOf (c :: r) || occurs piece r

end Text

end PugWeave
