import PugWeave.Text.Blank

namespace PugWeave.Text

inductive Regex
  | word (w : Text)
  | one (among : Char → Bool)
  | star (among : Char → Bool)
  | seq (r s : Regex)
  | either (r s : Regex)
  | group (n : Nat) (r : Regex)

/-- What the groups have matched, the last match of a group first. -/
abbrev Captures := List (Nat × Text)

namespace Regex

instance : Append Regex := ⟨.seq⟩

def plus (among : Char → Bool) : Regex := .one among ++ .star among

def optional (r : Regex) : Regex := .either r (.word [])

variable {α : Type}

/-- A run is as long as it can be while what follows it matches. -/
def greedy (among : Char → Bool) (next : Text → Option α) : Text → Option α
  | [] => next []
  | c :: t => if among c then greedy among next t <|> next (c :: t) else next (c :: t)

/-- Matches the front of a text and goes on with the rest. The ways to match are tried in order
until the rest matches too: the longest run first, and what stands on the left. -/
def run : Regex → (Captures → Text → Option α) → Captures → Text → Option α
  | .word w, next, found, t => if w.isPrefixOf t then next found (t.drop w.length) else none
  | .one _, _, _, [] => none
  | .one among, next, found, c :: t => if among c then next found t else none
  | .star among, next, found, t => greedy among (next found) t
  | .seq r s, next, found, t => r.run (s.run next) found t
  | .either r s, next, found, t => r.run next found t <|> s.run next found t
  | .group n r, next, found, t =>
    r.run (fun found rest => next ((n, t.take (t.length - rest.length)) :: found) rest) found t

def captures? (r : Regex) (t : Text) : Option Captures := r.run (fun found _ => some found) [] t

def rest? (r : Regex) (t : Text) : Option Text := r.run (fun _ rest => some rest) [] t

end Regex

def Captures.text (found : Captures) (n : Nat) : Text := (found.lookup n).getD []

end PugWeave.Text
