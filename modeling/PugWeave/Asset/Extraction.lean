import PugWeave.Markup.Lexer
import PugWeave.Settings
import PugWeave.Text.Regex

/-!
The assets of a template. The value of a selected attribute that is a relative path is written as
an absolute path into the template's text, and reported as it is written there. URLs and absolute
paths stay as they are and are no assets.
-/

namespace PugWeave.Asset

open Text

def unquote : Text → Text
  | [] => []
  | c :: r => if isQuote c && r.getLast? = some c then r.dropLast else c :: r

def isSchemeChar (c : Char) : Bool := c.isAlphanum || c = '+' || c = '.' || c = '-'

def isUrl (t : Text) : Bool :=
  occurs "://".toList t ||
    (cut ':' t).any fun (scheme, _) => 1 < scheme.length && scheme.all isSchemeChar

def asset? (rules : Rules) (directory : Path) (tag : Option Text) (name value : Text) :
    Option Path :=
  let path := unquote value
  if !rules.selects tag name || path.isEmpty || isUrl path || Path.isAbsolute ⟨path⟩ then none
  else some (directory.resolve ⟨path⟩)

/-- The pattern `^name\s*!?=\s*`, where the name stands for itself. -/
def assigns (name : Text) : Regex :=
  .word name ++ .star isBlank ++ .optional (.word ['!']) ++ .word ['='] ++ .star isBlank

/-- Where a character of a line stands: outside strings after a character or at the front, or in a
string, perhaps after a backslash. -/
inductive Place
  | outside (last : Option Char)
  | inside (quote : Char)
  | hidden (quote : Char)
  deriving DecidableEq, Repr

def Place.next (c : Char) : Place → Place
  | .outside _ => if isQuote c then .inside c else .outside c
  | .inside quote =>
    if c = '\\' then .hidden quote else if c = quote then .outside c else .inside quote
  | .hidden quote => .inside quote

def Place.opensName (c : Char) : Place → Bool
  | .outside last => !isQuote c && last.all fun d => d = '(' || d = ',' || isBlank d
  | _ => false

structure Assignment where
  line : Nat
  name : Text
  value : Text
  deriving DecidableEq, Repr

namespace Assignment

def front? (a : Assignment) (t : Text) : Option (Text × Text) :=
  match (assigns a.name).rest? t with
  | some r =>
    if a.value.isPrefixOf r then some (t.take (t.length - r.length), r.drop a.value.length)
    else none
  | none => none

/-- The text before and after the value of an assignment that begins in the given part of a line,
past `skip` earlier ones. `after` is the text that follows the line. -/
def onLine (a : Assignment) (after : Text) : Nat → Place → Text → Option (Text × Text)
  | _, _, [] => none
  | skip, place, c :: r =>
    let further (skip : Nat) :=
      (a.onLine after skip (place.next c) r).map fun (before, rest) => (c :: before, rest)
    if place.opensName c then
      match a.front? (c :: r ++ after), skip with
      | some found, 0 => some found
      | some _, skip + 1 => further skip
      | none, skip => further skip
    else further skip

def locate? (a : Assignment) (skip : Nat) (t : Text) : Option (Text × Text) :=
  match a.line with
  | 0 => none
  | n + 1 =>
    match aroundLine n t with
    | none => none
    | some (start, current, after) =>
      (a.onLine after skip (.outside none) current).map fun (before, rest) =>
        (start ++ before, rest)

end Assignment

structure Rewriting where
  before : Text
  value : Text
  after : Text
  asset : Path
  deriving DecidableEq, Repr

def Rewriting.content (r : Rewriting) : Text := r.before ++ r.asset.text ++ r.after

structure Extraction where
  content : Text
  assets : List Path
  deriving DecidableEq, Repr

structure Progress extends Extraction where
  tag : Option Text
  untouched : List Assignment
  deriving DecidableEq, Repr

namespace Progress

def start (source : Text) : Progress := ⟨⟨source, []⟩, none, []⟩

def leave (p : Progress) (a : Assignment) : Progress :=
  { p with untouched := a :: p.untouched }

/-- What an attribute with a value leads to. A value that is not found in the text leads to
nothing. -/
def rewriting? (rules : Rules) (directory : Path) (p : Progress) (a : Assignment) :
    Option Rewriting :=
  match asset? rules directory p.tag a.name a.value with
  | none => none
  | some asset =>
    (a.locate? (p.untouched.count a) p.content).map fun (before, after) =>
      { before, value := a.value, after, asset }

def attr (rules : Rules) (directory : Path) (p : Progress) (a : Assignment) : Progress :=
  match p.rewriting? rules directory a with
  | none => p.leave a
  | some r => { p with content := r.content, assets := Path.addNew p.assets r.asset }

def token (rules : Rules) (directory : Path) (p : Progress) : Markup.Token → Progress
  | .tag name _ => { p with tag := some name }
  | .attr _ none _ => p
  | .attr name (some value) line => p.attr rules directory ⟨line, name, trim value⟩

end Progress

def extract (rules : Rules) (directory : Path) (source : Text) (tokens : List Markup.Token) :
    Extraction :=
  (tokens.foldl (Progress.token rules directory) (.start source)).toExtraction

end PugWeave.Asset
