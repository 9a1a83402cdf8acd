import PugWeave.Text.Basic

namespace PugWeave.Toml

/-- A table is implied when only keys and headers below it were given, and dotted when it comes
from a dotted key. A scalar is a value whose content does not matter. -/
inductive Item
  | string (t : Text)
  | integer (n : Int)
  | scalar
  | array (items : List Item)
  | inline (entries : List (Text × Item))
  | table (implied dotted : Bool) (entries : List (Text × Item))
  | tables (items : List (List (Text × Item)))

abbrev Entries := List (Text × Item)

namespace Entries

def get? (es : Entries) (key : Text) : Option Item := (es.find? (·.1 = key)).map Prod.snd

def set (es : Entries) (key : Text) (item : Item) : Entries :=
  if (es.get? key).isSome then es.map fun (k, i) => (k, if k = key then item else i)
  else es ++ [(key, item)]

end Entries

structure Open where
  implied : Bool
  dotted : Bool
  entries : Entries

def Open.item (t : Open) : Item := .table t.implied t.dotted t.entries

def descend (byKey : Bool) (change : Open → Option Open) : List Text → Open → Option Open
  | [], table => change table
  | key :: path, table =>
    match table.entries.get? key with
    | none => do
      let inner ← descend byKey change path ⟨true, byKey, []⟩
      some { table with entries := table.entries.set key inner.item }
    | some (.table implied dotted entries) =>
      if byKey && !implied then none
      else do
        let inner ← descend byKey change path ⟨implied, dotted, entries⟩
        some { table with entries := table.entries.set key inner.item }
    | some (.tables items) =>
      match items.getLast? with
      | none => none
      | some last => do
        let inner ← descend byKey change path ⟨false, false, last⟩
        let items := items.dropLast ++ [inner.entries]
        some { table with entries := table.entries.set key (.tables items) }
    | some _ => none

structure Assignment where
  path : List Text
  key : Text
  item : Item

/-- Adds an assignment. A key has no second value, and a dotted key adds only to a table of dotted
keys. -/
def assign (table : Open) (a : Assignment) : Option Open :=
  descend true
    (fun inner =>
      if (inner.entries.get? a.key).isSome || inner.dotted = a.path.isEmpty then none
      else some { inner with entries := inner.entries.set a.key a.item })
    a.path table

def assignAll (table : Open) (assignments : List Assignment) : Option Open :=
  assignments.foldlM assign table

inductive Header
  | root
  | table (path : List Text) (key : Text)
  | element (path : List Text) (key : Text)

structure Section where
  header : Header
  assignments : List Assignment

def addSection (root : Open) (s : Section) : Option Open :=
  match s.header with
  | .root => assignAll root s.assignments
  | .table path key =>
    descend false
      (fun outer => do
        let entries ←
          match outer.entries.get? key with
          | none => some []
          | some (.table true false entries) => some entries
          | some _ => none
        let inner ← assignAll ⟨false, false, entries⟩ s.assignments
        some { outer with entries := outer.entries.set key (.table false false inner.entries) })
      path root
  | .element path key =>
    descend false
      (fun outer => do
        let items ←
          match outer.entries.get? key with
          | none => some []
          | some (.tables items) => some items
          | some _ => none
        let inner ← assignAll ⟨false, false, []⟩ s.assignments
        some { outer with entries := outer.entries.set key (.tables (items ++ [inner.entries])) })
      path root

def ofSections (sections : List Section) : Option Entries :=
  (sections.foldlM addSection ⟨false, false, []⟩).map Open.entries

end PugWeave.Toml
