import PugWeave.Text.Blank

namespace PugWeave

inductive LineBreak
  | lf
  | crlf
  | cr
  deriving DecidableEq, Repr

namespace LineBreak

def text : LineBreak → Text
  | .lf => ['\n']
  | .crlf => ['\r', '\n']
  | .cr => ['\r']

def ofText? (t : Text) : Option LineBreak :=
  [lf, crlf, cr].find? (·.text = t)

/-- The break that a text uses: the first of `\r\n`, `\r` and `\n` that occurs in it, and `\n` for
a text of one line. -/
def detect (t : Text) : LineBreak :=
  ([crlf, cr, lf].find? fun b => Text.occurs b.text t).getD .lf

end LineBreak

namespace Text

def withSeparator (sep t : Text) : Text :=
  let found := (LineBreak.detect t).text
  if found = sep || !occurs found t then t else join sep (split found t)

def isBreak (c : Char) : Bool := c = '\r' || c = '\n'

def lines : Text → List Text
  | [] => [[]]
  | '\r' :: '\n' :: r => [] :: lines r
  | c :: r => if isBreak c then [] :: lines r else consFirst c (lines r)

def aroundLine : Nat → Text → Option (Text × Text × Text)
  | 0, t => some ([], t.takeWhile (!isBreak ·), t.dropWhile (!isBreak ·))
  | _ + 1, [] => none
  | n + 1, '\r' :: '\n' :: r =>
    (aroundLine n r).map fun (before, line, after) => ('\r' :: '\n' :: before, line, after)
  | n + 1, c :: r =>
    (aroundLine (if isBreak c then n else n + 1) r).map fun (before, line, after) =>
      (c :: before, line, after)

theorem append_of_aroundLine {n : Nat} {t before line after : Text}
    (h : aroundLine n t = some (before, line, after)) : before ++ (line ++ after) = t := by
  fun_induction aroundLine n t generalizing before line after with
  | case1 t =>
    obtain ⟨rfl, rfl, rfl⟩ : [] = before ∧ _ = line ∧ _ = after := by simpa using h
    simp
  | case2 => simp at h
  | case3 n r ih =>
    obtain ⟨⟨b, l, a⟩, hr, he⟩ := Option.map_eq_some_iff.1 h
    obtain ⟨rfl, rfl, rfl⟩ : _ = before ∧ l = line ∧ a = after := by simpa using he
    simp [ih hr]
  | case4 n c r _ ih =>
    obtain ⟨⟨b, l, a⟩, hr, he⟩ := Option.map_eq_some_iff.1 h
    obtain ⟨rfl, rfl, rfl⟩ : _ = before ∧ l = line ∧ a = after := by simpa using he
    simp [ih hr]

end Text

end PugWeave
