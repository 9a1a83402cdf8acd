import PugWeave.Text.Basic

namespace PugWeave.Text

def isBlank (c : Char) : Bool :=
  c = ' ' || ('\t' ≤ c && c ≤ '\r') || c = '\x85' || c = '\xa0' || c = '\u1680' ||
  ('\u2000' ≤ c && c ≤ '\u200a') || c = '\u2028' || c = '\u2029' || c = '\u202f' ||
  c = '\u205f' || c = '\u3000'

def trimStart (t : Text) : Text := t.dropWhile isBlank

def trimEnd (t : Text) : Text := (t.reverse.dropWhile isBlank).reverse

def trim (t : Text) : Text := trimEnd (trimStart t)

def indentation (line : Text) : Text := line.takeWhile isBlank

def isBlankLine (line : Text) : Bool := line.all isBlank

@[simp] theorem indentation_append_trimStart (line : Text) :
    indentation line ++ trimStart line = line :=
  List.takeWhile_append_dropWhile

end PugWeave.Text
