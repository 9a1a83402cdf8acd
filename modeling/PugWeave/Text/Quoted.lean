import PugWeave.Text.Unprintable

namespace PugWeave.Text

def codePoint (c : Char) : Text :=
  "\\u\x7b".toList ++ Nat.toDigits 16 c.toNat ++ ['\x7d']

def showChar (c : Char) : Text :=
  if c = '\x00' then ['\\', '0']
  else if c = '\t' then ['\\', 't']
  else if c = '\r' then ['\\', 'r']
  else if c = '\n' then ['\\', 'n']
  else if c = '\\' then ['\\', '\\']
  else if c = '\x22' then ['\\', '\x22']
  else if isUnprintable c then codePoint c
  else [c]

def quoted (t : Text) : Text := '\x22' :: t.flatMap showChar ++ ['\x22']

end PugWeave.Text
