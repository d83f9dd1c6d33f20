import Constituency.Text.Printable

/-!
Text as a quoted literal, the form in which a failing run names a line of its input. A quote and a
backslash are escaped, so are line ends and tabs, and a character that does not stand alone is
given by its code point.
-/
namespace Constituency.Text

/-- Digits of `n` in base sixteen, in lower case. -/
def hex (n : Nat) : List Char := Nat.toDigits 16 n

/-- One character of a literal. -/
def literalChar (c : Char) : List Char :=
  if c = '"' then ['\\', '"']
  else if c = '\\' then ['\\', '\\']
  else if c = '\n' then ['\\', 'n']
  else if c = '\r' then ['\\', 'r']
  else if c = '\t' then ['\\', 't']
  else if c.toNat = 0 then ['\\', '0']
  else if standsAlone c then [c]
  else "\\u\x7b".toList ++ hex c.toNat ++ "\x7d".toList

/-- A text between quotes, every character escaped that needs it. -/
def literal (s : String) : String :=
  String.ofList ('"' :: (s.toList.flatMap literalChar ++ ['"']))

end Constituency.Text
