import ProcLang.Text.CombiningMark
import ProcLang.Text.Ignorable

/-!
Text in double quotes on one line.  The quote, the backslash and the four common controls are
written with a backslash; whatever else has no appearance of its own is written by its code point.
-/

namespace ProcLang.Text

/-- A character by its code point, in lower-case hexadecimal without leading zeros. -/
def codePoint (c : Char) : List Char :=
  ['\\', 'u', '\x7b'] ++ Nat.toDigits 16 c.toNat ++ ['\x7d']

/-- A character that can be seen where it stands. -/
def isShown (c : Char) : Bool := isPrintable c && !isCombiningMark c && !isIgnorable c

/-- A character of quoted text. -/
def quotedChar (c : Char) : List Char :=
  if c = '\x00' then ['\\', '0']
  else if c = '\t' then ['\\', 't']
  else if c = '\r' then ['\\', 'r']
  else if c = '\n' then ['\\', 'n']
  else if c = '"' then ['\\', '"']
  else if c = '\\' then ['\\', '\\']
  else if isShown c then [c]
  else codePoint c

/-- The text in double quotes. -/
def quoted (s : String) : String :=
  String.ofList ('"' :: s.toList.flatMap quotedChar ++ ['"'])

end ProcLang.Text
