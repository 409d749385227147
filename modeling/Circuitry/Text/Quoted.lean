import Circuitry.Text.Visible
import Circuitry.Text.Hex

/-!
# Quoted text

How messages show a text or a character: between quotes, with a backslash before a backslash and
before the quote in use, short escapes for line feed, carriage return, tabulator and NUL, the
code point in braces for everything else that is not visible, and all other characters as they
are.
-/

namespace Circuitry.Text

/-- The digits of a code point, without leading zeros. -/
def codePointDigits (c : Char) : List Char :=
  Nat.toDigits 16 c.toNat

/-- A character as it stands between two `quote` characters. -/
def quotedChars (quote : Char) (c : Char) : List Char :=
  if c = '\\' then ['\\', '\\']
  else if c = quote then ['\\', quote]
  else if c = '\n' then ['\\', 'n']
  else if c = '\r' then ['\\', 'r']
  else if c = '\t' then ['\\', 't']
  else if c = '\x00' then ['\\', '0']
  else if isVisible c then [c]
  else ['\\', 'u', '\x7b'] ++ codePointDigits c ++ ['\x7d']

/-- A text between double quotes. -/
def quoted (text : String) : String :=
  String.ofList ('"' :: (text.toList.flatMap (quotedChars '"') ++ ['"']))

def quotedChar (c : Char) : String :=
  String.ofList ('\x27' :: (quotedChars '\x27' c ++ ['\x27']))

end Circuitry.Text
