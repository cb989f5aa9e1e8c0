import WhileSmt.Text.Hidden

/-!
File names in quotation marks, as messages show them. Quotation marks and backslashes are
escaped, and a character that does not show by itself is written by its code point.
-/

namespace WhileSmt.Text

/-- A code point in lower-case hexadecimal. -/
def hexadecimal (n : Nat) : List Char :=
  Nat.toDigits 16 n

/-- A character between quotes: escaped if it is a quote, a backslash, or cannot be seen. -/
def quotedChar (c : Char) : List Char :=
  if c = '"' then ['\\', '"']
  else if c = '\\' then ['\\', '\\']
  else if c = '\n' then ['\\', 'n']
  else if c = '\r' then ['\\', 'r']
  else if c = '\t' then ['\\', 't']
  else if c = '\x00' then ['\\', '0']
  else if isHidden c then ['\\', 'u', '\x7b'] ++ hexadecimal c.toNat ++ ['\x7d']
  else [c]

/-- A name in quotation marks. -/
def quoted (name : String) : String :=
  "\"" ++ String.ofList (name.toList.flatMap quotedChar) ++ "\""

end WhileSmt.Text
