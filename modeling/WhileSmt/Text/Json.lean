import WhileSmt.Text.Decimal

/-!
Writing JSON over several lines, two blanks per level. Strings escape quotation marks,
backslashes and the control characters below the blank, and nothing else.
-/

namespace WhileSmt.Text

/-- Documents of numbers, texts, lists and objects. -/
inductive JsonText where
  | number (n : Nat)
  | string (s : String)
  | array (items : List JsonText)
  | object (fields : List (String × JsonText))

namespace JsonText

/-- A hexadecimal digit. -/
def hexDigit (n : Nat) : Char :=
  if n < 10 then Char.ofNat ('0'.toNat + n) else Char.ofNat ('a'.toNat + (n - 10))

/-- A character inside a string. -/
def escapeChar (c : Char) : List Char :=
  if c = '"' then ['\\', '"']
  else if c = '\\' then ['\\', '\\']
  else if c = '\n' then ['\\', 'n']
  else if c = '\r' then ['\\', 'r']
  else if c = '\t' then ['\\', 't']
  else if c = '\x08' then ['\\', 'b']
  else if c = '\x0c' then ['\\', 'f']
  else if c.toNat < 0x20 then
    ['\\', 'u', '0', '0', hexDigit (c.toNat / 16), hexDigit (c.toNat % 16)]
  else [c]

/-- A text between quotes, with the characters escaped that cannot stand there. -/
def quoted (s : String) : String :=
  "\"" ++ String.ofList (s.toList.flatMap escapeChar) ++ "\""

/-- The end of a line, and the indentation of the next one. -/
def newline (depth : Nat) : String :=
  "\n" ++ String.ofList (List.replicate (2 * depth) ' ')

mutual

/-- The text of a value whose lines start at the given level. -/
def render (depth : Nat) : JsonText → String
  | .number n => natural n
  | .string s => quoted s
  | .array [] => "[]"
  | .array (item :: rest) =>
    "[" ++ newline (depth + 1) ++ item.render (depth + 1) ++ renderItems (depth + 1) rest ++
      newline depth ++ "]"
  | .object [] => "\x7b\x7d"
  | .object ((key, value) :: rest) =>
    "\x7b" ++ newline (depth + 1) ++ quoted key ++ ": " ++ value.render (depth + 1) ++
      renderFields (depth + 1) rest ++ newline depth ++ "\x7d"

/-- The items of a list after its first one. -/
def renderItems (depth : Nat) : List JsonText → String
  | [] => ""
  | item :: rest => "," ++ newline depth ++ item.render depth ++ renderItems depth rest

/-- The fields of an object after its first one. -/
def renderFields (depth : Nat) : List (String × JsonText) → String
  | [] => ""
  | (key, value) :: rest =>
    "," ++ newline depth ++ quoted key ++ ": " ++ value.render depth ++ renderFields depth rest

end

/-- The text of a whole document. -/
def document (j : JsonText) : String :=
  j.render 0 ++ "\n"

end JsonText

end WhileSmt.Text
