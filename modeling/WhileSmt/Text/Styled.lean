import WhileSmt.Text.Decimal

/-!
Styles of a terminal. A styled text starts with the codes of its style and ends with a reset; a
reset inside the text is followed by the style again.
-/

namespace WhileSmt.Text

/-- The ways to stress a text. -/
inductive Emphasis where
  | bold
  | italic
  | underline
deriving DecidableEq

/-- The number of an emphasis for terminals. -/
def Emphasis.code : Emphasis → Nat
  | bold => 1
  | italic => 3
  | underline => 4

/-- The colors in use. -/
inductive Color where
  | red
  | green
  | yellow
  | blue
  | brightRed
  | brightYellow
  | brightBlue
  | brightWhite
deriving DecidableEq

/-- The number of a color for terminals. -/
def Color.code : Color → Nat
  | red => 31
  | green => 32
  | yellow => 33
  | blue => 34
  | brightRed => 91
  | brightYellow => 93
  | brightBlue => 94
  | brightWhite => 97

/-- An emphasis, a colour, both or neither. -/
structure Style where
  emphasis : Option Emphasis := none
  color : Option Color := none

/-- The numbers of a style, the emphasis first. -/
def Style.codes (s : Style) : List Nat :=
  (s.emphasis.map Emphasis.code).toList ++ (s.color.map Color.code).toList

/-- The characters that switch a style on: the emphasis first, then the colour. -/
def Style.start (s : Style) : List Char :=
  '\x1b' :: '[' :: (";".intercalate (s.codes.map natural)).toList ++ ['m']

/-- What turns all styles off. -/
def styleReset : List Char :=
  ['\x1b', '[', '0', 'm']

/-- Repeats the start of a style after every reset in a text. -/
def resume (start : List Char) : List Char → List Char
  | '\x1b' :: '[' :: '0' :: 'm' :: rest => styleReset ++ start ++ resume start rest
  | c :: rest => c :: resume start rest
  | [] => []

/-- A text in a style. -/
def Style.paint (s : Style) (text : String) : String :=
  if s.codes.isEmpty then text
  else String.ofList (s.start ++ resume s.start text.toList ++ styleReset)

end WhileSmt.Text
