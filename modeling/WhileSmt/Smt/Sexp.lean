import WhileSmt.Text.Blank

/-!
S-expressions, the notation in which a solver reads its questions and writes its answers: writing
them, and reading a sequence of them. An atom in quotation marks or bars keeps its delimiters and
may hold blanks and parentheses.
-/

namespace WhileSmt

/-- S-expressions, the notation of scripts and of models. -/
inductive Sexp where
  | atom (text : String)
  | list (items : List Sexp)
deriving Inhabited

mutual

/-- The text of an S-expression, one blank between the items of a list. -/
def Sexp.text : Sexp → String
  | .atom text => text
  | .list items => "(" ++ Sexp.itemsText items ++ ")"

/-- The items of a list with blanks between them. -/
def Sexp.itemsText : List Sexp → String
  | [] => ""
  | [item] => item.text
  | item :: next :: rest => item.text ++ " " ++ Sexp.itemsText (next :: rest)

end

namespace Sexp

/-- The pieces of the notation. A quoted atom may lack its second bar. -/
inductive Token where
  | opening
  | closing
  | atom (text : List Char)
  | unterminated
deriving DecidableEq

/-- Where a scan stands: between tokens, in an atom, or in an atom with the given delimiter. The
characters read so far are in reverse order. -/
inductive Mode where
  | between
  | plain (read : List Char)
  | quoted (delimiter : Char) (read : List Char)

/-- Cuts a text into tokens. A delimiter that is never closed ends the tokens. -/
def scan : Mode → List Char → List Token
  | .between, [] => []
  | .plain read, [] => [.atom read.reverse]
  | .quoted _ _, [] => [.unterminated]
  | .between, c :: rest =>
    if c = '(' then .opening :: scan .between rest
    else if c = ')' then .closing :: scan .between rest
    else if Text.isBlank c then scan .between rest
    else if c = '"' || c = '|' then scan (.quoted c [c]) rest
    else scan (.plain [c]) rest
  | .plain read, c :: rest =>
    if c = '(' then .atom read.reverse :: .opening :: scan .between rest
    else if c = ')' then .atom read.reverse :: .closing :: scan .between rest
    else if Text.isBlank c then .atom read.reverse :: scan .between rest
    else scan (.plain (c :: read)) rest
  | .quoted delimiter read, c :: rest =>
    if c = delimiter then .atom (c :: read).reverse :: scan .between rest
    else scan (.quoted delimiter (c :: read)) rest

/-- What can be wrong with a text that should hold S-expressions. -/
inductive ReadError where
  | extraClosing
  | missingClosing
  | unterminated
deriving DecidableEq

/-- What is said about such a text. -/
def ReadError.message : ReadError → String
  | extraClosing => "unbalanced `)`"
  | missingClosing => "unbalanced `(`"
  | unterminated => "unterminated quoted atom"

/-- Builds S-expressions from tokens. The items of the list that is open are in reverse order, and
so are those of the lists around it. -/
def build (current : List Sexp) (outer : List (List Sexp)) :
    List Token → Except ReadError (List Sexp)
  | [] => if outer.isEmpty then .ok current.reverse else .error .missingClosing
  | .opening :: rest => build [] (current :: outer) rest
  | .closing :: rest =>
    match outer with
    | [] => .error .extraClosing
    | around :: outer => build (.list current.reverse :: around) outer rest
  | .atom text :: rest => build (.atom (String.ofList text) :: current) outer rest
  | .unterminated :: _ => .error .unterminated

/-- Reads a sequence of S-expressions. -/
def parse (text : List Char) : Except ReadError (List Sexp) :=
  build [] [] (scan .between text)

end Sexp

end WhileSmt
