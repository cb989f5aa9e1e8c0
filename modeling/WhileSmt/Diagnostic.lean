import WhileSmt.Program.Basic
import WhileSmt.Text.Lines

/-!
Messages about a source text. A message may name a place; it is then shown with the line at that
place and a caret under the column.
-/

namespace WhileSmt

/-- A malformed piece of source text, or a broken promise inside the tool. -/
inductive Diagnostic.Cause where
  | malformed (message : String) (line : String)
  | broken (message : String)
deriving DecidableEq

/-- An error with the place in the source that it is about, if there is one. -/
structure Diagnostic where
  cause : Diagnostic.Cause
  span : Option Span := none
deriving DecidableEq

namespace Diagnostic

/-- An error as it is reported, with the text that it is about. -/
def Cause.text : Cause → String
  | malformed message line => "Syntax error: " ++ message ++ " in `" ++ line ++ "`"
  | broken message => "Internal error: " ++ message

/-- An error without the text that it is about. -/
def message (d : Diagnostic) : String :=
  match d.cause with
  | .malformed message _ => message
  | .broken message => message

/-- The malformed text. -/
def line? (d : Diagnostic) : Option String :=
  match d.cause with
  | .malformed _ line => some line
  | .broken _ => none

/-- Whether the error lies in the source. -/
def isSyntaxError (d : Diagnostic) : Bool :=
  d.line?.isSome

/-- The message on one line, with its place. -/
def display (d : Diagnostic) : String :=
  match d.span with
  | some span =>
    d.cause.text ++ " (line " ++ Text.natural span.line ++ ", column " ++
      Text.natural span.column ++ ")"
  | none => d.cause.text

/-- The line of `source` that a place points into and a caret under the column; nothing if there
is no such line. Line zero counts as the first, and column zero as the first. -/
def excerpt (source : String) (span : Span) : String :=
  match (Text.lines source.toList)[span.line - 1]? with
  | some line =>
    "\n   | " ++ String.ofList line ++ "\n   | " ++
      String.ofList (List.replicate (span.column - 1) ' ') ++ "^"
  | none => ""

/-- The message with its place in `source`. -/
def report (d : Diagnostic) (source : String) : String :=
  match d.span with
  | some span =>
    "Error: " ++ d.cause.text ++ "\n  --> " ++ Text.natural span.line ++ ":" ++
      Text.natural span.column ++ excerpt source span
  | none => "Error: " ++ d.cause.text

end Diagnostic

end WhileSmt
