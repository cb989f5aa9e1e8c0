/-!
Source lines. A line ends at a newline, and a carriage return directly before that newline belongs
to the line's end; text after the last newline is a line only if there is any.
-/

namespace WhileSmt.Text

/-- The lines of a text, without their ends. -/
def lines : List Char → List (List Char)
  | [] => []
  | '\n' :: rest => [] :: lines rest
  | '\r' :: '\n' :: rest => [] :: lines rest
  | c :: rest =>
    match lines rest with
    | [] => [[c]]
    | line :: more => (c :: line) :: more

/-- The number of bytes of a text in UTF-8. Columns are counted in bytes. -/
def byteLength (text : List Char) : Nat :=
  text.foldr (fun c length => c.utf8Size + length) 0

end WhileSmt.Text
