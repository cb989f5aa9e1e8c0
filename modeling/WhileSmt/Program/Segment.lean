import WhileSmt.Program.Basic
import WhileSmt.Text.Blank
import WhileSmt.Text.Lines

/-!
Segments: a source text cut into pieces the size of a statement. A line is cut after every
semicolon that stands outside parentheses, and a comment runs from `//` to the end of its line.
A segment knows the place of its first character, and so do the pieces taken from it.
-/

namespace WhileSmt

/-- A part of a line that is read at once, with the place where it starts. -/
structure Segment where
  line : Nat
  column : Nat
  text : List Char
deriving DecidableEq, Inhabited

namespace Segment

/-- The segment of a raw piece of a line that starts after `start` bytes: blanks around the piece
are dropped, and the column is that of what remains. -/
def ofRaw (line start : Nat) (raw : List Char) : Segment where
  line := line
  column := start + Text.byteLength (raw.takeWhile Text.isBlank) + 1
  text := Text.trim raw

/-- The place of a segment. -/
def span (s : Segment) : Span where
  line := s.line
  column := s.column

/-- The front part of a segment. -/
def front (s : Segment) (raw : List Char) : Segment :=
  ofRaw s.line (s.column - 1) raw

/-- The rear part of a segment. -/
def rear (s : Segment) (raw : List Char) : Segment :=
  ofRaw s.line (s.column - 1 + (Text.byteLength s.text - Text.byteLength raw)) raw

/-- A segment as a list, empty if the segment is. -/
def unlessEmpty (s : Segment) : List Segment :=
  if s.text.isEmpty then [] else [s]

/-- The number of characters of some segments, where each segment counts for one more. Reading
statements makes it smaller. -/
def weight (segments : List Segment) : Nat :=
  segments.foldr (fun s total => s.text.length + 1 + total) 0

/-! ## Cutting a source text -/

/-- Cuts a line into pieces, each ended by its semicolon, up to the comment. Semicolons inside
parentheses do not cut; a parenthesis too many does not matter. -/
def cut (depth : Int) : List Char → List (List Char)
  | [] => []
  | '/' :: '/' :: _ => []
  | c :: rest =>
    if c = ';' && depth ≤ 0 then [c] :: cut depth rest
    else
      match cut (if c = '(' then depth + 1 else if c = ')' then depth - 1 else depth) rest with
      | [] => [[c]]
      | piece :: more => (c :: piece) :: more

/-- Gives the pieces of a line their places, and drops the blank ones. -/
def place (line start : Nat) : List (List Char) → List Segment
  | [] => []
  | piece :: more =>
    let later := place line (start + Text.byteLength piece) more
    if (Text.trim piece).isEmpty then later else ofRaw line start piece :: later

theorem place_cons (line start : Nat) (piece : List Char) (more : List (List Char)) :
    place line start (piece :: more) =
      (ofRaw line start piece).unlessEmpty ++
        place line (start + Text.byteLength piece) more := by
  by_cases h : (Text.trim piece).isEmpty = true <;> simp [place, unlessEmpty, ofRaw, h]

/-- The segments of lines, the first of which has the given number. -/
def ofLines (number : Nat) : List (List Char) → List Segment
  | [] => []
  | line :: more => place number 0 (cut 0 line) ++ ofLines (number + 1) more

/-- The segments of a source text. -/
def ofSource (source : List Char) : List Segment :=
  ofLines 1 (Text.lines source)

/-! ## Weights -/

@[simp] theorem weight_nil : weight [] = 0 := rfl

@[simp] theorem weight_cons (s : Segment) (rest : List Segment) :
    weight (s :: rest) = s.text.length + 1 + weight rest := by
  simp [weight]

@[simp] theorem weight_append (l r : List Segment) : weight (l ++ r) = weight l + weight r := by
  induction l with
  | nil => simp
  | cons s l ih =>
    rw [List.cons_append, weight_cons, weight_cons, ih]
    omega

theorem length_ofRaw_le (line start : Nat) (raw : List Char) :
    (ofRaw line start raw).text.length ≤ raw.length :=
  Text.length_trim_le raw

theorem weight_unlessEmpty_le (s : Segment) : weight s.unlessEmpty ≤ s.text.length + 1 := by
  unfold unlessEmpty
  split <;> simp

theorem weight_front_le (s : Segment) (raw : List Char) :
    weight (s.front raw).unlessEmpty ≤ raw.length + 1 :=
  Nat.le_trans (weight_unlessEmpty_le _) (Nat.succ_le_succ (length_ofRaw_le _ _ raw))

theorem weight_rear_le (s : Segment) (raw : List Char) :
    weight (s.rear raw).unlessEmpty ≤ raw.length + 1 :=
  Nat.le_trans (weight_unlessEmpty_le _) (Nat.succ_le_succ (length_ofRaw_le _ _ raw))

end Segment

end WhileSmt
