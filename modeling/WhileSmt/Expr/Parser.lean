import WhileSmt.Expr.Basic
import WhileSmt.Text.Blank

/-!
Reading expressions. The grammar has no precedence levels: a text that is not in parentheses as a
whole, not an array read and not an integer is split at the first of the operators, tried in a
fixed order, that occurs outside brackets. The right operand is all that follows, so
`a - b - c` reads as `a - (b - c)`.

`Phrase.of` decides which of these forms a text has, and `Expr.parse` reads the parts. The parts
of a phrase are shorter than the text (`Phrase.of_parts`), so reading ends.
-/

namespace WhileSmt

/-- The operators in the order in which a text is tried for them. -/
def BinOp.priority : List BinOp :=
  [.cmp .eq, .cmp .ne, .cmp .le, .cmp .ge, .cmp .lt, .cmp .gt,
   .arith .add, .arith .sub, .arith .mul, .arith .div, .arith .mod]

/-- The letters that names may have. -/
def isLetter (c : Char) : Bool :=
  'a' ≤ c && c ≤ 'z' || 'A' ≤ c && c ≤ 'Z'

/-- The characters that continue a name: letters and digits of ASCII, and the underscore. -/
def isNameChar (c : Char) : Bool :=
  isLetter c || Text.isDigit c || c = '_'

/-- A name starts with a letter or an underscore. -/
def isIdentifier : List Char → Bool
  | [] => false
  | c :: rest => (isLetter c || c = '_') && rest.all isNameChar

/-- The brackets that open a group. -/
def isOpening (c : Char) : Bool :=
  c = '(' || c = '['

/-- The brackets that close a group. -/
def isClosing (c : Char) : Bool :=
  c = ')' || c = ']'

/-- Splits a text that follows an opening bracket at the bracket that closes it, into the text
inside, the closing bracket, and the text after. Either kind of bracket closes either kind. -/
def splitClosing (depth : Nat) : List Char → Option (List Char × Char × List Char)
  | [] => none
  | c :: rest =>
    let further (depth : Nat) :=
      (splitClosing depth rest).map fun (inside, close, after) => (c :: inside, close, after)
    if isOpening c then further (depth + 1)
    else if isClosing c then
      match depth with
      | 0 => some ([], c, rest)
      | depth + 1 => further depth
    else further depth

/-- Splits a text at the first occurrence of `symbol` outside brackets. A closing bracket without
its opening one makes the depth negative, and nothing counts as outside there. -/
def splitOutside (symbol : List Char) (depth : Int) :
    List Char → Option (List Char × List Char)
  | [] => none
  | c :: rest =>
    let further (depth : Int) :=
      (splitOutside symbol depth rest).map fun (before, after) => (c :: before, after)
    if isOpening c then further (depth + 1)
    else if isClosing c then further (depth - 1)
    else if depth = 0 && symbol.isPrefixOf (c :: rest) then
      some ([], (c :: rest).drop symbol.length)
    else further depth

/-- The operator that splits a text, with the text on its two sides. -/
def splitOperator? (text : List Char) : Option (BinOp × List Char × List Char) :=
  BinOp.priority.findSome? fun op =>
    (splitOutside op.symbol.toList 0 text).map fun (l, r) => (op, l, r)

/-- The text inside parentheses that enclose a whole text. -/
def enclosed? : List Char → Option (List Char)
  | '(' :: rest =>
    match splitClosing 0 rest with
    | some (inside, ')', []) => some inside
    | _ => none
  | _ => none

/-- The name and the index of a text that is one array read as a whole. -/
def arrayRead? (text : List Char) : Option (List Char × List Char) :=
  match text.dropWhile (· ≠ '[') with
  | [] => none
  | _ :: rest =>
    match splitClosing 0 rest with
    | some (inside, ']', []) =>
      if isIdentifier (Text.trim (text.takeWhile (· ≠ '['))) then
        some (Text.trim (text.takeWhile (· ≠ '[')), inside)
      else none
    | _ => none

/-- The outermost form of a text. -/
inductive Phrase where
  | empty
  | group (inside : List Char)
  | read (array : List Char) (inside : List Char)
  | number (n : Int64)
  | operation (op : BinOp) (l r : List Char)
  | name (x : List Char)
  | unknown (text : List Char)

/-- The form of a text without blanks around it. -/
def Phrase.ofTrimmed (text : List Char) : Phrase :=
  if text.isEmpty then .empty
  else match enclosed? text with
    | some inside => .group inside
    | none => match arrayRead? text with
      | some (a, inside) => .read a inside
      | none => match Text.readInt64? text with
        | some n => .number n
        | none => match splitOperator? text with
          | some (op, l, r) => .operation op l r
          | none => if isIdentifier text then .name text else .unknown text

/-- The phrase in a text, with the blanks around it left out. -/
def Phrase.of (text : List Char) : Phrase :=
  Phrase.ofTrimmed (Text.trim text)

/-! ## The parts of a phrase are shorter than its text -/

theorem splitClosing_length {depth : Nat} {text inside after : List Char} {close : Char}
    (h : splitClosing depth text = some (inside, close, after)) :
    inside.length + after.length < text.length := by
  induction text generalizing depth inside after with
  | nil => simp [splitClosing] at h
  | cons c rest ih =>
    have further {d : Nat}
        (h : (splitClosing d rest).map (fun (i, cl, a) => (c :: i, cl, a))
          = some (inside, close, after)) :
        inside.length + after.length < (c :: rest).length := by
      obtain ⟨⟨i, cl, a⟩, hs, he⟩ := Option.map_eq_some_iff.mp h
      cases he
      have := ih hs
      simp only [List.length_cons]
      omega
    simp only [splitClosing] at h
    split at h
    · exact further h
    · split at h
      · cases depth with
        | zero =>
          simp only [Option.some.injEq, Prod.mk.injEq] at h
          obtain ⟨rfl, -, rfl⟩ := h
          simp
        | succ d => exact further h
      · exact further h

theorem splitOutside_length {symbol : List Char} (hne : symbol ≠ []) {depth : Int}
    {text before after : List Char}
    (h : splitOutside symbol depth text = some (before, after)) :
    before.length + after.length < text.length := by
  induction text generalizing depth before after with
  | nil => simp [splitOutside] at h
  | cons c rest ih =>
    have further {d : Int}
        (h : (splitOutside symbol d rest).map (fun (b, a) => (c :: b, a))
          = some (before, after)) :
        before.length + after.length < (c :: rest).length := by
      obtain ⟨⟨b, a⟩, hs, he⟩ := Option.map_eq_some_iff.mp h
      cases he
      have := ih hs
      simp only [List.length_cons]
      omega
    simp only [splitOutside] at h
    split at h
    · exact further h
    · split at h
      · exact further h
      · split at h
        · simp only [Option.some.injEq, Prod.mk.injEq] at h
          obtain ⟨rfl, rfl⟩ := h
          have hpos : 0 < symbol.length := List.length_pos_iff.mpr hne
          simp only [List.length_drop, List.length_cons, List.length_nil]
          omega
        · exact further h

theorem BinOp.symbol_ne_nil (op : BinOp) : op.symbol.toList ≠ [] := by
  cases op with
  | cmp op => cases op <;> simp [BinOp.symbol, Cmp.symbol]
  | arith op => cases op <;> simp [BinOp.symbol, Arith.symbol]

theorem splitOperator?_length {text l r : List Char} {op : BinOp}
    (h : splitOperator? text = some (op, l, r)) : l.length + r.length < text.length := by
  obtain ⟨op', -, h⟩ := List.exists_of_findSome?_eq_some h
  obtain ⟨⟨l', r'⟩, hs, he⟩ := Option.map_eq_some_iff.mp h
  cases he
  exact splitOutside_length op.symbol_ne_nil hs

theorem enclosed?_length {text inside : List Char} (h : enclosed? text = some inside) :
    inside.length < text.length := by
  unfold enclosed? at h
  split at h
  · split at h
    · next hs =>
      cases h
      have := splitClosing_length hs
      simp only [List.length_nil, List.length_cons] at this ⊢
      omega
    · cases h
  · cases h

theorem arrayRead?_length {text array inside : List Char}
    (h : arrayRead? text = some (array, inside)) : inside.length < text.length := by
  unfold arrayRead? at h
  split at h
  · cases h
  · next c rest hdrop =>
    have hlen := (List.dropWhile_sublist (l := text) (· ≠ '[')).length_le
    rw [hdrop] at hlen
    split at h
    · next hs =>
      split at h
      · cases h
        have := splitClosing_length hs
        simp only [List.length_nil, List.length_cons] at this hlen
        omega
      · cases h
    · cases h

/-- The texts inside a phrase, which are read in turn. -/
def Phrase.parts : Phrase → List (List Char)
  | group inside => [inside]
  | read _ inside => [inside]
  | operation _ l r => [l, r]
  | _ => []

theorem Phrase.ofTrimmed_parts {text part : List Char} (h : part ∈ (ofTrimmed text).parts) :
    part.length < text.length := by
  unfold ofTrimmed at h
  split at h
  · simp [parts] at h
  · split at h
    · next hg =>
      simp only [parts, List.mem_singleton] at h
      subst h
      exact enclosed?_length hg
    · split at h
      · next hr =>
        simp only [parts, List.mem_singleton] at h
        subst h
        exact arrayRead?_length hr
      · split at h
        · simp [parts] at h
        · split at h
          · next ho =>
            have := splitOperator?_length ho
            simp only [parts, List.mem_cons, List.not_mem_nil, or_false] at h
            rcases h with rfl | rfl <;> omega
          · split at h <;> simp [parts] at h

theorem Phrase.of_parts {text part : List Char} (h : part ∈ (Phrase.of text).parts) :
    part.length < text.length :=
  Nat.lt_of_lt_of_le (ofTrimmed_parts h) (Text.length_trim_le text)

/-! ## Reading -/

/-- Why a text is not an expression. -/
inductive ExprError where
  | missingOperand
  | invalidOperand (text : String)
deriving DecidableEq

/-- What is said about a text that is no expression. -/
def ExprError.message : ExprError → String
  | missingOperand => "missing operand"
  | invalidOperand text => "invalid operand `" ++ text ++ "`"

/-- Reads an expression. The left operand of an operation is read first, so of two faults the one
on the left is reported. -/
def Expr.parse (text : List Char) : Except ExprError (Expr String) :=
  match _h : Phrase.of text with
  | .empty => .error .missingOperand
  | .group inside => Expr.parse inside
  | .read a inside => do
    let i ← Expr.parse inside
    return .index (String.ofList a) i
  | .number n => .ok (.lit n)
  | .operation op left right => do
    let l ← Expr.parse left
    let r ← Expr.parse right
    return .binary op l r
  | .name x => .ok (.var (String.ofList x))
  | .unknown text => .error (.invalidOperand (String.ofList text))
termination_by text.length
decreasing_by
  all_goals exact Phrase.of_parts (by rw [_h]; simp [Phrase.parts])

/-- A computation in two steps that ends well has a first step that ends well. -/
theorem bind_eq_ok {ε α β : Type} {x : Except ε α} {f : α → Except ε β} {b : β}
    (h : (x >>= f) = .ok b) : ∃ a, x = .ok a ∧ f a = .ok b := by
  cases x with
  | error e => cases h
  | ok a => exact ⟨a, rfl, h⟩

end WhileSmt
