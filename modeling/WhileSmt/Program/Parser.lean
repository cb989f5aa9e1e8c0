import WhileSmt.Diagnostic
import WhileSmt.Expr.Parser
import WhileSmt.Program.Segment

/-!
Reading programs. Statements are read from a queue of segments. `Segment.opening` decides what the
first segment opens and, for a branch or a loop, takes the segments of its block off the queue by
counting braces; `Block.parse` reads the blocks in turn. What is left to read gets lighter with
every step (`Segment.weight`), so reading ends.
-/

namespace WhileSmt

/-- The words that start statements, and `else`. -/
inductive Keyword where
  | ifKw | whileKw | forKw | assertKw | elseKw
deriving DecidableEq

/-- A keyword as sources write it. -/
def Keyword.text : Keyword → String
  | ifKw => "if"
  | whileKw => "while"
  | forKw => "for"
  | assertKw => "assert"
  | elseKw => "else"

/-! ## Faults -/

/-- What is wrong with a segment. -/
inductive Fault where
  | expression (error : ExprError)
  | elseAlone
  | braceAlone
  | unrecognized
  | noParenthesis (keyword : Keyword)
  | unbalanced (keyword : Keyword)
  | noBrace (keyword : Keyword)
  | noElseBrace
  | unmatched
  | forHead
  | assertForm
  | assignmentForm
  | target (text : String)
deriving DecidableEq

/-- What is said about a fault. -/
def Fault.message : Fault → String
  | expression error => error.message
  | elseAlone => "`else` without a preceding `if` block"
  | braceAlone => "unexpected `\x7d`"
  | unrecognized => "unrecognized statement"
  | noParenthesis keyword => "expected `(` after `" ++ keyword.text ++ "`"
  | unbalanced keyword => "unbalanced parentheses in `" ++ keyword.text ++ "` header"
  | noBrace keyword => "expected `\x7b` after `" ++ keyword.text ++ " (...)`"
  | noElseBrace => "expected `\x7b` after `else`"
  | unmatched => "unmatched `\x7b`: block is never closed"
  | forHead => "`for` header must have the form `init; condition; update`"
  | assertForm => "expected `assert(condition);`"
  | assignmentForm => "expected an assignment `name := expression`"
  | target text => "invalid assignment target `" ++ text ++ "`"

/-- A fault and the segment that has it. -/
structure ParseError where
  fault : Fault
  segment : Segment
deriving DecidableEq

/-- The report on a fault, which quotes its segment. -/
def ParseError.diagnostic (e : ParseError) : Diagnostic where
  cause := .malformed e.fault.message (String.ofList e.segment.text)
  span := some e.segment.span

/-- A fault in a segment ends the reading. -/
def Segment.fail {α : Type} (s : Segment) (fault : Fault) : Except ParseError α :=
  .error { fault := fault, segment := s }

/-! ## Pieces of a segment -/

/-- What follows a keyword at the start of a text. A keyword does not run on into a longer name. -/
def Keyword.strip? (keyword : Keyword) (text : List Char) : Option (List Char) :=
  if keyword.text.toList.isPrefixOf text then
    match text.drop keyword.text.toList.length with
    | [] => some []
    | c :: rest => if isNameChar c then none else some (c :: rest)
  else none

/-- Splits a text at the first `:=`. -/
def splitAssign? : List Char → Option (List Char × List Char)
  | [] => none
  | ':' :: '=' :: rest => some ([], rest)
  | c :: rest => (splitAssign? rest).map fun (before, after) => (c :: before, after)

/-- Splits a text at every semicolon; there is one part more than there are semicolons. -/
def splitSemicolons : List Char → List (List Char)
  | [] => [[]]
  | ';' :: rest => [] :: splitSemicolons rest
  | c :: rest =>
    match splitSemicolons rest with
    | [] => [[c]]
    | part :: more => (c :: part) :: more

/-- A statement without the semicolon at its end. -/
def dropSemicolon (text : List Char) : List Char :=
  if text.getLast? = some ';' then text.dropLast else text

namespace Segment

/-- Reads a text of the segment as an expression. -/
def expression (s : Segment) (text : List Char) : Except ParseError (Expr String) :=
  match Expr.parse text with
  | .ok e => .ok e
  | .error error => s.fail (.expression error)

/-- Reads a text of the segment as an assignment; one semicolon may end it. -/
def assignment (s : Segment) (text : List Char) : Except ParseError Assignment :=
  match splitAssign? text with
  | none => s.fail .assignmentForm
  | some (before, after) =>
    let target := Text.trim before
    if isIdentifier target then do
      let value ← s.expression (dropSemicolon (Text.trim after))
      return { target := String.ofList target, value := value }
    else
      s.fail (.target (String.ofList target))

/-- Splits `(inside) { rest` after a keyword into the text inside the parentheses and the text
after the brace. -/
def head (s : Segment) (keyword : Keyword) (text : List Char) :
    Except ParseError (List Char × List Char) :=
  match Text.trimStart text with
  | '(' :: rest =>
    match splitClosing 0 rest with
    | some (inside, _, after) =>
      match Text.trimStart after with
      | '\x7b' :: rest => .ok (inside, rest)
      | _ => s.fail (.noBrace keyword)
    | none => s.fail (.unbalanced keyword)
  | _ => s.fail (.noParenthesis keyword)

/-- Reads `(condition);` after the keyword of an assertion. -/
def assertion (s : Segment) (text : List Char) : Except ParseError Stmt :=
  match Text.trimStart text with
  | '(' :: rest =>
    match splitClosing 0 rest with
    | some (inside, _, after) =>
      if Text.trim after = [';'] then do
        let cond ← s.expression inside
        return .check s.span cond
      else s.fail .assertForm
    | none => s.fail .assertForm
  | _ => s.fail .assertForm

end Segment

/-! ## Blocks -/

/-- The braces of a text inside a block: either the block is still open, with so many blocks open
inside it, or it ends here. -/
inductive Braces where
  | pending (depth : Nat)
  | closed (before after : List Char)

/-- Looks for the brace that closes a block, with `depth` blocks open inside it. -/
def Braces.scan (depth : Nat) : List Char → Braces
  | [] => .pending depth
  | c :: rest =>
    let further (depth : Nat) : Braces :=
      match scan depth rest with
      | .pending depth => .pending depth
      | .closed before after => .closed (c :: before) after
    if c = '\x7b' then further (depth + 1)
    else if c = '\x7d' then
      match depth with
      | 0 => .closed [] rest
      | depth + 1 => further depth
    else further depth

/-- Takes the segments of a block off a queue that starts inside it. Text before the closing brace
belongs to the block, and text after it goes back to the queue. -/
def takeBlock (depth : Nat) : List Segment → Option (List Segment × List Segment)
  | [] => none
  | s :: queue =>
    match Braces.scan depth s.text with
    | .pending depth => (takeBlock depth queue).map fun (body, rest) => (s :: body, rest)
    | .closed before after =>
      some ((s.front before).unlessEmpty, (s.rear after).unlessEmpty ++ queue)

/-- The block that `s` opens, where `inner` is the text of `s` after the brace. -/
def Segment.block (s : Segment) (inner : List Char) (queue : List Segment) :
    Except ParseError (List Segment × List Segment) :=
  match takeBlock 0 ((s.rear inner).unlessEmpty ++ queue) with
  | some split => .ok split
  | none => s.fail .unmatched

/-- The head of a statement with a block. -/
inductive Heading where
  | branch (cond : Expr String)
  | loop (cond : Expr String)
  | count (init : Assignment) (cond : Expr String) (update : Assignment)

/-- What a segment opens: a whole statement, or a block, with the text after its brace. -/
inductive Opening where
  | simple (stmt : Stmt)
  | block (heading : Heading) (inner : List Char)

namespace Segment

/-- The opening of a branch, from its condition to its brace. -/
def branch (s : Segment) (text : List Char) : Except ParseError Opening := do
  let (inside, inner) ← s.head .ifKw text
  let cond ← s.expression inside
  return .block (.branch cond) inner

/-- The opening of a loop with a condition. -/
def loop (s : Segment) (text : List Char) : Except ParseError Opening := do
  let (inside, inner) ← s.head .whileKw text
  let cond ← s.expression inside
  return .block (.loop cond) inner

/-- The opening of a counting loop, with three parts between its parentheses. -/
def count (s : Segment) (text : List Char) : Except ParseError Opening := do
  let (inside, inner) ← s.head .forKw text
  match splitSemicolons inside with
  | [first, second, third] =>
    let init ← s.assignment first
    let cond ← s.expression second
    let update ← s.assignment third
    return .block (.count init cond update) inner
  | _ => s.fail .forHead

/-- What a segment opens. -/
def opening (s : Segment) : Except ParseError Opening :=
  match Keyword.ifKw.strip? s.text with
  | some text => s.branch text
  | none => match Keyword.whileKw.strip? s.text with
    | some text => s.loop text
    | none => match Keyword.forKw.strip? s.text with
      | some text => s.count text
      | none => match Keyword.assertKw.strip? s.text with
        | some text => return .simple (← s.assertion text)
        | none =>
          if (Keyword.elseKw.strip? s.text).isSome then s.fail .elseAlone
          else if s.text.head? = some '\x7d' then s.fail .braceAlone
          else if (splitAssign? s.text).isSome then
            return .simple (.assign s.span (← s.assignment s.text))
          else s.fail .unrecognized

end Segment

/-- What follows a branch: nothing of it, a queue that starts with another branch, or a block. -/
inductive ElsePart where
  | absent
  | chain (queue : List Segment)
  | block (body rest : List Segment)

/-- The alternative at the front of a queue that follows a branch. -/
def ElsePart.of (queue : List Segment) : Except ParseError ElsePart :=
  match queue with
  | [] => .ok .absent
  | s :: rest =>
    match Keyword.elseKw.strip? s.text with
    | none => .ok .absent
    | some text =>
      let alternative := s.rear (Text.trimStart text)
      if (Keyword.ifKw.strip? alternative.text).isSome then
        .ok (.chain (alternative :: rest))
      else match alternative.text with
        | '\x7b' :: inner => do
          let (body, rest) ← alternative.block inner rest
          return .block body rest
        | _ => s.fail .noElseBrace

/-! ## Reading lightens the queue -/

theorem Braces.scan_length {depth : Nat} {text before after : List Char}
    (h : scan depth text = .closed before after) :
    before.length + after.length < text.length := by
  induction text generalizing depth before after with
  | nil => simp [scan] at h
  | cons c rest ih =>
    have further {d : Nat}
        (h : (match scan d rest with
          | .pending depth => Braces.pending depth
          | .closed before after => .closed (c :: before) after) = .closed before after) :
        before.length + after.length < (c :: rest).length := by
      split at h
      · cases h
      · next hs =>
        cases h
        have := ih hs
        simp only [List.length_cons]
        omega
    simp only [scan] at h
    split at h
    · exact further h
    · split at h
      · cases depth with
        | zero =>
          cases h
          simp
        | succ d => exact further h
      · exact further h

theorem takeBlock_weight {depth : Nat} {queue body rest : List Segment}
    (h : takeBlock depth queue = some (body, rest)) :
    Segment.weight body + Segment.weight rest ≤ Segment.weight queue := by
  induction queue generalizing depth body rest with
  | nil => simp [takeBlock] at h
  | cons s queue ih =>
    unfold takeBlock at h
    split at h
    · obtain ⟨⟨b, r⟩, ht, he⟩ := Option.map_eq_some_iff.mp h
      cases he
      have := ih ht
      simp only [Segment.weight_cons]
      omega
    · next before after hs =>
      cases h
      have hlen := Braces.scan_length hs
      have hfront := Segment.weight_front_le s before
      have hrear := Segment.weight_rear_le s after
      simp only [Segment.weight_cons, Segment.weight_append]
      omega

theorem Segment.block_weight {s : Segment} {inner : List Char} {queue body rest : List Segment}
    (h : s.block inner queue = .ok (body, rest)) :
    Segment.weight body + Segment.weight rest ≤ inner.length + 1 + Segment.weight queue := by
  unfold block at h
  split at h
  · next ht =>
    cases h
    have := takeBlock_weight ht
    have := Segment.weight_rear_le s inner
    simp only [Segment.weight_append] at *
    omega
  · cases h

theorem Keyword.strip?_eq {keyword : Keyword} {text rest : List Char}
    (h : keyword.strip? text = some rest) : text = keyword.text.toList ++ rest := by
  unfold strip? at h
  split at h
  · next hfront =>
    obtain ⟨r, hr⟩ := List.isPrefixOf_iff_prefix.mp hfront
    rw [← hr, List.drop_left] at h
    split at h
    · cases h
      exact hr.symm
    · split at h
      · cases h
      · cases h
        exact hr.symm
  · cases h

theorem Keyword.strip?_length {keyword : Keyword} {text rest : List Char}
    (h : keyword.strip? text = some rest) : rest.length < text.length := by
  have hpos : 0 < keyword.text.toList.length := by cases keyword <;> decide
  rw [strip?_eq h, List.length_append]
  omega

theorem Segment.head_length {s : Segment} {keyword : Keyword} {text inside inner : List Char}
    (h : s.head keyword text = .ok (inside, inner)) : inner.length < text.length := by
  unfold head at h
  split at h
  · next rest ht =>
    have h₁ := Text.length_trimStart_le text
    rw [ht] at h₁
    split at h
    · next after hs =>
      have h₂ := splitClosing_length hs
      split at h
      · next hb =>
        cases h
        have h₃ := Text.length_trimStart_le after
        rw [hb] at h₃
        simp only [List.length_cons] at h₁ h₃
        omega
      · cases h
    · cases h
  · cases h

/-- The steps that lead to what a segment opens. -/
inductive Segment.Opens (s : Segment) : Opening → Prop where
  | branch {text inside inner : List Char} {cond : Expr String} :
      Keyword.ifKw.strip? s.text = some text → s.head .ifKw text = .ok (inside, inner) →
      s.expression inside = .ok cond → Opens s (.block (.branch cond) inner)
  | loop {text inside inner : List Char} {cond : Expr String} :
      Keyword.whileKw.strip? s.text = some text → s.head .whileKw text = .ok (inside, inner) →
      s.expression inside = .ok cond → Opens s (.block (.loop cond) inner)
  | count {text inside inner first second third : List Char} {init update : Assignment}
      {cond : Expr String} :
      Keyword.forKw.strip? s.text = some text → s.head .forKw text = .ok (inside, inner) →
      splitSemicolons inside = [first, second, third] → s.assignment first = .ok init →
      s.expression second = .ok cond → s.assignment third = .ok update →
      Opens s (.block (.count init cond update) inner)
  | check {text : List Char} {stmt : Stmt} :
      Keyword.assertKw.strip? s.text = some text → s.assertion text = .ok stmt →
      Opens s (.simple stmt)
  | assign {a : Assignment} : s.assignment s.text = .ok a → Opens s (.simple (.assign s.span a))

theorem Segment.opens_of_opening {s : Segment} {o : Opening} (h : s.opening = .ok o) :
    s.Opens o := by
  unfold opening at h
  split at h
  · next text hk =>
    obtain ⟨⟨inside, inner⟩, hhead, h⟩ := bind_eq_ok h
    obtain ⟨cond, hcond, h⟩ := bind_eq_ok h
    cases h
    exact .branch hk hhead hcond
  · split at h
    · next text hk =>
      obtain ⟨⟨inside, inner⟩, hhead, h⟩ := bind_eq_ok h
      obtain ⟨cond, hcond, h⟩ := bind_eq_ok h
      cases h
      exact .loop hk hhead hcond
    · split at h
      · next text hk =>
        obtain ⟨⟨inside, inner⟩, hhead, h⟩ := bind_eq_ok h
        dsimp only at h
        split at h
        · next hparts =>
          obtain ⟨init, hinit, h⟩ := bind_eq_ok h
          obtain ⟨cond, hcond, h⟩ := bind_eq_ok h
          obtain ⟨update, hupdate, h⟩ := bind_eq_ok h
          cases h
          exact .count hk hhead hparts hinit hcond hupdate
        · cases h
      · split at h
        · next text hk =>
          obtain ⟨stmt, hstmt, h⟩ := bind_eq_ok h
          cases h
          exact .check hk hstmt
        · split at h
          · cases h
          · split at h
            · cases h
            · split at h
              · obtain ⟨a, ha, h⟩ := bind_eq_ok h
                cases h
                exact .assign ha
              · cases h

theorem Segment.opening_length {s : Segment} {heading : Heading} {inner : List Char}
    (h : s.opening = .ok (.block heading inner)) : inner.length < s.text.length := by
  cases opens_of_opening h with
  | branch hk hhead => exact Nat.lt_trans (head_length hhead) (Keyword.strip?_length hk)
  | loop hk hhead => exact Nat.lt_trans (head_length hhead) (Keyword.strip?_length hk)
  | count hk hhead => exact Nat.lt_trans (head_length hhead) (Keyword.strip?_length hk)

/-- The segments that an alternative leaves to be read. -/
def ElsePart.weight : ElsePart → Nat
  | absent => 0
  | chain queue => Segment.weight queue
  | block body rest => Segment.weight body + Segment.weight rest

theorem ElsePart.of_weight {queue : List Segment} {part : ElsePart}
    (h : ElsePart.of queue = .ok part) : part.weight ≤ Segment.weight queue := by
  unfold ElsePart.of at h
  split at h
  · cases h
    simp [weight]
  · next s rest =>
    split at h
    · cases h
      simp [weight]
    · next text hk =>
      have hlt := Keyword.strip?_length hk
      have hrear : (s.rear (Text.trimStart text)).text.length < s.text.length :=
        Nat.lt_of_le_of_lt
          (Nat.le_trans (Segment.length_ofRaw_le _ _ _) (Text.length_trimStart_le text)) hlt
      dsimp only at h
      split at h
      · cases h
        simp only [weight, Segment.weight_cons]
        omega
      · split at h
        · next inner ht =>
          obtain ⟨⟨body, rest'⟩, hb, h⟩ := bind_eq_ok h
          cases h
          have := Segment.block_weight hb
          rw [ht] at hrear
          simp only [weight, Segment.weight_cons, List.length_cons] at *
          omega
        · cases h

/-! ## Reading blocks and programs -/

/-- Reads the statements of a queue, first fault first. The statements that follow an `else if`
start with the nested branch itself, which is the whole alternative. -/
def Block.parse (queue : List Segment) : Except ParseError Block :=
  match queue with
  | [] => .ok []
  | s :: queue =>
    match _h : s.opening with
    | .error e => .error e
    | .ok (.simple stmt) => do
      let more ← Block.parse queue
      return stmt :: more
    | .ok (.block heading inner) =>
      match _h' : s.block inner queue with
      | .error e => .error e
      | .ok (body, rest) => do
        let block ← Block.parse body
        match heading with
        | .loop cond =>
          let more ← Block.parse rest
          return .whileDo s.span cond block :: more
        | .count init cond update =>
          let more ← Block.parse rest
          return .forDo s.span init cond update block :: more
        | .branch cond =>
          match _h'' : ElsePart.of rest with
          | .error e => .error e
          | .ok .absent =>
            let more ← Block.parse rest
            return .ifElse s.span cond block [] :: more
          | .ok (.chain queue) =>
            let more ← Block.parse queue
            return .ifElse s.span cond block (more.take 1) :: more.drop 1
          | .ok (.block body rest) =>
            let alternative ← Block.parse body
            let more ← Block.parse rest
            return .ifElse s.span cond block alternative :: more
termination_by Segment.weight queue
decreasing_by
  all_goals simp only [Segment.weight_cons]
  · omega
  all_goals
    have hopen := Segment.opening_length _h
    have hblock := Segment.block_weight _h'
    try have helse := ElsePart.of_weight _h''
    try simp only [ElsePart.weight] at helse
    omega

/-- Reads a program. -/
def Program.parse (source : String) : Except ParseError Program := do
  let statements ← Block.parse (Segment.ofSource source.toList)
  return { statements := statements }

end WhileSmt
