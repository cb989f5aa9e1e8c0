import WhileSmt.Program.Parser

/-!
Reading blocks as a relation. Each rule names the results of the steps that reading a statement
takes, so that proofs about reading need not open the steps themselves.

Main statement: a queue is read as a block if and only if the rules say so
(`Block.parse_eq_ok_iff`).
-/

namespace WhileSmt

theorem Keyword.isNameChar_text (keyword : Keyword) :
    ∀ c ∈ keyword.text.toList, isNameChar c = true := by
  rw [← List.all_eq_true]
  cases keyword <;> decide

/-- A text that starts with one keyword does not start with another. -/
theorem Keyword.strip?_of_ne {keyword keyword' : Keyword} (h : keyword ≠ keyword')
    (v : List Char) : keyword.strip? (keyword'.text.toList ++ v) = none := by
  cases keyword <;> cases keyword' <;> first | exact absurd rfl h | rfl

/-- The steps that lead to the alternative at the front of a queue. -/
inductive ElsePart.Follows (s : Segment) (queue : List Segment) : ElsePart → Prop where
  | absent : Keyword.elseKw.strip? s.text = none → Follows s queue .absent
  | chain {text : List Char} :
      Keyword.elseKw.strip? s.text = some text →
      (Keyword.ifKw.strip? (s.rear (Text.trimStart text)).text).isSome = true →
      Follows s queue (.chain (s.rear (Text.trimStart text) :: queue))
  | block {text inner : List Char} {body rest : List Segment} :
      Keyword.elseKw.strip? s.text = some text →
      (s.rear (Text.trimStart text)).text = '\x7b' :: inner →
      (s.rear (Text.trimStart text)).block inner queue = .ok (body, rest) →
      Follows s queue (.block body rest)

theorem ElsePart.follows_of {s : Segment} {queue : List Segment} {part : ElsePart}
    (h : ElsePart.of (s :: queue) = .ok part) : Follows s queue part := by
  simp only [ElsePart.of] at h
  split at h
  · next hstrip =>
    cases h
    exact .absent hstrip
  · next text hstrip =>
    split at h
    · next hif =>
      cases h
      exact .chain hstrip hif
    · split at h
      · next inner hbrace =>
        obtain ⟨⟨body, rest⟩, hblock, h⟩ := bind_eq_ok h
        cases h
        exact .block hstrip hbrace hblock
      · cases h

/-! ## Braces -/

namespace Braces

/-- The braces of a text with characters put in front of it. -/
def prepend (w : List Char) : Braces → Braces
  | pending d => .pending d
  | closed before after => .closed (w ++ before) after

theorem prepend_append (u v : List Char) (b : Braces) :
    prepend (u ++ v) b = prepend u (prepend v b) := by
  cases b with
  | pending d => rfl
  | closed before after => simp [prepend]

theorem scan_cons (d : Nat) (c : Char) (v : List Char) :
    scan d (c :: v) =
      if c = '\x7b' then prepend [c] (scan (d + 1) v)
      else if c = '\x7d' then
        match d with
        | 0 => .closed [] v
        | d + 1 => prepend [c] (scan d v)
      else prepend [c] (scan d v) := by
  rw [scan.eq_def]
  rfl

/-- A scan passes over a text without braces. -/
theorem scan_word {w : List Char} (hw : ∀ c ∈ w, c ≠ '\x7b' ∧ c ≠ '\x7d') (d : Nat)
    (v : List Char) : scan d (w ++ v) = prepend w (scan d v) := by
  induction w with
  | nil => cases h : scan d v <;> simp [prepend, h]
  | cons c w ih =>
    rw [List.forall_mem_cons] at hw
    rw [List.cons_append, scan_cons, if_neg hw.1.1, if_neg hw.1.2, ih hw.2, ← prepend_append]
    rfl

end Braces

/-! ## Blocks -/

namespace Block

/-- The rules by which a queue is read. -/
inductive Reading : List Segment → Block → Prop where
  | nil : Reading [] []
  | simple {s : Segment} {queue : List Segment} {stmt : Stmt} {more : Block} :
      s.opening = .ok (.simple stmt) → Reading queue more → Reading (s :: queue) (stmt :: more)
  | loop {s : Segment} {queue body rest : List Segment} {cond : Expr String} {inner : List Char}
      {block more : Block} :
      s.opening = .ok (.block (.loop cond) inner) → s.block inner queue = .ok (body, rest) →
      Reading body block → Reading rest more →
      Reading (s :: queue) (.whileDo s.span cond block :: more)
  | count {s : Segment} {queue body rest : List Segment} {init update : Assignment}
      {cond : Expr String} {inner : List Char} {block more : Block} :
      s.opening = .ok (.block (.count init cond update) inner) →
      s.block inner queue = .ok (body, rest) → Reading body block → Reading rest more →
      Reading (s :: queue) (.forDo s.span init cond update block :: more)
  | branch {s : Segment} {queue body rest : List Segment} {cond : Expr String}
      {inner : List Char} {block more : Block} :
      s.opening = .ok (.block (.branch cond) inner) → s.block inner queue = .ok (body, rest) →
      ElsePart.of rest = .ok .absent → Reading body block → Reading rest more →
      Reading (s :: queue) (.ifElse s.span cond block [] :: more)
  | chain {s : Segment} {queue body rest chain : List Segment} {cond : Expr String}
      {inner : List Char} {block more : Block} :
      s.opening = .ok (.block (.branch cond) inner) → s.block inner queue = .ok (body, rest) →
      ElsePart.of rest = .ok (.chain chain) → Reading body block → Reading chain more →
      Reading (s :: queue) (.ifElse s.span cond block (more.take 1) :: more.drop 1)
  | alternative {s : Segment} {queue body rest body' rest' : List Segment} {cond : Expr String}
      {inner : List Char} {block other more : Block} :
      s.opening = .ok (.block (.branch cond) inner) → s.block inner queue = .ok (body, rest) →
      ElsePart.of rest = .ok (.block body' rest') → Reading body block → Reading body' other →
      Reading rest' more → Reading (s :: queue) (.ifElse s.span cond block other :: more)

theorem parse_simple {s : Segment} {queue : List Segment} {stmt : Stmt}
    (h : s.opening = .ok (.simple stmt)) :
    Block.parse (s :: queue) = do
      let more ← Block.parse queue
      return stmt :: more := by
  rw [Block.parse]
  split
  · next h' => rw [h] at h'; cases h'
  · next h' =>
    rw [h] at h'
    cases h'
    rfl
  · next h' => rw [h] at h'; cases h'

theorem parse_block {s : Segment} {queue body rest : List Segment} {heading : Heading}
    {inner : List Char} (h : s.opening = .ok (.block heading inner))
    (hblock : s.block inner queue = .ok (body, rest)) :
    Block.parse (s :: queue) = do
      let block ← Block.parse body
      match heading with
      | .loop cond =>
        let more ← Block.parse rest
        return .whileDo s.span cond block :: more
      | .count init cond update =>
        let more ← Block.parse rest
        return .forDo s.span init cond update block :: more
      | .branch cond =>
        match ElsePart.of rest with
        | .error e => .error e
        | .ok .absent =>
          let more ← Block.parse rest
          return .ifElse s.span cond block [] :: more
        | .ok (.chain queue) =>
          let more ← Block.parse queue
          return .ifElse s.span cond block (more.take 1) :: more.drop 1
        | .ok (.block body rest) =>
          let alternative ← Block.parse body
          let more ← Block.parse rest
          return .ifElse s.span cond block alternative :: more := by
  rw [Block.parse]
  split
  · next h' => rw [h] at h'; cases h'
  · next h' => rw [h] at h'; cases h'
  · next h' =>
    rw [h] at h'
    cases h'
    split
    · next hb => rw [hblock] at hb; cases hb
    · next hb =>
      rw [hblock] at hb
      cases hb
      cases heading with
      | loop cond => rfl
      | count init cond update => rfl
      | branch cond =>
        dsimp only
        congr 1
        funext block
        split <;> next he => simp only [he]

theorem parse_opening_error {s : Segment} {queue : List Segment} {e : ParseError}
    (h : s.opening = .error e) : Block.parse (s :: queue) = .error e := by
  rw [Block.parse]
  split
  · next h' =>
    rw [h] at h'
    cases h'
    rfl
  · next h' => rw [h] at h'; cases h'
  · next h' => rw [h] at h'; cases h'

theorem parse_block_error {s : Segment} {queue : List Segment} {heading : Heading}
    {inner : List Char} {e : ParseError} (h : s.opening = .ok (.block heading inner))
    (hblock : s.block inner queue = .error e) : Block.parse (s :: queue) = .error e := by
  rw [Block.parse]
  split
  · next h' => rw [h] at h'; cases h'
  · next h' => rw [h] at h'; cases h'
  · next h' =>
    rw [h] at h'
    cases h'
    split
    · next hb =>
      rw [hblock] at hb
      cases hb
      rfl
    · next hb => rw [hblock] at hb; cases hb

theorem Reading.parse {queue : List Segment} {b : Block} (h : Reading queue b) :
    Block.parse queue = .ok b := by
  induction h with
  | nil => rw [Block.parse]
  | simple hopen _ ih =>
    rw [parse_simple hopen, ih]
    rfl
  | loop hopen hblock _ _ ihbody ihrest =>
    rw [parse_block hopen hblock, ihbody]
    simp [bind, Except.bind, pure, Except.pure, ihrest]
  | count hopen hblock _ _ ihbody ihrest =>
    rw [parse_block hopen hblock, ihbody]
    simp [bind, Except.bind, pure, Except.pure, ihrest]
  | branch hopen hblock helse _ _ ihbody ihrest =>
    rw [parse_block hopen hblock, ihbody]
    simp [bind, Except.bind, pure, Except.pure, helse, ihrest]
  | chain hopen hblock helse _ _ ihbody ihchain =>
    rw [parse_block hopen hblock, ihbody]
    simp [bind, Except.bind, pure, Except.pure, helse, ihchain]
  | alternative hopen hblock helse _ _ _ ihbody ihother ihrest =>
    rw [parse_block hopen hblock, ihbody]
    simp [bind, Except.bind, pure, Except.pure, helse, ihother, ihrest]

theorem reading_of_parse {queue : List Segment} {b : Block} (h : Block.parse queue = .ok b) :
    Reading queue b := by
  induction queue using Block.parse.induct generalizing b with
  | case1 =>
    rw [Block.parse] at h
    cases h
    exact .nil
  | case2 s queue e hopen =>
    rw [parse_opening_error hopen] at h
    cases h
  | case3 s queue stmt hopen ih =>
    rw [parse_simple hopen] at h
    obtain ⟨more, hmore, h⟩ := bind_eq_ok h
    cases h
    exact .simple hopen (ih hmore)
  | case4 s queue heading inner hopen e hblock =>
    rw [parse_block_error hopen hblock] at h
    cases h
  | case5 s queue heading inner hopen body rest hblock ihbody ihrest _ ihchain ihother ihafter =>
    rw [parse_block hopen hblock] at h
    obtain ⟨block, hbody, h⟩ := bind_eq_ok h
    cases heading with
    | loop cond =>
      obtain ⟨more, hmore, h⟩ := bind_eq_ok h
      cases h
      exact .loop hopen hblock (ihbody hbody) (ihrest hmore)
    | count init cond update =>
      obtain ⟨more, hmore, h⟩ := bind_eq_ok h
      cases h
      exact .count hopen hblock (ihbody hbody) (ihrest hmore)
    | branch cond =>
      dsimp only at h
      split at h
      · cases h
      · next helse =>
        obtain ⟨more, hmore, h⟩ := bind_eq_ok h
        cases h
        exact .branch hopen hblock helse (ihbody hbody) (ihrest hmore)
      · next helse =>
        obtain ⟨more, hmore, h⟩ := bind_eq_ok h
        cases h
        exact .chain hopen hblock helse (ihbody hbody) (ihchain _ helse hmore)
      · next helse =>
        obtain ⟨other, hother, h⟩ := bind_eq_ok h
        obtain ⟨more, hmore, h⟩ := bind_eq_ok h
        cases h
        exact .alternative hopen hblock helse (ihbody hbody) (ihother _ _ helse hother)
          (ihafter _ _ helse hmore)

/-- A queue is read as a block if and only if the rules say so. -/
theorem parse_eq_ok_iff {queue : List Segment} {b : Block} :
    Block.parse queue = .ok b ↔ Reading queue b :=
  ⟨reading_of_parse, Reading.parse⟩

end Block

end WhileSmt
