import WhileSmt.Proofs.Expr.Conservation
import WhileSmt.Proofs.Program.Reading

/-!
Reading a program drops nothing but comments and layout, with one exception: the parenthesis that
opens the condition of a statement may be closed by a square bracket, and that bracket is dropped.

Main statement: `Program.bareSource_of_parse`.
-/

namespace WhileSmt

/-! ## Sources without comments and layout -/

namespace Text

/-- A line up to its comment. -/
def uncomment : List Char → List Char
  | [] => []
  | '/' :: '/' :: _ => []
  | c :: rest => c :: uncomment rest

/-- A source text without comments and layout. -/
def bareSource (source : List Char) : List Char :=
  (lines source).flatMap fun line => bare (uncomment line)

end Text

/-! ## Programs without layout -/

/-- The text of an assignment without blanks and round parentheses. -/
def Assignment.bare (a : Assignment) : List Char :=
  a.target.toList ++ ':' :: '=' :: a.value.bare

/-- The text of a heading without blanks, round parentheses, braces and semicolons. -/
def Heading.bare : Heading → List Char
  | branch cond => Keyword.ifKw.text.toList ++ cond.bare
  | loop cond => Keyword.whileKw.text.toList ++ cond.bare
  | count init cond update =>
    Keyword.forKw.text.toList ++ (init.bare ++ (cond.bare ++ update.bare))

/-- What is left of the closing bracket of a condition: nothing of a parenthesis, but a square
bracket where one may stand instead. -/
def Closer (loose : Bool) (w : List Char) : Prop :=
  w = [] ∨ loose = true ∧ w = [']']

/-- The statements of a block in order, without layout. A branch whose second arm is empty may have
been written with or without the word for it. -/
inductive Block.Bare (loose : Bool) : Block → List Char → Prop where
  | nil : Bare loose [] []
  | assign {span : Span} {a : Assignment} {rest : Block} {w : List Char} :
      Bare loose rest w → Bare loose (.assign span a :: rest) (a.bare ++ w)
  | check {span : Span} {cond : Expr String} {rest : Block} {g w : List Char} :
      Closer loose g → Bare loose rest w →
      Bare loose (.check span cond :: rest)
        (Keyword.assertKw.text.toList ++ (cond.bare ++ (g ++ w)))
  | ifElse {span : Span} {cond : Expr String} {t e rest : Block} {g u other v w : List Char} :
      Closer loose g → Bare loose t u → Bare loose e v → Bare loose rest w →
      (other = Keyword.elseKw.text.toList ∨ e = [] ∧ other = []) →
      Bare loose (.ifElse span cond t e :: rest)
        ((Heading.branch cond).bare ++ (g ++ (u ++ (other ++ (v ++ w)))))
  | whileDo {span : Span} {cond : Expr String} {body rest : Block} {g u w : List Char} :
      Closer loose g → Bare loose body u → Bare loose rest w →
      Bare loose (.whileDo span cond body :: rest) ((Heading.loop cond).bare ++ (g ++ (u ++ w)))
  | forDo {span : Span} {init update : Assignment} {cond : Expr String} {body rest : Block}
      {g u w : List Char} :
      Closer loose g → Bare loose body u → Bare loose rest w →
      Bare loose (.forDo span init cond update body :: rest)
        ((Heading.count init cond update).bare ++ (g ++ (u ++ w)))

/-- Every round parenthesis of a line that is closed is closed by a round one. -/
def roundClosed (line : List Char) : Bool :=
  (List.range line.length).all fun k =>
    match line.drop k with
    | '(' :: rest => (splitClosing 0 rest).all fun (_, close, _) => close = ')'
    | _ => true

/-! ## Parts of lines -/

/-- A text that stands in one of some lines. No name runs on after it, unless it ends with a
semicolon. -/
def Part (lines : List (List Char)) (text : List Char) : Prop :=
  ∃ line ∈ lines, ∃ before after, line = before ++ (text ++ after) ∧
    (text.getLast? = some ';' ∨ startsName after = false)

namespace Part

variable {lines : List (List Char)}

theorem trim {text : List Char} (h : Part lines text) : Part lines (Text.trim text) := by
  obtain ⟨line, hline, before, after, rfl, hafter⟩ := h
  obtain ⟨w, w', hw, hw', htext⟩ := Text.exists_trim text
  refine ⟨_, hline, before ++ w, w' ++ after, ?_, ?_⟩
  · have hshape := congrArg (fun t => before ++ (t ++ after)) htext
    simpa using hshape
  · rcases hafter with hlast | hafter
    · exact .inl (Text.getLast?_trim hlast rfl)
    · exact .inr (startsName_append_of_blank hw' hafter)

theorem rear {u v : List Char} (h : Part lines (u ++ v)) (hv : v ≠ []) : Part lines v := by
  obtain ⟨line, hline, before, after, rfl, hafter⟩ := h
  obtain ⟨front, c, rfl⟩ := (List.eq_nil_or_concat v).resolve_left hv
  refine ⟨_, hline, before ++ u, after, by simp, ?_⟩
  rw [List.concat_eq_append] at hafter ⊢
  rwa [← List.append_assoc, List.getLast?_concat, ← List.getLast?_concat (l := front)] at hafter

theorem front {u v : List Char} (h : Part lines (u ++ v)) (hv : v ≠ [])
    (hname : startsName v = false) : Part lines u := by
  obtain ⟨line, hline, before, after, rfl, -⟩ := h
  refine ⟨_, hline, before, v ++ after, by simp, .inr ?_⟩
  cases v with
  | nil => exact absurd rfl hv
  | cons c v => exact hname

end Part

/-! ## Queues -/

namespace Segment

/-- The texts of a queue without layout. -/
def bareQueue (queue : List Segment) : List Char :=
  queue.flatMap fun s => Text.bare s.text

/-- All segments of a queue are parts of lines. -/
def Parts (lines : List (List Char)) (queue : List Segment) : Prop :=
  ∀ s ∈ queue, Part lines s.text

@[simp] theorem bareQueue_nil : bareQueue [] = [] := rfl

@[simp] theorem bareQueue_cons (s : Segment) (queue : List Segment) :
    bareQueue (s :: queue) = Text.bare s.text ++ bareQueue queue :=
  List.flatMap_cons

@[simp] theorem bareQueue_append (queue more : List Segment) :
    bareQueue (queue ++ more) = bareQueue queue ++ bareQueue more :=
  List.flatMap_append

variable {lines : List (List Char)}

theorem Parts.cons {s : Segment} {queue : List Segment} (h : Part lines s.text)
    (hqueue : Parts lines queue) : Parts lines (s :: queue) :=
  List.forall_mem_cons.mpr ⟨h, hqueue⟩

theorem Parts.of_cons {s : Segment} {queue : List Segment} (h : Parts lines (s :: queue)) :
    Part lines s.text ∧ Parts lines queue :=
  List.forall_mem_cons.mp h

theorem Parts.append {queue more : List Segment} (h : Parts lines queue)
    (hmore : Parts lines more) : Parts lines (queue ++ more) :=
  List.forall_mem_append.mpr ⟨h, hmore⟩

@[simp] theorem bareQueue_unlessEmpty (line start : Nat) (raw : List Char) :
    bareQueue (ofRaw line start raw).unlessEmpty = Text.bare raw := by
  rw [← Text.bare_trim raw]
  unfold unlessEmpty
  split
  · next h =>
    have htrim : Text.trim raw = [] := List.isEmpty_iff.mp h
    rw [htrim]
    rfl
  · rw [bareQueue_cons, bareQueue_nil, List.append_nil, ofRaw]

theorem parts_unlessEmpty {raw : List Char} (h : raw ≠ [] → Part lines raw) (line start : Nat) :
    Parts lines (ofRaw line start raw).unlessEmpty := by
  intro s hs
  unfold unlessEmpty at hs
  split at hs
  · cases hs
  · next hempty =>
    rw [List.mem_singleton.mp hs]
    refine (h ?_).trim
    rintro rfl
    exact hempty rfl

end Segment

open Segment (bareQueue Parts)

variable {lines : List (List Char)}

theorem Braces.scan_eq {d : Nat} {text before after : List Char}
    (h : scan d text = .closed before after) : text = before ++ '\x7d' :: after := by
  induction text generalizing d before with
  | nil => cases h
  | cons c text ih =>
    have further : ∀ {d : Nat}, prepend [c] (scan d text) = .closed before after →
        c :: text = before ++ '\x7d' :: after := by
      intro d hd
      cases hscan : scan d text with
      | pending d' =>
        rw [hscan] at hd
        cases hd
      | closed before' after' =>
        rw [hscan] at hd
        cases hd
        rw [ih hscan]
        rfl
    rw [scan_cons] at h
    split at h
    · exact further h
    · split at h
      · next hc =>
        cases d with
        | zero =>
          cases h
          rw [hc]
          rfl
        | succ d => exact further h
      · exact further h

/-- Taking a block off a queue drops its closing brace only. -/
theorem takeBlock_bare {d : Nat} {queue body rest : List Segment}
    (h : takeBlock d queue = some (body, rest)) (hparts : Parts lines queue) :
    bareQueue queue = bareQueue body ++ bareQueue rest ∧ Parts lines body ∧ Parts lines rest := by
  induction queue generalizing d body rest with
  | nil => cases h
  | cons s queue ih =>
    obtain ⟨hs, hqueue⟩ := hparts.of_cons
    unfold takeBlock at h
    split at h
    · obtain ⟨⟨body', rest'⟩, htake, heq⟩ := Option.map_eq_some_iff.mp h
      cases heq
      obtain ⟨hbare, hbody, hrest⟩ := ih htake hqueue
      exact ⟨by simp [hbare], hbody.cons hs, hrest⟩
    · next before after hscan =>
      cases h
      have htext := Braces.scan_eq hscan
      rw [htext] at hs
      refine ⟨?_, Segment.parts_unlessEmpty (fun _ => hs.front (by simp) rfl) _ _,
        (Segment.parts_unlessEmpty (fun hne => ?_) _ _).append hqueue⟩
      · rw [Segment.bareQueue_cons, htext, Text.bare_append, Text.bare_cons, Segment.front,
          Segment.rear, Segment.bareQueue_append, Segment.bareQueue_unlessEmpty,
          Segment.bareQueue_unlessEmpty]
        exact List.append_assoc _ _ _
      · rw [List.append_cons] at hs
        exact hs.rear hne

theorem Segment.block_bare {s : Segment} {inner : List Char} {queue body rest : List Segment}
    (h : s.block inner queue = .ok (body, rest)) (hinner : inner ≠ [] → Part lines inner)
    (hqueue : Parts lines queue) :
    Text.bare inner ++ bareQueue queue = bareQueue body ++ bareQueue rest ∧ Parts lines body ∧
      Parts lines rest := by
  unfold block at h
  split at h
  · next htake =>
    cases h
    obtain ⟨hbare, hparts⟩ := takeBlock_bare htake ((parts_unlessEmpty hinner _ _).append hqueue)
    refine ⟨?_, hparts⟩
    rwa [bareQueue_append, rear, bareQueue_unlessEmpty] at hbare
  · cases h

/-! ## Conditions and assignments -/

/-- What is asked of lines: literals are plain, and square brackets do not close round ones unless
that is allowed. -/
structure PlainLines (loose : Bool) (lines : List (List Char)) : Prop where
  literals : ∀ line ∈ lines, plainLiterals line = true
  closers : loose = true ∨ ∀ line ∈ lines, roundClosed line = true

/-- A text between two characters that end and start no operand. -/
theorem Part.exists_stands {u text v : List Char} {c c' : Char}
    (h : Part lines (u ++ c :: (text ++ c' :: v))) (hblank : Text.isBlank c = false)
    (hc : (isNameChar c || isClosing c) = false) (hc' : isNameChar c' = false) :
    ∃ line ∈ lines, Stands line text := by
  obtain ⟨line, hline, before, after, rfl, -⟩ := h
  refine ⟨_, hline, before ++ u ++ [c], c' :: (v ++ after), by simp, ?_, startsName_cons hc' _⟩
  rw [endsOperand_concat hblank, hc]

theorem splitClosing_append {d : Nat} {text inside after : List Char} {c : Char}
    (h : splitClosing d text = some (inside, c, after)) (v : List Char) :
    splitClosing d (text ++ v) = some (inside, c, after ++ v) := by
  induction text generalizing d inside with
  | nil => cases h
  | cons a rest ih =>
    have further : ∀ {d : Nat}, (splitClosing d rest).map (fun p => (a :: p.1, p.2)) =
        some (inside, c, after) →
        (splitClosing d (rest ++ v)).map (fun p => (a :: p.1, p.2)) =
          some (inside, c, after ++ v) := by
      intro d hd
      obtain ⟨⟨inside', c', after'⟩, hrest, heq⟩ := Option.map_eq_some_iff.mp hd
      cases heq
      rw [ih hrest]
      rfl
    rw [List.cons_append]
    cases hopen : isOpening a with
    | true =>
      rw [splitClosing_opening hopen] at h ⊢
      exact further h
    | false =>
      cases hclose : isClosing a with
      | false =>
        rw [splitClosing_other hopen hclose] at h ⊢
        exact further h
      | true =>
        cases d with
        | succ d =>
          rw [splitClosing_closing hopen hclose] at h ⊢
          exact further h
        | zero =>
          rw [splitClosing_end hopen hclose] at h ⊢
          cases h
          rfl

/-- What is left of the bracket that closes a parenthesis. -/
theorem Part.closer {loose : Bool} (hlines : PlainLines loose lines)
    {u rest inside after : List Char} {c : Char} (h : Part lines (u ++ '(' :: rest))
    (hclosing : splitClosing 0 rest = some (inside, c, after)) :
    Closer loose (Text.bare [c]) := by
  have hround : c = ')' → Closer loose (Text.bare [c]) := by
    rintro rfl
    exact .inl rfl
  rcases hlines.closers with hloose | hclosed
  -- without the condition on brackets the closing one may be of either kind
  · have hc := (splitClosing_eq hclosing).2
    simp only [isClosing, Bool.or_eq_true, decide_eq_true_eq] at hc
    rcases hc with hc | rfl
    · exact hround hc
    · exact .inr ⟨hloose, rfl⟩
  · obtain ⟨line, hline, before, after', rfl, -⟩ := h
    have hk := List.all_eq_true.mp (hclosed _ hline) (before ++ u).length (by
      rw [List.mem_range]
      simp only [List.length_append, List.length_cons]
      omega)
    have hdrop : (before ++ (u ++ '(' :: rest ++ after')).drop (before ++ u).length =
        '(' :: (rest ++ after') := by
      rw [List.append_assoc u, ← List.append_assoc, List.drop_left, List.cons_append]
    rw [hdrop] at hk
    simp only [splitClosing_append hclosing, Option.all_some, decide_eq_true_eq] at hk
    exact hround hk

theorem Segment.bare_of_expression {loose : Bool} (hlines : PlainLines loose lines) {s : Segment}
    {text : List Char} {e : Expr String} (h : s.expression text = .ok e)
    (hstands : ∃ line ∈ lines, Stands line text) : Text.bare text = e.bare := by
  obtain ⟨line, hline, hstands⟩ := hstands
  unfold expression at h
  split at h
  · next hparse =>
    cases h
    exact Expr.bare_of_parse (hlines.literals line hline) hstands hparse
  · cases h

theorem splitAssign?_eq {text before after : List Char}
    (h : splitAssign? text = some (before, after)) : text = before ++ ':' :: '=' :: after := by
  induction text using splitAssign?.induct generalizing before with
  | case1 => cases h
  | case2 rest =>
    cases h
    rfl
  | case3 c rest hne ih =>
    rw [splitAssign?] at h
    · obtain ⟨⟨before', after'⟩, hrest, heq⟩ := Option.map_eq_some_iff.mp h
      cases heq
      rw [ih hrest]
      rfl
    · exact hne

theorem bare_dropSemicolon (text : List Char) :
    Text.bare (dropSemicolon text) = Text.bare text := by
  unfold dropSemicolon
  split
  · next hlast =>
    obtain ⟨front, rfl⟩ := List.getLast?_eq_some_iff.mp hlast
    rw [List.dropLast_concat, Text.bare_append]
    exact (List.append_nil _).symm
  · rfl

/-- The value of an assignment, with or without its semicolon, stands where an operand may. -/
theorem Part.exists_stands_value {u after : List Char} (h : Part lines (u ++ '=' :: after)) :
    ∃ line ∈ lines, Stands line (dropSemicolon (Text.trim after)) := by
  obtain ⟨line, hline, before, rest, rfl, hrest⟩ := h
  refine ⟨_, hline, ?_⟩
  unfold dropSemicolon
  split
  -- the semicolon itself keeps a name from running on
  · next hlast =>
    obtain ⟨front, hfront⟩ := List.getLast?_eq_some_iff.mp hlast
    obtain ⟨w, w', hw, -, hafter⟩ := Text.exists_trim after
    rw [hfront] at hafter ⊢
    rw [List.dropLast_concat]
    refine ⟨before ++ u ++ ['='] ++ w, ';' :: (w' ++ rest), by simp [hafter], ?_,
      startsName_cons rfl _⟩
    rw [endsOperand_append hw, endsOperand_concat rfl]
    rfl
  · next hlast =>
    have hname : startsName rest = false := by
      refine hrest.resolve_left ?_
      intro hsemicolon
      rcases List.eq_nil_or_concat after with rfl | ⟨front, c, rfl⟩
      · rw [List.getLast?_concat] at hsemicolon
        cases hsemicolon
      · rw [List.concat_eq_append, ← List.cons_append, ← List.append_assoc,
          List.getLast?_concat] at hsemicolon
        obtain rfl := Option.some.inj hsemicolon
        refine hlast (Text.getLast?_trim ?_ rfl)
        rw [List.concat_eq_append, List.getLast?_concat]
    have hstands : Stands (before ++ (u ++ '=' :: after ++ rest)) after := by
      refine ⟨before ++ u ++ ['='], rest, by simp, ?_, hname⟩
      rw [endsOperand_concat rfl]
      rfl
    exact hstands.trim

/-- The parts of an assignment. -/
theorem Segment.assignment_eq {s : Segment} {text : List Char} {a : Assignment}
    (h : s.assignment text = .ok a) :
    ∃ before after, text = before ++ ':' :: '=' :: after ∧
      isIdentifier (Text.trim before) = true ∧ a.target = String.ofList (Text.trim before) ∧
      s.expression (dropSemicolon (Text.trim after)) = .ok a.value := by
  unfold assignment at h
  split at h
  · cases h
  · next before after hsplit =>
    dsimp only at h
    split at h
    · next hname =>
      obtain ⟨value, hvalue, h⟩ := bind_eq_ok h
      cases h
      exact ⟨before, after, splitAssign?_eq hsplit, hname, rfl, hvalue⟩
    · cases h

theorem Segment.bare_of_assignment {loose : Bool} (hlines : PlainLines loose lines) {s : Segment}
    {text : List Char} {a : Assignment} (h : s.assignment text = .ok a)
    (hpart : Part lines text) : Text.bare text = a.bare := by
  obtain ⟨before, after, rfl, hname, htarget, hvalue⟩ := assignment_eq h
  have htext : before ++ ':' :: '=' :: after = before ++ [':'] ++ '=' :: after := by simp
  rw [htext] at hpart ⊢
  have hbare := bare_of_expression hlines hvalue hpart.exists_stands_value
  have hbefore := bare_name (isNameChar_of_isIdentifier hname)
  rw [bare_dropSemicolon, Text.bare_trim] at hbare
  rw [Text.bare_trim] at hbefore
  rw [Text.bare_append, Text.bare_append, Text.bare_cons '=' after, hbefore, hbare,
    Assignment.bare, htarget, String.toList_ofList, List.append_assoc]
  rfl

/-! ## Heads -/

/-- A keyword and a text in parentheses, without layout. -/
theorem Segment.bare_of_closing {loose : Bool} (hlines : PlainLines loose lines) {s : Segment}
    (hpart : Part lines s.text) {keyword : Keyword} {text w rest inside after : List Char}
    {c : Char} (hstrip : keyword.strip? s.text = some text) (hw : Text.Blank w)
    (htext : text = w ++ '(' :: rest) (hclosing : splitClosing 0 rest = some (inside, c, after)) :
    s.text = keyword.text.toList ++ w ++ '(' :: (inside ++ c :: after) ∧ isNameChar c = false ∧
      Closer loose (Text.bare [c]) ∧
      Text.bare s.text =
        keyword.text.toList ++ (Text.bare inside ++ (Text.bare [c] ++ Text.bare after)) := by
  obtain ⟨hrest, hc⟩ := splitClosing_eq hclosing
  have hall : s.text = keyword.text.toList ++ w ++ '(' :: rest := by
    rw [Keyword.strip?_eq hstrip, htext, List.append_assoc]
  have hname : isNameChar c = false := by
    simp only [isClosing, Bool.or_eq_true, decide_eq_true_eq] at hc
    rcases hc with rfl | rfl <;> rfl
  refine ⟨hrest ▸ hall, hname, (hall ▸ hpart).closer hlines hclosing, ?_⟩
  rw [hall, hrest, Text.bare_append, Text.bare_append, bare_name keyword.isNameChar_text,
    Text.bare_of_blank hw, Text.bare_layout (c := '(') rfl, Text.bare_append, Text.bare_cons c,
    List.append_nil]

/-- The parts of a head. -/
theorem Segment.head_eq {s : Segment} {keyword : Keyword} {text inside inner : List Char}
    (h : s.head keyword text = .ok (inside, inner)) :
    ∃ w rest c w', Text.Blank w ∧ Text.Blank w' ∧ text = w ++ '(' :: rest ∧
      splitClosing 0 rest = some (inside, c, w' ++ '\x7b' :: inner) := by
  unfold head at h
  split at h
  · next rest hstart =>
    split at h
    · next c after hclosing =>
      split at h
      · next hbrace =>
        cases h
        obtain ⟨w, hw, htext⟩ := Text.exists_trimStart text
        obtain ⟨w', hw', hafter⟩ := Text.exists_trimStart after
        rw [hstart] at htext
        rw [hbrace] at hafter
        exact ⟨w, rest, c, w', hw, hw', htext, by rw [hclosing, hafter]⟩
      · cases h
    · cases h
  · cases h

/-- The parts of an assertion. -/
theorem Segment.assertion_eq {s : Segment} {text : List Char} {stmt : Stmt}
    (h : s.assertion text = .ok stmt) :
    ∃ w rest inside c after cond, Text.Blank w ∧ text = w ++ '(' :: rest ∧
      splitClosing 0 rest = some (inside, c, after) ∧ Text.trim after = [';'] ∧
      s.expression inside = .ok cond ∧ stmt = .check s.span cond := by
  unfold assertion at h
  split at h
  · next rest hstart =>
    split at h
    · next inside c after hclosing =>
      split at h
      · next hafter =>
        obtain ⟨cond, hcond, h⟩ := bind_eq_ok h
        cases h
        obtain ⟨w, hw, htext⟩ := Text.exists_trimStart text
        rw [hstart] at htext
        exact ⟨w, rest, inside, c, after, cond, hw, htext, hclosing, hafter, hcond, rfl⟩
      · cases h
    · cases h
  · cases h

/-- The segment of a head without layout: the keyword, what stands in the parentheses, what is left
of the closing bracket, and what follows the brace. -/
theorem Segment.bare_of_head {loose : Bool} (hlines : PlainLines loose lines) {s : Segment}
    (hpart : Part lines s.text) {keyword : Keyword} {text inside inner : List Char}
    (hstrip : keyword.strip? s.text = some text) (h : s.head keyword text = .ok (inside, inner)) :
    ∃ u c v, s.text = u ++ '(' :: (inside ++ c :: v) ∧ isNameChar c = false ∧
      Closer loose (Text.bare [c]) ∧ (∃ u', s.text = u' ++ inner) ∧
      Text.bare s.text = keyword.text.toList ++
        (Text.bare inside ++ (Text.bare [c] ++ Text.bare inner)) := by
  obtain ⟨w, rest, c, w', hw, hw', htext, hclosing⟩ := head_eq h
  obtain ⟨hall, hname, hcloser, hbare⟩ := bare_of_closing hlines hpart hstrip hw htext hclosing
  rw [Text.bare_append, Text.bare_of_blank hw', Text.bare_layout (c := '\x7b') rfl,
    List.nil_append] at hbare
  refine ⟨_, c, _, hall, hname, hcloser, ?_, hbare⟩
  refine ⟨keyword.text.toList ++ w ++ '(' :: (inside ++ c :: (w' ++ ['\x7b'])), ?_⟩
  rw [hall]
  simp

/-! ## Statements -/

theorem exists_splitSemicolons (text : List Char) :
    ∃ first more, splitSemicolons text = first :: more := by
  fun_cases splitSemicolons text with
  | case1 => exact ⟨_, _, rfl⟩
  | case2 => exact ⟨_, _, rfl⟩
  | case3 => exact ⟨_, _, rfl⟩
  | case4 => exact ⟨_, _, rfl⟩

/-- The parts between semicolons make up the text. -/
theorem splitSemicolons_eq {text first : List Char} {more : List (List Char)}
    (h : splitSemicolons text = first :: more) :
    text = first ++ more.flatMap fun part => ';' :: part := by
  induction text generalizing first more with
  | nil =>
    cases h
    rfl
  | cons c rest ih =>
    obtain ⟨part, parts, hrest⟩ := exists_splitSemicolons rest
    by_cases hc : c = ';'
    · subst hc
      rw [splitSemicolons, hrest] at h
      cases h
      rw [ih hrest]
      rfl
    · rw [splitSemicolons, hrest] at h
      · cases h
        rw [ih hrest, List.cons_append]
      · exact hc

/-- A segment that is a whole statement. -/
theorem Segment.bare_of_simple {loose : Bool} (hlines : PlainLines loose lines) {s : Segment}
    (hpart : Part lines s.text) {stmt : Stmt} (h : s.opening = .ok (.simple stmt)) {more : Block}
    {w : List Char} (hmore : Block.Bare loose more w) :
    Block.Bare loose (stmt :: more) (Text.bare s.text ++ w) := by
  cases opens_of_opening h with
  | check hk hassertion =>
    obtain ⟨w, rest, inside, c, after, cond, hw, htext, hclosing, hafter, hcond, rfl⟩ :=
      assertion_eq hassertion
    obtain ⟨hall, hname, hcloser, hbare⟩ := bare_of_closing hlines hpart hk hw htext hclosing
    have hend : Text.bare after = [] := by
      rw [← Text.bare_trim, hafter]
      rfl
    rw [hend, List.append_nil,
      bare_of_expression hlines hcond ((hall ▸ hpart).exists_stands rfl rfl hname)] at hbare
    rw [hbare, List.append_assoc, List.append_assoc]
    exact .check hcloser hmore
  | assign ha =>
    rw [bare_of_assignment hlines ha hpart]
    exact .assign hmore

/-- A segment that opens a block. -/
theorem Segment.bare_of_block {loose : Bool} (hlines : PlainLines loose lines) {s : Segment}
    (hpart : Part lines s.text) {heading : Heading} {inner : List Char}
    (h : s.opening = .ok (.block heading inner)) :
    (∃ g, Closer loose g ∧ Text.bare s.text = heading.bare ++ (g ++ Text.bare inner)) ∧
      (inner ≠ [] → Part lines inner) := by
  have hinner : ∀ {u}, s.text = u ++ inner → inner ≠ [] → Part lines inner := by
    intro u htext hne
    exact (htext ▸ hpart).rear hne
  -- branches and loops differ in their keywords only
  have hcondition : ∀ {keyword : Keyword} {text inside : List Char} {cond : Expr String},
      keyword.strip? s.text = some text → s.head keyword text = .ok (inside, inner) →
      s.expression inside = .ok cond →
      (∃ g, Closer loose g ∧ Text.bare s.text =
        keyword.text.toList ++ cond.bare ++ (g ++ Text.bare inner)) ∧
        (inner ≠ [] → Part lines inner) := by
    intro keyword text inside cond hk hhead hcond
    obtain ⟨u, c, v, htext, hc, hcloser, ⟨u', hinner'⟩, hbare⟩ :=
      bare_of_head hlines hpart hk hhead
    refine ⟨⟨_, hcloser, ?_⟩, hinner hinner'⟩
    rw [hbare, bare_of_expression hlines hcond ((htext ▸ hpart).exists_stands rfl rfl hc),
      List.append_assoc]
  cases opens_of_opening h with
  | branch hk hhead hcond => exact hcondition hk hhead hcond
  | loop hk hhead hcond => exact hcondition hk hhead hcond
  | @count _ inside _ first second third _ _ _ hk hhead hparts hinit hcond hupdate =>
    obtain ⟨u, c, v, htext, hc, hcloser, ⟨u', hinner'⟩, hbare⟩ :=
      bare_of_head hlines hpart hk hhead
    have hsplit : inside = first ++ ';' :: (second ++ ';' :: third) := by
      rw [splitSemicolons_eq hparts]
      simp
    -- the last part has no semicolon after it, but the parenthesis that closes the head
    have hinside : Part lines inside := by
      rw [htext, List.append_cons] at hpart
      exact (hpart.rear (by simp)).front (by simp) (startsName_cons hc v)
    have hthird : third ≠ [] := by
      rintro rfl
      cases hupdate
    have hlast : Part lines third := by
      rw [hsplit, List.append_cons, ← List.append_assoc, List.append_cons] at hinside
      exact hinside.rear hthird
    refine ⟨⟨_, hcloser, ?_⟩, hinner hinner'⟩
    rw [hsplit] at hinside
    rw [hbare, hsplit, Text.bare_append, Text.bare_layout (c := ';') rfl, Text.bare_append,
      Text.bare_layout (c := ';') rfl,
      bare_of_assignment hlines hinit (hinside.front (by simp) rfl),
      bare_of_expression hlines hcond (hinside.exists_stands rfl rfl rfl),
      bare_of_assignment hlines hupdate hlast, Heading.bare]
    simp only [List.append_assoc]

/-- A queue that starts with a block. -/
theorem Segment.bareQueue_of_block {loose : Bool} (hlines : PlainLines loose lines) {s : Segment}
    {queue body rest : List Segment} (hparts : Parts lines (s :: queue)) {heading : Heading}
    {inner : List Char} (hopen : s.opening = .ok (.block heading inner))
    (hblock : s.block inner queue = .ok (body, rest)) :
    ∃ g, Closer loose g ∧
      bareQueue (s :: queue) = heading.bare ++ (g ++ (bareQueue body ++ bareQueue rest)) ∧
      Parts lines body ∧ Parts lines rest := by
  obtain ⟨hs, hqueue⟩ := hparts.of_cons
  obtain ⟨⟨g, hg, hbare⟩, hinner⟩ := bare_of_block hlines hs hopen
  obtain ⟨hconserve, hbody, hrest⟩ := block_bare hblock hinner hqueue
  refine ⟨g, hg, ?_, hbody, hrest⟩
  rw [bareQueue_cons, hbare, List.append_assoc, List.append_assoc, hconserve]

/-! ## Alternatives -/

/-- What an alternative leaves to be read, without layout, follows the word for it. -/
theorem ElsePart.of_bare {queue : List Segment} {part : ElsePart}
    (h : ElsePart.of queue = .ok part) (hparts : Parts lines queue) :
    match part with
    | .absent => True
    | .chain next =>
      bareQueue queue = Keyword.elseKw.text.toList ++ bareQueue next ∧ Parts lines next
    | .block body rest =>
      bareQueue queue = Keyword.elseKw.text.toList ++ (bareQueue body ++ bareQueue rest) ∧
        Parts lines body ∧ Parts lines rest := by
  cases queue with
  | nil =>
    cases h
    trivial
  | cons s queue =>
    obtain ⟨hs, hqueue⟩ := hparts.of_cons
    have hrear (text : List Char) : (s.rear (Text.trimStart text)).text = Text.trim text :=
      Text.trim_trimStart text
    -- what follows the word for it
    have hafter : ∀ text, Keyword.elseKw.strip? s.text = some text →
        Text.bare s.text = Keyword.elseKw.text.toList ++ Text.bare (Text.trim text) ∧
          (Text.trim text ≠ [] → Part lines (Text.trim text)) := by
      intro text hstrip
      have htext := Keyword.strip?_eq hstrip
      refine ⟨?_, fun hne => ((htext ▸ hs).rear ?_).trim⟩
      · rw [htext, Text.bare_append, bare_name (Keyword.isNameChar_text _), Text.bare_trim]
      · rintro rfl
        exact hne rfl
    cases follows_of h with
    | absent => trivial
    | @chain text hstrip hif =>
      obtain ⟨hbare, halternative⟩ := hafter text hstrip
      refine ⟨?_, hqueue.cons (hrear text ▸ halternative ?_)⟩
      · rw [Segment.bareQueue_cons, hbare, Segment.bareQueue_cons, hrear, List.append_assoc]
      · intro hempty
        rw [hrear, hempty] at hif
        cases hif
    | @block text inner body rest hstrip hbrace hblock =>
      obtain ⟨hbare, halternative⟩ := hafter text hstrip
      rw [hrear] at hbrace
      have hinner : inner ≠ [] → Part lines inner := fun hne =>
        (hbrace ▸ halternative (by simp [hbrace])).rear (u := ['\x7b']) hne
      obtain ⟨hconserve, hbody, hrest⟩ := Segment.block_bare hblock hinner hqueue
      refine ⟨?_, hbody, hrest⟩
      rw [Segment.bareQueue_cons, hbare, hbrace, Text.bare_layout rfl, List.append_assoc, hconserve]

/-! ## Blocks -/

namespace Block

/-- The first statement of a block can be told apart from the rest. -/
theorem Bare.exists_take {loose : Bool} {b : Block} {w : List Char} (h : Bare loose b w) :
    ∃ u v, w = u ++ v ∧ Bare loose (b.take 1) u ∧ Bare loose (b.drop 1) v := by
  cases h with
  | nil => exact ⟨[], [], rfl, .nil, .nil⟩
  | assign hrest => exact ⟨_, _, by simp, .assign .nil, hrest⟩
  | check hg hrest => exact ⟨_, _, by simp, .check hg .nil, hrest⟩
  | ifElse hg ht he hrest hother =>
    exact ⟨_, _, by simp, .ifElse hg ht he .nil hother, hrest⟩
  | whileDo hg hbody hrest => exact ⟨_, _, by simp, .whileDo hg hbody .nil, hrest⟩
  | forDo hg hbody hrest => exact ⟨_, _, by simp, .forDo hg hbody .nil, hrest⟩

/-- Reading a queue drops nothing but layout. -/
theorem Reading.bare {loose : Bool} (hlines : PlainLines loose lines) {queue : List Segment}
    {b : Block} (h : Reading queue b) (hparts : Parts lines queue) :
    Bare loose b (bareQueue queue) := by
  induction h with
  | nil => exact .nil
  | simple hopen _ ih =>
    obtain ⟨hs, hqueue⟩ := hparts.of_cons
    rw [Segment.bareQueue_cons]
    exact Segment.bare_of_simple hlines hs hopen (ih hqueue)
  | loop hopen hblock _ _ ihbody ihrest =>
    obtain ⟨g, hg, hbare, hbody, hrest⟩ := Segment.bareQueue_of_block hlines hparts hopen hblock
    rw [hbare]
    exact .whileDo hg (ihbody hbody) (ihrest hrest)
  | count hopen hblock _ _ ihbody ihrest =>
    obtain ⟨g, hg, hbare, hbody, hrest⟩ := Segment.bareQueue_of_block hlines hparts hopen hblock
    rw [hbare]
    exact .forDo hg (ihbody hbody) (ihrest hrest)
  | @branch s queue body rest cond inner block more hopen hblock _ _ _ ihbody ihrest =>
    obtain ⟨g, hg, hbare, hbody, hrest⟩ := Segment.bareQueue_of_block hlines hparts hopen hblock
    rw [hbare]
    -- neither the second arm nor the word for it was written
    change Bare loose _ (_ ++ (g ++ (bareQueue body ++ ([] ++ ([] ++ bareQueue rest)))))
    exact .ifElse hg (ihbody hbody) .nil (ihrest hrest) (.inr ⟨rfl, rfl⟩)
  | chain hopen hblock helse _ _ ihbody ihchain =>
    obtain ⟨g, hg, hbare, hbody, hrest⟩ := Segment.bareQueue_of_block hlines hparts hopen hblock
    obtain ⟨hother, hchain⟩ := ElsePart.of_bare helse hrest
    -- the chain is read as a block whose first statement is the second arm
    obtain ⟨u, v, hsplit, harm, hmore⟩ := (ihchain hchain).exists_take
    rw [hbare, hother, hsplit]
    exact .ifElse hg (ihbody hbody) harm hmore (.inl rfl)
  | alternative hopen hblock helse _ _ _ ihbody ihother ihrest =>
    obtain ⟨g, hg, hbare, hbody, hrest⟩ := Segment.bareQueue_of_block hlines hparts hopen hblock
    obtain ⟨hother, hbody', hrest'⟩ := ElsePart.of_bare helse hrest
    rw [hbare, hother]
    exact .ifElse hg (ihbody hbody) (ihother hbody') (ihrest hrest') (.inl rfl)

end Block

/-! ## Sources -/

namespace Segment

/-- All pieces but the last end with a semicolon. -/
def Ended : List (List Char) → Prop
  | [] => True
  | [_] => True
  | piece :: more => piece.getLast? = some ';' ∧ Ended more

/-- The pieces of a line make up the line, up to its comment, and only semicolons divide them. -/
theorem cut_eq (d : Int) (line : List Char) :
    (cut d line).flatten = Text.uncomment line ∧ Ended (cut d line) := by
  fun_induction cut d line with
  | case1 d => exact ⟨rfl, trivial⟩
  | case2 d rest => exact ⟨rfl, trivial⟩
  | case3 d c rest hcomment hcut ih =>
    rw [Bool.and_eq_true, decide_eq_true_eq] at hcut
    refine ⟨?_, ?_⟩
    · rw [Text.uncomment, List.flatten_cons, ih.1]
      · rfl
      · exact hcomment
    · cases hrest : cut d rest with
      | nil => trivial
      | cons piece more => exact ⟨by rw [hcut.1]; rfl, hrest ▸ ih.2⟩
  | case4 d c rest hcomment hcut hnil ih =>
    rw [hnil] at ih
    refine ⟨?_, trivial⟩
    rw [Text.uncomment, ← ih.1]
    · rfl
    · exact hcomment
  | case5 d c rest hcomment hcut piece more hmore ih =>
    rw [hmore] at ih
    refine ⟨?_, ?_⟩
    · rw [Text.uncomment, ← ih.1]
      · rfl
      · exact hcomment
    · cases more with
      | nil => trivial
      | cons next more =>
        obtain ⟨front, hfront⟩ := List.getLast?_eq_some_iff.mp ih.2.1
        refine ⟨?_, ih.2.2⟩
        rw [hfront, ← List.cons_append, List.getLast?_concat]

theorem bareQueue_place (line start : Nat) (pieces : List (List Char)) :
    bareQueue (place line start pieces) = Text.bare pieces.flatten := by
  induction pieces generalizing start with
  | nil => rfl
  | cons piece more ih =>
    rw [place_cons, bareQueue_append, bareQueue_unlessEmpty, ih, List.flatten_cons,
      Text.bare_append]

theorem parts_place (before : List Char) {pieces : List (List Char)}
    (hline : before ++ pieces.flatten ∈ lines) (hended : Ended pieces) (number start : Nat) :
    Parts lines (place number start pieces) := by
  induction pieces generalizing before start with
  | nil => exact fun _ h => nomatch h
  | cons piece more ih =>
    rw [place_cons]
    have hpiece : Part lines piece := by
      refine ⟨_, hline, before, more.flatten, by simp, ?_⟩
      cases more with
      | nil => exact .inr rfl
      | cons next more => exact .inl hended.1
    have hmore : Ended more := by
      cases more with
      | nil => trivial
      | cons next more => exact hended.2
    rw [List.flatten_cons, ← List.append_assoc] at hline
    exact (parts_unlessEmpty (fun _ => hpiece) _ _).append (ih _ hline hmore _)

theorem ofLines_bare (number : Nat) {source : List (List Char)}
    (hlines : ∀ line ∈ source, Text.uncomment line ∈ lines) :
    bareQueue (ofLines number source) =
        source.flatMap (fun line => Text.bare (Text.uncomment line)) ∧
      Parts lines (ofLines number source) := by
  induction source generalizing number with
  | nil => exact ⟨rfl, fun _ h => nomatch h⟩
  | cons line more ih =>
    rw [List.forall_mem_cons] at hlines
    obtain ⟨hbare, hparts⟩ := ih (number + 1) hlines.2
    obtain ⟨hflatten, hended⟩ := cut_eq 0 line
    refine ⟨?_, (parts_place [] ?_ hended _ _).append hparts⟩
    · rw [ofLines, bareQueue_append, bareQueue_place, hflatten, hbare, List.flatMap_cons]
    · rw [List.nil_append, hflatten]
      exact hlines.1

end Segment

/-- Nothing of a source is dropped but comments and layout, if its integer literals are plain: what
is left of it is what is left of the program that is read. The one exception is a square bracket
that closes a round parenthesis, and without such brackets there is none. -/
theorem Program.bareSource_of_parse {source : String} {p : Program}
    (hparse : Program.parse source = .ok p)
    (hplain : ∀ line ∈ Text.lines source.toList, plainLiterals (Text.uncomment line) = true) :
    Block.Bare true p.statements (Text.bareSource source.toList) ∧
      ((∀ line ∈ Text.lines source.toList, roundClosed (Text.uncomment line) = true) →
        Block.Bare false p.statements (Text.bareSource source.toList)) := by
  obtain ⟨statements, hblock, h⟩ := bind_eq_ok hparse
  cases h
  obtain ⟨hbare, hparts⟩ := Segment.ofLines_bare 1 fun line hline =>
    List.mem_map_of_mem (f := Text.uncomment) hline
  have hreading := Block.parse_eq_ok_iff.mp hblock
  have hliterals : ∀ line ∈ (Text.lines source.toList).map Text.uncomment,
      plainLiterals line = true := List.forall_mem_map.mpr hplain
  -- both parts are one statement about reading, with and without the condition on brackets
  have hall : ∀ loose, PlainLines loose ((Text.lines source.toList).map Text.uncomment) →
      Block.Bare loose statements (Text.bareSource source.toList) := by
    intro loose hlines
    have h := hreading.bare hlines hparts
    rwa [Segment.ofSource, hbare] at h
  exact ⟨hall true ⟨hliterals, .inl rfl⟩, fun hround =>
    hall false ⟨hliterals, .inr (List.forall_mem_map.mpr hround)⟩⟩

/-- A source with a comment, nested brackets and signs of both kinds. -/
def signedSource : String :=
  "if ((x) -0 < a [-7]) \x7b y := (i) \x7d // +07\nelse \x7b\x7d"

theorem signedSource_kept :
    ∃ p, Program.parse signedSource = .ok p ∧
      (∀ line ∈ Text.lines signedSource.toList, plainLiterals (Text.uncomment line) = true) ∧
      (∀ line ∈ Text.lines signedSource.toList, roundClosed (Text.uncomment line) = true) ∧
      Block.Bare false p.statements "ifx-0<a[-7]y:=ielse".toList := by
  have hok : (Program.parse signedSource).isOk = true := by decide +kernel
  have hplain : ∀ line ∈ Text.lines signedSource.toList,
      plainLiterals (Text.uncomment line) = true := by decide +kernel
  have hround : ∀ line ∈ Text.lines signedSource.toList,
      roundClosed (Text.uncomment line) = true := by decide +kernel
  have hleft : Text.bareSource signedSource.toList =
      "ifx-0<a[-7]y:=ielse".toList := by decide +kernel
  cases hparse : Program.parse signedSource with
  | error e => simp [hparse, Except.isOk, Except.toBool] at hok
  | ok p =>
    refine ⟨p, rfl, hplain, hround, ?_⟩
    rw [← hleft]
    exact (Program.bareSource_of_parse hparse hplain).2 hround

/-- The name that a program asserts, if it is one assertion of a name. -/
def Program.assertedName? (p : Program) : Option String :=
  match p.statements with
  | [.check _ (.var x)] => some x
  | _ => none

/-- A square bracket that closes the parenthesis of an assertion is dropped. -/
theorem Program.parse_drops_bracket :
    ∃ p, Program.parse "assert(x];" = .ok p ∧
      (∀ line ∈ Text.lines "assert(x];".toList, plainLiterals (Text.uncomment line) = true) ∧
      ¬Block.Bare false p.statements (Text.bareSource "assert(x];".toList) := by
  have hcheck : (Program.parse "assert(x];").toOption.bind assertedName? = some "x" := by
    decide +kernel
  obtain ⟨p, hp, hname⟩ := Option.bind_eq_some_iff.mp hcheck
  have hparse : Program.parse "assert(x];" = .ok p := by
    cases h : Program.parse "assert(x];" with
    | error e =>
      rw [h] at hp
      cases hp
    | ok q =>
      rw [h] at hp
      cases hp
      rfl
  unfold assertedName? at hname
  split at hname
  · next span x hstatements =>
    cases hname
    refine ⟨p, hparse, by decide +kernel, ?_⟩
    rw [hstatements]
    intro hbare
    generalize hw : Text.bareSource "assert(x];".toList = w at hbare
    cases hbare with
    | check hg hrest =>
      cases hrest
      rcases hg with rfl | ⟨hloose, -⟩
      · exact absurd hw (by decide +kernel)
      · cases hloose
  · cases hname

end WhileSmt
