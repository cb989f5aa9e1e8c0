import WhileSmt.Proofs.Program.Layout

/-!
Sources one after the other. If two texts can be read as programs, so can the first one followed by
a line end and the second one. The statements of the second follow those of the first, with their
places as many lines further down as the first text takes.

Main statement: `Program.parse_append_newline`.
-/

namespace WhileSmt

/-! ## Line ends -/

namespace Text

/-- Lists of texts that differ only in blanks at their ends. -/
inductive Alike : List (List Char) → List (List Char) → Prop where
  | nil : Alike [] []
  | blank {w : List Char} : Blank w → Alike [w] []
  | last {t w w' : List Char} : Blank w → Blank w' → Alike [t ++ w] [t ++ w']
  | cons {t : List Char} {l l' : List (List Char)} : Alike l l' → Alike (t :: l) (t :: l')

theorem Alike.attach {l l' : List (List Char)} (h : Alike l l') (c : Char) :
    Alike (Segment.attach [c] l) (Segment.attach [c] l') := by
  cases h with
  | nil => exact .cons .nil
  | blank hw => exact .last (t := [c]) hw blank_nil
  | @last t _ _ hw hw' => exact .last (t := c :: t) hw hw'
  | cons h => exact .cons h

theorem lines_attach {c : Char} (hnewline : c ≠ '\n') (text : List Char)
    (hreturn : c = '\r' → text.head? ≠ some '\n') :
    lines (c :: text) = Segment.attach [c] (lines text) := by
  rw [lines_char hnewline text hreturn, firstLine, laterLines]
  cases lines text <;> rfl

/-- What the lines of a text become when a line end and more text follow it. -/
theorem exists_lines_append (text : List Char) :
    ∃ l, l.length = text.count '\n' + 1 ∧ Alike l (lines text) ∧
      ∀ more, lines (text ++ '\n' :: more) = l ++ lines more := by
  induction text with
  | nil => exact ⟨[[]], rfl, .blank blank_nil, lines_newline⟩
  | cons c text ih =>
    obtain ⟨l, hlength, halike, happend⟩ := ih
    by_cases hnewline : c = '\n'
    · subst hnewline
      refine ⟨[] :: l, by simp [hlength], ?_, ?_⟩
      · rw [lines_newline]
        exact halike.cons
      · intro more
        rw [List.cons_append, lines_newline, happend]
        rfl
    · by_cases hreturn : c = '\r' ∧ (text ++ ['\n']).head? = some '\n'
      · -- the return belongs to a line end, which may be the one that follows the text
        obtain ⟨rfl, hhead⟩ := hreturn
        cases text with
        | nil => exact ⟨[[]], rfl, .last (t := []) blank_nil blank_return, lines_return⟩
        | cons d text =>
          obtain rfl : d = '\n' := by simpa using hhead
          refine ⟨l, by simpa using hlength, ?_, ?_⟩
          · rwa [lines_newline, ← lines_return] at halike
          · intro more
            have h := happend more
            rwa [List.cons_append, lines_newline, ← lines_return] at h
      · obtain ⟨line, rest, rfl⟩ := List.exists_cons_of_length_eq_add_one hlength
        have hmore : ∀ more, c = '\r' → (text ++ '\n' :: more).head? ≠ some '\n' := by
          intro more hc
          cases text with
          | nil => exact absurd ⟨hc, rfl⟩ hreturn
          | cons d text => exact fun h => hreturn ⟨hc, h⟩
        have htext : c = '\r' → text.head? ≠ some '\n' := by
          intro hc
          cases text with
          | nil => simp
          | cons d text => exact fun h => hreturn ⟨hc, h⟩
        refine ⟨(c :: line) :: rest, ?_, ?_, ?_⟩
        · rw [List.count_cons_of_ne hnewline]
          exact hlength
        · rw [lines_attach hnewline text htext]
          exact halike.attach c
        · intro more
          rw [List.cons_append, lines_attach hnewline _ (hmore more), happend]
          rfl

end Text

namespace Segment

open Text

/-- Blanks at the end of a line belong to its last piece, or are a piece of their own, or part of a
comment. -/
theorem alike_cut {w : List Char} (hw : Blank w) (d : Int) (line : List Char) :
    Alike (cut d (line ++ w)) (cut d line) := by
  induction line generalizing d with
  | nil =>
    have hcut := Quiet.blank hw d []
    rw [List.append_nil] at hcut
    rw [List.nil_append, hcut]
    cases w with
    | nil => exact .nil
    | cons c w =>
      rw [cut, attach_nil (List.cons_ne_nil c w)]
      exact .blank hw
  | cons c line ih =>
    by_cases hcomment : c = '/' ∧ line.head? = some '/'
    · obtain ⟨rfl, hhead⟩ := hcomment
      obtain ⟨rest, rfl⟩ := List.head?_eq_some_iff.mp hhead
      exact .nil
    · have hline : c = '/' → line.head? ≠ some '/' := fun hc h => hcomment ⟨hc, h⟩
      have hmore : c = '/' → (line ++ w).head? ≠ some '/' := by
        intro hc h
        cases line with
        | nil =>
          cases hw '/' (List.mem_of_mem_head? h)
        | cons d line => exact hline hc h
      rw [List.cons_append, cut_cons hline, cut_cons hmore]
      split
      · exact (ih d).cons
      · exact (ih _).attach c

theorem unlessEmpty_ofRaw {w : List Char} (hw : Blank w) (line start : Nat) (raw : List Char) :
    (ofRaw line start (raw ++ w)).unlessEmpty = (ofRaw line start raw).unlessEmpty := by
  have htrim : trim (raw ++ w) = trim raw := trim_append_blank raw hw
  by_cases hraw : Blank raw
  · have hempty : trim raw = [] := trim_of_blank hraw
    simp [unlessEmpty, ofRaw, htrim, hempty]
  · have hlength : (raw.takeWhile isBlank).length ≠ raw.length := by
      intro h
      refine hraw ?_
      rw [← (List.takeWhile_prefix isBlank).eq_of_length h]
      exact blank_takeWhile raw
    rw [ofRaw, ofRaw, htrim, List.takeWhile_append, if_neg hlength]

/-- Blanks at the end of a line do not matter. -/
theorem place_of_alike {pieces pieces' : List (List Char)} (h : Alike pieces pieces')
    (line start : Nat) : place line start pieces = place line start pieces' := by
  induction h generalizing start with
  | nil => rfl
  | @blank w hw =>
    have hempty := unlessEmpty_ofRaw hw line start []
    rw [List.nil_append] at hempty
    rw [place_cons, hempty]
    rfl
  | @last t w w' hw hw' =>
    rw [place_cons, place_cons, unlessEmpty_ofRaw hw, unlessEmpty_ofRaw hw']
    rfl
  | cons _ ih => rw [place_cons, place_cons, ih]

theorem place_cut {w : List Char} (hw : Blank w) (number : Nat) (line : List Char) :
    place number 0 (cut 0 (line ++ w)) = place number 0 (cut 0 line) :=
  place_of_alike (alike_cut hw 0 line) number 0

theorem ofLines_of_alike {l l' : List (List Char)} (h : Alike l l') (number : Nat) :
    ofLines number l = ofLines number l' := by
  induction h generalizing number with
  | nil => rfl
  | blank hw =>
    have hempty := place_cut hw number []
    rw [List.nil_append] at hempty
    simp only [ofLines, hempty]
    rfl
  | last hw hw' => simp only [ofLines, place_cut hw, place_cut hw']
  | cons _ ih => rw [ofLines, ofLines, ih]

theorem ofLines_append (l l' : List (List Char)) (number : Nat) :
    ofLines number (l ++ l') = ofLines number l ++ ofLines (number + l.length) l' := by
  induction l generalizing number with
  | nil => rfl
  | cons line l ih =>
    rw [List.cons_append, ofLines, ofLines, ih, List.append_assoc, List.length_cons]
    congr 3
    omega

end Segment

/-! ## Places further down -/

/-- The place so many lines further down. -/
def Span.down (k : Nat) (span : Span) : Span where
  line := span.line + k
  column := span.column

mutual

/-- A statement with all its places so many lines further down. -/
def Stmt.down (k : Nat) : Stmt → Stmt
  | .assign span a => .assign (span.down k) a
  | .check span cond => .check (span.down k) cond
  | .ifElse span cond t e => .ifElse (span.down k) cond (Block.down k t) (Block.down k e)
  | .whileDo span cond body => .whileDo (span.down k) cond (Block.down k body)
  | .forDo span init cond update body =>
    .forDo (span.down k) init cond update (Block.down k body)

/-- The statements of a block, so many lines further down. -/
def Block.down (k : Nat) : List Stmt → List Stmt
  | [] => []
  | stmt :: rest => stmt.down k :: Block.down k rest

end

mutual

theorem Stmt.down_zero (stmt : Stmt) : stmt.down 0 = stmt := by
  cases stmt with
  | assign span a => rfl
  | check span cond => rfl
  | ifElse span cond t e => rw [Stmt.down, Block.down_zero t, Block.down_zero e]; rfl
  | whileDo span cond body => rw [Stmt.down, Block.down_zero body]; rfl
  | forDo span init cond update body => rw [Stmt.down, Block.down_zero body]; rfl

theorem Block.down_zero (b : Block) : Block.down 0 b = b := by
  cases b with
  | nil => rfl
  | cons stmt rest => rw [Block.down, stmt.down_zero, Block.down_zero rest]

end

/-- What a segment opens depends on its text, up to the place of a statement. -/
def Opening.down (k : Nat) : Opening → Opening
  | simple stmt => .simple (stmt.down k)
  | block heading inner => .block heading inner

namespace Segment

/-- A segment so many lines further down. -/
def down (k : Nat) (s : Segment) : Segment :=
  { s with line := s.line + k }

@[simp] theorem text_down (k : Nat) (s : Segment) : (s.down k).text = s.text := rfl

@[simp] theorem down_zero : down 0 = id := rfl

theorem ofRaw_down (k line start : Nat) (raw : List Char) :
    ofRaw (line + k) start raw = (ofRaw line start raw).down k := rfl

theorem front_down (k : Nat) (s : Segment) (raw : List Char) :
    (s.down k).front raw = (s.front raw).down k := rfl

theorem rear_down (k : Nat) (s : Segment) (raw : List Char) :
    (s.down k).rear raw = (s.rear raw).down k := rfl

theorem unlessEmpty_down (k : Nat) (s : Segment) :
    (s.down k).unlessEmpty = s.unlessEmpty.map (down k) := by
  unfold unlessEmpty
  rw [text_down]
  split <;> rfl

theorem place_down (k line start : Nat) (pieces : List (List Char)) :
    place (line + k) start pieces = (place line start pieces).map (down k) := by
  induction pieces generalizing start with
  | nil => rfl
  | cons piece more ih =>
    rw [place_cons, place_cons, ofRaw_down, unlessEmpty_down, ih, List.map_append]

theorem ofLines_down (k number : Nat) (l : List (List Char)) :
    ofLines (number + k) l = (ofLines number l).map (down k) := by
  induction l generalizing number with
  | nil => rfl
  | cons line l ih =>
    rw [ofLines, ofLines, place_down, Nat.add_right_comm, ih, List.map_append]

/-- The segments of a text followed by a line end and more text. -/
theorem ofSource_append (source more : List Char) :
    ofSource (source ++ '\n' :: more) =
      ofSource source ++ (ofSource more).map (down (source.count '\n' + 1)) := by
  obtain ⟨l, hlength, halike, happend⟩ := Text.exists_lines_append source
  rw [ofSource, ofSource, ofSource, happend, ofLines_append, ofLines_of_alike halike, hlength,
    ofLines_down]

/-! ## Openings -/

variable {s : Segment} {text : List Char}

theorem expression_of_ok {e : Expr String} (h : s.expression text = .ok e) (s' : Segment) :
    s'.expression text = .ok e := by
  rw [expression] at h ⊢
  cases hparse : Expr.parse text with
  | error error => rw [hparse] at h; cases h
  | ok e' =>
    rw [hparse] at h
    exact h

theorem assignment_of_ok {a : Assignment} (h : s.assignment text = .ok a) (s' : Segment) :
    s'.assignment text = .ok a := by
  rw [assignment] at h ⊢
  split at h
  · cases h
  · next before after hsplit =>
    dsimp only at h ⊢
    split at h
    · next hname =>
      obtain ⟨value, hvalue, h⟩ := bind_eq_ok h
      rw [if_pos hname, expression_of_ok hvalue s']
      exact h
    · cases h

theorem head_of_ok {keyword : Keyword} {parts : List Char × List Char}
    (h : s.head keyword text = .ok parts) (s' : Segment) : s'.head keyword text = .ok parts := by
  rw [head] at h ⊢
  split at h
  · split at h
    · split at h
      · exact h
      · cases h
    · cases h
  · cases h

variable {o : Opening}

theorem branch_down (h : s.branch text = .ok o) (k : Nat) :
    (s.down k).branch text = .ok (o.down k) := by
  obtain ⟨⟨inside, inner⟩, hhead, h⟩ := bind_eq_ok h
  obtain ⟨cond, hcond, h⟩ := bind_eq_ok h
  cases h
  rw [branch, head_of_ok hhead]
  change ((s.down k).expression inside >>= _) = _
  rw [expression_of_ok hcond]
  rfl

theorem loop_down (h : s.loop text = .ok o) (k : Nat) :
    (s.down k).loop text = .ok (o.down k) := by
  obtain ⟨⟨inside, inner⟩, hhead, h⟩ := bind_eq_ok h
  obtain ⟨cond, hcond, h⟩ := bind_eq_ok h
  cases h
  rw [loop, head_of_ok hhead]
  change ((s.down k).expression inside >>= _) = _
  rw [expression_of_ok hcond]
  rfl

theorem count_down (h : s.count text = .ok o) (k : Nat) :
    (s.down k).count text = .ok (o.down k) := by
  obtain ⟨⟨inside, inner⟩, hhead, h⟩ := bind_eq_ok h
  dsimp only at h
  split at h
  · next hparts =>
    obtain ⟨init, hinit, h⟩ := bind_eq_ok h
    obtain ⟨cond, hcond, h⟩ := bind_eq_ok h
    obtain ⟨update, hupdate, h⟩ := bind_eq_ok h
    cases h
    rw [count, head_of_ok hhead]
    simp only [bind, Except.bind, hparts, assignment_of_ok hinit (s.down k),
      expression_of_ok hcond (s.down k), assignment_of_ok hupdate (s.down k)]
    rfl
  · cases h

theorem assertion_down {stmt : Stmt} (h : s.assertion text = .ok stmt) (k : Nat) :
    (s.down k).assertion text = .ok (stmt.down k) := by
  rw [assertion] at h ⊢
  split at h
  · split at h
    · split at h
      · next hend =>
        obtain ⟨cond, hcond, h⟩ := bind_eq_ok h
        cases h
        rw [if_pos hend, expression_of_ok hcond]
        rfl
      · cases h
    · cases h
  · cases h

theorem opening_down (h : s.opening = .ok o) (k : Nat) :
    (s.down k).opening = .ok (o.down k) := by
  rw [opening] at h ⊢
  rw [text_down]
  split at h
  · exact branch_down h k
  · split at h
    · exact loop_down h k
    · split at h
      · exact count_down h k
      · split at h
        · obtain ⟨stmt, hstmt, h⟩ := bind_eq_ok h
          cases h
          rw [assertion_down hstmt]
          rfl
        · split at h
          · cases h
          · next helse =>
            rw [if_neg helse]
            split at h
            · cases h
            · next hbrace =>
              rw [if_neg hbrace]
              split at h
              · next hassign =>
                obtain ⟨a, ha, h⟩ := bind_eq_ok h
                cases h
                rw [if_pos hassign, assignment_of_ok ha]
                rfl
              · cases h

end Segment

/-! ## Blocks -/

open Segment

/-- Whether a block ends in a queue is decided by the queue itself, wherever it stands and whatever
comes after it. -/
theorem takeBlock_down {d : Nat} {queue body rest : List Segment}
    (h : takeBlock d queue = some (body, rest)) (k : Nat) (more : List Segment) :
    takeBlock d (queue.map (down k) ++ more) =
      some (body.map (down k), rest.map (down k) ++ more) := by
  induction queue generalizing d body rest with
  | nil => cases h
  | cons s queue ih =>
    rw [List.map_cons, List.cons_append]
    rw [takeBlock] at h ⊢
    rw [text_down]
    split at h
    · obtain ⟨⟨body, rest⟩, htake, h⟩ := Option.map_eq_some_iff.mp h
      cases h
      rw [ih htake]
      rfl
    · next before after hscan =>
      cases h
      simp only [front_down, rear_down, unlessEmpty_down, List.map_append, List.append_assoc]

theorem Segment.block_down {s : Segment} {inner : List Char} {queue body rest : List Segment}
    (h : s.block inner queue = .ok (body, rest)) (k : Nat) (more : List Segment) :
    (s.down k).block inner (queue.map (down k) ++ more) =
      .ok (body.map (down k), rest.map (down k) ++ more) := by
  rw [block] at h ⊢
  split at h
  · next htake =>
    cases h
    have hqueue : ((s.down k).rear inner).unlessEmpty ++ (queue.map (down k) ++ more) =
        ((s.rear inner).unlessEmpty ++ queue).map (down k) ++ more := by
      rw [rear_down, unlessEmpty_down, List.map_append, List.append_assoc]
    rw [hqueue, takeBlock_down htake]
  · cases h

/-- A segment that opens something does not start with `else`. -/
theorem Segment.strip?_elseKw {s : Segment} {o : Opening} (h : s.opening = .ok o) :
    Keyword.elseKw.strip? s.text = none := by
  cases helse : Keyword.elseKw.strip? s.text with
  | none => rfl
  | some rest =>
    have hother : ∀ keyword, keyword ≠ .elseKw → Keyword.strip? keyword s.text = none := by
      intro keyword hne
      rw [Keyword.strip?_eq helse]
      exact Keyword.strip?_of_ne hne rest
    rw [opening, hother .ifKw (by decide), hother .whileKw (by decide), hother .forKw (by decide),
      hother .assertKw (by decide), helse] at h
    cases h

theorem Block.Reading.exists_opening {s : Segment} {queue : List Segment} {b : Block}
    (h : Reading (s :: queue) b) : ∃ o, s.opening = .ok o := by
  cases h <;> exact ⟨_, ‹_›⟩

namespace ElsePart

/-- What follows a branch, so many lines further down and in front of more segments. -/
def down (k : Nat) (more : List Segment) : ElsePart → ElsePart
  | absent => .absent
  | chain queue => .chain (queue.map (Segment.down k) ++ more)
  | block body rest => .block (body.map (Segment.down k)) (rest.map (Segment.down k) ++ more)

/-- A queue that can be read does not start with the alternative of a branch. -/
theorem of_reading {queue : List Segment} {b : Block} (h : Block.Reading queue b) :
    ElsePart.of queue = .ok .absent := by
  cases queue with
  | nil => rfl
  | cons s queue =>
    obtain ⟨o, ho⟩ := h.exists_opening
    rw [ElsePart.of]
    simp only [strip?_elseKw ho]

theorem chain_ne_nil {queue chain : List Segment} (h : ElsePart.of queue = .ok (.chain chain)) :
    chain ≠ [] := by
  cases queue with
  | nil => cases h
  | cons s queue =>
    cases follows_of h with
    | chain => exact List.cons_ne_nil _ _

theorem of_down {queue more : List Segment} {part : ElsePart} (h : ElsePart.of queue = .ok part)
    (k : Nat) (hmore : ElsePart.of more = .ok .absent) :
    ElsePart.of (queue.map (Segment.down k) ++ more) = .ok (part.down k more) := by
  cases queue with
  | nil =>
    cases h
    exact hmore
  | cons s queue =>
    rw [List.map_cons, List.cons_append]
    rw [ElsePart.of] at h ⊢
    rw [text_down]
    dsimp only at h ⊢
    split at h
    · cases h
      rfl
    · next text hk =>
      rw [rear_down, text_down]
      split at h
      · next hif =>
        cases h
        rw [if_pos hif]
        rfl
      · next hif =>
        rw [if_neg hif]
        split at h
        · obtain ⟨⟨body, rest⟩, hblock, h⟩ := bind_eq_ok h
          cases h
          rw [block_down hblock]
          rfl
        · cases h

end ElsePart

namespace Block

theorem Reading.ne_nil {queue : List Segment} {b : Block} (h : Reading queue b)
    (hqueue : queue ≠ []) : b ≠ [] := by
  cases h with
  | nil => exact absurd rfl hqueue
  | _ => exact List.cons_ne_nil _ _

theorem Reading.of_append_nil {queue : List Segment} {b : Block}
    (h : Reading (queue ++ []) (b ++ [])) : Reading queue b := by
  rwa [List.append_nil, List.append_nil] at h

/-- A queue that can be read, further down and before another such queue. -/
theorem Reading.down_append {queue more : List Segment} {b c : Block} (h : Reading queue b)
    (k : Nat) (hmore : Reading more c) :
    Reading (queue.map (Segment.down k) ++ more) (Block.down k b ++ c) := by
  -- the other queue follows the rest of the first one, and nothing is added to a block inside it
  induction h generalizing more c with
  | nil => exact hmore
  | simple hopen _ ih => exact .simple (opening_down hopen k) (ih hmore)
  | loop hopen hblock _ _ ihbody ih =>
    exact .loop (opening_down hopen k) (block_down hblock k more) (ihbody .nil).of_append_nil
      (ih hmore)
  | count hopen hblock _ _ ihbody ih =>
    exact .count (opening_down hopen k) (block_down hblock k more) (ihbody .nil).of_append_nil
      (ih hmore)
  | branch hopen hblock helse _ _ ihbody ih =>
    exact .branch (opening_down hopen k) (block_down hblock k more)
      (ElsePart.of_down helse k (ElsePart.of_reading hmore)) (ihbody .nil).of_append_nil (ih hmore)
  | chain hopen hblock helse _ hchain ihbody ih =>
    have h := Reading.chain (opening_down hopen k) (block_down hblock k more)
      (ElsePart.of_down helse k (ElsePart.of_reading hmore)) (ihbody .nil).of_append_nil (ih hmore)
    -- the nested branch comes from the first queue
    obtain ⟨stmt, rest, rfl⟩ :=
      List.exists_cons_of_ne_nil (hchain.ne_nil (ElsePart.chain_ne_nil helse))
    exact h
  | alternative hopen hblock helse _ _ _ ihbody ihother ih =>
    exact .alternative (opening_down hopen k) (block_down hblock k more)
      (ElsePart.of_down helse k (ElsePart.of_reading hmore)) (ihbody .nil).of_append_nil
      (ihother .nil).of_append_nil (ih hmore)

end Block

theorem exists_of_isOk {ε α : Type} {x : Except ε α} (h : x.isOk = true) : ∃ a, x = .ok a := by
  cases x with
  | error error => cases h
  | ok a => exact ⟨a, rfl⟩

/-- Two sources that can be read, with a line end between them, are read as the statements of the
first and those of the second, further down by the lines of the first. -/
theorem Program.parse_append_newline {source more : String} {p q : Program}
    (hsource : Program.parse source = .ok p) (hmore : Program.parse more = .ok q) :
    Program.parse (source ++ "\n" ++ more) =
      .ok { statements := p.statements ++
        Block.down (1 + source.toList.count '\n') q.statements } := by
  obtain ⟨statements, hp, h⟩ := bind_eq_ok hsource
  cases h
  obtain ⟨statements', hq, h⟩ := bind_eq_ok hmore
  cases h
  have htext : (source ++ "\n" ++ more).toList = source.toList ++ '\n' :: more.toList := by simp
  have hlater := (Block.parse_eq_ok_iff.mp hq).down_append (source.toList.count '\n' + 1) .nil
  have hall := (Block.parse_eq_ok_iff.mp hp).down_append 0 hlater.of_append_nil
  rw [down_zero, List.map_id, Block.down_zero, ← ofSource_append, ← htext] at hall
  rw [Program.parse, Block.parse_eq_ok_iff.mpr hall, Nat.add_comm]
  rfl

/-- An assignment, and a comment that ends with a carriage return. -/
def commentedSource : String :=
  "x := 1;\n// one\r"

/-- An empty line and a branch over several lines. -/
def branchSource : String :=
  "\nif (x > 0) \x7b\n  x := 2;\n\x7d"

theorem commentedSource_append :
    ∃ p q, Program.parse commentedSource = .ok p ∧ Program.parse branchSource = .ok q ∧
      Program.parse (commentedSource ++ "\n" ++ branchSource) =
        .ok { statements := p.statements ++ Block.down 2 q.statements } := by
  have hsource : (Program.parse commentedSource).isOk = true := by decide +kernel
  have hbranch : (Program.parse branchSource).isOk = true := by decide +kernel
  have hcount : 1 + commentedSource.toList.count '\n' = 2 := by decide
  obtain ⟨p, hp⟩ := exists_of_isOk hsource
  obtain ⟨q, hq⟩ := exists_of_isOk hbranch
  have hall := Program.parse_append_newline hp hq
  rw [hcount] at hall
  exact ⟨p, q, hp, hq, hall⟩

end WhileSmt
