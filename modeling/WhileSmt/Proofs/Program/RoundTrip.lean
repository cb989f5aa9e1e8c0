import WhileSmt.Proofs.Program.Layout

/-!
Reading back what was written. Every queue that holds the tokens of a block is read as that block,
up to the places of its statements, so it does not matter how the tokens were laid out.

Main statement: `Program.parse_of_laid`.
-/

namespace WhileSmt

/-! ## Braces of tokens -/

namespace Token

/-- The number of open blocks after a token. A block that was open before cannot be closed here. -/
def depth (d : Nat) : Token → Option Nat
  | assign _ => some d
  | check _ => some d
  | block _ => some (d + 1)
  | elseBlock => some (d + 1)
  | elseIf _ => some (d + 1)
  | close => match d with
    | 0 => none
    | d + 1 => some d

/-- The number of open blocks after some tokens. -/
def depths (d : Nat) (ts : List Token) : Option Nat :=
  ts.foldlM depth d

theorem depths_append (d : Nat) (ts us : List Token) :
    depths d (ts ++ us) = (depths d ts).bind fun d' => depths d' us :=
  List.foldlM_append

theorem depths_cons (d : Nat) (t : Token) (ts : List Token) :
    depths d (t :: ts) = (t.depth d).bind fun d' => depths d' ts :=
  List.foldlM_cons

end Token

/-- A block closes what it opens. -/
theorem Block.Written.depths {b : Block} {ts : List Token} (h : Written b ts) (d : Nat) :
    Token.depths d ts = some d := by
  induction h generalizing d with
  | nil => rfl
  | assign _ ih => exact ih d
  | check _ ih => exact ih d
  | ifOnly _ _ iht ihrest =>
    simp [Token.depths_append, Token.depths_cons, Token.depth, iht, ihrest]
  | ifElse _ _ _ _ iht ihe ihrest =>
    simp [Token.depths_append, Token.depths_cons, Token.depth, iht, ihe, ihrest]
  | elseIf _ _ _ iht ihe ihrest =>
    have harm := ihe d
    rw [Token.depths_cons] at harm
    simp only [Token.depth, Option.bind_some] at harm
    simp [Token.depths_append, Token.depths_cons, Token.depth, iht, harm, ihrest]
  | whileDo _ _ ihbody ihrest =>
    simp [Token.depths_append, Token.depths_cons, Token.depth, ihbody, ihrest]
  | forDo _ _ ihbody ihrest =>
    simp [Token.depths_append, Token.depths_cons, Token.depth, ihbody, ihrest]

/-! ## Blocks of tokens -/

theorem Balanced.braces {w : List Char} (h : Balanced w) :
    ∀ c ∈ w, c ≠ '\x7b' ∧ c ≠ '\x7d' := by
  intro c hc
  constructor <;> rintro rfl
  · exact h.not_mem (by decide) (by decide) hc
  · exact h.not_mem (by decide) (by decide) hc

theorem Assignment.braces {a : Assignment} (h : a.readable = true) :
    ∀ c ∈ a.text, c ≠ '\x7b' ∧ c ≠ '\x7d' := by
  rw [readable, Bool.and_eq_true] at h
  simp only [text, List.forall_mem_append, List.forall_mem_cons]
  exact ⟨(Expr.balanced_of_isIdentifier h.1).braces, by decide, by decide, by decide, by decide,
    (Expr.balanced_text h.2).braces⟩

/-- The only brace of a head is its last character. -/
theorem Heading.exists_text {h : Heading} (hread : h.readable = true) :
    ∃ front, h.text = front ++ ['\x7b'] ∧ ∀ c ∈ front, c ≠ '\x7b' ∧ c ≠ '\x7d' := by
  have hinside : ∀ c ∈ h.inside, c ≠ '\x7b' ∧ c ≠ '\x7d' := by
    cases h with
    | branch cond => exact (Expr.balanced_text hread).braces
    | loop cond => exact (Expr.balanced_text hread).braces
    | count init cond update =>
      simp only [readable, Bool.and_eq_true] at hread
      simp only [inside, List.forall_mem_append, List.forall_mem_cons]
      exact ⟨init.braces hread.1.1, by decide, by decide, (Expr.balanced_text hread.1.2).braces,
        by decide, by decide, update.braces hread.2⟩
  refine ⟨h.keyword.text.toList ++ ' ' :: '(' :: (h.inside ++ [')', ' ']), by simp [text], ?_⟩
  simp only [List.forall_mem_append, List.forall_mem_cons]
  exact ⟨h.keyword.balanced.braces, by decide, by decide, hinside, by decide, by decide, by simp⟩

/-- A scan passes over a token unless the token closes the block. -/
theorem Token.scan {t : Token} (h : t.readable = true) {d d' : Nat} (hd : t.depth d = some d')
    (v : List Char) : Braces.scan d (t.text ++ v) = Braces.prepend t.text (Braces.scan d' v) := by
  have hopen : ∀ front : List Char, (∀ c ∈ front, c ≠ '\x7b' ∧ c ≠ '\x7d') →
      Braces.scan d (front ++ ['\x7b'] ++ v) =
        Braces.prepend (front ++ ['\x7b']) (Braces.scan (d + 1) v) := by
    intro front hfront
    rw [List.append_assoc, Braces.scan_word hfront, List.singleton_append, Braces.scan_cons,
      if_pos rfl, Braces.prepend_append]
  cases t with
  | assign a =>
    cases hd
    rw [readable, Bool.and_eq_true] at h
    refine Braces.scan_word ?_ d v
    simp only [text, List.forall_mem_append, List.forall_mem_cons]
    exact ⟨a.braces h.1, by decide, by simp⟩
  | check cond =>
    cases hd
    refine Braces.scan_word ?_ d v
    simp only [text, List.forall_mem_append, List.forall_mem_cons]
    exact ⟨(Keyword.balanced _).braces, by decide, (Expr.balanced_text h).braces, by decide,
      by decide, by simp⟩
  | block heading =>
    cases hd
    obtain ⟨front, htext, hfront⟩ := heading.exists_text h
    rw [text, htext]
    exact hopen front hfront
  | elseBlock =>
    cases hd
    have hword := hopen (Keyword.elseKw.text.toList ++ [' ']) (by
      simp only [List.forall_mem_append, List.forall_mem_cons]
      exact ⟨(Keyword.balanced _).braces, by decide, by simp⟩)
    simpa [text] using hword
  | elseIf cond =>
    cases hd
    obtain ⟨front, htext, hfront⟩ := Heading.exists_text (h := .branch cond) h
    have hword := hopen (Keyword.elseKw.text.toList ++ ' ' :: front) (by
      simp only [List.forall_mem_append, List.forall_mem_cons]
      exact ⟨(Keyword.balanced _).braces, by decide, hfront⟩)
    rw [text, htext]
    simpa using hword
  | close =>
    cases d with
    | zero => cases hd
    | succ d =>
      rw [← Option.some.inj hd]
      exact Braces.scan_cons (d + 1) '\x7d' v

theorem Text.Blank.braces {w : List Char} (h : Text.Blank w) :
    ∀ c ∈ w, c ≠ '\x7b' ∧ c ≠ '\x7d' := by
  intro c hc
  constructor <;> rintro rfl <;> exact absurd (h _ hc) (by decide)

namespace Piece

/-- A piece that does not close the block. -/
theorem scan_pending {v : List Char} {ts : List Token} (h : Piece v ts)
    (hread : ∀ t ∈ ts, t.readable = true) {d d' : Nat} (hd : Token.depths d ts = some d') :
    Braces.scan d v = .pending d' := by
  induction h generalizing d with
  | @blank w hw =>
    have hscan := Braces.scan_word hw.braces d []
    rw [List.append_nil] at hscan
    rw [hscan, ← Option.some.inj hd]
    rfl
  | @token w v t ts hw _ _ ih =>
    rw [List.forall_mem_cons] at hread
    rw [Token.depths_cons, Option.bind_eq_some_iff] at hd
    obtain ⟨d₁, ht, hts⟩ := hd
    rw [Braces.scan_word hw.braces, Token.scan hread.1 ht, ih hread.2 hts]
    rfl

/-- A piece that closes the block is split at the closing brace. -/
theorem scan_closed {v : List Char} {ts us : List Token} (h : Piece v (ts ++ .close :: us))
    (hread : ∀ t ∈ ts, t.readable = true) {d : Nat} (hd : Token.depths d ts = some 0) :
    ∃ before after, Braces.scan d v = .closed before after ∧ Piece before ts ∧ Piece after us := by
  induction ts generalizing v d with
  | nil =>
    cases h with
    | @token w v _ _ hw _ hv =>
      refine ⟨w, v, ?_, .blank hw, hv⟩
      rw [Option.some.inj hd, Braces.scan_word hw.braces]
      exact congrArg (Braces.prepend w) (Braces.scan_cons 0 '\x7d' v) |>.trans (by
        simp [Braces.prepend])
  | cons t ts ih =>
    cases h with
    | @token w v _ _ hw hsimple hv =>
      rw [List.forall_mem_cons] at hread
      rw [Token.depths_cons, Option.bind_eq_some_iff] at hd
      obtain ⟨d₁, ht, hts⟩ := hd
      obtain ⟨before, after, hscan, hbefore, hafter⟩ := ih hv hread.2 hts
      refine ⟨w ++ (t.text ++ before), after, ?_, ?_, hafter⟩
      · rw [Braces.scan_word hw.braces, Token.scan hread.1 ht, hscan]
        rfl
      · exact .token hw (fun ht => absurd (hsimple ht) (by simp)) hbefore

end Piece

/-- The tokens of a block are taken off a queue up to the brace that closes it. -/
theorem Spelt.takeBlock {queue : List Segment} {ts us : List Token}
    (h : Spelt queue (ts ++ .close :: us)) (hread : ∀ t ∈ ts ++ .close :: us, t.readable = true)
    {d : Nat} (hd : Token.depths d ts = some 0) :
    ∃ body rest, takeBlock d queue = some (body, rest) ∧ Spelt body ts ∧ Spelt rest us := by
  generalize hall : ts ++ .close :: us = all at h hread
  induction h generalizing ts d with
  | nil => simp at hall
  | @cons s queue v t ts₁ us₁ htext hsimple hpiece hqueue ih =>
    have hs : Piece s.text (t :: ts₁) := by
      rw [htext]
      exact .token Text.blank_nil hsimple hpiece
    rw [← List.cons_append, List.forall_mem_append] at hread
    rw [← List.cons_append] at hall
    -- the whole segment belongs to the block
    have hpending : ∀ m, ts = t :: ts₁ ++ m → m ++ .close :: us = us₁ →
        ∃ body rest, WhileSmt.takeBlock d (s :: queue) = some (body, rest) ∧ Spelt body ts ∧
          Spelt rest us := by
      rintro m rfl hm
      rw [Token.depths_append, Option.bind_eq_some_iff] at hd
      obtain ⟨d₁, hd₁, hd₂⟩ := hd
      obtain ⟨body, rest, htake, hbody, hrest⟩ := ih hd₂ hm hread.2
      refine ⟨s :: body, rest, ?_, .cons htext hsimple hpiece hbody, hrest⟩
      rw [WhileSmt.takeBlock, hs.scan_pending hread.1 hd₁]
      simp [htake]
    -- the closing brace stands in this segment or in a later one
    rcases List.append_eq_append_iff.mp hall with ⟨m, hfirst, hclose⟩ | ⟨m, hts, hrest⟩
    · cases m with
      | nil =>
        rw [List.append_nil] at hfirst
        exact hpending [] (by rw [← hfirst, List.append_nil]) hclose
      | cons c m =>
        obtain ⟨rfl, rfl⟩ := List.cons.inj hclose
        rw [hfirst] at hs hread
        rw [List.forall_mem_append, List.forall_mem_cons] at hread
        obtain ⟨before, after, hscan, hbefore, hafter⟩ := hs.scan_closed hread.1.1 hd
        refine ⟨(s.front before).unlessEmpty, (s.rear after).unlessEmpty ++ queue, ?_,
          hbefore.spelt hread.1.1 _ _, (hafter.spelt hread.1.2.2 _ _).append hqueue⟩
        rw [WhileSmt.takeBlock, hscan]
    · exact hpending m hts hrest.symm

/-! ## Keywords -/

namespace Keyword

/-- A keyword ends at a character that is not part of a name. -/
theorem strip?_text (keyword : Keyword) {c : Char} (hc : isNameChar c = false) (v : List Char) :
    keyword.strip? (keyword.text.toList ++ c :: v) = some (c :: v) := by
  have hfront : keyword.text.toList.isPrefixOf (keyword.text.toList ++ c :: v) = true :=
    List.isPrefixOf_iff_prefix.mpr (List.prefix_append _ _)
  rw [strip?, if_pos hfront, List.drop_left]
  simp [hc]

/-- A name that is no keyword does not start with one. -/
theorem strip?_name (keyword : Keyword) {x : List Char} (hx : ∀ c ∈ x, isNameChar c = true)
    (hne : keyword.text.toList ≠ x) {c : Char} (hc : isNameChar c = false) (v : List Char) :
    keyword.strip? (x ++ c :: v) = none := by
  rw [strip?]
  split
  · next hfront =>
    obtain ⟨r, hr⟩ := List.isPrefixOf_iff_prefix.mp hfront
    rcases List.append_eq_append_iff.mp hr with ⟨m, hxm, hm⟩ | ⟨m, hkeyword, hm⟩
    · cases m with
      | nil => exact absurd (by rw [hxm, List.append_nil]) hne
      | cons d m =>
        -- the keyword runs on into the name
        have hd : isNameChar d = true := hx d (by rw [hxm]; simp)
        rw [hxm, List.append_assoc, List.drop_left]
        simp [hd]
    · cases m with
      | nil => exact absurd (by rw [hkeyword, List.append_nil]) hne
      | cons d m =>
        obtain ⟨rfl, -⟩ := List.cons.inj hm
        have hd := keyword.isNameChar_text c (by rw [hkeyword]; simp)
        simp [hc] at hd
  · rfl

end Keyword

/-! ## Statements without a block -/

theorem splitAssign?_append {w : List Char} (h : ':' ∉ w) (v : List Char) :
    splitAssign? (w ++ ':' :: '=' :: v) = some (w, v) := by
  induction w with
  | nil => rfl
  | cons c w ih =>
    rw [List.mem_cons, not_or] at h
    rw [List.cons_append, splitAssign?, ih h.2]
    · rfl
    · rintro rest rfl
      exact absurd rfl h.1

theorem splitSemicolons_of_not_mem {w : List Char} (h : ';' ∉ w) : splitSemicolons w = [w] := by
  induction w with
  | nil => rfl
  | cons c w ih =>
    rw [List.mem_cons, not_or] at h
    rw [splitSemicolons, ih h.2]
    exact fun hc => h.1 hc.symm

theorem splitSemicolons_append {w : List Char} (h : ';' ∉ w) (v : List Char) :
    splitSemicolons (w ++ ';' :: v) = w :: splitSemicolons v := by
  induction w with
  | nil => rfl
  | cons c w ih =>
    rw [List.mem_cons, not_or] at h
    rw [List.cons_append, splitSemicolons, ih h.2]
    exact fun hc => h.1 hc.symm

namespace Segment

/-- An expression with blanks around it is read back. -/
theorem expression_text (s : Segment) {e : Expr String} (h : e.readable = true)
    {w w' : List Char} (hw : Text.Blank w) (hw' : Text.Blank w') :
    s.expression (w ++ e.text ++ w') = .ok e := by
  have hparse : Expr.parse (w ++ e.text ++ w') = .ok e := by
    rw [← Expr.parse_text h]
    refine Expr.parse_trim ?_
    rw [Text.trim_append hw (Expr.solid_text h) hw', (Expr.solid_text h).trim_eq]
  rw [expression, hparse]

theorem expression_self (s : Segment) {e : Expr String} (h : e.readable = true) :
    s.expression e.text = .ok e := by
  have hexpression := s.expression_text h Text.blank_nil Text.blank_nil
  rwa [List.nil_append, List.append_nil] at hexpression

/-- An assignment with blanks around it is read back, also if a semicolon ends it. -/
theorem assignment_text (s : Segment) {a : Assignment} (h : a.readable = true) {w w' : List Char}
    (hw : Text.Blank w) (hw' : Text.Blank w') {ending : List Char}
    (hending : ending = [] ∨ ending = [';']) :
    s.assignment (w ++ (a.text ++ (ending ++ w'))) = .ok a := by
  rw [Assignment.readable, Bool.and_eq_true] at h
  have hsolid := Expr.solid_text h.2
  have hsemicolon : ';' ∉ a.value.text :=
    (Expr.balanced_text h.2).not_mem (by decide) (by decide)
  have hcolon : ':' ∉ w ++ (a.target.toList ++ [' ']) := by
    rw [List.mem_append, List.mem_append, not_or, not_or]
    refine ⟨fun hmem => absurd (hw _ hmem) (by decide), ?_, by decide⟩
    exact (Expr.balanced_of_isIdentifier h.1).not_mem (by decide) (by decide)
  have hsplit : splitAssign? (w ++ (a.text ++ (ending ++ w'))) =
      some (w ++ (a.target.toList ++ [' ']), ' ' :: (a.value.text ++ (ending ++ w'))) := by
    rw [← splitAssign?_append hcolon]
    simp [Assignment.text]
  have htarget : Text.trim (w ++ (a.target.toList ++ [' '])) = a.target.toList := by
    rw [← List.append_assoc]
    exact Text.trim_append hw (solid_of_isIdentifier h.1) Text.blank_space
  -- what is cut off at the end is the semicolon of the statement and never a part of the value
  have hvalue : dropSemicolon (Text.trim (' ' :: (a.value.text ++ (ending ++ w')))) =
      a.value.text := by
    rcases hending with rfl | rfl
    · have htrim := Text.trim_append Text.blank_space hsolid hw'
      rw [List.singleton_append, List.cons_append] at htrim
      rw [List.nil_append, htrim, dropSemicolon, if_neg]
      exact fun hlast => hsemicolon (List.mem_of_getLast? hlast)
    · have hsemi : Text.Solid [';'] := Text.solid_singleton rfl
      have hall := hsolid.append (Expr.text_ne_nil h.2) hsemi (by simp) []
      have htrim := Text.trim_append Text.blank_space hall hw'
      rw [List.nil_append] at htrim
      have hshape : ' ' :: (a.value.text ++ ([';'] ++ w')) =
          [' '] ++ (a.value.text ++ [';']) ++ w' := by simp
      rw [hshape, htrim, dropSemicolon, if_pos (by simp), List.dropLast_concat]
  rw [assignment, hsplit]
  dsimp only
  rw [htarget, hvalue, if_pos h.1, s.expression_self h.2]
  simp [bind, Except.bind, pure, Except.pure]

end Segment

theorem isKeyword_eq_false {x : String} (h : isKeyword x = false) (keyword : Keyword) :
    keyword.text.toList ≠ x.toList := by
  intro heq
  have hx := String.toList_injective heq
  simp only [isKeyword, List.any_cons, List.any_nil, Bool.or_false, Bool.or_eq_false_iff,
    decide_eq_false_iff_not] at h
  cases keyword <;> simp_all

/-- An assignment starts with no keyword. -/
theorem Token.strip?_assign {a : Assignment} (h : (assign a).readable = true) (keyword : Keyword)
    (v : List Char) : keyword.strip? ((assign a).text ++ v) = none := by
  simp only [readable, Assignment.readable, Bool.and_eq_true, Bool.not_eq_true'] at h
  have hnone := keyword.strip?_name (isNameChar_of_isIdentifier h.1.1)
    (isKeyword_eq_false h.2 keyword) (c := ' ') rfl
    (':' :: '=' :: ' ' :: (a.value.text ++ ';' :: v))
  rw [← hnone, text, Assignment.text]
  simp

namespace Segment

theorem opening_assign {s : Segment} {a : Assignment} {v : List Char}
    (h : (Token.assign a).readable = true) (htext : s.text = (Token.assign a).text ++ v)
    (hv : Text.Blank v) : s.opening = .ok (.simple (.assign s.span a)) := by
  have hstrip : ∀ keyword : Keyword, keyword.strip? s.text = none := fun keyword =>
    htext ▸ Token.strip?_assign h keyword v
  rw [Token.readable, Bool.and_eq_true] at h
  have hread := h.1
  rw [Assignment.readable, Bool.and_eq_true] at hread
  have hname := isNameChar_of_isIdentifier hread.1
  have hassignment := s.assignment_text h.1 Text.blank_nil hv (.inr rfl)
  have hshape : s.text = [] ++ (a.text ++ ([';'] ++ v)) := by
    rw [htext, Token.text, List.append_assoc, List.nil_append]
  rw [← hshape] at hassignment
  have hbrace : s.text.head? ≠ some '\x7d' := by
    obtain ⟨c, rest, hc⟩ : ∃ c rest, a.target.toList = c :: rest := by
      cases hx : a.target.toList with
      | nil => simp [hx, isIdentifier] at hread
      | cons c rest => exact ⟨c, rest, rfl⟩
    rw [htext, Token.text, Assignment.text, hc]
    intro hhead
    have hbrace : c = '\x7d' := Option.some.inj hhead
    have hcname := hname c (by rw [hc]; exact List.mem_cons_self)
    rw [hbrace] at hcname
    exact absurd hcname (by decide)
  have hassign : (splitAssign? s.text).isSome = true := by
    cases hsplit : splitAssign? s.text with
    | none =>
      rw [assignment, hsplit] at hassignment
      cases hassignment
    | some parts => rfl
  rw [opening, hstrip, hstrip, hstrip, hstrip, hstrip]
  simp [hbrace, hassign, hassignment, bind, Except.bind, pure, Except.pure]

theorem opening_check {s : Segment} {cond : Expr String} {v : List Char}
    (h : cond.readable = true) (htext : s.text = (Token.check cond).text ++ v)
    (hv : Text.Blank v) : s.opening = .ok (.simple (.check s.span cond)) := by
  have hshape : s.text = Keyword.assertKw.text.toList ++ '(' :: (cond.text ++ ')' :: ';' :: v) := by
    rw [htext, Token.text]
    simp
  have hstrip : ∀ {keyword : Keyword}, keyword ≠ .assertKw → keyword.strip? s.text = none := by
    intro keyword hne
    rw [hshape]
    exact Keyword.strip?_of_ne hne _
  have hafter : Text.trim (';' :: v) = [';'] :=
    Text.trim_append (t := [';']) Text.blank_nil (Text.solid_singleton rfl) hv
  have hclosing := (Expr.balanced_text h).splitClosing_end (c := ')') rfl rfl (';' :: v)
  have hassertion : s.assertion ('(' :: (cond.text ++ ')' :: ';' :: v)) =
      .ok (.check s.span cond) := by
    rw [assertion, Text.trimStart_of_head (by rintro c ⟨⟩; rfl)]
    simp only [hclosing, if_pos hafter, s.expression_self h]
    rfl
  rw [opening, hstrip (by decide), hstrip (by decide), hstrip (by decide), hshape,
    Keyword.strip?_text _ rfl]
  dsimp only
  rw [hassertion]
  rfl

end Segment

/-! ## Heads of blocks -/

theorem Assignment.splitClosing {a : Assignment} (h : a.readable = true) (d : Nat)
    (v : List Char) :
    splitClosing d (a.text ++ v) = (splitClosing d v).map fun p => (a.text ++ p.1, p.2) := by
  rw [readable, Bool.and_eq_true] at h
  rw [text, List.append_assoc, (Expr.balanced_of_isIdentifier h.1).splitClosing]
  simp only [List.cons_append]
  rw [splitClosing_other rfl rfl, splitClosing_other rfl rfl, splitClosing_other rfl rfl,
    splitClosing_other rfl rfl, (Expr.balanced_text h.2).splitClosing]
  simp [Function.comp_def]

/-- The parenthesis after a head closes the one before it. -/
theorem Heading.splitClosing_inside {h : Heading} (hread : h.readable = true) (v : List Char) :
    splitClosing 0 (h.inside ++ ')' :: v) = some (h.inside, ')', v) := by
  cases h with
  | branch cond => exact (Expr.balanced_text hread).splitClosing_end rfl rfl v
  | loop cond => exact (Expr.balanced_text hread).splitClosing_end rfl rfl v
  | count init cond update =>
    simp only [readable, Bool.and_eq_true] at hread
    simp only [inside, List.append_assoc, List.cons_append]
    rw [init.splitClosing hread.1.1, splitClosing_other rfl rfl, splitClosing_other rfl rfl,
      (Expr.balanced_text hread.1.2).splitClosing, splitClosing_other rfl rfl,
      splitClosing_other rfl rfl, update.splitClosing hread.2, splitClosing_end rfl rfl]
    simp

theorem Assignment.not_mem_semicolon {a : Assignment} (h : a.readable = true) : ';' ∉ a.text := by
  rw [readable, Bool.and_eq_true] at h
  simp only [text, List.mem_append, List.mem_cons, not_or]
  exact ⟨(Expr.balanced_of_isIdentifier h.1).not_mem (by decide) (by decide), by decide, by decide,
    by decide, by decide, (Expr.balanced_text h.2).not_mem (by decide) (by decide)⟩

theorem Heading.splitSemicolons_inside {init update : Assignment} {cond : Expr String}
    (h : (count init cond update).readable = true) :
    splitSemicolons (count init cond update).inside =
      [init.text, ' ' :: cond.text, ' ' :: update.text] := by
  simp only [readable, Bool.and_eq_true] at h
  have hcond : ';' ∉ ' ' :: cond.text := by
    rw [List.mem_cons, not_or]
    exact ⟨by decide, (Expr.balanced_text h.1.2).not_mem (by decide) (by decide)⟩
  have hupdate : ';' ∉ ' ' :: update.text := by
    rw [List.mem_cons, not_or]
    exact ⟨by decide, update.not_mem_semicolon h.2⟩
  rw [inside, splitSemicolons_append (init.not_mem_semicolon h.1.1), ← List.cons_append,
    splitSemicolons_append hcond, splitSemicolons_of_not_mem hupdate]

namespace Segment

theorem head_text (s : Segment) {h : Heading} (hread : h.readable = true) (v : List Char) :
    s.head h.keyword (' ' :: '(' :: (h.inside ++ ')' :: ' ' :: '\x7b' :: v)) =
      .ok (h.inside, v) := by
  have hbrace : Text.trimStart (' ' :: '\x7b' :: v) = '\x7b' :: v :=
    Text.trimStart_space (by rintro c ⟨⟩; rfl)
  rw [head, Text.trimStart_space (by rintro c ⟨⟩; rfl)]
  simp only [h.splitClosing_inside hread, hbrace]

theorem opening_block {s : Segment} {h : Heading} {v : List Char} (hread : h.readable = true)
    (htext : s.text = h.text ++ v) : s.opening = .ok (.block h v) := by
  have hshape : s.text =
      h.keyword.text.toList ++ ' ' :: '(' :: (h.inside ++ ')' :: ' ' :: '\x7b' :: v) := by
    rw [htext, Heading.text]
    simp
  have hstrip : h.keyword.strip? s.text =
      some (' ' :: '(' :: (h.inside ++ ')' :: ' ' :: '\x7b' :: v)) := by
    rw [hshape]
    exact h.keyword.strip?_text rfl _
  have hother : ∀ {k : Keyword}, k ≠ h.keyword → k.strip? s.text = none := by
    intro k hne
    rw [hshape]
    exact Keyword.strip?_of_ne hne _
  have hhead := s.head_text hread v
  cases h with
  | branch cond =>
    rw [Heading.keyword] at hstrip hhead
    simp only [opening, hstrip, branch, hhead]
    simp [bind, Except.bind, Heading.inside, s.expression_self hread, pure, Except.pure]
  | loop cond =>
    rw [Heading.keyword] at hstrip hhead hother
    simp only [opening, hother (k := .ifKw) (by decide), hstrip, loop, hhead]
    simp [bind, Except.bind, Heading.inside, s.expression_self hread, pure, Except.pure]
  | count init cond update =>
    rw [Heading.keyword] at hstrip hhead hother
    have hparts := Heading.splitSemicolons_inside hread
    simp only [Heading.readable, Bool.and_eq_true] at hread
    have hinit := s.assignment_text hread.1.1 Text.blank_nil Text.blank_nil (.inl rfl)
    have hcond := s.expression_text hread.1.2 Text.blank_space Text.blank_nil
    have hupdate := s.assignment_text hread.2 Text.blank_space Text.blank_nil (.inl rfl)
    simp only [List.append_nil, List.nil_append, List.singleton_append] at hinit hcond hupdate
    simp only [opening, hother (k := .ifKw) (by decide),
      hother (k := .whileKw) (by decide), hstrip, Segment.count, hhead]
    simp [bind, Except.bind, hparts, hinit, hcond, hupdate, pure, Except.pure]

end Segment

/-! ## Blocks and alternatives -/

/-- The block that follows the text `v` of a segment. -/
theorem Piece.exists_block {v : List Char} {ts₁ us₁ ts us : List Token} (hv : Piece v ts₁)
    {queue : List Segment} (hqueue : Spelt queue us₁) (hall : ts₁ ++ us₁ = ts ++ .close :: us)
    (hread : ∀ t ∈ ts ++ .close :: us, t.readable = true) (hd : Token.depths 0 ts = some 0)
    (s : Segment) :
    ∃ body rest, s.block v queue = .ok (body, rest) ∧ Spelt body ts ∧ Spelt rest us := by
  have hread₁ : ∀ t ∈ ts₁, t.readable = true := fun t ht =>
    hread t (hall ▸ List.mem_append_left us₁ ht)
  have hspelt := (hv.spelt hread₁ s.line
    (s.column - 1 + (Text.byteLength s.text - Text.byteLength v))).append hqueue
  rw [hall] at hspelt
  obtain ⟨body, rest, htake, hbody, hrest⟩ := hspelt.takeBlock hread hd
  refine ⟨body, rest, ?_, hbody, hrest⟩
  rw [Segment.block, Segment.rear, htake]

/-- The segment that opens a block, and the segments inside and after the block. -/
theorem Spelt.exists_body {queue : List Segment} {heading : Heading} {ts us : List Token}
    (h : Spelt queue (.block heading :: (ts ++ .close :: us)))
    (hread : ∀ t ∈ .block heading :: (ts ++ .close :: us), t.readable = true)
    (hd : Token.depths 0 ts = some 0) :
    ∃ s queue' inner body rest, queue = s :: queue' ∧
      s.opening = .ok (.block heading inner) ∧ s.block inner queue' = .ok (body, rest) ∧
      Spelt body ts ∧ Spelt rest us := by
  rw [List.forall_mem_cons] at hread
  generalize hall : ts ++ .close :: us = all at h
  cases h with
  | @cons s queue' v t ts₁ us₁ htext _ hv hqueue =>
    obtain ⟨body, rest, hblock, hbody, hrest⟩ := hv.exists_block hqueue hall.symm hread.2 hd s
    exact ⟨s, queue', v, body, rest, rfl, Segment.opening_block hread.1 htext, hblock, hbody, hrest⟩

/-- The segment of a statement without a block. -/
theorem Spelt.exists_simple {queue : List Segment} {t : Token} {ts : List Token}
    (h : Spelt queue (t :: ts)) (hsimple : t.isSimple = true) :
    ∃ s queue' v, queue = s :: queue' ∧ s.text = t.text ++ v ∧ Text.Blank v ∧ Spelt queue' ts := by
  cases h with
  | @cons s queue' v t ts₁ us₁ htext hnone hv hqueue =>
    obtain rfl := hnone hsimple
    cases hv with
    | blank hv => exact ⟨s, queue', v, rfl, htext, hv, hqueue⟩

/-- A token that continues a branch. -/
def Token.isElse : Token → Bool
  | elseBlock => true
  | elseIf _ => true
  | _ => false

theorem Token.strip?_else {t : Token} (h : t.readable = true) (helse : t.isElse = false)
    (v : List Char) : Keyword.elseKw.strip? (t.text ++ v) = none := by
  cases t with
  | assign a => exact strip?_assign h .elseKw v
  | check cond =>
    rw [text, List.append_assoc]
    exact Keyword.strip?_of_ne (by decide) _
  | block heading =>
    rw [text, Heading.text, List.append_assoc]
    refine Keyword.strip?_of_ne ?_ _
    cases heading <;> simp [Heading.keyword]
  | elseBlock => cases helse
  | elseIf cond => cases helse
  | close => rfl

theorem Block.Written.isElse_head {b : Block} {ts : List Token} (h : Written b ts) :
    ∀ t ∈ ts.head?, t.isElse = false := by
  cases h <;> rintro t ⟨⟩ <;> rfl

namespace ElsePart

theorem of_absent {queue : List Segment} {ts : List Token} (h : Spelt queue ts)
    (hread : ∀ t ∈ ts, t.readable = true) (helse : ∀ t ∈ ts.head?, t.isElse = false) :
    ElsePart.of queue = .ok .absent := by
  cases h with
  | nil => rfl
  | @cons s queue v t _ _ htext =>
    have hstrip := Token.strip?_else (hread t List.mem_cons_self) (helse t rfl) v
    rw [← htext] at hstrip
    simp only [ElsePart.of, hstrip]

/-- What stands after `else`. -/
theorem rear_text (s : Segment) {u : List Char} (hu : ∀ c ∈ u.head?, Text.isBlank c = false) :
    (s.rear (Text.trimStart (' ' :: u))).text = Text.trimEnd u := by
  rw [Text.trimStart_space hu, Segment.rear, Segment.ofRaw, Text.trim, Text.trimStart_of_head hu]

theorem of_block {queue : List Segment} {ts us : List Token}
    (h : Spelt queue (.elseBlock :: (ts ++ .close :: us)))
    (hread : ∀ t ∈ ts ++ .close :: us, t.readable = true) (hd : Token.depths 0 ts = some 0) :
    ∃ body rest, ElsePart.of queue = .ok (.block body rest) ∧ Spelt body ts ∧ Spelt rest us := by
  generalize hall : ts ++ .close :: us = all at h
  cases h with
  | @cons s queue v t ts₁ us₁ htext _ hv hqueue =>
    have hstrip : Keyword.elseKw.strip? s.text = some (' ' :: '\x7b' :: v) := by
      rw [htext, Token.text, List.append_assoc]
      exact Keyword.strip?_text _ rfl _
    have hrear := rear_text s (u := '\x7b' :: v) (by rintro c ⟨⟩; rfl)
    have hend : Text.trimEnd ('\x7b' :: v) = '\x7b' :: Text.trimEnd v :=
      Text.trimEnd_append_cons rfl [] v
    -- the segment is trimmed once more when `else` is taken off it
    obtain ⟨body, rest, hblock, hbody, hrest⟩ := hv.trimEnd.exists_block hqueue hall.symm hread hd
      (s.rear (Text.trimStart (' ' :: '\x7b' :: v)))
    refine ⟨body, rest, ?_, hbody, hrest⟩
    have hif : Keyword.ifKw.strip? ('\x7b' :: Text.trimEnd v) = none := rfl
    simp only [ElsePart.of, hstrip]
    rw [hrear, hend, hif]
    simp [hblock, bind, Except.bind, pure, Except.pure]

theorem of_chain {queue : List Segment} {cond : Expr String} {ts : List Token}
    (h : Spelt queue (.elseIf cond :: ts)) :
    ∃ chain, ElsePart.of queue = .ok (.chain chain) ∧
      Spelt chain (.block (.branch cond) :: ts) := by
  cases h with
  | @cons s queue v t ts₁ us₁ htext _ hv hqueue =>
    have hstrip : Keyword.elseKw.strip? s.text =
        some (' ' :: ((Heading.branch cond).text ++ v)) := by
      rw [htext, Token.text, List.append_assoc]
      exact Keyword.strip?_text _ rfl _
    have hhead : ((Heading.branch cond).text ++ v).head? = some 'i' := by
      simp [Heading.text, Heading.keyword, Keyword.text]
    have hrear := rear_text s (u := (Heading.branch cond).text ++ v) (by
      rw [hhead]
      rintro c ⟨⟩
      rfl)
    have hend : Text.trimEnd ((Heading.branch cond).text ++ v) =
        (Heading.branch cond).text ++ Text.trimEnd v :=
      (Token.block (.branch cond)).trimEnd_append [] v
    have hif :
        (Keyword.ifKw.strip? ((Heading.branch cond).text ++ Text.trimEnd v)).isSome = true := by
      rw [Heading.text, List.append_assoc]
      exact congrArg Option.isSome (Keyword.strip?_text .ifKw (c := ' ') rfl _)
    refine ⟨_, ?_, .cons (hrear.trans hend) (fun h => by cases h) hv.trimEnd hqueue⟩
    simp only [ElsePart.of, hstrip]
    rw [hrear, hend, if_pos hif]

end ElsePart

/-! ## Places -/

mutual

/-- A statement with all places forgotten. -/
def Stmt.unplaced : Stmt → Stmt
  | .assign _ a => .assign default a
  | .check _ cond => .check default cond
  | .ifElse _ cond t e => .ifElse default cond (Block.unplaced t) (Block.unplaced e)
  | .whileDo _ cond body => .whileDo default cond (Block.unplaced body)
  | .forDo _ init cond update body => .forDo default init cond update (Block.unplaced body)

/-- A block with all places forgotten. -/
def Block.unplaced : List Stmt → List Stmt
  | [] => []
  | stmt :: rest => stmt.unplaced :: Block.unplaced rest

end

/-- The same program, up to places. -/
def Program.unplaced (p : Program) : Program where
  statements := Block.unplaced p.statements

namespace Block

/-- The tokens of two blocks, one after the other. -/
theorem Written.append {b more : Block} {ts us : List Token} (h : Written b ts)
    (hmore : Written more us) : Written (b ++ more) (ts ++ us) := by
  induction h with
  | nil => exact hmore
  | assign _ ih => exact .assign ih
  | check _ ih => exact .check ih
  | ifOnly ht _ _ ih =>
    simp only [List.cons_append, List.append_assoc]
    exact .ifOnly ht ih
  | ifElse hne ht he _ _ _ ih =>
    simp only [List.cons_append, List.append_assoc]
    exact .ifElse hne ht he ih
  | elseIf ht he _ _ _ ih =>
    simp only [List.cons_append, List.append_assoc]
    exact .elseIf ht he ih
  | whileDo hbody _ _ ih =>
    simp only [List.cons_append, List.append_assoc]
    exact .whileDo hbody ih
  | forDo hbody _ _ ih =>
    simp only [List.cons_append, List.append_assoc]
    exact .forDo hbody ih

/-- A queue is read as a block, up to places. -/
def Reads (queue : List Segment) (b : Block) : Prop :=
  ∃ b', Reading queue b' ∧ unplaced b' = unplaced b

section Reads

variable {s : Segment} {queue body body' after after' chain : List Segment} {inner : List Char}
  {span : Span} {cond : Expr String} {t e rest : Block}

theorem reads_simple {stmt stmt' : Stmt} (h : s.opening = .ok (.simple stmt))
    (hstmt : stmt.unplaced = stmt'.unplaced) (hrest : Reads queue rest) :
    Reads (s :: queue) (stmt' :: rest) := by
  obtain ⟨b, hread, hb⟩ := hrest
  exact ⟨stmt :: b, .simple h hread, by rw [unplaced, unplaced, hstmt, hb]⟩

theorem reads_while (hopen : s.opening = .ok (.block (.loop cond) inner))
    (hblock : s.block inner queue = .ok (body, after)) (hbody : Reads body t)
    (hrest : Reads after rest) : Reads (s :: queue) (.whileDo span cond t :: rest) := by
  obtain ⟨block, hreading, hblock'⟩ := hbody
  obtain ⟨more, hmore, hmore'⟩ := hrest
  refine ⟨_, .loop hopen hblock hreading hmore, ?_⟩
  simp [unplaced, Stmt.unplaced, hblock', hmore']

theorem reads_for {init update : Assignment}
    (hopen : s.opening = .ok (.block (.count init cond update) inner))
    (hblock : s.block inner queue = .ok (body, after)) (hbody : Reads body t)
    (hrest : Reads after rest) : Reads (s :: queue) (.forDo span init cond update t :: rest) := by
  obtain ⟨block, hreading, hblock'⟩ := hbody
  obtain ⟨more, hmore, hmore'⟩ := hrest
  refine ⟨_, .count hopen hblock hreading hmore, ?_⟩
  simp [unplaced, Stmt.unplaced, hblock', hmore']

theorem reads_if (hopen : s.opening = .ok (.block (.branch cond) inner))
    (hblock : s.block inner queue = .ok (body, after)) (helse : ElsePart.of after = .ok .absent)
    (hthen : Reads body t) (hrest : Reads after rest) :
    Reads (s :: queue) (.ifElse span cond t [] :: rest) := by
  obtain ⟨arm, harm, harm'⟩ := hthen
  obtain ⟨more, hmore, hmore'⟩ := hrest
  refine ⟨_, .branch hopen hblock helse harm hmore, ?_⟩
  simp [unplaced, Stmt.unplaced, harm', hmore']

theorem reads_ifElse (hopen : s.opening = .ok (.block (.branch cond) inner))
    (hblock : s.block inner queue = .ok (body, after))
    (helse : ElsePart.of after = .ok (.block body' after')) (hthen : Reads body t)
    (hother : Reads body' e) (hrest : Reads after' rest) :
    Reads (s :: queue) (.ifElse span cond t e :: rest) := by
  obtain ⟨arm, harm, harm'⟩ := hthen
  obtain ⟨other, hother, hother'⟩ := hother
  obtain ⟨more, hmore, hmore'⟩ := hrest
  refine ⟨_, .alternative hopen hblock helse harm hother hmore, ?_⟩
  simp [unplaced, Stmt.unplaced, harm', hother', hmore']

/-- The branch after `else` is read together with what follows both. -/
theorem reads_elseIf {stmt : Stmt} (hopen : s.opening = .ok (.block (.branch cond) inner))
    (hblock : s.block inner queue = .ok (body, after))
    (helse : ElsePart.of after = .ok (.chain chain)) (hthen : Reads body t)
    (hchain : Reads chain (stmt :: rest)) :
    Reads (s :: queue) (.ifElse span cond t [stmt] :: rest) := by
  obtain ⟨arm, harm, harm'⟩ := hthen
  obtain ⟨more, hmore, hmore'⟩ := hchain
  refine ⟨_, .chain hopen hblock helse harm hmore, ?_⟩
  cases more with
  | nil => simp [unplaced] at hmore'
  | cons other more =>
    simp only [unplaced, List.cons.injEq] at hmore'
    simp [unplaced, Stmt.unplaced, harm', hmore']

end Reads

/-- Every queue that holds the tokens of a block is read as the block. -/
theorem Written.reads {b : Block} {ts : List Token} (h : Written b ts)
    (hread : ∀ t ∈ ts, t.readable = true) {queue : List Segment} (hqueue : Spelt queue ts) :
    Reads queue b := by
  -- an `else if` is read together with what follows the branch, so the induction is on the number
  -- of tokens and not on the block
  induction hn : ts.length using Nat.strongRecOn generalizing b ts queue with
  | ind n ih =>
  subst hn
  cases h with
  | nil =>
    cases hqueue
    exact ⟨[], .nil, rfl⟩
  | @assign span a rest ts hrest =>
    obtain ⟨s, queue, v, rfl, htext, hv, hqueue⟩ := hqueue.exists_simple rfl
    rw [List.forall_mem_cons] at hread
    exact reads_simple (Segment.opening_assign hread.1 htext hv) rfl
      (ih _ (by simp) hrest hread.2 hqueue rfl)
  | @check span cond rest ts hrest =>
    obtain ⟨s, queue, v, rfl, htext, hv, hqueue⟩ := hqueue.exists_simple rfl
    rw [List.forall_mem_cons] at hread
    exact reads_simple (Segment.opening_check hread.1 htext hv) rfl
      (ih _ (by simp) hrest hread.2 hqueue rfl)
  | @ifOnly span cond t rest ts us ht hrest =>
    obtain ⟨s, queue, inner, body, after, rfl, hopen, hblock, hbody, hafter⟩ :=
      hqueue.exists_body hread (ht.depths 0)
    simp only [List.forall_mem_cons, List.forall_mem_append] at hread
    have helse := ElsePart.of_absent hafter hread.2.2.2 hrest.isElse_head
    exact reads_if hopen hblock helse (ih _ (by grind) ht hread.2.1 hbody rfl)
      (ih _ (by grind) hrest hread.2.2.2 hafter rfl)
  | @ifElse span cond t e rest ts us vs hne ht he hrest =>
    obtain ⟨s, queue, inner, body, after, rfl, hopen, hblock, hbody, hafter⟩ :=
      hqueue.exists_body hread (ht.depths 0)
    simp only [List.forall_mem_cons, List.forall_mem_append] at hread
    obtain ⟨-, hreadt, -, -, hreade, -, hreadrest⟩ := hread
    obtain ⟨body', after', helse, hbody', hafter'⟩ := ElsePart.of_block hafter (by
      simp only [List.forall_mem_cons, List.forall_mem_append]
      exact ⟨hreade, rfl, hreadrest⟩) (he.depths 0)
    exact reads_ifElse hopen hblock helse (ih _ (by grind) ht hreadt hbody rfl)
      (ih _ (by grind) he hreade hbody' rfl) (ih _ (by grind) hrest hreadrest hafter' rfl)
  | @elseIf span span' cond cond' t t' e' rest ts us vs ht he hrest =>
    obtain ⟨s, queue, inner, body, after, rfl, hopen, hblock, hbody, hafter⟩ :=
      hqueue.exists_body hread (ht.depths 0)
    simp only [List.forall_mem_cons, List.forall_mem_append] at hread
    obtain ⟨-, hreadt, -, hreadcond, hreade, hreadrest⟩ := hread
    obtain ⟨chain, helse, hchain⟩ := ElsePart.of_chain hafter
    -- the nested branch and what follows it are one block
    have hmore := ih _ (by grind) (he.append hrest) (by
      simp only [List.cons_append, List.forall_mem_cons, List.forall_mem_append]
      exact ⟨hreadcond, hreade, hreadrest⟩) hchain rfl
    exact reads_elseIf hopen hblock helse (ih _ (by grind) ht hreadt hbody rfl) hmore
  | @whileDo span cond body rest ts us hbody hrest =>
    obtain ⟨s, queue, inner, inside, after, rfl, hopen, hblock, hinside, hafter⟩ :=
      hqueue.exists_body hread (hbody.depths 0)
    simp only [List.forall_mem_cons, List.forall_mem_append] at hread
    exact reads_while hopen hblock (ih _ (by grind) hbody hread.2.1 hinside rfl)
      (ih _ (by grind) hrest hread.2.2.2 hafter rfl)
  | @forDo span init update cond body rest ts us hbody hrest =>
    obtain ⟨s, queue, inner, inside, after, rfl, hopen, hblock, hinside, hafter⟩ :=
      hqueue.exists_body hread (hbody.depths 0)
    simp only [List.forall_mem_cons, List.forall_mem_append] at hread
    exact reads_for hopen hblock (ih _ (by grind) hbody hread.2.1 hinside rfl)
      (ih _ (by grind) hrest hread.2.2.2 hafter rfl)

end Block

/-! ## Programs -/

/-- Every block has tokens. -/
theorem Block.exists_written (b : Block) : ∃ ts, Block.Written b ts := by
  match b with
  | [] => exact ⟨_, .nil⟩
  | .assign span a :: rest =>
    obtain ⟨ts, hrest⟩ := exists_written rest
    exact ⟨_, .assign hrest⟩
  | .check span cond :: rest =>
    obtain ⟨ts, hrest⟩ := exists_written rest
    exact ⟨_, .check hrest⟩
  | .ifElse span cond t e :: rest =>
    obtain ⟨ts, ht⟩ := exists_written t
    obtain ⟨us, hrest⟩ := exists_written rest
    by_cases hne : e = []
    · subst hne
      exact ⟨_, .ifOnly ht hrest⟩
    · obtain ⟨vs, he⟩ := exists_written e
      exact ⟨_, .ifElse hne ht he hrest⟩
  | .whileDo span cond body :: rest =>
    obtain ⟨ts, hbody⟩ := exists_written body
    obtain ⟨us, hrest⟩ := exists_written rest
    exact ⟨_, .whileDo hbody hrest⟩
  | .forDo span init cond update body :: rest =>
    obtain ⟨ts, hbody⟩ := exists_written body
    obtain ⟨us, hrest⟩ := exists_written rest
    exact ⟨_, .forDo hbody hrest⟩

/-- A program can be written, and whatever way it is written and laid out, it is read back up to the
places of its statements. -/
theorem Program.parse_of_laid {p : Program} (hread : Block.readable p.statements = true) :
    (∃ ts, Block.Written p.statements ts) ∧
      ∀ ts source, Block.Written p.statements ts → Laid ts source.toList →
        ∃ q, Program.parse source = .ok q ∧ q.unplaced = p.unplaced := by
  refine ⟨Block.exists_written p.statements, ?_⟩
  intro ts source hwritten hlaid
  have htokens := hwritten.readable hread
  obtain ⟨b, hreading, hb⟩ := hwritten.reads htokens (Segment.spelt_ofSource hlaid htokens)
  refine ⟨⟨b⟩, ?_, congrArg Program.mk hb⟩
  rw [Program.parse, Block.parse_eq_ok_iff.mpr hreading]
  rfl

/-- A program with a chain of branches, loops and assertions. -/
def chained : Program where
  statements := [
    .ifElse default (.binary (.cmp .lt) (.var "x") (.lit 3))
      [.whileDo default (.binary (.cmp .lt) (.var "x") (.lit (-2)))
        [.assign default ⟨"x", .binary (.arith .add) (.var "x") (.lit 1)⟩]]
      [.ifElse default (.var "b") [.check default (.index "a" (.var "x"))] []],
    .forDo default ⟨"i", .lit 0⟩ (.binary (.cmp .lt) (.var "i") (.lit 9)) ⟨"i", .lit 10⟩
      [.assign default ⟨"y", .var "i"⟩]]

/-- A text of the program, with a comment and with several tokens on a line. -/
def chainedText : String :=
  "if ((x < 3)) \x7b while ((x < -2)) \x7b // twice
  x := (x + 1); \x7d \x7d else if (b) \x7b

assert(a[x]); \x7d\r\nfor (i := 0; (i < 9); i := 10) \x7b y := i; \x7d"

theorem chained_read_back :
    Block.readable chained.statements = true ∧
      ∃ q, Program.parse chainedText = .ok q ∧ q.unplaced = chained.unplaced := by
  have hblank : ∀ {g : List Char}, Gap g → Gap (' ' :: g) := fun hg => .blank rfl hg
  have hend : ∀ {g : List Char}, Gap g → Gap ('\n' :: g) := fun hg => .blank rfl hg
  refine ⟨by decide, (Program.parse_of_laid (by decide)).2 _ chainedText (.elseIf
    (.whileDo (.assign .nil) .nil) (.ifOnly (.check .nil) .nil) (.forDo (.assign .nil) .nil)) ?_⟩
  refine Eq.mpr (congrArg (Laid _) ?_) <| .cons .nil <| .cons (hblank .nil) <|
    .cons (hblank (@Gap.comment " twice".toList _ (by decide) (hblank (hblank .nil)))) <|
    .cons (hblank .nil) <| .cons (hblank .nil) <| .cons (hblank .nil) <|
    .cons (hend (hend .nil)) <| .cons (hblank .nil) <|
    .cons (.blank (c := '\r') rfl (hend .nil)) <| .cons (hblank .nil) <|
    .cons (hblank .nil) (.nil .nil)
  decide +kernel

end WhileSmt
