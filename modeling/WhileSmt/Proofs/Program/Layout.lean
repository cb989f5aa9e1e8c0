import WhileSmt.Proofs.Expr.RoundTrip
import WhileSmt.Proofs.Program.Reading

/-!
Programs written out. The text of a program is a sequence of tokens: simple statements, the heads of
branches and loops with their opening braces, and closing braces. Between tokens there may be
blanks, line ends and comments.

Main statement: cutting such a text into segments loses no token and splits none; every segment is a
sequence of tokens with blanks between them, in which a simple statement stands only at the end
(`Segment.spelt_ofSource`).
-/

namespace WhileSmt

/-! ## Tokens -/

/-- An assignment with single blanks, as it stands in a statement or in a heading. -/
def Assignment.text (a : Assignment) : List Char :=
  a.target.toList ++ ' ' :: ':' :: '=' :: ' ' :: a.value.text

namespace Heading

/-- The word that a heading starts with. -/
def keyword : Heading → Keyword
  | branch _ => .ifKw
  | loop _ => .whileKw
  | count .. => .forKw

/-- What stands in the parentheses of a head. -/
def inside : Heading → List Char
  | branch cond => cond.text
  | loop cond => cond.text
  | count init cond update =>
    init.text ++ ';' :: ' ' :: (cond.text ++ ';' :: ' ' :: update.text)

/-- A heading from its keyword to the brace that opens its block. -/
def text (h : Heading) : List Char :=
  h.keyword.text.toList ++ ' ' :: '(' :: (h.inside ++ [')', ' ', '\x7b'])

end Heading

/-- The pieces that a program is written in: whole statements, the openings of blocks, and closing
braces. -/
inductive Token where
  | assign (a : Assignment)
  | check (cond : Expr String)
  | block (heading : Heading)
  | elseBlock
  | elseIf (cond : Expr String)
  | close

namespace Token

/-- A token with single blanks. -/
def text : Token → List Char
  | assign a => a.text ++ [';']
  | check cond => Keyword.assertKw.text.toList ++ '(' :: (cond.text ++ [')', ';'])
  | block heading => heading.text
  | elseBlock => Keyword.elseKw.text.toList ++ [' ', '\x7b']
  | elseIf cond => Keyword.elseKw.text.toList ++ ' ' :: (Heading.branch cond).text
  | close => ['\x7d']

/-- A simple statement, which ends with its semicolon. -/
def isSimple : Token → Bool
  | assign _ => true
  | check _ => true
  | _ => false

end Token

/-! ## What can be written out -/

/-- The name and the value of an assignment can be read back. -/
def Assignment.readable (a : Assignment) : Bool :=
  isIdentifier a.target.toList && a.value.readable

/-- The parts of a heading can be read back. -/
def Heading.readable : Heading → Bool
  | branch cond => cond.readable
  | loop cond => cond.readable
  | count init cond update => init.readable && cond.readable && update.readable

/-- A name that starts another kind of statement. -/
def isKeyword (x : String) : Bool :=
  [Keyword.ifKw, .whileKw, .forKw, .assertKw, .elseKw].any (·.text = x)

/-- A token can be read back. No statement may assign to a keyword. -/
def Token.readable : Token → Bool
  | assign a => a.readable && !isKeyword a.target
  | check cond => cond.readable
  | block heading => heading.readable
  | elseIf cond => cond.readable
  | elseBlock => true
  | close => true

mutual

/-- All expressions can be read back, and what an assignment statement assigns is no keyword. -/
def Stmt.readable : Stmt → Bool
  | .assign _ a => (Token.assign a).readable
  | .check _ cond => cond.readable
  | .ifElse _ cond t e => cond.readable && Block.readable t && Block.readable e
  | .whileDo _ cond body => cond.readable && Block.readable body
  | .forDo _ init cond update body =>
    (Heading.count init cond update).readable && Block.readable body

/-- All statements of a block can be read back. -/
def Block.readable : List Stmt → Bool
  | [] => true
  | stmt :: rest => stmt.readable && Block.readable rest

end

/-- The tokens of a block. A branch has an `else` part if and only if its second arm is not empty,
and an arm that is a single branch may follow the `else` directly. -/
inductive Block.Written : Block → List Token → Prop where
  | nil : Written [] []
  | assign {span : Span} {a : Assignment} {rest : Block} {ts : List Token} :
      Written rest ts → Written (.assign span a :: rest) (.assign a :: ts)
  | check {span : Span} {cond : Expr String} {rest : Block} {ts : List Token} :
      Written rest ts → Written (.check span cond :: rest) (.check cond :: ts)
  | ifOnly {span : Span} {cond : Expr String} {t rest : Block} {ts us : List Token} :
      Written t ts → Written rest us →
      Written (.ifElse span cond t [] :: rest) (.block (.branch cond) :: (ts ++ .close :: us))
  | ifElse {span : Span} {cond : Expr String} {t e rest : Block} {ts us vs : List Token} :
      e ≠ [] → Written t ts → Written e us → Written rest vs →
      Written (.ifElse span cond t e :: rest)
        (.block (.branch cond) :: (ts ++ .close :: .elseBlock :: (us ++ .close :: vs)))
  | elseIf {span span' : Span} {cond cond' : Expr String} {t t' e' rest : Block}
      {ts us vs : List Token} :
      Written t ts → Written [.ifElse span' cond' t' e'] (.block (.branch cond') :: us) →
      Written rest vs →
      Written (.ifElse span cond t [.ifElse span' cond' t' e'] :: rest)
        (.block (.branch cond) :: (ts ++ .close :: .elseIf cond' :: (us ++ vs)))
  | whileDo {span : Span} {cond : Expr String} {body rest : Block} {ts us : List Token} :
      Written body ts → Written rest us →
      Written (.whileDo span cond body :: rest) (.block (.loop cond) :: (ts ++ .close :: us))
  | forDo {span : Span} {init update : Assignment} {cond : Expr String} {body rest : Block}
      {ts us : List Token} :
      Written body ts → Written rest us →
      Written (.forDo span init cond update body :: rest)
        (.block (.count init cond update) :: (ts ++ .close :: us))

/-- The tokens of a block can be read back. -/
theorem Block.Written.readable {b : Block} {ts : List Token} (h : Written b ts)
    (hb : Block.readable b = true) : ∀ t ∈ ts, t.readable = true := by
  induction h with
  | nil => simp
  | assign _ ih =>
    simp only [Block.readable, Stmt.readable, Bool.and_eq_true] at hb
    exact List.forall_mem_cons.mpr ⟨hb.1, ih hb.2⟩
  | check _ ih =>
    simp only [Block.readable, Stmt.readable, Bool.and_eq_true] at hb
    exact List.forall_mem_cons.mpr ⟨hb.1, ih hb.2⟩
  | ifOnly _ _ iht ihrest =>
    simp only [Block.readable, Stmt.readable, Bool.and_eq_true] at hb
    simp only [List.forall_mem_cons, List.forall_mem_append]
    exact ⟨hb.1.1.1, iht hb.1.1.2, rfl, ihrest hb.2⟩
  | ifElse _ _ _ _ iht ihe ihrest =>
    simp only [Block.readable, Stmt.readable, Bool.and_eq_true] at hb
    simp only [List.forall_mem_cons, List.forall_mem_append]
    exact ⟨hb.1.1.1, iht hb.1.1.2, rfl, rfl, ihe hb.1.2, rfl, ihrest hb.2⟩
  | elseIf _ _ _ iht ihe ihrest =>
    rw [Block.readable, Stmt.readable, Bool.and_eq_true, Bool.and_eq_true, Bool.and_eq_true] at hb
    have harm := List.forall_mem_cons.mp (ihe hb.1.2)
    simp only [List.forall_mem_cons, List.forall_mem_append]
    exact ⟨hb.1.1.1, iht hb.1.1.2, rfl, harm.1, harm.2, ihrest hb.2⟩
  | whileDo _ _ ihbody ihrest =>
    simp only [Block.readable, Stmt.readable, Bool.and_eq_true] at hb
    simp only [List.forall_mem_cons, List.forall_mem_append]
    exact ⟨hb.1.1, ihbody hb.1.2, rfl, ihrest hb.2⟩
  | forDo _ _ ihbody ihrest =>
    simp only [Block.readable, Stmt.readable, Bool.and_eq_true] at hb
    simp only [List.forall_mem_cons, List.forall_mem_append]
    exact ⟨hb.1.1, ihbody hb.1.2, rfl, ihrest hb.2⟩

/-- Blanks and comments; a comment ends with its line. -/
inductive Gap : List Char → Prop where
  | nil : Gap []
  | blank {c : Char} {g : List Char} : Text.isBlank c = true → Gap g → Gap (c :: g)
  | comment {words g : List Char} :
      '\n' ∉ words → Gap g → Gap ('/' :: '/' :: (words ++ '\n' :: g))

/-- Tokens written one after the other, with gaps before, between and after them. -/
inductive Laid : List Token → List Char → Prop where
  | nil {g : List Char} : Gap g → Laid [] g
  | cons {g text : List Char} {t : Token} {ts : List Token} :
      Gap g → Laid ts text → Laid (t :: ts) (g ++ (t.text ++ text))

/-! ## Texts of tokens -/

/-- Characters of texts of tokens. -/
def isTokenChar (c : Char) : Bool :=
  isPlain c || ['/', '(', ')', '[', ']', ':', ';', '\x7b', '\x7d'].contains c

theorem isTokenChar_of_isIdentifier {x : List Char} (h : isIdentifier x = true) :
    ∀ c ∈ x, isTokenChar c = true := by
  intro c hc
  simp [isTokenChar, isPlain_of_isNameChar (isNameChar_of_isIdentifier h c hc)]

theorem Balanced.isTokenChar {w : List Char} (h : Balanced w) :
    ∀ c ∈ w, isTokenChar c = true := by
  intro c hc
  simp only [WhileSmt.isTokenChar, Bool.or_eq_true, List.contains_iff_mem]
  exact (h.mem hc).imp_right fun hmem => List.mem_append_left [':', ';', '\x7b', '\x7d'] hmem

theorem Keyword.balanced (keyword : Keyword) : Balanced keyword.text.toList :=
  .word fun c hc => isPlain_of_isNameChar (keyword.isNameChar_text c hc)

theorem Assignment.isTokenChar {a : Assignment} (h : a.readable = true) :
    ∀ c ∈ a.text, isTokenChar c = true := by
  rw [readable, Bool.and_eq_true] at h
  simp only [text, List.forall_mem_append, List.forall_mem_cons]
  exact ⟨isTokenChar_of_isIdentifier h.1, rfl, rfl, rfl, rfl,
    (Expr.balanced_text h.2).isTokenChar⟩

theorem Heading.isTokenChar {h : Heading} (hread : h.readable = true) :
    ∀ c ∈ h.text, isTokenChar c = true := by
  have hinside : ∀ c ∈ h.inside, WhileSmt.isTokenChar c = true := by
    cases h with
    | branch cond => exact (Expr.balanced_text hread).isTokenChar
    | loop cond => exact (Expr.balanced_text hread).isTokenChar
    | count init cond update =>
      simp only [readable, Bool.and_eq_true] at hread
      simp only [inside, List.forall_mem_append, List.forall_mem_cons]
      exact ⟨init.isTokenChar hread.1.1, rfl, rfl, (Expr.balanced_text hread.1.2).isTokenChar,
        rfl, rfl, update.isTokenChar hread.2⟩
  simp only [text, List.forall_mem_append, List.forall_mem_cons]
  exact ⟨h.keyword.balanced.isTokenChar, rfl, rfl, hinside, rfl, rfl, rfl, by simp⟩

namespace Token

theorem isTokenChar {t : Token} (h : t.readable = true) :
    ∀ c ∈ t.text, isTokenChar c = true := by
  cases t with
  | assign a =>
    rw [readable, Bool.and_eq_true] at h
    simp only [text, List.forall_mem_append, List.forall_mem_cons]
    exact ⟨a.isTokenChar h.1, rfl, by simp⟩
  | check cond =>
    simp only [text, List.forall_mem_append, List.forall_mem_cons]
    exact ⟨(Keyword.balanced _).isTokenChar, rfl, (Expr.balanced_text h).isTokenChar, rfl, rfl,
      by simp⟩
  | block heading => exact heading.isTokenChar h
  | elseBlock =>
    simp only [text, List.forall_mem_append, List.forall_mem_cons]
    exact ⟨(Keyword.balanced _).isTokenChar, rfl, rfl, by simp⟩
  | elseIf cond =>
    simp only [text, List.forall_mem_append, List.forall_mem_cons]
    exact ⟨(Keyword.balanced _).isTokenChar, rfl, Heading.isTokenChar (h := .branch cond) h⟩
  | close => simp [text, WhileSmt.isTokenChar]

theorem exists_head {t : Token} (h : t.readable = true) :
    ∃ c rest, t.text = c :: rest ∧ Text.isBlank c = false := by
  have hkeyword : ∀ (keyword : Keyword) (v : List Char),
      ∃ c rest, keyword.text.toList ++ v = c :: rest ∧ Text.isBlank c = false := by
    intro keyword v
    cases keyword <;> exact ⟨_, _, rfl, rfl⟩
  cases t with
  | assign a =>
    simp only [readable, Assignment.readable, Bool.and_eq_true] at h
    have hsolid := (solid_of_isIdentifier h.1.1).head
    rw [text, Assignment.text]
    cases ha : a.target.toList with
    | nil => simp [ha, isIdentifier] at h
    | cons c rest => exact ⟨c, _, rfl, hsolid c (by rw [ha]; rfl)⟩
  | check cond => exact hkeyword _ _
  | block heading => exact hkeyword _ _
  | elseBlock => exact hkeyword _ _
  | elseIf cond => exact hkeyword _ _
  | close => exact ⟨_, _, rfl, rfl⟩

theorem exists_last (t : Token) : ∃ front c, t.text = front ++ [c] ∧ Text.isBlank c = false := by
  have hheading : ∀ heading : Heading, ∃ front, heading.text = front ++ ['\x7b'] := fun heading =>
    ⟨heading.keyword.text.toList ++ ' ' :: '(' :: (heading.inside ++ [')', ' ']), by
      simp [Heading.text]⟩
  cases t with
  | assign a => exact ⟨a.text, ';', rfl, rfl⟩
  | check cond =>
    exact ⟨Keyword.assertKw.text.toList ++ '(' :: (cond.text ++ [')']), ';', by simp [text], rfl⟩
  | block heading =>
    obtain ⟨front, hfront⟩ := hheading heading
    exact ⟨front, '\x7b', hfront, rfl⟩
  | elseBlock => exact ⟨Keyword.elseKw.text.toList ++ [' '], '\x7b', by simp [text], rfl⟩
  | elseIf cond =>
    obtain ⟨front, hfront⟩ := hheading (.branch cond)
    exact ⟨Keyword.elseKw.text.toList ++ ' ' :: front, '\x7b', by simp [text, hfront], rfl⟩
  | close => exact ⟨[], '\x7d', rfl, rfl⟩

/-- Trimming the end of a text takes nothing off its tokens. -/
theorem trimEnd_append (t : Token) (w v : List Char) :
    Text.trimEnd (w ++ (t.text ++ v)) = w ++ (t.text ++ Text.trimEnd v) := by
  obtain ⟨front, c, htext, hc⟩ := t.exists_last
  have h := Text.trimEnd_append_cons hc (w ++ front) v
  rw [htext]
  simpa using h

end Token

/-! ## Pieces -/

/-- A piece of a line that holds tokens: blanks may stand around them, and a simple statement is the
last one. -/
inductive Piece : List Char → List Token → Prop where
  | blank {w : List Char} : Text.Blank w → Piece w []
  | token {w v : List Char} {t : Token} {ts : List Token} :
      Text.Blank w → (t.isSimple = true → ts = []) → Piece v ts →
      Piece (w ++ (t.text ++ v)) (t :: ts)

/-- A queue of segments that holds tokens. Every segment starts with a token. -/
inductive Spelt : List Segment → List Token → Prop where
  | nil : Spelt [] []
  | cons {s : Segment} {queue : List Segment} {v : List Char} {t : Token} {ts us : List Token} :
      s.text = t.text ++ v → (t.isSimple = true → ts = []) → Piece v ts → Spelt queue us →
      Spelt (s :: queue) (t :: (ts ++ us))

theorem Piece.of_blank {w : List Char} {ts : List Token} (hw : Text.Blank w) {v : List Char}
    (h : Piece v ts) : Piece (w ++ v) ts := by
  cases h with
  | blank hv => exact .blank (hw.append hv)
  | token hv hsimple hrest =>
    rw [← List.append_assoc]
    exact .token (hw.append hv) hsimple hrest

/-- Trimming the end of a piece takes off no token. -/
theorem Piece.trimEnd {v : List Char} {ts : List Token} (h : Piece v ts) :
    Piece (Text.trimEnd v) ts := by
  induction h with
  | @blank w hw =>
    have htrim := Text.trimEnd_append (t := []) hw
    rw [List.nil_append] at htrim
    rw [htrim]
    exact .blank Text.blank_nil
  | @token w v t ts hw hsimple _ ih =>
    rw [t.trimEnd_append]
    exact .token hw hsimple ih

theorem Spelt.append {queue more : List Segment} {ts us : List Token} (h : Spelt queue ts)
    (hmore : Spelt more us) : Spelt (queue ++ more) (ts ++ us) := by
  induction h with
  | nil => exact hmore
  | cons htext hsimple hpiece _ ih =>
    rw [List.cons_append, List.cons_append, List.append_assoc]
    exact .cons htext hsimple hpiece ih

/-- The segment of a raw piece holds its tokens. -/
theorem Piece.spelt {raw : List Char} {ts : List Token} (h : Piece raw ts)
    (hread : ∀ t ∈ ts, t.readable = true) (line start : Nat) :
    Spelt (Segment.ofRaw line start raw).unlessEmpty ts := by
  cases h with
  | blank hw =>
    have htrim := Text.trim_append hw (t := []) ⟨by simp, by simp⟩ Text.blank_nil
    simp only [List.append_nil] at htrim
    simp only [Segment.unlessEmpty, Segment.ofRaw, htrim]
    exact .nil
  | @token w v t ts hw hsimple hv =>
    obtain ⟨c, rest, htext, hc⟩ := t.exists_head (hread t List.mem_cons_self)
    have hstart : Text.trimStart (t.text ++ v) = t.text ++ v := by
      refine Text.trimStart_of_head ?_
      rw [htext]
      rintro d ⟨⟩
      exact hc
    have htrim : Text.trim (w ++ (t.text ++ v)) = t.text ++ Text.trimEnd v := by
      rw [Text.trim, Text.trimStart_append hw, hstart]
      exact t.trimEnd_append [] v
    have hne : (t.text ++ Text.trimEnd v).isEmpty = false := by simp [htext]
    simp only [Segment.unlessEmpty, Segment.ofRaw, htrim, hne, Bool.false_eq_true, if_false]
    rw [← List.append_nil ts]
    exact .cons rfl hsimple hv.trimEnd .nil

/-! ## Cutting lines -/

namespace Segment

/-- Puts characters in front of the first piece. -/
def attach (w : List Char) (pieces : List (List Char)) : List (List Char) :=
  w.foldr (fun c pieces => match pieces with
    | [] => [[c]]
    | piece :: more => (c :: piece) :: more) pieces

theorem attach_append (u v : List Char) (pieces : List (List Char)) :
    attach (u ++ v) pieces = attach u (attach v pieces) :=
  List.foldr_append

theorem attach_cons (w piece : List Char) (more : List (List Char)) :
    attach w (piece :: more) = (w ++ piece) :: more := by
  induction w with
  | nil => rfl
  | cons c w ih =>
    rw [show c :: w = [c] ++ w from rfl, attach_append, ih]
    rfl

theorem attach_nil {w : List Char} (h : w ≠ []) : attach w [] = [w] := by
  obtain ⟨front, c, rfl⟩ := (List.eq_nil_or_concat w).resolve_left h
  rw [List.concat_eq_append, attach_append]
  exact attach_cons front [c] []

/-- No cut is made inside the text, which leads from one depth to another. -/
def Quiet (w : List Char) (d d' : Int) : Prop :=
  ∀ line, cut d (w ++ line) = attach w (cut d' line)

/-- One step of cutting, where no comment starts. -/
theorem cut_cons {c : Char} {line : List Char} (hcomment : c = '/' → line.head? ≠ some '/')
    (d : Int) :
    cut d (c :: line) =
      if c = ';' && d ≤ 0 then [c] :: cut d line
      else attach [c] (cut (if c = '(' then d + 1 else if c = ')' then d - 1 else d) line) := by
  rw [cut]
  · rfl
  · rintro rest rfl rfl
    exact hcomment rfl rfl

theorem cut_char {c : Char} (hslash : c ≠ '/') {d : Int} (hsemicolon : c ≠ ';' ∨ 0 < d)
    (line : List Char) :
    cut d (c :: line) =
      attach [c] (cut (if c = '(' then d + 1 else if c = ')' then d - 1 else d) line) := by
  have hcut : ¬(c = ';' && d ≤ 0) = true := by
    rcases hsemicolon with h | h
    · simp [h]
    · simp only [Bool.and_eq_true, decide_eq_true_eq]
      omega
  rw [cut_cons fun h => absurd h hslash, if_neg hcut]

theorem cut_semicolon (line : List Char) : cut 0 (';' :: line) = [';'] :: cut 0 line := by
  rw [cut_cons (by simp)]
  rfl

namespace Quiet

theorem append {u v : List Char} {d d' d'' : Int} (hu : Quiet u d d') (hv : Quiet v d' d'') :
    Quiet (u ++ v) d d'' := by
  intro line
  rw [List.append_assoc, hu, hv, attach_append]

theorem char {c : Char} (hc : c ∉ ['/', ';', '(', ')']) (d : Int) : Quiet [c] d d := by
  simp only [List.mem_cons, List.not_mem_nil, or_false, not_or] at hc
  intro line
  rw [List.singleton_append, cut_char hc.1 (.inl hc.2.1), if_neg hc.2.2.1, if_neg hc.2.2.2]

theorem opening (d : Int) : Quiet ['('] d (d + 1) :=
  fun line => cut_char (c := '(') (by decide) (.inl (by decide)) line

theorem closing (d : Int) : Quiet [')'] (d + 1) d := by
  intro line
  rw [List.singleton_append, cut_char (c := ')') (by decide) (.inl (by decide)), if_neg (by decide),
    if_pos rfl, Int.add_sub_cancel]

theorem semicolon {d : Int} (hd : 0 < d) : Quiet [';'] d d :=
  fun line => cut_char (c := ';') (by decide) (.inr hd) line

theorem slash (d : Int) : Quiet ['/', ' '] d d := by
  intro line
  have hspace := char (c := ' ') (by decide) d line
  rw [List.singleton_append] at hspace
  rw [List.cons_append, List.singleton_append, cut, hspace]
  · rfl
  · intro _ _ h
    cases h

/-- Texts without slashes, semicolons and parentheses. -/
theorem word {w : List Char} (hw : ∀ c ∈ w, c ∉ ['/', ';', '(', ')']) (d : Int) : Quiet w d d := by
  induction w with
  | nil => exact fun _ => rfl
  | cons c w ih =>
    rw [List.forall_mem_cons] at hw
    exact (char hw.1 d).append (ih hw.2)

theorem blank {w : List Char} (hw : Text.Blank w) (d : Int) : Quiet w d d := by
  refine word (fun c hc hmem => ?_) d
  have hblank := hw c hc
  simp only [List.mem_cons, List.not_mem_nil, or_false] at hmem
  rcases hmem with rfl | rfl | rfl | rfl <;> cases hblank

end Quiet

theorem Quiet.balanced {w : List Char} (h : Balanced w) (d : Int) : Quiet w d d := by
  induction h generalizing d with
  | nil => exact fun _ => rfl
  | @char c w hc _ ih =>
    refine (Quiet.char ?_ d).append (ih d)
    intro hmem
    simp only [List.mem_cons, List.not_mem_nil, or_false] at hmem
    rcases hmem with rfl | rfl | rfl | rfl <;> exact absurd hc (by decide)
  | slash _ ih => exact (slash d).append (ih d)
  | group _ _ ihu ihw =>
    exact (opening d).append ((ihu (d + 1)).append ((closing d).append (ihw d)))
  | index _ _ ihu ihw =>
    exact (char (by decide) d).append ((ihu d).append ((char (by decide) d).append (ihw d)))

end Segment

open Segment (Quiet)

theorem Assignment.quiet {a : Assignment} (h : a.readable = true) (d : Int) : Quiet a.text d d := by
  rw [readable, Bool.and_eq_true] at h
  refine (Quiet.balanced (Expr.balanced_of_isIdentifier h.1) d).append ?_
  exact (Quiet.word (w := [' ', ':', '=', ' ']) (by simp) d).append
    (Quiet.balanced (Expr.balanced_text h.2) d)

theorem Heading.quiet {h : Heading} (hread : h.readable = true) : Quiet h.text 0 0 := by
  have hinside : Quiet h.inside 1 1 := by
    cases h with
    | branch cond => exact .balanced (Expr.balanced_text hread) 1
    | loop cond => exact .balanced (Expr.balanced_text hread) 1
    | count init cond update =>
      simp only [readable, Bool.and_eq_true] at hread
      -- inside the parentheses semicolons do not cut
      have hsemicolon : Quiet [';', ' '] 1 1 :=
        (Quiet.semicolon (by decide)).append (.char (by decide) 1)
      exact (init.quiet hread.1.1 1).append (hsemicolon.append
        ((Quiet.balanced (Expr.balanced_text hread.1.2) 1).append
          (hsemicolon.append (update.quiet hread.2 1))))
  exact (Quiet.balanced h.keyword.balanced 0).append ((Quiet.char (by decide) 0).append
    ((Quiet.opening 0).append (hinside.append ((Quiet.closing 0).append
      (Quiet.word (w := [' ', '\x7b']) (by simp) 0)))))

/-- No cut is made inside a token that opens or closes a block. -/
theorem Token.quiet {t : Token} (h : t.readable = true) (hsimple : t.isSimple = false) :
    Quiet t.text 0 0 := by
  cases t with
  | assign a => cases hsimple
  | check cond => cases hsimple
  | block heading => exact heading.quiet h
  | elseBlock =>
    exact (Quiet.balanced (Keyword.balanced _) 0).append (.word (w := [' ', '\x7b']) (by simp) 0)
  | elseIf cond =>
    exact (Quiet.balanced (Keyword.balanced _) 0).append ((Quiet.char (by decide) 0).append
      (Heading.quiet (h := .branch cond) h))
  | close => exact .char (by decide) 0

/-- A line is cut after a simple statement. -/
theorem Token.cut_simple {t : Token} (h : t.readable = true) (hsimple : t.isSimple = true)
    (line : List Char) : Segment.cut 0 (t.text ++ line) = t.text :: Segment.cut 0 line := by
  have hfront : ∃ front, t.text = front ++ [';'] ∧ Quiet front 0 0 := by
    cases t with
    | assign a =>
      rw [readable, Bool.and_eq_true] at h
      exact ⟨a.text, rfl, a.quiet h.1 0⟩
    | check cond =>
      refine ⟨Keyword.assertKw.text.toList ++ '(' :: (cond.text ++ [')']), by simp [text], ?_⟩
      exact (Quiet.balanced (Keyword.balanced _) 0).append ((Quiet.opening 0).append
        ((Quiet.balanced (Expr.balanced_text h) 1).append (Quiet.closing 0)))
    | block heading => cases hsimple
    | elseBlock => cases hsimple
    | elseIf cond => cases hsimple
    | close => cases hsimple
  obtain ⟨front, htext, hquiet⟩ := hfront
  rw [htext, List.append_assoc, hquiet, List.singleton_append, Segment.cut_semicolon,
    Segment.attach_cons]

/-! ## Lines -/

/-- The pieces of a line that hold tokens. -/
inductive Pieces : List (List Char) → List Token → Prop where
  | nil : Pieces [] []
  | cons {piece : List Char} {more : List (List Char)} {ts us : List Token} :
      Piece piece ts → Pieces more us → Pieces (piece :: more) (ts ++ us)

namespace Pieces

theorem append {pieces more : List (List Char)} {ts us : List Token} (h : Pieces pieces ts)
    (hmore : Pieces more us) : Pieces (pieces ++ more) (ts ++ us) := by
  induction h with
  | nil => exact hmore
  | cons hpiece _ ih =>
    rw [List.cons_append, List.append_assoc]
    exact .cons hpiece ih

theorem of_append {pieces more : List (List Char)} {ts : List Token}
    (h : Pieces (pieces ++ more) ts) :
    ∃ us vs, ts = us ++ vs ∧ Pieces pieces us ∧ Pieces more vs := by
  induction pieces generalizing ts with
  | nil => exact ⟨[], ts, rfl, .nil, h⟩
  | cons piece pieces ih =>
    cases h with
    | cons hpiece hrest =>
      obtain ⟨us, vs, rfl, hpieces, hmore⟩ := ih hrest
      exact ⟨_, vs, (List.append_assoc ..).symm, .cons hpiece hpieces, hmore⟩

theorem attach_blank {w : List Char} {pieces : List (List Char)} {ts : List Token}
    (hw : Text.Blank w) (h : Pieces pieces ts) : Pieces (Segment.attach w pieces) ts := by
  cases h with
  | nil =>
    cases w with
    | nil => exact .nil
    | cons c w =>
      rw [Segment.attach_nil (by simp)]
      exact .cons (.blank hw) .nil
  | cons hpiece hmore =>
    rw [Segment.attach_cons]
    exact .cons (hpiece.of_blank hw) hmore

theorem attach_token {t : Token} (h : t.readable = true) (hsimple : t.isSimple = false)
    {pieces : List (List Char)} {ts : List Token} (hpieces : Pieces pieces ts) :
    Pieces (Segment.attach t.text pieces) (t :: ts) := by
  have hpiece : ∀ {v us}, Piece v us → Piece (t.text ++ v) (t :: us) := fun hv =>
    .token (w := []) Text.blank_nil (by simp [hsimple]) hv
  cases hpieces with
  | nil =>
    obtain ⟨c, rest, htext, -⟩ := t.exists_head h
    have hlast := hpiece (.blank Text.blank_nil)
    rw [List.append_nil] at hlast
    rw [Segment.attach_nil (by simp [htext])]
    exact .cons hlast .nil
  | cons hv hmore =>
    rw [Segment.attach_cons]
    exact .cons (hpiece hv) hmore

/-- A token in front of a line. -/
theorem cut_token {t : Token} (h : t.readable = true) {line : List Char} {ts : List Token}
    (hline : Pieces (Segment.cut 0 line) ts) :
    Pieces (Segment.cut 0 (t.text ++ line)) (t :: ts) := by
  cases hsimple : t.isSimple with
  | false =>
    rw [t.quiet h hsimple]
    exact attach_token h hsimple hline
  | true =>
    have hpiece : Piece t.text [t] := by
      have htoken := Piece.token (t := t) Text.blank_nil (fun _ => rfl) (.blank Text.blank_nil)
      rwa [List.nil_append, List.append_nil] at htoken
    rw [t.cut_simple h hsimple]
    exact .cons hpiece hline

end Pieces

namespace Text

/-- The text up to the first line end. -/
def firstLine (text : List Char) : List Char :=
  (lines text).headD []

/-- The lines after the first line end. -/
def laterLines (text : List Char) : List (List Char) :=
  (lines text).tail

theorem lines_newline (text : List Char) : lines ('\n' :: text) = [] :: lines text := by
  rw [lines]

theorem lines_return (text : List Char) : lines ('\r' :: '\n' :: text) = [] :: lines text := by
  rw [lines]

theorem lines_char {c : Char} (hnewline : c ≠ '\n') (text : List Char)
    (hreturn : c = '\r' → text.head? ≠ some '\n') :
    lines (c :: text) = (c :: firstLine text) :: laterLines text := by
  rw [lines, firstLine, laterLines]
  · cases lines text <;> rfl
  · exact hnewline
  · rintro rest rfl rfl
    exact hreturn rfl rfl

/-- A text without line ends is part of the first line. -/
theorem firstLine_append {w : List Char} (hw : ∀ c ∈ w, c ≠ '\n' ∧ c ≠ '\r') (text : List Char) :
    firstLine (w ++ text) = w ++ firstLine text ∧ laterLines (w ++ text) = laterLines text := by
  induction w with
  | nil => exact ⟨rfl, rfl⟩
  | cons c w ih =>
    rw [List.forall_mem_cons] at hw
    have hlines := lines_char hw.1.1 (w ++ text) fun h => absurd h hw.1.2
    obtain ⟨hfirst, hlater⟩ := ih hw.2
    rw [List.cons_append, firstLine, laterLines, hlines, hfirst, hlater]
    exact ⟨rfl, rfl⟩

/-- After words and a line end come the lines of the rest. -/
theorem laterLines_words {words : List Char} (h : '\n' ∉ words) (text : List Char) :
    laterLines (words ++ '\n' :: text) = lines text := by
  induction words with
  | nil => rw [List.nil_append, laterLines, lines_newline, List.tail_cons]
  | cons c words ih =>
    rw [List.mem_cons, not_or] at h
    by_cases hreturn : c = '\r' ∧ words = []
    · obtain ⟨rfl, rfl⟩ := hreturn
      exact congrArg List.tail (lines_return text)
    · have hnot : c = '\r' → (words ++ '\n' :: text).head? ≠ some '\n' := by
        intro hc
        cases words with
        | nil => exact absurd ⟨hc, rfl⟩ hreturn
        | cons d words =>
          rw [List.mem_cons, not_or] at h
          simpa using Ne.symm h.2.1
      rw [List.cons_append, laterLines, lines_char (Ne.symm h.1) _ hnot, List.tail_cons, ih h.2]

end Text

/-- The lines of a text hold tokens, with a cut between the first line and the later ones. -/
def Lined (text : List Char) (ts : List Token) : Prop :=
  ∃ us vs, ts = us ++ vs ∧ Pieces (Segment.cut 0 (Text.firstLine text)) us ∧
    Pieces ((Text.laterLines text).flatMap (Segment.cut 0)) vs

namespace Lined

theorem pieces {text : List Char} {ts : List Token} (h : Lined text ts) :
    Pieces ((Text.lines text).flatMap (Segment.cut 0)) ts := by
  obtain ⟨us, vs, rfl, hfirst, hlater⟩ := h
  rw [Text.firstLine] at hfirst
  rw [Text.laterLines] at hlater
  cases hlines : Text.lines text with
  | nil =>
    rw [hlines] at hfirst hlater
    exact hfirst.append hlater
  | cons line more =>
    rw [hlines] at hfirst hlater
    rw [List.flatMap_cons]
    exact hfirst.append hlater

/-- The text that follows a line end. -/
theorem newline {text text' : List Char} {ts : List Token} (h : Lined text ts)
    (hfirst : Segment.cut 0 (Text.firstLine text') = [])
    (hlater : Text.laterLines text' = Text.lines text) : Lined text' ts := by
  refine ⟨[], ts, rfl, ?_, ?_⟩
  · rw [hfirst]
    exact .nil
  · rw [hlater]
    exact h.pieces

theorem blank {c : Char} (hc : Text.isBlank c = true) {text : List Char} {ts : List Token}
    (h : Lined text ts) : Lined (c :: text) ts := by
  by_cases hnewline : c = '\n'
  · subst hnewline
    refine h.newline ?_ ?_
    · rw [Text.firstLine, Text.lines_newline]
      rfl
    · rw [Text.laterLines, Text.lines_newline]
      rfl
  · by_cases hreturn : c = '\r' ∧ text.head? = some '\n'
    · -- the two characters end a line together, as the second one does alone
      obtain ⟨rfl, hhead⟩ := hreturn
      obtain ⟨rest, rfl⟩ := List.head?_eq_some_iff.mp hhead
      rw [Lined, Text.firstLine, Text.laterLines, Text.lines_newline] at h
      rwa [Lined, Text.firstLine, Text.laterLines, Text.lines_return]
    · have hlines := Text.lines_char hnewline text fun hc heq => hreturn ⟨hc, heq⟩
      have hblank : Text.Blank [c] := by simpa [Text.Blank] using hc
      obtain ⟨us, vs, rfl, hfirst, hlater⟩ := h
      refine ⟨us, vs, rfl, ?_, ?_⟩
      · rw [Text.firstLine, hlines, List.headD_cons]
        have hcut := Segment.Quiet.blank hblank 0 (Text.firstLine text)
        rw [List.singleton_append] at hcut
        rw [hcut]
        exact hfirst.attach_blank hblank
      · rw [Text.laterLines, hlines, List.tail_cons]
        exact hlater

theorem comment {words : List Char} (hwords : '\n' ∉ words) {text : List Char} {ts : List Token}
    (h : Lined text ts) : Lined ('/' :: '/' :: (words ++ '\n' :: text)) ts := by
  obtain ⟨hfirst, hlater⟩ := Text.firstLine_append (w := ['/', '/']) (by simp)
    (words ++ '\n' :: text)
  refine h.newline ?_ ?_
  · rw [show '/' :: '/' :: (words ++ '\n' :: text) = ['/', '/'] ++ (words ++ '\n' :: text) from rfl,
      hfirst]
    rfl
  · rw [← Text.laterLines_words hwords text, ← hlater]
    rfl

theorem gap {g : List Char} (hg : Gap g) {text : List Char} {ts : List Token} (h : Lined text ts) :
    Lined (g ++ text) ts := by
  induction hg with
  | nil => exact h
  | blank hc _ ih => exact ih.blank hc
  | @comment words g hwords _ ih =>
    have hcomment := ih.comment hwords
    simpa using hcomment

theorem token {t : Token} (hread : t.readable = true) {text : List Char} {ts : List Token}
    (h : Lined text ts) : Lined (t.text ++ text) (t :: ts) := by
  obtain ⟨us, vs, rfl, hfirst, hlater⟩ := h
  have hends : ∀ c ∈ t.text, c ≠ '\n' ∧ c ≠ '\r' := by
    intro c hc
    have hchar := t.isTokenChar hread c hc
    constructor <;> rintro rfl <;> exact absurd hchar (by decide)
  obtain ⟨hfirst', hlater'⟩ := Text.firstLine_append hends text
  refine ⟨t :: us, vs, rfl, ?_, ?_⟩
  · rw [hfirst']
    exact hfirst.cut_token hread
  · rw [hlater']
    exact hlater

end Lined

theorem Laid.lined {ts : List Token} {text : List Char} (h : Laid ts text)
    (hread : ∀ t ∈ ts, t.readable = true) : Lined text ts := by
  induction h with
  | @nil g hg =>
    have hnil : Lined [] [] := ⟨[], [], rfl, .nil, .nil⟩
    have hgap := hnil.gap hg
    rwa [List.append_nil] at hgap
  | cons hg _ ih =>
    rw [List.forall_mem_cons] at hread
    exact ((ih hread.2).token hread.1).gap hg

/-! ## Segments -/

namespace Segment

theorem spelt_place {pieces : List (List Char)} {ts : List Token} (h : Pieces pieces ts)
    (hread : ∀ t ∈ ts, t.readable = true) (line start : Nat) :
    Spelt (place line start pieces) ts := by
  induction h generalizing start with
  | nil => exact .nil
  | @cons piece more ts us hpiece _ ih =>
    rw [List.forall_mem_append] at hread
    rw [place_cons]
    exact (hpiece.spelt hread.1 line start).append (ih hread.2 _)

/-- The segments of lines are their pieces in turn, whatever the numbers of the lines. -/
theorem spelt_ofLines {lines : List (List Char)} {ts : List Token}
    (h : Pieces (lines.flatMap (cut 0)) ts) (hread : ∀ t ∈ ts, t.readable = true) (number : Nat) :
    Spelt (ofLines number lines) ts := by
  induction lines generalizing number ts with
  | nil =>
    cases h
    exact .nil
  | cons line more ih =>
    rw [List.flatMap_cons] at h
    obtain ⟨us, vs, rfl, hline, hmore⟩ := h.of_append
    rw [List.forall_mem_append] at hread
    exact (spelt_place hline hread.1 number 0).append (ih hmore hread.2 (number + 1))

/-- The segments of a text are its tokens in turn. -/
theorem spelt_ofSource {ts : List Token} {source : List Char} (h : Laid ts source)
    (hread : ∀ t ∈ ts, t.readable = true) : Spelt (ofSource source) ts :=
  spelt_ofLines (h.lined hread).pieces hread 1

end Segment

end WhileSmt
