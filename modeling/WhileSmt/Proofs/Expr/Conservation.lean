import WhileSmt.Proofs.Expr.RoundTrip

/-!
Reading an expression drops nothing but blanks and round parentheses.

A number is the one kind of text that an expression does not give back as it was, since `+7` and
`07` are read as `7`. So the literals of the line have to be plain (`plainLiterals`).

Main statement: `Expr.bare_of_parse`.
-/

namespace WhileSmt

/-! ## Bare texts -/

namespace Text

/-- The characters that are no mere layout. -/
def isBare (c : Char) : Bool :=
  !(isBlank c || ['(', ')', '\x7b', '\x7d', ';'].contains c)

/-- A text without blanks, round parentheses, braces and semicolons. -/
def bare (text : List Char) : List Char :=
  text.filter isBare

@[simp] theorem bare_nil : bare [] = [] := rfl

@[simp] theorem bare_append (u v : List Char) : bare (u ++ v) = bare u ++ bare v :=
  List.filter_append u v

theorem bare_cons (c : Char) (v : List Char) : bare (c :: v) = bare [c] ++ bare v :=
  bare_append [c] v

theorem bare_layout {c : Char} (h : isBare c = false) (v : List Char) : bare (c :: v) = bare v :=
  List.filter_cons_of_neg (by simp [h])

theorem bare_of_blank {w : List Char} (hw : Blank w) : bare w = [] :=
  List.filter_eq_nil_iff.mpr fun c hc => by simp [isBare, hw c hc]

@[simp] theorem bare_trim (text : List Char) : bare (trim text) = bare text := by
  obtain ⟨w, w', hw, hw', h⟩ := exists_trim text
  have hbare := congrArg bare h
  rw [bare_append, bare_append, bare_of_blank hw, bare_of_blank hw', List.nil_append,
    List.append_nil] at hbare
  exact hbare.symm

end Text

/-- The characters that neither blanks nor brackets of any kind are. -/
theorem isBare_of_isNameChar {c : Char} (h : isNameChar c = true) : Text.isBare c = true := by
  simp only [Text.isBare, isBlank_of_isNameChar h, Bool.false_or, Bool.not_eq_true',
    List.contains_eq_mem, decide_eq_false_iff_not]
  intro hmem
  simp only [List.mem_cons, List.not_mem_nil, or_false] at hmem
  rcases hmem with rfl | rfl | rfl | rfl | rfl <;> exact absurd h (by decide)

theorem bare_name {w : List Char} (h : ∀ c ∈ w, isNameChar c = true) : Text.bare w = w :=
  List.filter_eq_self.mpr fun c hc => isBare_of_isNameChar (h c hc)

theorem BinOp.bare_symbol (op : BinOp) : Text.bare op.symbol.toList = op.symbol.toList := by
  have hall : ∀ op ∈ priority, Text.bare op.symbol.toList = op.symbol.toList := by decide
  exact hall op op.mem_priority

namespace Expr

/-- The text of an expression without blanks and round parentheses. -/
def bare (e : Expr String) : List Char :=
  e.text.filter fun c => !(Text.isBlank c || c = '(' || c = ')')

theorem filter_text_of_bare {w : List Char} (h : Text.bare w = w) :
    w.filter (fun c => !(Text.isBlank c || c = '(' || c = ')')) = w := by
  refine List.filter_eq_self.mpr ?_
  intro c hc
  have hbare := List.filter_eq_self.mp h c hc
  simp only [Text.isBare, Bool.not_eq_true', Bool.or_eq_false_iff, List.contains_eq_mem,
    decide_eq_false_iff_not, List.mem_cons, List.not_mem_nil, or_false, not_or] at hbare
  simp [hbare]

/-- A literal has no blanks and no brackets of any kind. -/
theorem bare_text_lit (n : Int64) : Text.bare (text (.lit n)) = text (.lit n) := by
  obtain ⟨c, ds, hdigits, htext⟩ := exists_text_lit n
  have hbare := bare_name fun d hd => isNameChar_of_isDigit (hdigits d hd)
  rcases htext with htext | ⟨htext, -⟩
  · rw [htext, hbare]
  · rw [htext, Text.bare_cons, hbare]
    rfl

theorem bare_lit (n : Int64) : bare (.lit n) = text (.lit n) :=
  filter_text_of_bare (bare_text_lit n)

theorem bare_var {x : String} (h : isIdentifier x.toList = true) : bare (.var x) = x.toList :=
  filter_text_of_bare (bare_name (isNameChar_of_isIdentifier h))

theorem bare_index {a : String} (h : isIdentifier a.toList = true) (i : Expr String) :
    bare (.index a i) = a.toList ++ '[' :: (bare i ++ [']']) := by
  have ha := filter_text_of_bare (bare_name (isNameChar_of_isIdentifier h))
  rw [bare, text_index, List.filter_append, ha, List.filter_cons_of_pos (by decide),
    List.filter_append]
  rfl

theorem bare_binary (op : BinOp) (l r : Expr String) :
    bare (.binary op l r) = bare l ++ (op.symbol.toList ++ bare r) := by
  have hop := filter_text_of_bare op.bare_symbol
  rw [bare, text_binary, List.filter_cons_of_neg (by decide), List.append_assoc,
    List.filter_append, List.cons_append, List.filter_cons_of_neg (by decide), List.append_assoc,
    List.filter_append, hop, List.cons_append, List.filter_cons_of_neg (by decide),
    List.filter_append, List.filter_cons_of_neg (by decide), List.filter_nil, List.append_nil]
  rfl

end Expr

/-! ## Literals of a line -/

/-- A sign that follows is an operator, and not part of a number. -/
def endsOperand (text : List Char) : Bool :=
  (Text.trimEnd text).getLast?.any fun c => isNameChar c || isClosing c

/-- Whether a text goes on with a character of a name. -/
def startsName (text : List Char) : Bool :=
  text.head?.any isNameChar

/-- The digits at the start of a text, if there are any and no longer name starts there. -/
def digitsAt? (text : List Char) : Option (List Char) :=
  if (text.takeWhile Text.isDigit).isEmpty || startsName (text.dropWhile Text.isDigit) then none
  else some (text.takeWhile Text.isDigit)

/-- The integer literal that starts between two parts of a line. -/
def literalAt? (before : List Char) : List Char → Option (List Char)
  | [] => none
  | c :: rest =>
    if c = '+' || c = '-' then
      if endsOperand before then none else (digitsAt? rest).map (c :: ·)
    else if before.getLast?.any isNameChar then none
    else digitsAt? (c :: rest)

/-- A literal without a plus sign and without redundant zeros. -/
def isPlainLiteral : List Char → Bool
  | '+' :: _ => false
  | '-' :: ds => ds.head? ≠ some '0'
  | ds => ds = ['0'] || ds.head? ≠ some '0'

/-- All integer literals of a line are plain. -/
def plainLiterals (line : List Char) : Bool :=
  (List.range line.length).all fun k =>
    (literalAt? (line.take k) (line.drop k)).all isPlainLiteral

theorem endsOperand_append {w : List Char} (hw : Text.Blank w) (text : List Char) :
    endsOperand (text ++ w) = endsOperand text := by
  rw [endsOperand, endsOperand, Text.trimEnd_append hw]

theorem endsOperand_concat {c : Char} (hc : Text.isBlank c = false) (text : List Char) :
    endsOperand (text ++ [c]) = (isNameChar c || isClosing c) := by
  rw [endsOperand, Text.trimEnd_append_cons hc]
  simp [Text.trimEnd]

/-- What is no operand does not end with a name. -/
theorem isNameChar_getLast {text : List Char} (h : endsOperand text = false) :
    text.getLast?.any isNameChar = false := by
  rcases List.eq_nil_or_concat text with rfl | ⟨front, c, rfl⟩
  · rfl
  · rw [List.concat_eq_append] at h ⊢
    cases hc : isNameChar c with
    | false => simp [hc]
    | true => simp [endsOperand_concat (isBlank_of_isNameChar hc), hc] at h

theorem startsName_append_of_blank {w text : List Char} (hw : Text.Blank w)
    (h : startsName text = false) : startsName (w ++ text) = false := by
  cases w with
  | nil => exact h
  | cons c w =>
    cases hc : isNameChar c with
    | false => simp [startsName, hc]
    | true => exact absurd (hw c List.mem_cons_self) (by simp [isBlank_of_isNameChar hc])

theorem digitsAt?_append {ds : List Char} (hne : ds ≠ [])
    (hall : ∀ c ∈ ds, Text.isDigit c = true) {after : List Char}
    (hafter : startsName after = false) : digitsAt? (ds ++ after) = some ds := by
  have hstop : after.takeWhile Text.isDigit = [] ∧ after.dropWhile Text.isDigit = after := by
    cases after with
    | nil => exact ⟨rfl, rfl⟩
    | cons c after =>
      have hc : Text.isDigit c = false := by
        cases hdigit : Text.isDigit c with
        | false => rfl
        | true => simp [startsName, isNameChar_of_isDigit hdigit] at hafter
      exact ⟨List.takeWhile_cons_of_neg (by simp [hc]), List.dropWhile_cons_of_neg (by simp [hc])⟩
  have htake : (ds ++ after).takeWhile Text.isDigit = ds := by
    rw [List.takeWhile_append_of_pos hall, hstop.1, List.append_nil]
  have hdrop : (ds ++ after).dropWhile Text.isDigit = after := by
    rw [List.dropWhile_append_of_pos hall, hstop.2]
  rw [digitsAt?, htake, hdrop, if_neg (by simp [hne, hafter])]

/-! ## Operands -/

/-- A text that stands in a line where an operand may stand. -/
def Stands (line text : List Char) : Prop :=
  ∃ before after, line = before ++ (text ++ after) ∧ endsOperand before = false ∧
    startsName after = false

namespace Stands

/-- A number that stands in a line is one of its literals. -/
theorem isPlainLiteral {line text : List Char} (hline : plainLiterals line = true)
    (h : Stands line text) {m : Int} (hread : Text.readInteger? text = some m) :
    isPlainLiteral text = true := by
  obtain ⟨before, after, rfl, hbefore, hafter⟩ := h
  obtain ⟨ds, n, hn, htext⟩ := Text.readInteger?_eq_some hread
  obtain ⟨hne, hall, -⟩ := Text.readNatural?_eq_some hn
  have hdigits := digitsAt?_append hne hall hafter
  have hsigned : ∀ c : Char, (c = '+' || c = '-') = true →
      literalAt? before (c :: ds ++ after) = some (c :: ds) := by
    intro c hc
    rw [List.cons_append, literalAt?, if_pos hc, if_neg (by simp [hbefore]), hdigits]
    rfl
  have hliteral : literalAt? before (text ++ after) = some text ∧ text ≠ [] := by
    rcases htext with ⟨rfl, -⟩ | ⟨rfl, -⟩ | ⟨rfl, -⟩
    · exact ⟨hsigned '-' rfl, by simp⟩
    · exact ⟨hsigned '+' rfl, by simp⟩
    · refine ⟨?_, hne⟩
      obtain ⟨c, rest, rfl⟩ := List.exists_cons_of_ne_nil hne
      have hc : ¬(c = '+' || c = '-') = true := by
        have hdigit := hall c List.mem_cons_self
        simp only [Bool.or_eq_true, decide_eq_true_eq]
        rintro (rfl | rfl) <;> exact absurd hdigit (by decide)
      rw [List.cons_append, literalAt?, if_neg hc, if_neg (by simp [isNameChar_getLast hbefore])]
      exact hdigits
  -- the literal that starts where `before` ends
  have hk := List.all_eq_true.mp hline before.length (by
    rw [List.mem_range]
    have := List.length_pos_iff.mpr hliteral.2
    simp only [List.length_append]
    omega)
  rw [List.take_left, List.drop_left, hliteral.1] at hk
  exact hk

theorem trim {line text : List Char} (h : Stands line text) : Stands line (Text.trim text) := by
  obtain ⟨before, after, rfl, hbefore, hafter⟩ := h
  obtain ⟨w, w', hw, hw', htext⟩ := Text.exists_trim text
  refine ⟨before ++ w, w' ++ after, ?_, ?_, ?_⟩
  · have hline := congrArg (fun t => before ++ (t ++ after)) htext
    simpa using hline
  · rw [endsOperand_append hw, hbefore]
  · exact startsName_append_of_blank hw' hafter

/-- A part of a text that stands in a line, between characters that end and start no operand. -/
theorem inner {line u part v : List Char} (h : Stands line (u ++ (part ++ v)))
    (hu : u = [] ∨ ∃ front c, u = front ++ [c] ∧ Text.isBlank c = false ∧
      (isNameChar c || isClosing c) = false)
    (hv : v = [] ∨ startsName v = false) : Stands line part := by
  obtain ⟨before, after, rfl, hbefore, hafter⟩ := h
  refine ⟨before ++ u, v ++ after, by simp, ?_, ?_⟩
  · rcases hu with rfl | ⟨front, c, rfl, hblank, hc⟩
    · rw [List.append_nil, hbefore]
    · rw [← List.append_assoc, endsOperand_concat hblank, hc]
  · rcases hv with rfl | hv
    · exact hafter
    · cases v with
      | nil => exact hafter
      | cons c v => exact hv

end Stands

/-- A plain literal is the text of the integer it is read as. -/
theorem eq_integer_of_isPlainLiteral {text : List Char} {m : Int}
    (h : isPlainLiteral text = true) (hread : Text.readInteger? text = some m) :
    text = (Text.integer m).toList := by
  obtain ⟨ds, n, hn, htext⟩ := Text.readInteger?_eq_some hread
  obtain ⟨hne, hall, hvalue⟩ := Text.readNatural?_eq_some hn
  rcases htext with ⟨rfl, rfl⟩ | ⟨rfl, -⟩ | ⟨rfl, rfl⟩
  · have hzero : ds.head? ≠ some '0' := of_decide_eq_true h
    have hdigits := Text.digits_foldl hne hall (.inr hzero)
    rw [← hvalue] at hdigits
    -- a minus sign in front of zero is not plain
    cases n with
    | zero =>
      rw [Text.digits_zero] at hdigits
      exact absurd (by rw [← hdigits]; rfl) hzero
    | succ n =>
      have hneg : -((n + 1 : Nat) : Int) = .negSucc n := rfl
      rw [hneg, Text.toList_integer_negSucc, hdigits]
  · cases h
  · have hzero : text = ['0'] ∨ text.head? ≠ some '0' := by
      unfold isPlainLiteral at h
      split at h
      · cases h
      · exact .inr (by simp)
      · simpa using h
    have hdigits := Text.digits_foldl hne hall hzero
    rw [← hvalue] at hdigits
    exact (hdigits.symm.trans (Text.toList_integer_ofNat n).symm)

/-! ## The parts of a text -/

theorem splitClosing_eq {d : Nat} {text inside after : List Char} {c : Char}
    (h : splitClosing d text = some (inside, c, after)) :
    text = inside ++ c :: after ∧ isClosing c = true := by
  induction text generalizing d inside after with
  | nil => cases h
  | cons a rest ih =>
    -- all characters but the closing bracket are passed over, at whatever depth
    have further : ∀ {d : Nat}, (splitClosing d rest).map (fun p => (a :: p.1, p.2)) =
        some (inside, c, after) → a :: rest = inside ++ c :: after ∧ isClosing c = true := by
      intro d hd
      obtain ⟨⟨inside', c', after'⟩, hrest, heq⟩ := Option.map_eq_some_iff.mp hd
      cases heq
      obtain ⟨hsplit, hclosing⟩ := ih hrest
      exact ⟨by rw [hsplit, List.cons_append], hclosing⟩
    cases hopen : isOpening a with
    | true => exact further (splitClosing_opening hopen d rest ▸ h)
    | false =>
      cases hclose : isClosing a with
      | false => exact further (splitClosing_other hopen hclose d rest ▸ h)
      | true =>
        cases d with
        | succ d => exact further (splitClosing_closing hopen hclose d rest ▸ h)
        | zero =>
          rw [splitClosing_end hopen hclose] at h
          cases h
          exact ⟨rfl, hclose⟩

theorem splitOutside_eq {symbol : List Char} {d : Int} {text before after : List Char}
    (h : splitOutside symbol d text = some (before, after)) :
    text = before ++ (symbol ++ after) := by
  induction text generalizing d before after with
  | nil => cases h
  | cons a rest ih =>
    have further : ∀ {d : Int}, (splitOutside symbol d rest).map (fun p => (a :: p.1, p.2)) =
        some (before, after) → a :: rest = before ++ (symbol ++ after) := by
      intro d hd
      obtain ⟨⟨before', after'⟩, hrest, heq⟩ := Option.map_eq_some_iff.mp hd
      cases heq
      rw [ih hrest, List.cons_append]
    rw [splitOutside] at h
    split at h
    · exact further h
    · split at h
      · exact further h
      · split at h
        · next hhere =>
          simp only [Bool.and_eq_true] at hhere
          obtain ⟨r, hr⟩ := List.isPrefixOf_iff_prefix.mp hhere.2
          cases h
          rw [← hr, List.drop_left]
          rfl
        · exact further h

/-- What a phrase says about its text. -/
def Phrase.Spells (text : List Char) : Phrase → Prop
  | empty => text = []
  | group inside => text = '(' :: (inside ++ [')'])
  | read a inside =>
    isIdentifier a = true ∧ ∃ w, Text.trim w = a ∧ text = w ++ '[' :: (inside ++ [']'])
  | number n => Text.readInt64? text = some n
  | operation op l r => text = l ++ (op.symbol.toList ++ r)
  | name x => text = x ∧ isIdentifier x = true
  | unknown t => text = t

theorem enclosed?_eq {text inside : List Char} (h : enclosed? text = some inside) :
    text = '(' :: (inside ++ [')']) := by
  unfold enclosed? at h
  split at h
  · split at h
    · next hclosing =>
      cases h
      rw [(splitClosing_eq hclosing).1]
    · cases h
  · cases h

theorem arrayRead?_eq {text a inside : List Char} (h : arrayRead? text = some (a, inside)) :
    isIdentifier a = true ∧ ∃ w, Text.trim w = a ∧ text = w ++ '[' :: (inside ++ [']']) := by
  unfold arrayRead? at h
  split at h
  · cases h
  · next c rest hdrop =>
    have hc : c = '[' := by
      have hhead := List.head?_dropWhile_not (fun c => decide (c ≠ '[')) text
      rw [hdrop] at hhead
      simpa using hhead
    split at h
    · next hclosing =>
      split at h
      · next hname =>
        cases h
        refine ⟨hname, _, rfl, ?_⟩
        have hall := List.takeWhile_append_dropWhile (p := fun c => decide (c ≠ '[')) (l := text)
        rw [hdrop, hc, (splitClosing_eq hclosing).1] at hall
        exact hall.symm
      · cases h
    · cases h

theorem Phrase.of_spells (text : List Char) : (Phrase.of text).Spells (Text.trim text) := by
  rw [Phrase.of]
  generalize Text.trim text = text
  unfold ofTrimmed
  split
  · next hempty => exact List.isEmpty_iff.mp hempty
  · split
    · next h => exact enclosed?_eq h
    · split
      · next h => exact arrayRead?_eq h
      · split
        · next h => exact h
        · split
          · next h =>
            obtain ⟨op', -, hop⟩ := List.exists_of_findSome?_eq_some h
            obtain ⟨⟨l', r'⟩, hsplit, heq⟩ := Option.map_eq_some_iff.mp hop
            cases heq
            exact splitOutside_eq hsplit
          · split
            · next h => exact ⟨rfl, h⟩
            · rfl

/-! ## Reading -/

theorem startsName_cons {c : Char} (h : isNameChar c = false) (v : List Char) :
    startsName (c :: v) = false := by
  simp [startsName, h]

/-- An operator does not end with the last character of an operand. -/
theorem BinOp.exists_last_symbol (op : BinOp) :
    ∃ front c, op.symbol.toList = front ++ [c] ∧ Text.isBlank c = false ∧
      (isNameChar c || isClosing c) = false := by
  obtain ⟨front, c, hsymbol⟩ := (List.eq_nil_or_concat _).resolve_left op.symbol_ne_nil
  obtain ⟨hname, hblank, -, hclosing⟩ := op.symbol_chars c (by simp [hsymbol])
  exact ⟨front, c, by simpa using hsymbol, hblank, by simp [hname, hclosing]⟩

/-- Reading an operand drops nothing but layout. -/
theorem Expr.bare_of_parse {line : List Char} (hline : plainLiterals line = true)
    {text : List Char} (hstands : Stands line text) {e : Expr String}
    (h : Expr.parse text = .ok e) : Text.bare text = e.bare := by
  have hspells := Phrase.of_spells text
  have htrim := hstands.trim
  rw [parse_eq] at h
  rw [← Text.bare_trim]
  cases hphrase : Phrase.of text with
  | empty =>
    rw [hphrase] at h
    cases h
  | group inside =>
    rw [hphrase] at h hspells
    rw [show Text.trim text = ['('] ++ (inside ++ [')']) from hspells] at htrim ⊢
    have hinside := htrim.inner (.inr ⟨[], '(', rfl, rfl, rfl⟩) (.inr (startsName_cons rfl []))
    have hlt : inside.length < text.length := Phrase.of_parts (by rw [hphrase]; simp [Phrase.parts])
    rw [Text.bare_append, Text.bare_append, bare_of_parse hline hinside h]
    exact List.append_nil e.bare
  | read a inside =>
    rw [hphrase] at h hspells
    obtain ⟨hname, w, rfl, htext⟩ := hspells
    obtain ⟨i, hi, h⟩ := bind_eq_ok h
    cases h
    rw [htext] at htrim ⊢
    have hshape : w ++ '[' :: (inside ++ [']']) = w ++ ['['] ++ (inside ++ [']']) := by simp
    rw [hshape] at htrim
    have hinside := htrim.inner (.inr ⟨w, '[', rfl, rfl, rfl⟩) (.inr (startsName_cons rfl []))
    have hlt : inside.length < text.length := Phrase.of_parts (by rw [hphrase]; simp [Phrase.parts])
    have hbare := bare_name (isNameChar_of_isIdentifier hname)
    rw [Text.bare_trim] at hbare
    rw [bare_index (by simpa using hname), Text.bare_append, Text.bare_cons, Text.bare_append,
      bare_of_parse hline hinside hi, hbare, String.toList_ofList]
    rfl
  | number n =>
    rw [hphrase] at h hspells
    cases h
    obtain ⟨m, hread, hnarrow⟩ :=
      Option.bind_eq_some_iff.mp (show Text.readInt64? _ = _ from hspells)
    rw [eq_integer_of_isPlainLiteral (htrim.isPlainLiteral hline hread) hread,
      ← Text.narrow?_eq_some_iff.mp hnarrow]
    exact (bare_text_lit n).trans (bare_lit n).symm
  | operation op l r =>
    rw [hphrase] at h hspells
    obtain ⟨left, hl, h⟩ := bind_eq_ok h
    obtain ⟨right, hr, h⟩ := bind_eq_ok h
    cases h
    rw [show Text.trim text = l ++ (op.symbol.toList ++ r) from hspells] at htrim ⊢
    have hstandsl : Stands line l := by
      obtain ⟨c, rest, hsymbol, hc, -⟩ := op.exists_symbol
      rw [hsymbol] at htrim
      exact Stands.inner (u := []) htrim (.inl rfl) (.inr (startsName_cons hc _))
    have hstandsr : Stands line r := by
      obtain ⟨front, c, hsymbol, hc⟩ := op.exists_last_symbol
      rw [← List.append_assoc, ← List.append_nil r] at htrim
      refine htrim.inner (.inr ⟨l ++ front, c, ?_, hc⟩) (.inl rfl)
      rw [hsymbol, List.append_assoc]
    have hltl : l.length < text.length := Phrase.of_parts (by rw [hphrase]; simp [Phrase.parts])
    have hltr : r.length < text.length := Phrase.of_parts (by rw [hphrase]; simp [Phrase.parts])
    rw [bare_binary, Text.bare_append, Text.bare_append, op.bare_symbol,
      bare_of_parse hline hstandsl hl, bare_of_parse hline hstandsr hr]
  | name x =>
    rw [hphrase] at h hspells
    cases h
    obtain ⟨htext, hname⟩ := hspells
    rw [htext, bare_var (by simpa using hname), bare_name (isNameChar_of_isIdentifier hname)]
    simp
  | unknown t =>
    rw [hphrase] at h
    cases h
termination_by text.length

end WhileSmt
