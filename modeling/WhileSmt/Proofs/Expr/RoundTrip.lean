import WhileSmt.Proofs.Expr.Balanced

/-!
Reading back the texts of expressions. An expression may be written with more or fewer parentheses
(`Shown`). Its text has its brackets in pairs, and outside brackets it has at most one operator,
unless there is a negative literal, whose sign is taken for a subtraction.

Main statement: an expression is read back from every such text, if no negative literal stands where
its sign would be taken for an operator (`Shown.parse`).
-/

namespace WhileSmt

/-! ## The texts of expressions -/

namespace BinOp

theorem mem_priority (op : BinOp) : op ∈ priority := by
  cases op with
  | cmp op => cases op <;> decide
  | arith op => cases op <;> decide

/-- The symbols of operators share no character with names, blanks and brackets. -/
theorem symbol_chars (op : BinOp) :
    ∀ c ∈ op.symbol.toList, isNameChar c = false ∧ Text.isBlank c = false ∧
      isOpening c = false ∧ isClosing c = false := by
  have hall : ∀ op ∈ priority, op.symbol.toList.all (fun c =>
      !isNameChar c && (!Text.isBlank c && (!isOpening c && !isClosing c))) = true := by decide
  simpa only [List.all_eq_true, Bool.and_eq_true, Bool.not_eq_true'] using hall op op.mem_priority

/-- The symbol of an operator starts with a character of its own. -/
theorem exists_symbol (op : BinOp) :
    ∃ c rest, op.symbol.toList = c :: rest ∧ isNameChar c = false ∧ Text.isBlank c = false ∧
      c ≠ '[' := by
  obtain ⟨c, rest, hsymbol⟩ := List.exists_cons_of_ne_nil op.symbol_ne_nil
  obtain ⟨hname, hblank, hopening, -⟩ := op.symbol_chars c (by simp [hsymbol])
  refine ⟨c, rest, hsymbol, hname, hblank, ?_⟩
  rintro rfl
  cases hopening

/-- The operators that a text is tried for before the given one. -/
def earlier (op : BinOp) : List BinOp :=
  priority.takeWhile (· ≠ op)

theorem exists_later (op : BinOp) : ∃ later, priority = op.earlier ++ op :: later := by
  have h : ∀ op ∈ priority,
      priority = op.earlier ++ op :: priority.drop (op.earlier.length + 1) := by decide
  exact ⟨_, h op op.mem_priority⟩

/-- Nowhere in an operator that a blank follows does an earlier operator stand. -/
theorem symbol_apart {op op' : BinOp} (h : op' ∈ op.earlier) :
    ∀ k < op.symbol.toList.length,
      op'.symbol.toList.isPrefixOf (op.symbol.toList.drop k ++ [' ']) = false := by
  have hall : ∀ op ∈ priority, ∀ op' ∈ op.earlier, ∀ k < op.symbol.toList.length,
      op'.symbol.toList.isPrefixOf (op.symbol.toList.drop k ++ [' ']) = false := by decide
  exact hall op op.mem_priority op' h

theorem length_symbol_le (op : BinOp) : op.symbol.toList.length ≤ 2 := by
  have hall : ∀ op ∈ priority, op.symbol.toList.length ≤ 2 := by decide
  exact hall op op.mem_priority

/-- An operator that is written as a sign is tried for only before operators that a negative literal
must not stand next to. -/
theorem not_sign_of_earlier {op op' : BinOp} {rest : List Char}
    (hsymbol : op'.symbol.toList = '-' :: rest) (h : op' ∈ op.earlier) :
    op ∈ [.arith .mul, .arith .div, .arith .mod] := by
  have hall : ∀ op ∈ priority, ∀ op' ∈ op.earlier, op'.symbol.toList.head? = some '-' →
      op ∈ [.arith .mul, .arith .div, .arith .mod] := by decide
  exact hall op op.mem_priority op' h (by rw [hsymbol]; rfl)

theorem eq_sub_of_symbol {op : BinOp} {rest : List Char}
    (hsymbol : op.symbol.toList = '-' :: rest) : op = .arith .sub := by
  have hall : ∀ op ∈ priority, op.symbol.toList.head? = some '-' → op = .arith .sub := by decide
  exact hall op op.mem_priority (by rw [hsymbol]; rfl)

end BinOp

namespace Expr

/-- The characters of the text in which every operation has its parentheses. -/
def text (e : Expr String) : List Char :=
  (e.render id).toList

theorem text_lit (n : Int64) : text (.lit n) = (Text.int64 n).toList := rfl

theorem text_var (x : String) : text (.var x) = x.toList := rfl

theorem text_index (a : String) (i : Expr String) :
    text (.index a i) = a.toList ++ '[' :: (text i ++ [']']) := by
  simp [text, render]

theorem text_binary (op : BinOp) (l r : Expr String) :
    text (.binary op l r) =
      '(' :: (text l ++ ' ' :: (op.symbol.toList ++ ' ' :: text r) ++ [')']) := by
  simp [text, render]

/-- A literal below zero, whose text starts with a sign. -/
def isNegative : Expr String → Bool
  | lit n => decide (n.toInt < 0)
  | _ => false

/-- Expressions that can be read back from their texts: there are no unary operations, all names are
proper, and no sign of a literal is taken for an operator. -/
def readable : Expr String → Bool
  | lit _ => true
  | var x => isIdentifier x.toList
  | index a i => isIdentifier a.toList && i.readable
  | unary _ _ => false
  | binary op l r =>
    l.readable && r.readable &&
      !([.arith .sub, .arith .mul, .arith .div, .arith .mod].contains op && l.isNegative) &&
      !([.arith .mul, .arith .div, .arith .mod].contains op && r.isNegative)

/-- The text of a literal is a text of digits, after a sign if the literal is negative. -/
theorem exists_text_lit (n : Int64) :
    ∃ c ds, (∀ d ∈ c :: ds, Text.isDigit d = true) ∧
      (text (.lit n) = c :: ds ∨ text (.lit n) = '-' :: c :: ds ∧ isNegative (.lit n) = true) := by
  rw [text_lit, Text.int64]
  cases hn : n.toInt with
  | ofNat m =>
    obtain ⟨c, ds, h, -⟩ := Text.digits_head m
    refine ⟨c, ds, ?_, .inl ((Text.toList_integer_ofNat m).trans h)⟩
    rw [← h]
    exact fun d hd => Text.isDigit_of_mem_digits hd
  | negSucc m =>
    obtain ⟨c, ds, h, -⟩ := Text.digits_head (m + 1)
    refine ⟨c, ds, ?_, .inr ⟨?_, ?_⟩⟩
    · rw [← h]
      exact fun d hd => Text.isDigit_of_mem_digits hd
    · rw [Text.toList_integer_negSucc, h]
    · rw [isNegative, hn]
      exact decide_eq_true (Int.negSucc_lt_zero m)

theorem isPlain_of_isDigit {c : Char} (h : Text.isDigit c = true) : isPlain c = true :=
  isPlain_of_isNameChar (isNameChar_of_isDigit h)

theorem balanced_of_isIdentifier {x : List Char} (h : isIdentifier x = true) : Balanced x :=
  .word fun c hc => isPlain_of_isNameChar (isNameChar_of_isIdentifier h c hc)

theorem balanced_symbol (op : BinOp) {w : List Char} (h : Balanced w) :
    Balanced (op.symbol.toList ++ ' ' :: w) := by
  by_cases hdiv : op = .arith .div
  · subst hdiv
    exact .slash h
  · refine (Balanced.word ?_).append (.char rfl h)
    have hall : ∀ op ∈ BinOp.priority, op ≠ .arith .div →
        op.symbol.toList.all isPlain = true := by decide
    exact List.all_eq_true.mp (hall op op.mem_priority hdiv)

/-- The operands of an operation with the operator between them. -/
theorem balanced_operands {l r : List Char} (hl : Balanced l) (hr : Balanced r) (op : BinOp) :
    Balanced (l ++ ' ' :: (op.symbol.toList ++ ' ' :: r)) :=
  hl.append (.char rfl (balanced_symbol op hr))

/-- All names are proper, and there are no unary operations. -/
def proper : Expr String → Bool
  | lit _ => true
  | var x => isIdentifier x.toList
  | index a i => isIdentifier a.toList && i.proper
  | unary _ _ => false
  | binary _ l r => l.proper && r.proper

/-- No negative literal is the left operand of a subtraction, product, quotient or remainder, or the
right operand of one of the last three. -/
def signsApart : Expr String → Bool
  | lit _ => true
  | var _ => true
  | index _ i => i.signsApart
  | unary _ e => e.signsApart
  | binary op l r =>
    l.signsApart && r.signsApart &&
      !([.arith .sub, .arith .mul, .arith .div, .arith .mod].contains op && l.isNegative) &&
      !([.arith .mul, .arith .div, .arith .mod].contains op && r.isNegative)

theorem readable_iff {e : Expr String} :
    e.readable = true ↔ e.proper = true ∧ e.signsApart = true := by
  induction e with
  | lit n => simp [readable, proper, signsApart]
  | var x => simp [readable, proper, signsApart]
  | index a i ih => simp only [readable, proper, signsApart, Bool.and_eq_true, ih, and_assoc]
  | unary op e => simp [readable, proper]
  | binary op l r ihl ihr =>
    simp only [readable, proper, signsApart, Bool.and_eq_true, ihl, ihr]
    constructor
    · rintro ⟨⟨⟨hl, hr⟩, hleft⟩, hright⟩
      exact ⟨⟨hl.1, hr.1⟩, ⟨⟨hl.2, hr.2⟩, hleft⟩, hright⟩
    · rintro ⟨⟨hl, hr⟩, ⟨⟨hl', hr'⟩, hleft⟩, hright⟩
      exact ⟨⟨⟨⟨hl, hl'⟩, hr, hr'⟩, hleft⟩, hright⟩

end Expr

/-! ## Written expressions -/

/-- How an expression may be written. Operations stand in parentheses, unless the text is not that
of an operand. -/
inductive Shown : (operand : Bool) → Expr String → List Char → Prop where
  | lit {b : Bool} (n : Int64) : Shown b (.lit n) (Expr.text (.lit n))
  | var {b : Bool} {x : String} : isIdentifier x.toList = true → Shown b (.var x) x.toList
  | index {b : Bool} {a : String} {i : Expr String} {w : List Char} :
      isIdentifier a.toList = true → Shown false i w →
      Shown b (.index a i) (a.toList ++ '[' :: (w ++ [']']))
  | group {b : Bool} {op : BinOp} {l r : Expr String} {w : List Char} :
      Shown false (.binary op l r) w → Shown b (.binary op l r) ('(' :: (w ++ [')']))
  | operation {op : BinOp} {l r : Expr String} {u v : List Char} :
      Shown true l u → Shown true r v →
      Shown false (.binary op l r) (u ++ ' ' :: (op.symbol.toList ++ ' ' :: v))

namespace Shown

open WhileSmt.Expr

variable {b : Bool} {e l r : Expr String} {op : BinOp} {w u : List Char}

theorem balanced (h : Shown b e w) : Balanced w := by
  induction h with
  | lit n =>
    obtain ⟨c, ds, hdigits, htext | ⟨htext, -⟩⟩ := exists_text_lit n
    · rw [htext]
      exact .word fun d hd => isPlain_of_isDigit (hdigits d hd)
    · rw [htext]
      exact .char rfl (.word fun d hd => isPlain_of_isDigit (hdigits d hd))
  | var hx => exact balanced_of_isIdentifier hx
  | index ha _ ih => exact (balanced_of_isIdentifier ha).append (.index ih .nil)
  | group _ ih => exact .group ih .nil
  | operation _ _ ihl ihr => exact balanced_operands ihl ihr _

/-- The text of an operand may stand where no operand is asked for. -/
theorem relax (h : Shown true e w) : Shown false e w := by
  cases h with
  | lit n => exact .lit n
  | var hx => exact .var hx
  | index ha hi => exact .index ha hi
  | group hinner => exact .group hinner

theorem ne_nil (h : Shown b e w) : w ≠ [] := by
  cases h with
  | lit n =>
    obtain ⟨c, ds, -, htext | ⟨htext, -⟩⟩ := exists_text_lit n
    · simp [htext]
    · simp [htext]
  | var hx => exact ne_nil_of_isIdentifier hx
  | index => simp
  | group => simp
  | operation => simp

theorem solid (h : Shown b e w) : Text.Solid w := by
  induction h with
  | lit n =>
    obtain ⟨c, ds, hdigits, htext⟩ := exists_text_lit n
    have hblank : ∀ d ∈ c :: ds, Text.isBlank d = false := fun d hd =>
      isBlank_of_isNameChar (isNameChar_of_isDigit (hdigits d hd))
    rcases htext with htext | ⟨htext, -⟩
    · rw [htext]
      exact Text.solid_of_forall hblank
    · rw [htext]
      exact Text.solid_of_forall (List.forall_mem_cons.mpr ⟨by decide, hblank⟩)
  | var hx => exact solid_of_isIdentifier hx
  | @index _ _ _ w ha _ _ =>
    exact (solid_of_isIdentifier ha).append (ne_nil_of_isIdentifier ha)
      (Text.solid_singleton (c := ']') rfl) (List.cons_ne_nil _ _) ('[' :: w)
  | @group _ _ _ _ w _ _ =>
    exact (Text.solid_singleton (c := '(') rfl).append (List.cons_ne_nil _ _)
      (Text.solid_singleton (c := ')') rfl) (List.cons_ne_nil _ _) w
  | @operation op _ _ _ _ hl hr ihl ihr =>
    have hall := ihl.append hl.ne_nil ihr hr.ne_nil (' ' :: (op.symbol.toList ++ [' ']))
    simpa using hall

end Shown

namespace Expr

/-! ## Operators outside brackets -/

theorem isPrefixOf_cons_of_ne {c d : Char} (h : d ≠ c) (rest v : List Char) :
    (c :: rest).isPrefixOf (d :: v) = false := by
  simp [List.isPrefixOf, Ne.symm h]

/-- The search for a symbol passes over a text without brackets and without its first character. -/
theorem splitOutside_word {c : Char} {w : List Char}
    (hw : ∀ d ∈ w, isOpening d = false ∧ isClosing d = false ∧ d ≠ c) (rest : List Char) (n : Int)
    (v : List Char) :
    splitOutside (c :: rest) n (w ++ v) =
      (splitOutside (c :: rest) n v).map fun p => (w ++ p.1, p.2) := by
  induction w with
  | nil => simp
  | cons d w ih =>
    rw [List.forall_mem_cons] at hw
    rw [List.cons_append, splitOutside_other hw.1.1 hw.1.2.1
      (.inr (isPrefixOf_cons_of_ne hw.1.2.2 rest _)), ih hw.2]
    simp [Function.comp_def]

theorem splitOutside_name {c : Char} (hc : isNameChar c = false) {w : List Char}
    (hw : ∀ d ∈ w, isNameChar d = true) (rest : List Char) (n : Int) (v : List Char) :
    splitOutside (c :: rest) n (w ++ v) =
      (splitOutside (c :: rest) n v).map fun p => (w ++ p.1, p.2) := by
  refine splitOutside_word ?_ rest n v
  intro d hd
  have hplain := isPlain_of_isNameChar (hw d hd)
  refine ⟨isOpening_of_isPlain hplain, isClosing_of_isPlain hplain, ?_⟩
  rintro rfl
  simp [hw d hd] at hc

end Expr

/-- The search for an operator passes over an operand, unless it finds the sign of a literal. -/
theorem Shown.splitOutside {e : Expr String} {w : List Char} (h : Shown true e w) {c : Char}
    (hc : isNameChar c = false) (hneg : c ≠ '-' ∨ e.isNegative = false) (rest v : List Char) :
    splitOutside (c :: rest) 0 (w ++ v) =
      (splitOutside (c :: rest) 0 v).map fun p => (w ++ p.1, p.2) := by
  cases h with
  | lit n =>
    obtain ⟨c', ds, hdigits, htext | ⟨htext, hsign⟩⟩ := Expr.exists_text_lit n
    · rw [htext]
      exact Expr.splitOutside_name hc (fun d hd => isNameChar_of_isDigit (hdigits d hd)) rest 0 v
    · have hne : '-' ≠ c := by
        rcases hneg with hneg | hneg
        · exact Ne.symm hneg
        · simp [hsign] at hneg
      rw [htext, List.cons_append, splitOutside_other rfl rfl
        (.inr (Expr.isPrefixOf_cons_of_ne hne rest _)),
        Expr.splitOutside_name hc (fun d hd => isNameChar_of_isDigit (hdigits d hd))]
      simp [Function.comp_def]
  | var hx => exact Expr.splitOutside_name hc (isNameChar_of_isIdentifier hx) rest 0 v
  | index ha hi =>
    rw [List.append_assoc, Expr.splitOutside_name hc (isNameChar_of_isIdentifier ha),
      List.cons_append, splitOutside_opening rfl, List.append_assoc,
      hi.balanced.splitOutside _ (by decide), List.cons_append, List.nil_append,
      splitOutside_closing rfl rfl]
    simp [Function.comp_def]
  | group hinner =>
    rw [List.cons_append, splitOutside_opening rfl, List.append_assoc,
      hinner.balanced.splitOutside _ (by decide), List.cons_append, List.nil_append,
      splitOutside_closing rfl rfl]
    simp [Function.comp_def]

namespace Expr

/-- The search for a symbol passes over a text at whose characters it does not stand. -/
theorem splitOutside_apart {symbol w : List Char} (hlen : symbol.length ≤ 2)
    (hbrackets : ∀ d ∈ w, isOpening d = false ∧ isClosing d = false)
    (hw : ∀ k < w.length, symbol.isPrefixOf (w.drop k ++ [' ']) = false) (v : List Char) :
    splitOutside symbol 0 (w ++ ' ' :: v) =
      (splitOutside symbol 0 (' ' :: v)).map fun p => (w ++ p.1, p.2) := by
  induction w with
  | nil => simp
  | cons d w ih =>
    rw [List.forall_mem_cons] at hbrackets
    -- the symbol is too short to reach beyond the blank
    have hhere : symbol.isPrefixOf (d :: (w ++ ' ' :: v)) = false := by
      have hfirst := hw 0 (by simp)
      rw [Bool.eq_false_iff, Ne, List.isPrefixOf_iff_prefix] at hfirst ⊢
      intro hpre
      refine hfirst (List.prefix_of_prefix_length_le hpre ⟨v, by simp⟩ ?_)
      simp only [List.drop_zero, List.length_append, List.length_cons, List.length_nil]
      omega
    rw [List.cons_append, splitOutside_other hbrackets.1.1 hbrackets.1.2 (.inr hhere),
      ih hbrackets.2 fun k hk => hw (k + 1) (by simpa using hk)]
    simp [Function.comp_def]

theorem splitOutside_blank {c : Char} (hc : Text.isBlank c = false) (rest v : List Char) :
    splitOutside (c :: rest) 0 (' ' :: v) =
      (splitOutside (c :: rest) 0 v).map fun p => (' ' :: p.1, p.2) := by
  refine splitOutside_other rfl rfl (.inr (isPrefixOf_cons_of_ne ?_ rest v))
  rintro rfl
  exact absurd hc (by decide)

end Expr

namespace Shown

variable {l r : Expr String} {op op' : BinOp} {u v : List Char}

/-- An operator is found after its left operand. -/
theorem splitOutside_operator (hl : Shown true l u)
    (hneg : op = .arith .sub → l.isNegative = false) (t : List Char) :
    WhileSmt.splitOutside op.symbol.toList 0 (u ++ ' ' :: (op.symbol.toList ++ t)) =
      some (u ++ [' '], t) := by
  obtain ⟨c, rest, hsymbol, hname, hblank, -⟩ := op.exists_symbol
  have hsign : c ≠ '-' ∨ l.isNegative = false := by
    by_cases hc : c = '-'
    · subst hc
      exact .inr (hneg (BinOp.eq_sub_of_symbol hsymbol))
    · exact .inl hc
  have hbrackets := (op.symbol_chars c (by simp [hsymbol])).2.2
  have hfound : WhileSmt.splitOutside op.symbol.toList 0 (op.symbol.toList ++ t) =
      some ([], t) := by
    rw [hsymbol, List.cons_append, WhileSmt.splitOutside, if_neg (by simp [hbrackets.1]),
      if_neg (by simp [hbrackets.2]), if_pos (by simp [List.isPrefixOf])]
    simp
  rw [hsymbol] at hfound ⊢
  rw [hl.splitOutside hname hsign, Expr.splitOutside_blank hblank, hfound]
  simp

/-- An operator that is tried for before the one that is there is not found, unless it is the sign
of a literal. -/
theorem splitOutside_earlier (hl : Shown true l u) (hr : Shown true r v) (hop : op' ∈ op.earlier)
    (hneg : op' = .arith .sub → l.isNegative = false ∧ r.isNegative = false) :
    WhileSmt.splitOutside op'.symbol.toList 0 (u ++ ' ' :: (op.symbol.toList ++ ' ' :: v)) =
      none := by
  obtain ⟨c, rest, hsymbol, hname, hblank, -⟩ := op'.exists_symbol
  have hsign : c ≠ '-' ∨ l.isNegative = false ∧ r.isNegative = false := by
    by_cases hc : c = '-'
    · subst hc
      exact .inr (hneg (BinOp.eq_sub_of_symbol hsymbol))
    · exact .inl hc
  have hlast := hr.splitOutside hname (hsign.imp_right And.right) rest []
  rw [List.append_nil] at hlast
  have hmiddle := Expr.splitOutside_apart op'.length_symbol_le
    (fun d hd => (op.symbol_chars d hd).2.2) (BinOp.symbol_apart hop) v
  rw [hsymbol] at hmiddle ⊢
  rw [hl.splitOutside hname (hsign.imp_right And.left), Expr.splitOutside_blank hblank, hmiddle,
    Expr.splitOutside_blank hblank, hlast]
  simp [WhileSmt.splitOutside]

end Shown

/-- A text is split at an operator if no earlier one is found. -/
theorem splitOperator?_of_earlier {op : BinOp} {text before after : List Char}
    (hnone : ∀ op' ∈ op.earlier, splitOutside op'.symbol.toList 0 text = none)
    (h : splitOutside op.symbol.toList 0 text = some (before, after)) :
    splitOperator? text = some (op, before, after) := by
  obtain ⟨later, hpriority⟩ := op.exists_later
  have hearlier : op.earlier.findSome? (fun op' =>
      (splitOutside op'.symbol.toList 0 text).map fun p => (op', p.1, p.2)) = none := by
    rw [List.findSome?_eq_none_iff]
    intro op' hop'
    rw [hnone op' hop']
    rfl
  rw [splitOperator?, hpriority, List.findSome?_append, hearlier, Option.none_or,
    List.findSome?_cons, h]
  rfl

/-! ## The forms of texts -/

theorem enclosed?_of_head {c : Char} (hc : c ≠ '(') (rest : List Char) :
    enclosed? (c :: rest) = none := by
  unfold enclosed?
  split
  · next h => exact absurd (List.cons.inj h).1 hc
  · rfl

/-- A text that starts with a name is not in parentheses. -/
theorem enclosed?_of_name {a : List Char} (ha : isIdentifier a = true) (v : List Char) :
    enclosed? (a ++ v) = none := by
  cases a with
  | nil => cases ha
  | cons c rest =>
    refine enclosed?_of_head ?_ _
    rintro rfl
    exact absurd (isNameChar_of_isIdentifier ha '(' List.mem_cons_self) (by decide)

theorem Balanced.enclosed? {w : List Char} (h : Balanced w) :
    enclosed? ('(' :: (w ++ [')'])) = some w := by
  rw [WhileSmt.enclosed?, h.splitClosing_end rfl rfl]
  rfl

/-- Parentheses that end before the text does not enclose it. -/
theorem Balanced.enclosed?_eq_none {w : List Char} (h : Balanced w) (c : Char) (v : List Char) :
    WhileSmt.enclosed? ('(' :: (w ++ ')' :: c :: v)) = none := by
  rw [WhileSmt.enclosed?, h.splitClosing_end rfl rfl]
  rfl

theorem arrayRead?_of_not_mem {text : List Char} (h : '[' ∉ text) : arrayRead? text = none := by
  have hdrop : (text ++ []).dropWhile (· ≠ '[') = [] := by
    refine List.dropWhile_append_of_pos ?_
    intro c hc
    exact decide_eq_true fun heq => h (heq ▸ hc)
  rw [List.append_nil] at hdrop
  rw [arrayRead?, hdrop]

/-- What stands before the first square bracket of an array read is a name. -/
theorem arrayRead?_of_front {u v : List Char} {c : Char} (hu : '[' ∉ u) (hc : c ≠ '[')
    (hname : isNameChar c = false) (hblank : Text.isBlank c = false) :
    arrayRead? (u ++ c :: v) = none := by
  have htake : (u ++ c :: v).takeWhile (· ≠ '[') = u ++ c :: v.takeWhile (· ≠ '[') := by
    rw [List.takeWhile_append_of_pos, List.takeWhile_cons_of_pos (by simp [hc])]
    intro d hd
    exact decide_eq_true fun heq => hu (heq ▸ hd)
  have hnot : isIdentifier (Text.trim ((u ++ c :: v).takeWhile (· ≠ '['))) = false := by
    rw [htake]
    exact isIdentifier_eq_false (Text.mem_trim (by simp) hblank) hname
  unfold arrayRead?
  split
  · rfl
  · split
    · rw [hnot, if_neg Bool.false_ne_true]
    · rfl

/-- A name, a text in square brackets, and what follows them. -/
theorem arrayRead?_index {a w : List Char} (ha : isIdentifier a = true) (hw : Balanced w)
    (v : List Char) :
    arrayRead? (a ++ '[' :: (w ++ ']' :: v)) = if v = [] then some (a, w) else none := by
  have hnot : ∀ d ∈ a, decide (d ≠ '[') = true := by
    intro d hd
    refine decide_eq_true ?_
    rintro rfl
    exact absurd (isNameChar_of_isIdentifier ha _ hd) (by decide)
  have htake : (a ++ '[' :: (w ++ ']' :: v)).takeWhile (· ≠ '[') = a := by
    rw [List.takeWhile_append_of_pos hnot, List.takeWhile_cons_of_neg (by simp), List.append_nil]
  have hdrop : (a ++ '[' :: (w ++ ']' :: v)).dropWhile (· ≠ '[') = '[' :: (w ++ ']' :: v) := by
    rw [List.dropWhile_append_of_pos hnot, List.dropWhile_cons_of_neg (by simp)]
  rw [arrayRead?, hdrop]
  dsimp only
  rw [hw.splitClosing_end rfl rfl, htake, (solid_of_isIdentifier ha).trim_eq, ha]
  cases v with
  | nil => rfl
  | cons c v => rfl

namespace Phrase

variable {text inside : List Char}

theorem of_group (hsolid : Text.Solid text) (h : enclosed? text = some inside) :
    Phrase.of text = .group inside := by
  rw [Phrase.of, hsolid.trim_eq, ofTrimmed, h]
  cases text with
  | nil => cases h
  | cons c rest => rfl

theorem of_read (hsolid : Text.Solid text) (hne : text ≠ []) (henclosed : enclosed? text = none)
    {a : List Char} (h : arrayRead? text = some (a, inside)) :
    Phrase.of text = .read a inside := by
  rw [Phrase.of, hsolid.trim_eq, ofTrimmed, henclosed, h, if_neg (by simp [hne])]

theorem of_number (hsolid : Text.Solid text) (hne : text ≠ []) (henclosed : enclosed? text = none)
    (hread : arrayRead? text = none) {n : Int64} (h : Text.readInt64? text = some n) :
    Phrase.of text = .number n := by
  rw [Phrase.of, hsolid.trim_eq, ofTrimmed, henclosed, hread, h, if_neg (by simp [hne])]

theorem of_operation (hsolid : Text.Solid text) (hne : text ≠ [])
    (henclosed : enclosed? text = none) (hread : arrayRead? text = none)
    (hnumber : Text.readInt64? text = none) {op : BinOp} {l r : List Char}
    (h : splitOperator? text = some (op, l, r)) : Phrase.of text = .operation op l r := by
  rw [Phrase.of, hsolid.trim_eq, ofTrimmed, henclosed, hread, hnumber, h, if_neg (by simp [hne])]

theorem of_name (hsolid : Text.Solid text) (henclosed : enclosed? text = none)
    (hread : arrayRead? text = none) (hnumber : Text.readInt64? text = none)
    (hoperator : splitOperator? text = none) (h : isIdentifier text = true) :
    Phrase.of text = .name text := by
  have hne : text ≠ [] := by
    rintro rfl
    cases h
  rw [Phrase.of, hsolid.trim_eq, ofTrimmed, henclosed, hread, hnumber, hoperator, h,
    if_neg (by simp [hne])]
  rfl

end Phrase

/-! ## Reading -/

namespace Expr

/-- Reading an expression by the form of its text. -/
theorem parse_eq (text : List Char) :
    Expr.parse text = match Phrase.of text with
      | .empty => .error .missingOperand
      | .group inside => Expr.parse inside
      | .read a inside => do
        let i ← Expr.parse inside
        return .index (String.ofList a) i
      | .number n => .ok (.lit n)
      | .operation op left right => do
        let l ← Expr.parse left
        let r ← Expr.parse right
        return .binary op l r
      | .name x => .ok (.var (String.ofList x))
      | .unknown text => .error (.invalidOperand (String.ofList text)) := by
  rw [Expr.parse]
  split <;> next h => simp only [h]

/-- Blanks around an expression do not matter. -/
theorem parse_trim {text text' : List Char} (h : Text.trim text = Text.trim text') :
    Expr.parse text = Expr.parse text' := by
  rw [parse_eq, parse_eq, Phrase.of, Phrase.of, h]

/-- A literal does not start with a parenthesis and has no bracket in it. -/
theorem lit_brackets (n : Int64) :
    '[' ∉ text (.lit n) ∧ ∀ v, enclosed? (text (.lit n) ++ v) = none := by
  obtain ⟨c, ds, hdigits, htext⟩ := exists_text_lit n
  have hother : ∀ a, Text.isDigit a = false → a ∉ c :: ds := fun a ha hmem => by
    simp [hdigits a hmem] at ha
  rcases htext with htext | ⟨htext, -⟩
  · rw [htext]
    refine ⟨hother '[' rfl, fun v => enclosed?_of_head ?_ _⟩
    rintro rfl
    exact hother '(' rfl List.mem_cons_self
  · rw [htext, List.mem_cons, not_or]
    exact ⟨⟨by decide, hother '[' rfl⟩, fun v => enclosed?_of_head (by decide) _⟩

theorem parse_lit (n : Int64) : Expr.parse (text (.lit n)) = .ok (.lit n) := by
  have hshown : Shown true (.lit n) (text (.lit n)) := .lit n
  obtain ⟨hbracket, henclosed⟩ := lit_brackets n
  have henclosed := henclosed []
  rw [List.append_nil] at henclosed
  rw [parse_eq, Phrase.of_number hshown.solid hshown.ne_nil henclosed
    (arrayRead?_of_not_mem hbracket) (Text.readInt64?_int64 n)]

/-- A name is not taken for anything else. -/
theorem parse_var {x : String} (h : isIdentifier x.toList = true) :
    Expr.parse (text (.var x)) = .ok (.var x) := by
  have hchars := isNameChar_of_isIdentifier h
  have hnumber : Text.readInt64? x.toList = none := by
    cases hx : x.toList with
    | nil => rfl
    | cons c rest =>
      rw [hx] at h hchars
      have hc := hchars c List.mem_cons_self
      refine Text.readInt64?_eq_none List.mem_cons_self (isDigit_of_head (isIdentifier_cons h).1)
        ?_ ?_
      · rintro rfl
        exact absurd hc (by decide)
      · rintro rfl
        exact absurd hc (by decide)
  have hoperator : splitOperator? x.toList = none := by
    rw [splitOperator?, List.findSome?_eq_none_iff]
    intro op _
    obtain ⟨d, symbol, hsymbol, hname, -⟩ := op.exists_symbol
    have h := splitOutside_name hname hchars symbol 0 []
    rw [List.append_nil] at h
    rw [hsymbol, h]
    rfl
  have henclosed := enclosed?_of_name h []
  rw [List.append_nil] at henclosed
  have hbracket : '[' ∉ x.toList := fun hmem => absurd (hchars _ hmem) (by decide)
  rw [parse_eq, text_var, Phrase.of_name (solid_of_isIdentifier h) henclosed
    (arrayRead?_of_not_mem hbracket) hnumber hoperator h]
  simp

end Expr

namespace Shown

open WhileSmt.Expr

variable {b : Bool} {e l r : Expr String} {op : BinOp} {w u v : List Char}

/-- The parentheses around the first operand do not enclose the operation. -/
theorem enclosed? (h : Shown true e w) (c : Char) (t : List Char) :
    WhileSmt.enclosed? (w ++ c :: t) = none := by
  cases h with
  | lit n => exact (lit_brackets n).2 _
  | var hx => exact enclosed?_of_name hx _
  | index ha _ =>
    rw [List.append_assoc]
    exact enclosed?_of_name ha _
  | group hinner =>
    rw [List.cons_append, List.append_assoc]
    exact hinner.balanced.enclosed?_eq_none c t

/-- An operation is no array read, even if its first operand is one. -/
theorem arrayRead? (h : Shown true e w) {c : Char} (hc : c ≠ '[') (hname : isNameChar c = false)
    (hblank : Text.isBlank c = false) (t : List Char) :
    WhileSmt.arrayRead? (w ++ ' ' :: c :: t) = none := by
  have hword : '[' ∉ w → WhileSmt.arrayRead? (w ++ ' ' :: c :: t) = none := by
    intro hmem
    rw [show w ++ ' ' :: c :: t = (w ++ [' ']) ++ c :: t by simp]
    exact arrayRead?_of_front (by simpa using hmem) hc hname hblank
  cases h with
  | lit n => exact hword (lit_brackets n).1
  | var hx => exact hword fun hmem => absurd (isNameChar_of_isIdentifier hx _ hmem) (by decide)
  | index ha hi =>
    have hread := arrayRead?_index ha hi.balanced (' ' :: c :: t)
    rw [if_neg (List.cons_ne_nil _ _)] at hread
    simpa using hread
  | group => exact @arrayRead?_of_front [] _ '(' List.not_mem_nil (by decide) rfl rfl

/-- A text that starts with an operand and an operator is an operation if it is split. -/
theorem of_operation (hl : Shown true l u) {t before after : List Char} {op' : BinOp}
    (hsolid : Text.Solid (u ++ ' ' :: (op.symbol.toList ++ t)))
    (h : splitOperator? (u ++ ' ' :: (op.symbol.toList ++ t)) = some (op', before, after)) :
    Phrase.of (u ++ ' ' :: (op.symbol.toList ++ t)) = .operation op' before after := by
  obtain ⟨c, rest, hsymbol, hname, hblank, hc⟩ := op.exists_symbol
  have harray : WhileSmt.arrayRead? (u ++ ' ' :: (op.symbol.toList ++ t)) = none := by
    rw [hsymbol]
    exact hl.arrayRead? hc hname hblank _
  exact Phrase.of_operation hsolid (by simp) (hl.enclosed? ' ' _) harray
    (Text.readInt64?_eq_none (c := ' ') (by simp) rfl (by decide) (by decide)) h

/-- The text of an operation is split at its operator, if no sign is in the way. -/
theorem of_operands (hl : Shown true l u) (hr : Shown true r v)
    (hleft : [.arith .sub, .arith .mul, .arith .div, .arith .mod].contains op = true →
      l.isNegative = false)
    (hright : [.arith .mul, .arith .div, .arith .mod].contains op = true → r.isNegative = false) :
    Phrase.of (u ++ ' ' :: (op.symbol.toList ++ ' ' :: v)) =
      .operation op (u ++ [' ']) (' ' :: v) := by
  refine hl.of_operation (Shown.operation hl hr).solid (splitOperator?_of_earlier ?_ ?_)
  · intro op' hop'
    refine hl.splitOutside_earlier hr hop' ?_
    rintro rfl
    have hmem := BinOp.not_sign_of_earlier rfl hop'
    simp only [List.mem_cons, List.not_mem_nil, or_false] at hmem
    rcases hmem with rfl | rfl | rfl <;> exact ⟨hleft rfl, hright rfl⟩
  · refine hl.splitOutside_operator ?_ _
    rintro rfl
    exact hleft rfl

/-- An operand is read without the blanks around it. -/
theorem parse_operand (h : Shown b e w) :
    Expr.parse (w ++ [' ']) = Expr.parse w ∧ Expr.parse (' ' :: w) = Expr.parse w := by
  have hafter := Text.trim_append Text.blank_nil h.solid Text.blank_space
  have hbefore := Text.trim_append Text.blank_space h.solid Text.blank_nil
  rw [List.nil_append] at hafter
  rw [List.append_nil] at hbefore
  exact ⟨parse_trim (hafter.trans h.solid.trim_eq.symm),
    parse_trim (hbefore.trans h.solid.trim_eq.symm)⟩

theorem parse_index {a : String} {i : Expr String} (ha : isIdentifier a.toList = true)
    (hi : Shown false i w) :
    Expr.parse (a.toList ++ '[' :: (w ++ [']'])) = do
      let i ← Expr.parse w
      return .index a i := by
  have harray := arrayRead?_index ha hi.balanced []
  rw [if_pos rfl] at harray
  have hshown : Shown true (.index a i) (a.toList ++ '[' :: (w ++ [']'])) := .index ha hi
  rw [parse_eq, Phrase.of_read hshown.solid hshown.ne_nil (enclosed?_of_name ha _) harray]
  simp

theorem parse_group (h : Shown false (.binary op l r) w) :
    Expr.parse ('(' :: (w ++ [')'])) = Expr.parse w := by
  have hshown : Shown true (.binary op l r) ('(' :: (w ++ [')'])) := .group h
  rw [parse_eq, Phrase.of_group hshown.solid h.balanced.enclosed?]

theorem parse_operands (hl : Shown true l u) (hr : Shown true r v)
    (hleft : [.arith .sub, .arith .mul, .arith .div, .arith .mod].contains op = true →
      l.isNegative = false)
    (hright : [.arith .mul, .arith .div, .arith .mod].contains op = true → r.isNegative = false) :
    Expr.parse (u ++ ' ' :: (op.symbol.toList ++ ' ' :: v)) = do
      let l ← Expr.parse u
      let r ← Expr.parse v
      return .binary op l r := by
  rw [parse_eq, hl.of_operands hr hleft hright]
  dsimp only
  rw [hl.parse_operand.1, hr.parse_operand.2]

/-- The text of an expression is read back as the expression. -/
theorem parse (h : Shown b e w) (hsigns : e.signsApart = true) : Expr.parse w = .ok e := by
  induction h with
  | lit n => exact parse_lit n
  | var hx => exact parse_var hx
  | index ha hi ih =>
    rw [parse_index ha hi, ih hsigns]
    rfl
  | group hinner ih => rw [parse_group hinner, ih hsigns]
  | operation hl hr ihl ihr =>
    simp only [signsApart, Bool.and_eq_true, Bool.not_eq_true', Bool.and_eq_false_imp] at hsigns
    obtain ⟨⟨⟨hsl, hsr⟩, hleft⟩, hright⟩ := hsigns
    rw [parse_operands hl hr hleft hright, ihl hsl, ihr hsr]
    rfl

end Shown

namespace Expr

theorem shown_text {e : Expr String} (h : e.proper = true) : Shown true e e.text := by
  induction e with
  | lit n => exact .lit n
  | var x => exact .var h
  | index a i ih =>
    rw [proper, Bool.and_eq_true] at h
    rw [text_index]
    exact .index h.1 (ih h.2).relax
  | unary op e => cases h
  | binary op l r ihl ihr =>
    rw [proper, Bool.and_eq_true] at h
    rw [text_binary]
    exact .group (.operation (ihl h.1) (ihr h.2))

variable {e : Expr String}

theorem balanced_text (h : e.readable = true) : Balanced e.text :=
  (shown_text (readable_iff.mp h).1).balanced

theorem text_ne_nil (h : e.readable = true) : e.text ≠ [] :=
  (shown_text (readable_iff.mp h).1).ne_nil

theorem solid_text (h : e.readable = true) : Text.Solid e.text :=
  (shown_text (readable_iff.mp h).1).solid

/-- The text of an expression is read back as the expression. -/
theorem parse_text (h : e.readable = true) : Expr.parse e.text = .ok e :=
  (shown_text (readable_iff.mp h).1).parse (readable_iff.mp h).2

end Expr

end WhileSmt
