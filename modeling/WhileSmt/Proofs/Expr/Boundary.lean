import WhileSmt.Proofs.Expr.RoundTrip

/-!
Which expressions are read back from their texts. The sign of a negative literal is taken for a
subtraction where the literal is the left operand of a subtraction, product, quotient or remainder,
or the right operand of one of the last three. Such a text is no expression: one side of an operator
is empty, so reading fails and never gives another expression.

Main statement: `Expr.parse_rendered`.
-/

namespace WhileSmt

/-! ## Faults -/

/-- Reading something ends with a fault. -/
def Fails {ε α : Type} (x : Except ε α) : Prop :=
  ∃ error, x = .error error

namespace Fails

variable {ε α β γ : Type} {x : Except ε α} {y : Except ε β}

theorem bind (h : Fails x) (f : α → Except ε β) : Fails (x >>= f) := by
  obtain ⟨error, rfl⟩ := h
  exact ⟨error, rfl⟩

/-- Two readings in turn fail if the second one does, whether or not the first one does. -/
theorem bind_second (h : Fails y) (f : α → β → Except ε γ) :
    Fails (x >>= fun a => y >>= fun b => f a b) := by
  cases x with
  | error error => exact ⟨error, rfl⟩
  | ok a => exact h.bind (f a)

end Fails

theorem Expr.fails_blank {w : List Char} (hw : Text.Blank w) : Fails (Expr.parse w) := by
  refine ⟨.missingOperand, ?_⟩
  rw [parse_eq, Phrase.of, Text.trim_of_blank hw]
  rfl

/-! ## Signs -/

theorem Expr.exists_text_negative {e : Expr String} (h : e.isNegative = true) :
    ∃ n ds, e = .lit n ∧ text (.lit n) = '-' :: ds := by
  cases e with
  | lit n =>
    refine ⟨n, ?_⟩
    rw [text_lit, Text.int64]
    cases hn : n.toInt with
    | ofNat m =>
      rw [isNegative, hn] at h
      exact absurd (of_decide_eq_true h) (Int.not_lt.mpr (Int.natCast_nonneg m))
    | negSucc m => exact ⟨_, rfl, Text.toList_integer_negSucc m⟩
  | _ => cases h

namespace Shown

open WhileSmt.Expr

variable {b : Bool} {e l r : Expr String} {op : BinOp} {w u v : List Char}

/-- A negative literal must not stand to the left of an operator that it must not stand to the right
of. -/
theorem contains_sub (h : [.arith .mul, .arith .div, .arith .mod].contains op = true) :
    [.arith .sub, .arith .mul, .arith .div, .arith .mod].contains op = true :=
  List.contains_iff_mem.mpr (List.mem_cons_of_mem _ (List.contains_iff_mem.mp h))

/-- The operators that are tried for before subtraction come before all others that a negative
literal must not stand next to. -/
theorem earlier_of_sub {op op' : BinOp}
    (h : [.arith .sub, .arith .mul, .arith .div, .arith .mod].contains op = true)
    (hop : op' ∈ BinOp.earlier (.arith .sub)) : op' ∈ op.earlier ∧ op' ≠ .arith .sub := by
  have hall : ∀ op ∈ [BinOp.arith .sub, .arith .mul, .arith .div, .arith .mod],
      ∀ op' ∈ BinOp.earlier (.arith .sub), op' ∈ op.earlier ∧ op' ≠ .arith .sub := by decide
  exact hall op (List.contains_iff_mem.mp h) op' hop

/-- A text with an operator that a negative literal must not stand next to is split at a sign, if
there is one. -/
theorem of_sign (hl : Shown true l u) (hr : Shown true r v)
    (hop : [.arith .sub, .arith .mul, .arith .div, .arith .mod].contains op = true)
    {before after : List Char}
    (hsign : WhileSmt.splitOutside ['-'] 0 (u ++ ' ' :: (op.symbol.toList ++ ' ' :: v)) =
      some (before, after)) :
    Phrase.of (u ++ ' ' :: (op.symbol.toList ++ ' ' :: v)) =
      .operation (.arith .sub) before after := by
  refine hl.of_operation (Shown.operation hl hr).solid (splitOperator?_of_earlier ?_ hsign)
  intro op' hop'
  obtain ⟨hearlier, hne⟩ := earlier_of_sub hop hop'
  exact hl.splitOutside_earlier hr hearlier fun heq => absurd heq hne

/-- Nothing stands to the left of the sign of the first operand. -/
theorem fails_left (hl : Shown true l u) (hr : Shown true r v)
    (hop : [.arith .sub, .arith .mul, .arith .div, .arith .mod].contains op = true)
    (hneg : l.isNegative = true) :
    Fails (Expr.parse (u ++ ' ' :: (op.symbol.toList ++ ' ' :: v))) := by
  obtain ⟨n, ds, rfl, htext⟩ := exists_text_negative hneg
  cases hl with
  | lit n =>
    have hsign : WhileSmt.splitOutside ['-'] 0
        (text (.lit n) ++ ' ' :: (op.symbol.toList ++ ' ' :: v)) =
        some ([], ds ++ ' ' :: (op.symbol.toList ++ ' ' :: v)) := by
      rw [htext]
      rfl
    rw [parse_eq, (Shown.lit n).of_sign hr hop hsign]
    exact (fails_blank Text.blank_nil).bind _

/-- An operand and an operator without its right operand. -/
theorem fails_unfinished (hl : Shown true l u)
    (hop : [.arith .mul, .arith .div, .arith .mod].contains op = true)
    (hpos : l.isNegative = false) :
    Fails (Expr.parse (u ++ ' ' :: (op.symbol.toList ++ [' ']))) := by
  have hmem := List.contains_iff_mem.mp hop
  have hsolid : Text.Solid (u ++ ' ' :: (op.symbol.toList ++ [])) := by
    have hsymbol := Text.solid_of_forall fun c hc => (op.symbol_chars c hc).2.1
    rw [List.append_nil]
    exact hl.solid.append hl.ne_nil hsymbol op.symbol_ne_nil [' ']
  have htrim : Text.trim (u ++ ' ' :: (op.symbol.toList ++ [' '])) =
      Text.trim (u ++ ' ' :: (op.symbol.toList ++ [])) := by
    rw [← Text.trim_append_blank (u ++ ' ' :: (op.symbol.toList ++ [])) Text.blank_space]
    simp
  have hnone : ∀ op' ∈ op.earlier,
      WhileSmt.splitOutside op'.symbol.toList 0 (u ++ ' ' :: (op.symbol.toList ++ [])) = none := by
    intro op' hop'
    have hall : ∀ op ∈ [BinOp.arith .mul, .arith .div, .arith .mod], ∀ op' ∈ op.earlier,
        WhileSmt.splitOutside op'.symbol.toList 0 op.symbol.toList = none := by decide
    have hsymbol := hall op hmem op' hop'
    obtain ⟨c, rest, hc, hname, hblank, -⟩ := op'.exists_symbol
    rw [hc] at hsymbol ⊢
    rw [List.append_nil, hl.splitOutside hname (.inr hpos), splitOutside_blank hblank, hsymbol]
    rfl
  have hfound : WhileSmt.splitOutside op.symbol.toList 0 (u ++ ' ' :: (op.symbol.toList ++ [])) =
      some (u ++ [' '], []) := hl.splitOutside_operator (fun _ => hpos) []
  rw [parse_trim htrim, parse_eq, hl.of_operation hsolid (splitOperator?_of_earlier hnone hfound)]
  exact (fails_blank Text.blank_nil).bind_second _

/-- To the left of the sign of the second operand the operator has nothing on its right. -/
theorem fails_right (hl : Shown true l u) (hr : Shown true r v)
    (hop : [.arith .mul, .arith .div, .arith .mod].contains op = true)
    (hpos : l.isNegative = false) (hneg : r.isNegative = true) :
    Fails (Expr.parse (u ++ ' ' :: (op.symbol.toList ++ ' ' :: v))) := by
  obtain ⟨n, ds, rfl, htext⟩ := exists_text_negative hneg
  have hmem := List.contains_iff_mem.mp hop
  cases hr with
  | lit n =>
    have hoperator : WhileSmt.splitOutside ['-'] 0 (op.symbol.toList ++ ' ' :: '-' :: ds) =
        some (op.symbol.toList ++ [' '], ds) := by
      simp only [List.mem_cons, List.not_mem_nil, or_false] at hmem
      rcases hmem with rfl | rfl | rfl <;> rfl
    have hsign : WhileSmt.splitOutside ['-'] 0
        (u ++ ' ' :: (op.symbol.toList ++ ' ' :: text (.lit n))) =
        some (u ++ ' ' :: (op.symbol.toList ++ [' ']), ds) := by
      rw [htext, hl.splitOutside rfl (.inr hpos), splitOutside_blank rfl, hoperator]
      rfl
    rw [parse_eq, hl.of_sign (Shown.lit n) (contains_sub hop) hsign]
    exact (hl.fails_unfinished hop hpos).bind _

/-- A text in which a sign is taken for an operator is not read at all. -/
theorem fails (h : Shown b e w) (hsigns : e.signsApart = false) : Fails (Expr.parse w) := by
  induction h with
  | lit n => cases hsigns
  | var hx => cases hsigns
  | index ha hi ih =>
    rw [parse_index ha hi]
    exact (ih hsigns).bind _
  | group hinner ih =>
    rw [parse_group hinner]
    exact ih hsigns
  | @operation op l r u v hl hr ihl ihr =>
    simp only [signsApart, Bool.and_eq_false_iff, Bool.not_eq_false', Bool.and_eq_true] at hsigns
    by_cases hleft : [.arith .sub, .arith .mul, .arith .div, .arith .mod].contains op = true ∧
        l.isNegative = true
    · exact hl.fails_left hr hleft.1 hleft.2
    · rw [not_and, Bool.not_eq_true] at hleft
      by_cases hright : [.arith .mul, .arith .div, .arith .mod].contains op = true ∧
          r.isNegative = true
      · exact hl.fails_right hr hright.1 (hleft (contains_sub hright.1)) hright.2
      · -- the text is split at its operator, so the fault is in an operand
        rw [not_and, Bool.not_eq_true] at hright
        rw [parse_operands hl hr hleft hright]
        rcases hsigns with ((hsl | hsr) | hneg) | hneg
        · exact (ihl hsl).bind _
        · exact (ihr hsr).bind_second _
        · exact absurd hneg.2 (by simp [hleft hneg.1])
        · exact absurd hneg.2 (by simp [hright hneg.1])

end Shown

/-! ## Both renderings -/

namespace Expr

/-- Labels leave out the outermost parentheses only. -/
theorem shown_label {e : Expr String} (h : e.proper = true) :
    Shown false e (e.label id).toList ∧ Shown true e (enclose e (e.label id)).toList := by
  induction e with
  | lit n => exact ⟨.lit n, .lit n⟩
  | var x => exact ⟨.var h, .var h⟩
  | index a i ih =>
    rw [proper, Bool.and_eq_true] at h
    have htext : (label id (.index a i)).toList =
        a.toList ++ '[' :: ((i.label id).toList ++ [']']) := by
      simp [label]
    have hindex : ∀ b, Shown b (.index a i) (label id (.index a i)).toList := by
      intro b
      rw [htext]
      exact .index h.1 (ih h.2).1
    exact ⟨hindex false, hindex true⟩
  | unary op e => cases h
  | binary op l r ihl ihr =>
    rw [proper, Bool.and_eq_true] at h
    have hopen : Shown false (.binary op l r) (label id (.binary op l r)).toList := by
      have htext : (label id (.binary op l r)).toList = (enclose l (l.label id)).toList ++
          ' ' :: (op.symbol.toList ++ ' ' :: (enclose r (r.label id)).toList) := by
        simp [label]
      rw [htext]
      exact .operation (ihl h.1).2 (ihr h.2).2
    have henclosed : (enclose (.binary op l r) (label id (.binary op l r))).toList =
        '(' :: ((label id (.binary op l r)).toList ++ [')']) := by
      simp [enclose, isBinary]
    refine ⟨hopen, ?_⟩
    rw [henclosed]
    exact .group hopen

/-- Both texts of an expression with proper names and without unary operations are read back as the
expression if its signs are apart from its operators, and are not read at all otherwise. -/
theorem parse_rendered {e : Expr String} (h : e.proper = true) :
    ∀ text ∈ [e.render id, e.label id],
      (e.signsApart = true → Expr.parse text.toList = .ok e) ∧
      (e.signsApart = false → ∃ error, Expr.parse text.toList = .error error) := by
  simp only [List.forall_mem_cons]
  refine ⟨?_, ?_, List.forall_mem_nil _⟩
  · exact ⟨(shown_text h).parse, (shown_text h).fails⟩
  · exact ⟨(shown_label h).1.parse, (shown_label h).1.fails⟩

/-- A negative literal can be subtracted from a name and cannot be multiplied with it. -/
theorem parse_negative_operand :
    Expr.parse "(x - -3)".toList = .ok (.binary (.arith .sub) (.var "x") (.lit (-3))) ∧
      ∃ error, Expr.parse "x * -3".toList = .error error := by
  have hproper (op : BinOp) : proper (.binary op (.var "x") (.lit (-3))) = true := rfl
  have hrender : render id (.binary (.arith .sub) (.var "x") (.lit (-3))) = "(x - -3)" := by
    decide +kernel
  have hlabel : label id (.binary (.arith .mul) (.var "x") (.lit (-3))) = "x * -3" := by
    decide +kernel
  have hsub := parse_rendered (hproper (.arith .sub)) _ List.mem_cons_self
  have hmul := parse_rendered (hproper (.arith .mul)) _ (List.mem_cons_of_mem _ List.mem_cons_self)
  rw [hrender] at hsub
  rw [hlabel] at hmul
  exact ⟨hsub.1 (by decide), hmul.2 (by decide)⟩

end Expr

end WhileSmt
