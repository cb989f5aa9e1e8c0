import WhileSmt.Proofs.Smt.SexpReading

/-!
Sequences of S-expressions and their parentheses. Texts with blanks between them are read back as
the sequence, and an extra parenthesis outside atoms is always noticed: of one kind or the other
there is then one too many.

Main statement: `Sexp.parse_listed`.
-/

namespace WhileSmt

namespace Sexp

/-! ## Depth -/

/-- The number of open lists after some tokens, if every closing parenthesis closes one. -/
def depthAfter : Nat → List Token → Option Nat
  | depth, [] => some depth
  | depth, .opening :: rest => depthAfter (depth + 1) rest
  | 0, .closing :: _ => none
  | depth + 1, .closing :: rest => depthAfter depth rest
  | depth, .atom _ :: rest => depthAfter depth rest
  | depth, .unterminated :: rest => depthAfter depth rest

theorem depthAfter_append (depth : Nat) (ts ts' : List Token) :
    depthAfter depth (ts ++ ts') = (depthAfter depth ts).bind fun d => depthAfter d ts' := by
  fun_induction depthAfter depth ts with
  | case1 depth => rfl
  | case2 depth rest ih => exact ih
  | case3 rest => rfl
  | case4 depth rest ih => exact ih
  | case5 depth word rest ih => simpa only [List.cons_append, depthAfter] using ih
  | case6 depth rest ih => simpa only [List.cons_append, depthAfter] using ih

/-- One more list that is open before is one more that is open after. -/
theorem depthAfter_succ {depth d : Nat} {ts : List Token} (h : depthAfter depth ts = some d) :
    depthAfter (depth + 1) ts = some (d + 1) := by
  fun_induction depthAfter depth ts with
  | case1 depth =>
    cases h
    rfl
  | case2 depth rest ih => exact ih h
  | case3 rest => cases h
  | case4 depth rest ih => exact ih h
  | case5 depth word rest ih => exact ih h
  | case6 depth rest ih => exact ih h

section

variable {before after : List Token}

/-- Tokens in balance can be cut anywhere: the first part leaves as many lists open as the second
one closes. -/
theorem exists_depthAfter (h : depthAfter 0 (before ++ after) = some 0) :
    ∃ d, depthAfter 0 before = some d ∧ depthAfter d after = some 0 := by
  rw [depthAfter_append] at h
  exact Option.bind_eq_some_iff.mp h

theorem depthAfter_extra_opening (h : depthAfter 0 (before ++ after) = some 0) :
    depthAfter 0 (before ++ .opening :: after) = some 1 := by
  obtain ⟨d, hbefore, hafter⟩ := exists_depthAfter h
  rw [depthAfter_append, hbefore]
  exact depthAfter_succ hafter

theorem depthAfter_extra_closing (h : depthAfter 0 (before ++ after) = some 0) :
    depthAfter 0 (before ++ .closing :: after) = none := by
  obtain ⟨d, hbefore, hafter⟩ := exists_depthAfter h
  rw [depthAfter_append, hbefore]
  cases d with
  | zero => rfl
  | succ d =>
    show depthAfter d after = none
    cases hdepth : depthAfter d after with
    | none => rfl
    | some k =>
      -- the second part would leave a list open when it starts one level further in
      rw [depthAfter_succ hdepth] at hafter
      cases hafter

end

/-- What building comes to is decided by the depth after all tokens. -/
theorem build_of_depthAfter {ts : List Token} (h : .unterminated ∉ ts) (current : List Sexp)
    (outer : List (List Sexp)) :
    match depthAfter outer.length ts with
    | none => build current outer ts = .error .extraClosing
    | some 0 => ∃ items, build current outer ts = .ok items
    | some (_ + 1) => build current outer ts = .error .missingClosing := by
  induction ts generalizing current outer with
  | nil =>
    cases outer with
    | nil => exact ⟨current.reverse, rfl⟩
    | cons around outer => rfl
  | cons t ts ih =>
    rw [List.mem_cons, not_or] at h
    cases t with
    | opening => exact ih h.2 [] (current :: outer)
    | closing =>
      cases outer with
      | nil => rfl
      | cons around outer => exact ih h.2 (.list current.reverse :: around) outer
    | atom word => exact ih h.2 (.atom (String.ofList word) :: current) outer
    | unterminated => exact absurd rfl h.1

/-- The parentheses of S-expressions are in balance. -/
theorem depthAfter_allTokens {items : List Sexp} (h : .unterminated ∉ allTokens items) :
    depthAfter 0 (allTokens items) = some 0 := by
  have hresult := build_of_depthAfter h [] []
  have hbuild := build_allTokens items [] [] []
  rw [List.append_nil] at hbuild
  rw [hbuild] at hresult
  cases hdepth : depthAfter 0 (allTokens items) with
  | none =>
    rw [List.length_nil, hdepth] at hresult
    cases hresult
  | some d =>
    cases d with
    | zero => rfl
    | succ d =>
      rw [List.length_nil, hdepth] at hresult
      cases hresult

/-! ## Sequences -/

/-- The texts of S-expressions one after another, with blanks between them. -/
inductive Listed : List Sexp → List Char → Prop where
  | nil : Listed [] []
  | single (s : Sexp) : Listed [s] s.text.toList
  | cons {s next : Sexp} {rest : List Sexp} {w text : List Char} :
      Text.Blank w → w ≠ [] → Listed (next :: rest) text →
      Listed (s :: next :: rest) (s.text.toList ++ (w ++ text))

theorem Listed.spells {items : List Sexp} {text : List Char} (h : Listed items text)
    (hitems : AllReadable items) : Spells (allTokens items) text := by
  induction h with
  | nil => exact .nil
  | single s =>
    have hs := spells_text s hitems.1 endsAtom_nil Spells.nil
    rwa [List.append_nil (s.text.toList)] at hs
  | @cons s next rest w text hw hne _ ih =>
    refine spells_text s hitems.1 ?_ (Spells.blanks hw (ih hitems.2))
    obtain ⟨c, w, rfl⟩ := List.exists_cons_of_ne_nil hne
    have hc := hw c List.mem_cons_self
    exact endsAtom_cons (by simp [isAtomChar, hc])

/-- S-expressions are read back from their texts with blanks between them. Between any two tokens
the text can be cut, and wherever that is, reading fails with one more parenthesis put in: a list is
not closed, or there is none to close. -/
theorem parse_listed {items : List Sexp} {text : List Char} (hitems : AllReadable items)
    (h : Listed items text) :
    parse text = .ok items ∧
      ∀ before after, before ++ after = allTokens items →
        (∃ u v, text = u ++ v ∧ Spells before u ∧ Spells after v) ∧
        ∀ u v, text = u ++ v → Spells before u → Spells after v →
          parse (u ++ '(' :: v) = .error .missingClosing ∧
          parse (u ++ ')' :: v) = .error .extraClosing := by
  have hspells := h.spells hitems
  refine ⟨parse_of_spells hspells, ?_⟩
  intro before after hall
  refine ⟨(hall ▸ hspells).exists_cut, ?_⟩
  rintro u v rfl hu hv
  have hbalance := depthAfter_allTokens hspells.unterminated_not_mem
  rw [← hall] at hbalance
  have hopening := hu.append (.opening hv) (endsAtom_cons (by decide))
  have hclosing := hu.append (.closing hv) (endsAtom_cons (by decide))
  constructor
  · have hresult := build_of_depthAfter hopening.unterminated_not_mem [] []
    rw [List.length_nil, depthAfter_extra_opening hbalance] at hresult
    rw [parse, hopening.scan]
    exact hresult
  · have hresult := build_of_depthAfter hclosing.unterminated_not_mem [] []
    rw [List.length_nil, depthAfter_extra_closing hbalance] at hresult
    rw [parse, hclosing.scan]
    exact hresult

/-- A list and an atom. Two of the atoms are delimited and hold parentheses and blanks. -/
def delimitedAtoms : List Sexp :=
  [.list [.atom "f", .atom "|a )(|", .list []], .atom "\" (\""]

/-- The parentheses in delimited atoms do not count, and one outside of them does. -/
theorem delimitedAtoms_read :
    parse "(f |a )(| ())\n \" (\"".toList = .ok delimitedAtoms ∧
      parse "(f( |a )(| ())\n \" (\"".toList = .error .missingClosing ∧
      parse "(f) |a )(| ())\n \" (\"".toList = .error .extraClosing := by
  have hf : IsAtom ['f'] := .plain (by decide)
  have hbars : IsAtom "|a )(|".toList :=
    @IsAtom.delimited '|' ['a', ' ', ')', '('] (.inr rfl) (by simp)
  have hquotes : IsAtom "\" (\"".toList := @IsAtom.delimited '"' [' ', '('] (.inl rfl) (by simp)
  have hreadable : AllReadable delimitedAtoms :=
    ⟨⟨hf, hbars, trivial, trivial⟩, hquotes, trivial⟩
  have hblank : Text.Blank ['\n', ' '] := List.all_eq_true.mp (by decide)
  obtain ⟨hparse, hcut⟩ := parse_listed hreadable (.cons hblank (by simp) (.single _))
  -- the place after the first atom
  have hbefore : Spells [.opening, .atom ['f']] "(f".toList := spells_iff.mpr (by decide +kernel)
  have hafter : Spells ((allTokens delimitedAtoms).drop 2) " |a )(| ())\n \" (\"".toList :=
    spells_iff.mpr (by decide +kernel)
  exact ⟨hparse, (hcut [.opening, .atom ['f']] _ rfl).2 "(f".toList _ rfl hbefore hafter⟩

end Sexp

end WhileSmt
