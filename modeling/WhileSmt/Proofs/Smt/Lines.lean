import WhileSmt.Proofs.Expr.Balanced
import WhileSmt.Proofs.Smt.Provenance
import WhileSmt.Proofs.Smt.SexpReading

/-!
The lines of scripts as a solver reads them: a line is an S-expression, the S-expression asserts a
term, and the term has a value.

Main statements: the terms of a script are read back from their S-expressions
(`Term.ofSexp?_toSexp`), and the lines of a verification script are true of a valuation if and only
if the instructions are satisfied by the values it gives to the versions
(`Script.verification_faithful`).
-/

namespace WhileSmt

/-! ## Reading terms -/

/-- The operation that a solver knows by a symbol. -/
def Arith.ofSolverSymbol? : String → Option Arith
  | "+" => some add
  | "-" => some sub
  | "*" => some mul
  | "div" => some div
  | "mod" => some mod
  | _ => none

/-- The relation that a solver knows by a symbol. -/
def Rel.ofSymbol? : String → Option Rel
  | "=" => some eq
  | "<=" => some le
  | ">=" => some ge
  | "<" => some lt
  | ">" => some gt
  | _ => none

/-- Reads a term where a sort is expected. An atom that stands for an integer is a numeral or the
name of a constant; an atom that stands for an array is a name. -/
def Term.ofSexp? : (s : Srt) → Sexp → Option (Term s)
  | .int, .atom text =>
    match Text.readNatural? text.toList with
    | some n => some (numeral n)
    | none => some (const text)
  | .int, .list [.atom "select", a, i] => do
    return select (← ofSexp? .array a) (← ofSexp? .int i)
  | .int, .list [.atom "-", t] => do
    return neg (← ofSexp? .int t)
  | .int, .list [.atom op, l, r] => do
    return arith (← Arith.ofSolverSymbol? op) (← ofSexp? .int l) (← ofSexp? .int r)
  | .int, .list [.atom "ite", c, t, e] => do
    return ite (← ofSexp? .bool c) (← ofSexp? .int t) (← ofSexp? .int e)
  | .array, .atom text => some (array text)
  | .bool, .atom "false" => some falsity
  | .bool, .list [.atom "not", t] => do
    return not (← ofSexp? .bool t)
  | .bool, .list [.atom op, l, r] => do
    return rel (← Rel.ofSymbol? op) (← ofSexp? .int l) (← ofSexp? .int r)
  | _, _ => none

/-- A term is read back from its S-expression, unless it has a constant with the name of a
numeral. -/
theorem Term.ofSexp?_toSexp {s : Srt} (t : Term s)
    (h : ∀ p ∈ t.symbols, Text.readNatural? p.1.toList = none) :
    ofSexp? s t.toSexp = some t := by
  induction t with
  | numeral n => simp [toSexp, ofSexp?, Text.natural, Text.readNatural?_digits]
  | const name =>
    have hname := h (name, .int) List.mem_cons_self
    simp [toSexp, ofSexp?, hname]
  | array name => rfl
  | select a i iha ihi =>
    simp only [symbols, List.forall_mem_append] at h
    simp [toSexp, ofSexp?, iha h.1, ihi h.2]
  | neg t ih => simp [toSexp, ofSexp?, ih h]
  | arith op l r ihl ihr =>
    simp only [symbols, List.forall_mem_append] at h
    cases op <;>
      simp [toSexp, ofSexp?, Arith.solverSymbol, Arith.ofSolverSymbol?, ihl h.1, ihr h.2]
  | ite c t e ihc iht ihe =>
    simp only [symbols, List.forall_mem_append] at h
    simp [toSexp, ofSexp?, ihc h.1.1, iht h.1.2, ihe h.2]
  | rel op l r ihl ihr =>
    simp only [symbols, List.forall_mem_append] at h
    cases op <;> simp [toSexp, ofSexp?, Rel.symbol, Rel.ofSymbol?, ihl h.1, ihr h.2]
  | not t ih => simp [toSexp, ofSexp?, ih h]
  | falsity => rfl

/-- A word of letters, digits and underscores is read as one atom. -/
theorem Sexp.isAtom_of_isNameChar {word : List Char} (hne : word ≠ [])
    (h : ∀ c ∈ word, isNameChar c = true) : IsAtom word := by
  have hchar : ∀ c, isNameChar c = true → isAtomChar c = true := by
    intro c hc
    refine isAtomChar_iff.mpr ⟨?_, ?_, isBlank_of_isNameChar hc⟩
    · rintro rfl
      exact absurd hc (by decide)
    · rintro rfl
      exact absurd hc (by decide)
  obtain ⟨c, rest, rfl⟩ := List.exists_cons_of_ne_nil hne
  have hc := h c List.mem_cons_self
  have hquote : c ≠ '"' := by rintro rfl; exact absurd hc (by decide)
  have hbar : c ≠ '|' := by rintro rfl; exact absurd hc (by decide)
  have hall : (c :: rest).all isAtomChar = true :=
    List.all_eq_true.mpr fun d hd => hchar d (h d hd)
  exact .plain (by simp only [isPlain, hall]; simp [hquote, hbar])

theorem Sexp.isAtom_natural (n : Nat) : IsAtom (Text.natural n).toList := by
  rw [Text.natural, String.toList_ofList]
  exact isAtom_of_isNameChar (Text.digits_ne_nil n) fun c hc =>
    isNameChar_of_isDigit (Text.isDigit_of_mem_digits hc)

/-- The S-expression of a term is readable if the names of the term are. -/
theorem Term.readable_toSexp {s : Srt} (t : Term s)
    (h : ∀ p ∈ t.symbols, Sexp.IsAtom p.1.toList) : t.toSexp.Readable := by
  have hword : ∀ {word : String}, Sexp.isPlain word.toList = true → Sexp.IsAtom word.toList :=
    fun hplain => .plain hplain
  induction t with
  | numeral n => exact Sexp.isAtom_natural n
  | const name => exact h (name, .int) List.mem_cons_self
  | array name => exact h (name, .array) List.mem_cons_self
  | select a i iha ihi =>
    simp only [symbols, List.forall_mem_append] at h
    exact ⟨hword (by decide), iha h.1, ihi h.2, trivial⟩
  | neg t ih => exact ⟨hword (by decide), ih h, trivial⟩
  | arith op l r ihl ihr =>
    simp only [symbols, List.forall_mem_append] at h
    exact ⟨hword (by cases op <;> decide), ihl h.1, ihr h.2, trivial⟩
  | ite c t e ihc iht ihe =>
    simp only [symbols, List.forall_mem_append] at h
    exact ⟨hword (by decide), ihc h.1.1, iht h.1.2, ihe h.2, trivial⟩
  | rel op l r ihl ihr =>
    simp only [symbols, List.forall_mem_append] at h
    exact ⟨hword (by cases op <;> decide), ihl h.1, ihr h.2, trivial⟩
  | not t ih => exact ⟨hword (by decide), ih h, trivial⟩
  | falsity => exact hword (by decide)

/-! ## Assertions -/

/-- The S-expression that asserts a term. -/
def Term.assertion (t : Term .bool) : Sexp :=
  .list [.atom "assert", t.toSexp]

/-- An S-expression asserts a term that is true. -/
def Sexp.Asserts (z : ZeroDivision) (m : Valuation) : Sexp → Prop
  | .list [.atom "assert", body] => ∃ t, Term.ofSexp? .bool body = some t ∧ t.eval z m = true
  | _ => False

theorem Term.asserts_assertion {z : ZeroDivision} {m : Valuation} {t : Term .bool}
    (h : ∀ p ∈ t.symbols, Text.readNatural? p.1.toList = none) :
    t.assertion.Asserts z m ↔ t.eval z m = true := by
  simp [assertion, Sexp.Asserts, ofSexp?_toSexp t h]

/-- The text of a version is no number. -/
theorem Version.readNatural?_text (v : Version) : Text.readNatural? v.text.toList = none := by
  have hmem : '_' ∈ v.text.toList := by simp [text]
  have hnot : ¬ v.text.toList.all Text.isDigit = true := by
    intro hall
    exact absurd (List.all_eq_true.mp hall '_' hmem) (by decide)
  simp [Text.readNatural?, hnot]

namespace Script

/-- The assertions of a script as S-expressions, those of the property in question last. -/
def assertions (s : Script) : List Sexp :=
  (s.constraints ++ s.goals).map Term.assertion

/-- The lines of a script that has no mismatch are the texts of its assertions. -/
theorem lines_eq_assertions {s : Script} (h : s.mismatch = none) :
    s.constraintLines ++ s.goalLines = s.assertions.map Sexp.text := by
  simp [constraintLines, goalLines, assertions, assertLine, Term.assertion, h, Function.comp_def]

/-- Every constant of a verification script is the text of a version of the instructions. -/
theorem exists_version_of_constraint {code : Code} {t : Term .bool}
    (ht : t ∈ (verification code).constraints ++ (verification code).goals) {p : String × Srt}
    (hp : p ∈ t.symbols) :
    ∃ v : Version, (v ∈ Code.defined code ∨ v ∈ Code.uses code) ∧ v.text = p.1 :=
  Code.exists_version_of_symbol (Code.mem_symbols_of_constraint ht p hp)

/-- The assertions of a verification script are true if and only if its terms are. -/
theorem asserts_verification {z : ZeroDivision} {m : Valuation} {code : Code} :
    (∀ s ∈ (verification code).assertions, s.Asserts z m) ↔ (verification code).Holds z m := by
  rw [assertions, List.forall_mem_map, Holds]
  refine forall₂_congr ?_
  intro t ht
  refine Term.asserts_assertion ?_
  intro p hp
  obtain ⟨v, -, hv⟩ := exists_version_of_constraint ht hp
  rw [← hv]
  exact v.readNatural?_text

theorem readable_assertions {code : Code}
    (hatoms : ∀ v, v ∈ Code.defined code ∨ v ∈ Code.uses code → Sexp.IsAtom v.text.toList) :
    ∀ s ∈ (verification code).assertions, s.Readable := by
  rw [assertions, List.forall_mem_map]
  intro t ht
  have hbody : t.toSexp.Readable := by
    refine t.readable_toSexp ?_
    intro p hp
    obtain ⟨v, hv, htext⟩ := exists_version_of_constraint ht hp
    rw [← htext]
    exact hatoms v hv
  exact ⟨.plain (by decide), hbody, trivial⟩

/-- The lines of a verification script are S-expressions, and as such they are true of a valuation
if and only if the instructions are satisfied by the values that it gives to the texts of the
versions. If these texts are atoms, the S-expressions are what a reader finds in the lines. -/
theorem verification_faithful (z : ZeroDivision) (m : Valuation) (code : Code) :
    (verification code).constraintLines ++ (verification code).goalLines =
        (verification code).assertions.map Sexp.text ∧
      ((∀ v, v ∈ Code.defined code ∨ v ∈ Code.uses code → Sexp.IsAtom v.text.toList) →
        ∀ s ∈ (verification code).assertions, Sexp.parse s.text.toList = .ok [s]) ∧
      ((∀ s ∈ (verification code).assertions, s.Asserts z m) ↔
        Code.Satisfied (Meaning.integers z fun a _ => m.arrays a.text) (fun v => m.ints v.text)
          code) := by
  refine ⟨lines_eq_assertions rfl, ?_, ?_⟩
  · intro hatoms s hs
    exact Sexp.parse_text (readable_assertions hatoms s hs)
  · rw [asserts_verification, holds_verification_iff]

end Script

/-- A comparison of comparisons, the least literal in an index, and a join whose guard is a
negation. -/
def mixedSorts : Code :=
  [.define ⟨"y", 0, none⟩ (.binary (.cmp .eq)
      (.binary (.cmp .lt) (.var ⟨"x", 0, none⟩) (.lit 3))
      (.index ⟨"a", 0, none⟩ (.lit (-9223372036854775808)))),
    .join ⟨"x", 1, none⟩ [⟨"x", 0, none⟩, ⟨"y", 0, none⟩]
      (some (.unary .not (.unary .neg (.var ⟨"y", 0, none⟩)))),
    .check (.binary (.arith .mod) (.var ⟨"x", 1, none⟩) (.lit 2))]

theorem mixedSorts_true :
    (Script.verification mixedSorts).constraintLines ++
        (Script.verification mixedSorts).goalLines =
      ["(assert (= y_0 (ite (= (ite (< x_0 3) 1 0) (select a_0 (- 9223372036854775808))) 1 0)))",
        "(assert (= x_1 (ite (not (not (= (- y_0) 0))) x_0 y_0)))",
        "(assert (not (= (mod x_1 2) 0)))"] ∧
    (∀ s ∈ (Script.verification mixedSorts).assertions, Sexp.parse s.text.toList = .ok [s]) ∧
    ∀ s ∈ (Script.verification mixedSorts).assertions, s.Asserts ⟨fun _ => 0, fun _ => 0⟩
      ⟨fun x => if x = "x_0" then 2 else 1, fun _ _ => 1⟩ := by
  obtain ⟨hlines, hread, hiff⟩ := Script.verification_faithful ⟨fun _ => 0, fun _ => 0⟩
    ⟨fun x => if x = "x_0" then 2 else 1, fun _ _ => 1⟩ mixedSorts
  have hatoms : ∀ v ∈ Code.defined mixedSorts ++ Code.uses mixedSorts,
      Sexp.isPlain v.text.toList = true := by decide +kernel
  refine ⟨by decide +kernel, hread fun v hv => .plain (hatoms v (List.mem_append.mpr hv)), ?_⟩
  rw [hiff]
  have hx : Version.text ⟨"x", 0, none⟩ = "x_0" := by decide +kernel
  have hx' : Version.text ⟨"x", 1, none⟩ = "x_1" := by decide +kernel
  have hy : Version.text ⟨"y", 0, none⟩ = "y_0" := by decide +kernel
  simp [mixedSorts, Code.Satisfied, Code.Solved, Code.Passed, Instr.Solved, Instr.Passed, Expr.eval,
    Meaning.integers, BinOp.value, UnOp.value, Arith.value, Cmp.holds, truthValue, hx, hx', hy]

end WhileSmt
