import WhileSmt.Proofs.Smt.Semantics

/-!
The declarations of scripts. A script is well-sorted if it declares every name once, and every
constant of its terms with the sort in which it occurs there. A solver finds a script satisfiable if
it is well-sorted and true in some valuation.

Main statement: the verification script of code in which no name occurs in two sorts is well-sorted
(`Script.wellSorted_verification`).
-/

namespace WhileSmt

/-! ## The constants of terms -/

/-- The constants of a term with their sorts. -/
@[simp] def Term.symbols : {s : Srt} → Term s → List (String × Srt)
  | _, numeral _ => []
  | _, const name => [(name, .int)]
  | _, array name => [(name, .array)]
  | _, select a i => a.symbols ++ i.symbols
  | _, neg t => t.symbols
  | _, arith _ l r => l.symbols ++ r.symbols
  | _, ite c t e => c.symbols ++ t.symbols ++ e.symbols
  | _, rel _ l r => l.symbols ++ r.symbols
  | _, not t => t.symbols
  | _, falsity => []

theorem Term.symbols_ofInt (n : Int) : (ofInt n).symbols = [] := by
  unfold ofInt
  split <;> rfl

theorem Term.symbols_ofTruth (t : Term .bool) : (ofTruth t).symbols = t.symbols := by
  simp [ofTruth, symbols]

theorem Term.symbols_toTruth (t : Term .int) : (toTruth t).symbols = t.symbols := by
  simp [toTruth, symbols]

theorem Cmp.symbols_term (l r : Term .int) (op : Cmp) :
    (op.term l r).symbols = l.symbols ++ r.symbols := by
  cases op <;> rfl

/-- The terms of an expression have the constants of the expression. -/
theorem Expr.symbols_terms (e : Expr Version) :
    e.intTerm.symbols = e.symbols ∧ e.boolTerm.symbols = e.symbols := by
  induction e with
  | lit n => simp [intTerm, boolTerm, Term.symbols_toTruth, Term.symbols_ofInt, symbols]
  | var x => simp [intTerm, boolTerm, Term.symbols_toTruth, Term.symbols, symbols]
  | index a i ih => simp [intTerm, boolTerm, Term.symbols_toTruth, Term.symbols, symbols, ih.1]
  | unary op e ih =>
    cases op with
    | neg => simp [intTerm, boolTerm, Term.symbols_toTruth, Term.symbols, symbols, ih.1]
    | not => simp [intTerm, boolTerm, Term.symbols_ofTruth, Term.symbols, symbols, ih.2]
  | binary op l r ihl ihr =>
    cases op with
    | arith op =>
      simp [intTerm, boolTerm, Term.symbols_toTruth, Term.symbols, symbols, ihl.1, ihr.1]
    | cmp op =>
      simp [intTerm, boolTerm, Term.symbols_ofTruth, Cmp.symbols_term, symbols, ihl.1, ihr.1]

theorem Instr.symbols_equation {instr : Instr} {t : Term .bool} (h : instr.equation? = some t) :
    ∀ p ∈ t.symbols, p ∈ instr.symbols := by
  unfold equation? at h
  split at h
  · next target value =>
    cases h
    simp [Term.symbols, symbols, heads, encoded?, (Expr.symbols_terms value).1]
  · next result first second guard =>
    cases h
    intro p hp
    simp only [Term.symbols, symbols, heads, encoded?, (Expr.symbols_terms guard).2,
      List.mem_append, List.mem_cons, List.map_cons, List.map_nil, List.not_mem_nil, or_false,
      Option.map_some, Option.getD_some] at hp ⊢
    grind
  · cases h

theorem Instr.symbols_goal {instr : Instr} {t : Term .bool} (h : instr.goal? = some t) :
    ∀ p ∈ t.symbols, p ∈ instr.symbols := by
  unfold goal? at h
  split at h
  · next cond =>
    cases h
    simp [symbols, heads, encoded?, (Expr.symbols_terms cond).2]
  · cases h

/-! ## Declarations -/

theorem fst_keepFirst {α : Type} {seen : List String} {l : List (String × α)} {p : String × α}
    (h : p ∈ keepFirst seen l) : p.1 ∉ seen := by
  induction l generalizing seen with
  | nil => cases h
  | cons q rest ih =>
    obtain ⟨x, a⟩ := q
    rw [keepFirst] at h
    split at h
    · exact ih h
    · next hx =>
      rcases List.mem_cons.mp h with rfl | h
      · exact hx
      · exact fun hmem => ih h (List.mem_cons_of_mem x hmem)

/-- Every name is kept at most once. -/
theorem nodup_keepFirst {α : Type} (seen : List String) (l : List (String × α)) :
    ((keepFirst seen l).map Prod.fst).Nodup := by
  induction l generalizing seen with
  | nil => exact List.nodup_nil
  | cons q rest ih =>
    obtain ⟨x, a⟩ := q
    rw [keepFirst]
    split
    · exact ih seen
    · rw [List.map_cons, List.nodup_cons]
      refine ⟨?_, ih (x :: seen)⟩
      intro hmem
      obtain ⟨p, hp, hpx⟩ := List.mem_map.mp hmem
      exact fst_keepFirst hp (hpx ▸ List.mem_cons_self)

/-- If a name has only one value in a list, that value is kept. -/
theorem mem_keepFirst {α : Type} {seen : List String} {l : List (String × α)} {x : String} {a : α}
    (hsame : ∀ b, (x, b) ∈ l → b = a) (hseen : x ∉ seen) (hx : (x, a) ∈ l) :
    (x, a) ∈ keepFirst seen l := by
  induction l generalizing seen with
  | nil => cases hx
  | cons q rest ih =>
    obtain ⟨y, b⟩ := q
    have hsame' : ∀ b, (x, b) ∈ rest → b = a := fun b hb => hsame b (List.mem_cons_of_mem _ hb)
    rw [keepFirst]
    by_cases hxy : x = y
    · -- the first entry of the name is the one that is kept, whichever was meant
      subst hxy
      rw [if_neg hseen, hsame b List.mem_cons_self]
      exact List.mem_cons_self
    · have hrest : (x, a) ∈ rest := by
        rcases List.mem_cons.mp hx with heq | hmem
        · exact absurd (congrArg Prod.fst heq) hxy
        · exact hmem
      split
      · exact ih hsame' hseen hrest
      · refine List.mem_cons_of_mem _ (ih hsame' ?_ hrest)
        intro hmem
        rcases List.mem_cons.mp hmem with h | h
        · exact hxy h
        · exact hseen h

namespace Script

/-- Every name is declared once, and every constant of a term with the sort that it has there. -/
structure WellSorted (s : Script) : Prop where
  once : (s.declarations.map Prod.fst).Nodup
  declared : ∀ t ∈ s.constraints ++ s.goals, ∀ p ∈ t.symbols, p ∈ s.declarations

/-- What a solver finds satisfiable: a script that it accepts and that some valuation makes true. -/
structure IsSat (z : ZeroDivision) (s : Script) : Prop where
  sorted : s.WellSorted
  satisfiable : s.Satisfiable z

/-- For scripts that a solver accepts, satisfiability is its answer. -/
theorem WellSorted.isSat_iff {s : Script} {z : ZeroDivision} (h : s.WellSorted) :
    s.IsSat z ↔ s.Satisfiable z :=
  ⟨IsSat.satisfiable, fun hsat => ⟨h, hsat⟩⟩

/-- Of scripts that a solver accepts, it finds the same satisfiable as valuations do. -/
theorem WellSorted.isSat_congr {s s' : Script} {z : ZeroDivision} (h : s.WellSorted)
    (h' : s'.WellSorted) (hsame : s.Satisfiable z ↔ s'.Satisfiable z) : s.IsSat z ↔ s'.IsSat z := by
  rw [h.isSat_iff, h'.isSat_iff, hsame]

/-- A script is well-sorted if its terms use only the constants that it was declared from, each with
one sort. -/
theorem wellSorted_of_symbols {s : Script} {symbols : List (String × Srt)}
    (hdeclared : s.declarations = keepFirst [] symbols)
    (hsorts : ∀ x a b, (x, a) ∈ symbols → (x, b) ∈ symbols → a = b)
    (hterms : ∀ t ∈ s.constraints ++ s.goals, ∀ p ∈ t.symbols, p ∈ symbols) : s.WellSorted where
  once := by
    rw [hdeclared]
    exact nodup_keepFirst [] symbols
  declared := by
    rintro t ht ⟨x, a⟩ hp
    have hmem := hterms t ht (x, a) hp
    rw [hdeclared]
    exact mem_keepFirst (fun b hb => hsorts x b a hb hmem) List.not_mem_nil hmem

end Script

namespace Code

/-- No name occurs in two sorts. -/
def OneSorted (code : Code) : Prop :=
  ∀ x a b, (x, a) ∈ symbols code → (x, b) ∈ symbols code → a = b

theorem mem_symbols_of_constraint {code : Code} {t : Term .bool}
    (h : t ∈ equations code ++ goals code) : ∀ p ∈ t.symbols, p ∈ symbols code := by
  intro p hp
  rcases List.mem_append.mp h with h | h
  · obtain ⟨instr, hmem, ht⟩ := List.mem_filterMap.mp h
    exact List.mem_flatMap.mpr ⟨instr, hmem, Instr.symbols_equation ht p hp⟩
  · obtain ⟨instr, hmem, ht⟩ := List.mem_filterMap.mp h
    exact List.mem_flatMap.mpr ⟨instr, hmem, Instr.symbols_goal ht p hp⟩

end Code

/-- The script of code in which every name has one sort is well-sorted. -/
theorem Script.wellSorted_verification {code : Code} (h : Code.OneSorted code) :
    (verification code).WellSorted :=
  wellSorted_of_symbols rfl h fun _ ht => Code.mem_symbols_of_constraint ht

end WhileSmt
