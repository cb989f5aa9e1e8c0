import WhileSmt.Proofs.Smt.SortCheck
import WhileSmt.Proofs.Smt.SortsApart

/-!
Well-formed scripts. A script declares every name of the instructions once, in the order in which
they first appear, and its lines assert S-expressions that have the sort of truth values under its
declarations and that a reader finds there.

Main statement: `Script.wellFormed_scripts`.
-/

namespace WhileSmt

/-! ## The names of instructions in order -/

/-- The versions that stand in the solver's question about an instruction, in order and with
repetitions: what is defined or joined before what is read. The guard of a join is left out unless
the join has two operands. -/
def Instr.mentions : Instr → List Version
  | define target value => target :: value.names
  | join result [first, second] (some guard) => result :: first :: second :: guard.names
  | join result operands _ => result :: operands
  | check cond => cond.names

/-- The versions that the instructions of a list mention. -/
def Code.mentions (code : Code) : List Version :=
  code.flatMap Instr.mentions

theorem Expr.map_fst_symbols (e : Expr Version) :
    e.symbols.map Prod.fst = e.names.map Version.text := by
  induction e with
  | lit n => rfl
  | var x => rfl
  | index a i ih => simp [symbols, names, ih]
  | unary op e ih => exact ih
  | binary op l r ihl ihr => simp [symbols, names, ihl, ihr]

theorem Instr.map_fst_symbols (instr : Instr) :
    instr.symbols.map Prod.fst = instr.mentions.map Version.text := by
  cases instr with
  | define target value => simp [symbols, heads, encoded?, mentions, Expr.map_fst_symbols]
  | check cond => simp [symbols, heads, encoded?, mentions, Expr.map_fst_symbols]
  | join result operands guard =>
    cases guard with
    | none => simp [symbols, heads, encoded?, mentions]
    | some guard =>
      rcases operands with _ | ⟨first, _ | ⟨second, _ | ⟨third, more⟩⟩⟩
      · rfl
      · rfl
      · simp [symbols, heads, encoded?, mentions, Expr.map_fst_symbols]
      · simp [symbols, heads, encoded?, mentions]

theorem Code.map_fst_symbols (code : Code) :
    (symbols code).map Prod.fst = (mentions code).map Version.text := by
  simp only [symbols, mentions, List.map_flatMap, Instr.map_fst_symbols]

theorem Instr.mentions_map (f : Version → Version) (instr : Instr) :
    (instr.map f).mentions = instr.mentions.map f := by
  cases instr with
  | define target value => simp [map, mentions, Expr.names_map]
  | check cond => simp [map, mentions, Expr.names_map]
  | join result operands guard =>
    cases guard with
    | none => simp [map, mentions]
    | some guard =>
      rcases operands with _ | ⟨first, _ | ⟨second, _ | ⟨third, more⟩⟩⟩
      · rfl
      · rfl
      · simp [map, mentions, Expr.names_map]
      · simp [map, mentions]

theorem Code.mentions_mark (marker : String) (code : Code) :
    mentions (mark marker code) = (mentions code).map (Version.mark marker) := by
  simp only [mentions, mark, List.flatMap_map, List.map_flatMap, Instr.mentions_map]

/-- The names that are kept are those that have not been seen, in order of first appearance. -/
theorem map_fst_keepFirst {α : Type} (seen : List String) (l : List (String × α)) :
    (keepFirst seen l).map Prod.fst = ((l.map Prod.fst).filter (· ∉ seen)).eraseDups := by
  induction l generalizing seen with
  | nil => rfl
  | cons p rest ih =>
    obtain ⟨x, a⟩ := p
    rw [keepFirst, List.map_cons]
    split
    · next hx =>
      rw [ih, List.filter_cons_of_neg (by simpa using hx)]
    · next hx =>
      rw [List.map_cons, ih, List.filter_cons_of_pos (by simpa using hx), List.eraseDups_cons,
        List.filter_filter]
      congr 2
      refine List.filter_congr fun y _ => ?_
      by_cases hyx : y = x <;> simp [hyx]

/-- The outputs are among the constants. -/
theorem Code.symbols_of_outputs {code : Code} {v : Version} (h : v ∈ outputs code) :
    (v.text, Srt.int) ∈ symbols code := by
  obtain ⟨value, hmem⟩ := exists_define_of_mem_outputs h
  exact List.mem_flatMap.mpr ⟨_, hmem, List.mem_cons_self⟩

/-! ## Well-formed scripts -/

/-- If the texts of the versions are atoms, a reader finds the assertion of this S-expression where
it is written. -/
def Sexp.ReadBack (mentioned : List Version) (body : Sexp) : Prop :=
  (∀ v ∈ mentioned, IsAtom v.text.toList) →
    parse (list [.atom "assert", body]).text.toList = .ok [list [.atom "assert", body]]

namespace Script

/-- A script over the given versions, each named where it first appears: all of them are declared,
once and in this order, and all constraints and goals are assertions of truth values. The goal of
a script with a mismatch has a comment. -/
structure WellFormed (s : Script) (mentioned : List Version) : Prop where
  once : (s.declarations.map Prod.fst).Nodup
  names : s.declarations.map Prod.fst = (mentioned.map Version.text).eraseDups
  constraints : ∀ line ∈ s.constraintLines, ∃ body : Sexp,
    line = (Sexp.list [.atom "assert", body]).text ∧
      Sexp.sort? s.declarations body = some .bool ∧ body.ReadBack mentioned
  goals : ∀ line ∈ s.goalLines, ∃ body : Sexp,
    (line = (Sexp.list [.atom "assert", body]).text ∨ s.mismatch.isSome = true ∧
      line = (Sexp.list [.atom "assert", body]).text ++ " ; output count mismatch") ∧
      Sexp.sort? s.declarations body = some .bool ∧ body.ReadBack mentioned

/-- Scripts whose terms use only the constants that they were declared from, each with one sort, are
well-formed. -/
theorem wellFormed_of_symbols {s : Script} {symbols : List (String × Srt)}
    {mentioned : List Version} (hdeclared : s.declarations = keepFirst [] symbols)
    (hnames : symbols.map Prod.fst = mentioned.map Version.text)
    (hsorts : ∀ x a b, (x, a) ∈ symbols → (x, b) ∈ symbols → a = b)
    (hterms : ∀ t ∈ s.constraints ++ s.goals, ∀ p ∈ t.symbols, p ∈ symbols) :
    s.WellFormed mentioned := by
  have hversion : ∀ t ∈ s.constraints ++ s.goals, ∀ p ∈ t.symbols,
      ∃ v ∈ mentioned, v.text = p.1 := fun t ht p hp =>
    List.mem_map.mp (hnames ▸ List.mem_map_of_mem (hterms t ht p hp))
  have hsorted := wellSorted_of_symbols hdeclared hsorts hterms
  have hsort : ∀ t ∈ s.constraints ++ s.goals,
      Sexp.sort? s.declarations t.toSexp = some .bool := by
    intro t ht
    refine t.sort?_toSexp ?_
    rintro ⟨x, a⟩ hp
    have hmem := hsorted.declared t ht _ hp
    obtain ⟨v, -, rfl⟩ := hversion t ht _ hp
    exact Version.atomSort?_text hsorted.once hmem
  have hread : ∀ t ∈ s.constraints ++ s.goals, t.toSexp.ReadBack mentioned := by
    intro t ht hatoms
    have hbody : t.toSexp.Readable := by
      refine t.readable_toSexp ?_
      intro p hp
      obtain ⟨v, hv, htext⟩ := hversion t ht p hp
      exact htext ▸ hatoms v hv
    exact Sexp.parse_text ⟨.plain (by decide), hbody, trivial⟩
  refine ⟨hsorted.once, ?_, ?_, ?_⟩
  · rw [hdeclared, map_fst_keepFirst, hnames]
    simp
  · intro line hline
    obtain ⟨t, ht, rfl⟩ := List.mem_map.mp hline
    have hmem := List.mem_append_left s.goals ht
    exact ⟨t.toSexp, rfl, hsort t hmem, hread t hmem⟩
  · intro line hline
    obtain ⟨t, ht, rfl⟩ := List.mem_map.mp hline
    have hmem := List.mem_append_right s.constraints ht
    refine ⟨t.toSexp, ?_, hsort t hmem, hread t hmem⟩
    cases hmismatch : s.mismatch.isSome with
    | false => exact .inl (String.append_empty)
    | true => exact .inr ⟨rfl, rfl⟩

theorem wellFormed_verification {code : Code} (h : code.SortsApart) :
    (verification code).WellFormed (Code.mentions code) :=
  wellFormed_of_symbols rfl (Code.map_fst_symbols code) h.oneSorted
    fun _ ht => Code.mem_symbols_of_constraint ht

/-- No name of two programs occurs in two sorts if none of either does. -/
theorem oneSorted_pair {first second : Code} (h₁ : first.SortsApart) (h₂ : second.SortsApart)
    (hfirst : first.Unmarked) (hsecond : second.Unmarked) :
    ∀ x a b, (x, a) ∈ Code.symbols first ++ Code.symbols (Code.mark secondMarker second) →
      (x, b) ∈ Code.symbols first ++ Code.symbols (Code.mark secondMarker second) → a = b := by
  have hapart := hfirst.symbols_apart hsecond
  intro x a b ha hb
  rcases List.mem_append.mp ha with ha | ha <;> rcases List.mem_append.mp hb with hb | hb
  · exact h₁.oneSorted x a b ha hb
  · exact absurd (List.mem_map_of_mem hb) (hapart x (List.mem_map_of_mem ha))
  · exact absurd (List.mem_map_of_mem ha) (hapart x (List.mem_map_of_mem hb))
  · exact (h₂.mark hsecond secondMarker).oneSorted x a b ha hb

/-- The terms of an equivalence script have the constants of the two programs. -/
theorem mem_symbols_of_equivalence {first second : Code} {t : Term .bool}
    (ht : t ∈ (equivalence first second).constraints ++ (equivalence first second).goals) :
    ∀ p ∈ t.symbols, p ∈ Code.symbols first ++ Code.symbols (Code.mark secondMarker second) := by
  intro p hp
  refine List.mem_append.mpr ?_
  rcases List.mem_append.mp ht with ht | ht
  · rcases List.mem_append.mp ht with ht | ht
    · exact .inl (Code.mem_symbols_of_constraint ht p hp)
    · exact .inr (Code.mem_symbols_of_constraint ht p hp)
  · unfold equivalence at ht
    dsimp only at ht
    split at ht
    · obtain ⟨⟨a, b⟩, hab, rfl⟩ := List.mem_map.mp ht
      obtain ⟨ha, hb⟩ := List.of_mem_zip hab
      rcases List.mem_append.mp hp with hp | hp
      · rw [List.mem_singleton.mp hp]
        exact .inl (Code.symbols_of_outputs ha)
      · rw [List.mem_singleton.mp hp]
        exact .inr (Code.symbols_of_outputs hb)
    · cases List.mem_singleton.mp ht
      cases hp

theorem wellSorted_equivalence {first second : Code} (h₁ : first.SortsApart)
    (h₂ : second.SortsApart) (hfirst : first.Unmarked) (hsecond : second.Unmarked) :
    (equivalence first second).WellSorted :=
  wellSorted_of_symbols rfl (oneSorted_pair h₁ h₂ hfirst hsecond)
    fun _ ht => mem_symbols_of_equivalence ht

theorem wellFormed_equivalence {first second : Code} (h₁ : first.SortsApart)
    (h₂ : second.SortsApart) (hfirst : first.Unmarked) (hsecond : second.Unmarked) :
    (equivalence first second).WellFormed
      (Code.mentions first ++ (Code.mentions second).map (Version.mark secondMarker)) := by
  refine wellFormed_of_symbols rfl ?_ (oneSorted_pair h₁ h₂ hfirst hsecond)
    fun _ ht => mem_symbols_of_equivalence ht
  rw [List.map_append, Code.map_fst_symbols, Code.map_fst_symbols, Code.mentions_mark,
    List.map_append]

/-- The scripts of instructions that keep arrays and scalars apart are well-formed. Optimization
keeps them apart, and the code of a program has them apart if no name of an array is assigned or
read as a scalar in the program. -/
theorem wellFormed_scripts :
    (∀ code : Code, code.SortsApart → (verification code).WellFormed (Code.mentions code)) ∧
    (∀ first second : Code, first.SortsApart → second.SortsApart → first.Unmarked →
      second.Unmarked → (equivalence first second).WellFormed
        (Code.mentions first ++ (Code.mentions second).map (Version.mark secondMarker))) ∧
    (∀ code : Code, code.SortsApart → (Code.optimize code).SortsApart) ∧
    ∀ p : Program, p.arraysApart = true → ∃ f, p.toSsa = .ok f ∧ f.code.Unmarked ∧
      f.code.SortsApart ∧ (Code.optimize f.code).Unmarked ∧ (Code.optimize f.code).SortsApart := by
  refine ⟨fun _ h => wellFormed_verification h,
    fun _ _ h₁ h₂ hfirst hsecond => wellFormed_equivalence h₁ h₂ hfirst hsecond,
    fun _ h => h.optimize, ?_⟩
  intro p hapart
  obtain ⟨code, s, -, hssa⟩ := p.exists_toSsa
  exact ⟨_, hssa, Program.sortsApart_of_toSsa hssa hapart⟩

end Script

/-- A loop that adds up the elements of an array. -/
def sumArray : Program where
  statements :=
    [.assign {} { target := "s", value := .lit 0 },
      .assign {} { target := "i", value := .lit 0 },
      .whileDo {} (.binary (.cmp .lt) (.var "i") (.var "n"))
        [.assign {}
            { target := "s"
              value := .binary (.arith .add) (.var "s") (.index "a" (.var "i")) },
          .assign {} { target := "i", value := .binary (.arith .add) (.var "i") (.lit 1) }],
      .check {} (.binary (.cmp .ge) (.var "s") (.index "a" (.lit 0)))]

/-- The script of `sumArray` and its comparison with the optimized program. -/
theorem sumArray_wellFormed :
    sumArray.arraysApart = true ∧ ∃ f, sumArray.toSsa = .ok f ∧
      (Script.verification f.code).WellFormed (Code.mentions f.code) ∧
      (Script.equivalence f.code (Code.optimize f.code)).WellFormed
        (Code.mentions f.code ++
          (Code.mentions (Code.optimize f.code)).map (Version.mark Script.secondMarker)) := by
  obtain ⟨hverification, hequivalence, -, hprogram⟩ := Script.wellFormed_scripts
  obtain ⟨f, hssa, hunmarked, hapart, hunmarked', hapart'⟩ := hprogram sumArray (by decide)
  exact ⟨by decide, f, hssa, hverification _ hapart,
    hequivalence _ _ hapart hapart' hunmarked hunmarked'⟩

end WhileSmt
