import Mathlib.Data.List.Forall2
import Mathlib.Data.List.Induction
import WhileSmt.Proofs.Smt.Semantics
import WhileSmt.Proofs.Ssa.VersionText

/-!
What equivalence scripts say. The versions of the second program carry a marker, which keeps their
texts apart from those of the first program.

Main statements: versions without a marker and versions with the marker of the second program are
determined by their texts (`Version.eq_of_text_eq_of_marker`), and a valuation makes an equivalence
script true if and only if it satisfies both programs and gives their outputs, paired in order, the
same values (`Script.holds_equivalence_iff`).
-/

namespace WhileSmt

universe u

/-! ## Renaming -/

/-- The interpretation of names as their images. -/
def Meaning.comap {ν μ : Type} {δ : Type u} (f : ν → μ) (M : Meaning μ δ) : Meaning ν δ where
  lit := M.lit
  unary := M.unary
  binary := M.binary
  index := fun x => M.index (f x)
  truth := M.truth
  truth_not := M.truth_not

variable {δ : Type u}

/-- A renamed expression has the value of the expression in the values of the new names. -/
theorem Expr.eval_rename {ν μ : Type} (M : Meaning μ δ) (r : μ → δ) (f : ν → μ) (e : Expr ν) :
    (e.map f).eval M r = e.eval (M.comap f) (r ∘ f) := by
  induction e with
  | lit n => rfl
  | var x => rfl
  | index a i ih => simp only [map, eval, ih]; rfl
  | unary op e ih => simp only [map, eval, ih]; rfl
  | binary op l r' ihl ihr => simp only [map, eval, ihl, ihr]; rfl

namespace Instr

variable {M : Meaning Version δ} {r : Version → δ} {f : Version → Version}

theorem solved_map {instr : Instr} :
    (instr.map f).Solved M r ↔ instr.Solved (M.comap f) (r ∘ f) := by
  cases instr with
  | define target value =>
    simp only [map, Solved, Expr.eval_rename]
    rfl
  | check cond => exact Iff.rfl
  | join result operands guard =>
    rcases operands with _ | ⟨first, _ | ⟨second, _ | ⟨third, more⟩⟩⟩
    · exact Iff.rfl
    · exact Iff.rfl
    · cases guard with
      | none => exact Iff.rfl
      | some guard =>
        simp only [map, List.map_cons, List.map_nil, Option.map_some, Solved, Expr.eval_rename]
        rfl
    · exact Iff.rfl

theorem passed_map {instr : Instr} :
    (instr.map f).Passed M r ↔ instr.Passed (M.comap f) (r ∘ f) := by
  cases instr with
  | check cond =>
    simp only [map, Passed, Expr.eval_rename]
    rfl
  | define target value => exact Iff.rfl
  | join result operands guard => exact Iff.rfl

theorem uses_map (f : Version → Version) (instr : Instr) :
    (instr.map f).uses = instr.uses.map f := by
  cases instr with
  | define target value => exact Expr.names_map f value
  | check cond => exact Expr.names_map f cond
  | join result operands guard =>
    cases guard with
    | none => simp [map, uses]
    | some guard => simp [map, uses, Expr.names_map]

end Instr

namespace Code

theorem uses_mark (marker : String) (code : Code) :
    uses (mark marker code) = (uses code).map (Version.mark marker) := by
  simp only [uses, mark, List.flatMap_map, List.map_flatMap, Instr.uses_map]

theorem defined_mark (marker : String) (code : Code) :
    defined (mark marker code) = (defined code).map (Version.mark marker) := by
  simp only [defined, mark, List.filterMap_map, List.map_filterMap]
  refine List.filterMap_congr ?_
  intro instr _
  cases instr <;> rfl

/-- Marked code is satisfied by the values of the marked versions. -/
theorem satisfied_mark {M : Meaning Version δ} {r : Version → δ} {marker : String} {code : Code} :
    Satisfied M r (mark marker code) ↔
      Satisfied (M.comap (Version.mark marker)) (r ∘ Version.mark marker) code := by
  simp only [Satisfied, Solved, Passed, mark, List.forall_mem_map, Instr.solved_map,
    Instr.passed_map]

/-- Whether code is satisfied depends only on the versions that it defines and reads. -/
theorem Satisfied.congr {M : Meaning Version δ} {r r' : Version → δ} {code : Code}
    (h : Satisfied M r code) (hsame : ∀ v, v ∈ defined code ∨ v ∈ uses code → r' v = r v) :
    Satisfied M r' code := by
  refine ⟨h.1.congr (fun v hv => hsame v (.inr hv))
    fun v hv => hsame v (.inl (defined_of_bound hv)), ?_⟩
  exact (passed_congr fun v hv => hsame v (.inr hv)).mpr h.2

/-! ## Outputs -/

@[simp] theorem outputs_snoc_define (code : Code) (target : Version) (value : Expr Version) :
    outputs (code ++ [.define target value]) = setOutput target (outputs code) := by
  rw [outputs, List.foldl_append]
  rfl

@[simp] theorem outputs_snoc_join (code : Code) (result : Version) (operands : List Version)
    (guard : Option (Expr Version)) :
    outputs (code ++ [.join result operands guard]) = outputs code := by
  rw [outputs, List.foldl_append]
  rfl

@[simp] theorem outputs_snoc_check (code : Code) (cond : Expr Version) :
    outputs (code ++ [.check cond]) = outputs code := by
  rw [outputs, List.foldl_append]
  rfl

theorem setOutput_map_mark (marker : String) (v : Version) (outputs : List Version) :
    (setOutput v outputs).map (Version.mark marker) =
      setOutput (v.mark marker) (outputs.map (Version.mark marker)) := by
  induction outputs with
  | nil => rfl
  | cons o rest ih =>
    have hbase : (o.mark marker).base = (v.mark marker).base ↔ o.base = v.base := Iff.rfl
    by_cases h : o.base = v.base
    · simp only [setOutput, List.map_cons, hbase, if_pos h]
    · simp only [setOutput, List.map_cons, hbase, if_neg h, ih]

/-- The outputs of marked code are the marked outputs. -/
theorem outputs_mark (marker : String) (code : Code) :
    outputs (mark marker code) = (outputs code).map (Version.mark marker) := by
  induction code using List.reverseRecOn with
  | nil => rfl
  | append_singleton code instr ih =>
    rw [mark, List.map_append, List.map_singleton]
    rw [mark] at ih
    cases instr with
    | define target value =>
      rw [Instr.map, outputs_snoc_define, outputs_snoc_define, ih, setOutput_map_mark]
    | join result operands guard => rw [Instr.map, outputs_snoc_join, outputs_snoc_join, ih]
    | check cond => rw [Instr.map, outputs_snoc_check, outputs_snoc_check, ih]

theorem mem_setOutput {v w : Version} {outputs : List Version} (h : w ∈ setOutput v outputs) :
    w = v ∨ w ∈ outputs := by
  induction outputs with
  | nil => exact .inl (List.mem_singleton.mp h)
  | cons o rest ih =>
    unfold setOutput at h
    split at h
    · exact (List.mem_cons.mp h).imp_right (List.mem_cons_of_mem o)
    · rcases List.mem_cons.mp h with rfl | h
      · exact .inr List.mem_cons_self
      · exact (ih h).imp_right (List.mem_cons_of_mem o)

/-- Every output has a definition. -/
theorem exists_define_of_mem_outputs {code : Code} {v : Version} (h : v ∈ outputs code) :
    ∃ value, Instr.define v value ∈ code := by
  induction code using List.reverseRecOn with
  | nil => cases h
  | append_singleton code instr ih =>
    have hearlier : v ∈ outputs code → ∃ value, Instr.define v value ∈ code ++ [instr] := by
      intro hmem
      obtain ⟨value, hdef⟩ := ih hmem
      exact ⟨value, List.mem_append_left _ hdef⟩
    cases instr with
    | define target value =>
      rw [outputs_snoc_define] at h
      rcases mem_setOutput h with rfl | hmem
      · exact ⟨value, List.mem_append_right _ List.mem_cons_self⟩
      · exact hearlier hmem
    | join result operands guard => exact hearlier (outputs_snoc_join code .. ▸ h)
    | check cond => exact hearlier (outputs_snoc_check code cond ▸ h)

end Code

/-! ## Texts of marked versions -/

namespace Version

theorem toList_text_mark {v : Version} (h : v.marker = none) (marker : String) :
    (v.mark marker).text.toList = v.text.toList ++ '_' :: marker.toList := by
  simp [text, mark, h]

/-- The number of an unmarked version is not the marker of the second program. -/
theorem text_ne_text_mark {v w : Version} (hv : v.marker = none) (hw : w.marker = none) :
    v.text ≠ (w.mark Script.secondMarker).text := by
  intro h
  have hlist := congrArg String.toList h
  rw [toList_text hv, toList_text_mark hw] at hlist
  have hdigits : ∀ c ∈ Text.digits v.number, Text.isDigit c = true := fun c hc =>
    Text.isDigit_of_mem_digits hc
  have hnot : '_' ∉ Text.digits v.number := fun hmem => absurd (hdigits _ hmem) (by decide)
  obtain ⟨-, hnumber⟩ := Text.eq_of_append_last hnot (by decide) hlist
  rw [hnumber] at hdigits
  exact absurd (hdigits 'p' (by decide)) (by decide)

/-- Versions of two programs with the same text are the same. -/
theorem eq_of_text_eq_of_marker {v w : Version}
    (hv : v.marker = none ∨ v.marker = some Script.secondMarker)
    (hw : w.marker = none ∨ w.marker = some Script.secondMarker) (h : v.text = w.text) : v = w := by
  -- a version of the second program is the marked form of an unmarked one
  have hmarked : ∀ v : Version, v.marker = some Script.secondMarker →
      v = mark Script.secondMarker { v with marker := none } := by
    intro v hv
    obtain ⟨base, number, marker⟩ := v
    cases hv
    rfl
  rcases hv with hv | hv <;> rcases hw with hw | hw
  · exact eq_of_text_eq hv hw h
  · rw [hmarked w hw] at h
    exact absurd h (text_ne_text_mark hv rfl)
  · rw [hmarked v hv] at h
    exact absurd h.symm (text_ne_text_mark hw rfl)
  · rw [hmarked v hv, hmarked w hw] at h ⊢
    have hlist := congrArg String.toList h
    rw [toList_text_mark rfl, toList_text_mark rfl] at hlist
    have htext := String.toList_injective (List.append_cancel_right hlist)
    rw [eq_of_text_eq rfl rfl htext]

end Version

/-- The versions of two programs can be given any values, since all of them are written
differently. -/
theorem Valuation.exists_of_programs (r₁ r₂ : Version → Int) (A₁ A₂ : Version → Int → Int) :
    ∃ m : Valuation, ∀ v : Version, v.marker = none →
      m.ints v.text = r₁ v ∧ m.arrays v.text = A₁ v ∧
        m.ints (v.mark Script.secondMarker).text = r₂ v ∧
        m.arrays (v.mark Script.secondMarker).text = A₂ v := by
  have htext : ∀ v w : Version, (v.marker = none ∨ v.marker = some Script.secondMarker) →
      (w.marker = none ∨ w.marker = some Script.secondMarker) → v.text = w.text →
      (if v.marker = none then r₁ v else r₂ { v with marker := none }) =
        (if w.marker = none then r₁ w else r₂ { w with marker := none }) ∧
      (if v.marker = none then A₁ v else A₂ { v with marker := none }) =
        (if w.marker = none then A₁ w else A₂ { w with marker := none }) := by
    intro v w hv hw h
    rw [Version.eq_of_text_eq_of_marker hv hw h]
    exact ⟨rfl, rfl⟩
  obtain ⟨m, hm⟩ := exists_of_versions htext
  refine ⟨m, ?_⟩
  intro v hv
  obtain ⟨hint, harray⟩ := hm v (.inl hv)
  obtain ⟨hint', harray'⟩ := hm (v.mark Script.secondMarker) (.inr rfl)
  have hmarked : (v.mark Script.secondMarker).marker ≠ none := Option.some_ne_none _
  have hunmark : { v.mark Script.secondMarker with marker := none } = v := by
    obtain ⟨base, number, marker⟩ := v
    cases hv
    rfl
  rw [if_pos hv] at hint harray
  rw [if_neg hmarked, hunmark] at hint' harray'
  exact ⟨hint, harray, hint', harray'⟩

/-! ## Scripts -/

namespace Script

/-- An equivalence script is true if and only if the scripts of both programs are, the second one
with its marker, and the outputs have the same values in pairs. -/
theorem holds_equivalence_iff {z : ZeroDivision} {m : Valuation} {first second : Code} :
    (equivalence first second).Holds z m ↔
      (verification first).Holds z m ∧ (verification (Code.mark secondMarker second)).Holds z m ∧
        List.Forall₂ (fun a b => m.ints a.text = m.ints b.text) (Code.outputs first)
          (Code.outputs (Code.mark secondMarker second)) := by
  have hgoals : (∀ t ∈ (equivalence first second).goals, t.eval z m = true) ↔
      List.Forall₂ (fun a b => m.ints a.text = m.ints b.text) (Code.outputs first)
        (Code.outputs (Code.mark secondMarker second)) := by
    rw [List.forall₂_iff_zip]
    unfold equivalence
    dsimp only
    split
    · next hlen =>
      rw [List.forall_mem_map]
      constructor
      · intro h
        exact ⟨hlen, fun {a b} hab => of_decide_eq_true (h (a, b) hab)⟩
      · rintro ⟨-, h⟩ ⟨a, b⟩ hab
        exact decide_eq_true (h hab)
    · next hlen => simp [hlen, Term.eval]
  simp only [Holds, List.forall_mem_append, hgoals]
  simp only [equivalence, verification, List.forall_mem_append]
  grind

/-- The numbers of outputs are recorded if and only if they differ. -/
theorem mismatch_equivalence (first second : Code) :
    (equivalence first second).mismatch =
      if (Code.outputs first).length = (Code.outputs second).length then none
      else some ((Code.outputs first).length, (Code.outputs second).length) := by
  simp only [equivalence, Code.outputs_mark, List.length_map]

end Script

end WhileSmt
