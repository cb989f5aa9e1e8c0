import WhileSmt.Proofs.Optimize.Frame
import WhileSmt.Proofs.Smt.Separation

/-!
Lists of instructions in which arrays and scalars are kept apart: no array is written like a version
that is defined, joined or read as a scalar. Every name of such a list has one sort.

Main statements: the optimizer keeps arrays and scalars apart (`Code.SortsApart.optimize`), so does
a marker on all versions (`Code.SortsApart.mark`), and the code of a program has them apart if the
program does (`Program.sortsApart`).
-/

namespace WhileSmt

open Scope

namespace Code

/-- The versions that a list defines, joins or reads as scalars. -/
def scalars (code : Code) : List Version :=
  code.flatMap Instr.heads ++ (exprs code).flatMap Expr.scalars

/-- The versions that a list reads from as arrays, in guards that do not reach the solver too. -/
def indexed (code : Code) : List Version :=
  (exprs code).flatMap Expr.arrays

/-- No array is written like a scalar. -/
def SortsApart (code : Code) : Prop :=
  ∀ a ∈ indexed code, ∀ v ∈ scalars code, v.text ≠ a.text

instance (code : Code) : Decidable code.SortsApart :=
  inferInstanceAs (Decidable (∀ a ∈ indexed code, ∀ v ∈ scalars code, v.text ≠ a.text))

variable {code : Code} {v a : Version}

theorem mem_scalars : v ∈ scalars code ↔
    (∃ instr ∈ code, v ∈ instr.heads) ∨ ∃ e ∈ exprs code, v ∈ e.scalars := by
  rw [scalars, List.mem_append, List.mem_flatMap, List.mem_flatMap]

theorem mem_indexed : a ∈ indexed code ↔ ∃ e ∈ exprs code, a ∈ e.arrays :=
  List.mem_flatMap

theorem uses_of_indexed (h : a ∈ indexed code) : a ∈ uses code := by
  obtain ⟨e, he, ha⟩ := mem_indexed.mp h
  obtain ⟨instr, hmem, hexpr⟩ := mem_exprs.mp he
  exact mem_uses.mpr ⟨instr, hmem, Instr.uses_of_expr? hexpr (Expr.names_of_arrays ha)⟩

/-- What is defined or read is a scalar or an array. -/
theorem scalars_or_indexed :
    v ∈ scalars code ∨ v ∈ indexed code ↔ v ∈ defined code ++ uses code := by
  rw [List.mem_append]
  constructor
  · rintro (hv | hv)
    · rcases mem_scalars.mp hv with ⟨instr, hmem, hv⟩ | ⟨e, he, hv⟩
      · exact (Instr.defined_or_uses_of_heads hv).imp
          (fun hdef => mem_defined.mpr ⟨instr, hmem, hdef⟩)
          fun huse => mem_uses.mpr ⟨instr, hmem, huse⟩
      · obtain ⟨instr, hmem, hexpr⟩ := mem_exprs.mp he
        have huse := Instr.uses_of_expr? hexpr (Expr.names_of_scalars hv)
        exact .inr (mem_uses.mpr ⟨instr, hmem, huse⟩)
    · exact .inr (uses_of_indexed hv)
  · rintro (hv | hv)
    · obtain ⟨instr, hmem, hdef⟩ := mem_defined.mp hv
      refine .inl (mem_scalars.mpr (.inl ⟨instr, hmem, ?_⟩))
      cases instr <;> cases hdef <;> exact List.mem_cons_self
    · rcases uses_cases hv with ⟨result, operands, guard, hmem, hv⟩ | ⟨e, he, hv⟩
      · exact .inl (mem_scalars.mpr (.inl ⟨_, hmem, List.mem_cons_of_mem _ hv⟩))
      · exact (Expr.scalars_or_arrays hv).imp (fun hv => mem_scalars.mpr (.inr ⟨e, he, hv⟩))
          fun hv => mem_indexed.mpr ⟨e, he, hv⟩

end Code

/-! ## The sorts of the constants -/

theorem Instr.expr?_of_encoded? {instr : Instr} {e : Expr Version} (h : instr.encoded? = some e) :
    instr.expr? = some e := by
  unfold encoded? at h
  split at h
  · exact h
  · exact h
  · cases h
  · exact h

namespace Code

/-- A constant of a list is one of its scalars or one of its arrays. -/
theorem sort_of_symbol {code : Code} {p : String × Srt} (h : p ∈ symbols code) :
    (∃ v ∈ scalars code, p = (v.text, .int)) ∨ ∃ a ∈ indexed code, p = (a.text, .array) := by
  obtain ⟨instr, hmem, hp⟩ := List.mem_flatMap.mp h
  rcases List.mem_append.mp hp with hp | hp
  · obtain ⟨v, hv, rfl⟩ := List.mem_map.mp hp
    exact .inl ⟨v, mem_scalars.mpr (.inl ⟨instr, hmem, hv⟩), rfl⟩
  · cases he : instr.encoded? with
    | none =>
      rw [he] at hp
      cases hp
    | some e =>
      rw [he] at hp
      have hexpr := mem_exprs.mpr ⟨instr, hmem, Instr.expr?_of_encoded? he⟩
      rcases Expr.mem_symbols hp with ⟨v, hv, rfl⟩ | ⟨a, ha, rfl⟩
      · exact .inl ⟨v, mem_scalars.mpr (.inr ⟨e, hexpr, hv⟩), rfl⟩
      · exact .inr ⟨a, mem_indexed.mpr ⟨e, hexpr, ha⟩, rfl⟩

/-- If arrays and scalars are apart, no name has two sorts. -/
theorem SortsApart.oneSorted {code : Code} (h : SortsApart code) : OneSorted code := by
  intro x s s' hs hs'
  rcases sort_of_symbol hs with ⟨v, hv, heq⟩ | ⟨a, ha, heq⟩ <;>
    rcases sort_of_symbol hs' with ⟨v', hv', heq'⟩ | ⟨a', ha', heq'⟩ <;>
    obtain ⟨rfl, rfl⟩ := Prod.mk.inj heq <;>
    obtain ⟨htext, rfl⟩ := Prod.mk.inj heq'
  · rfl
  · exact absurd htext (h a' ha' v hv)
  · exact absurd htext.symm (h a ha v' hv')
  · rfl

end Code

/-! ## The optimizer -/

namespace Code

variable {code code' : Code}

/-- The scalars and the arrays of a list are among those of another one. -/
def Narrows (code code' : Code) : Prop :=
  (∀ v ∈ scalars code', v ∈ scalars code) ∧ ∀ a ∈ indexed code', a ∈ indexed code

theorem Trims.narrows (h : Trims code code') : Narrows code code' := by
  have hexpr : ∀ e' ∈ exprs code', ∃ e ∈ exprs code, e.Shrinks e' := by
    intro e' he'
    obtain ⟨instr', hmem', hinstr'⟩ := mem_exprs.mp he'
    obtain ⟨instr, hmem, hshrinks⟩ := h.exists_of_mem hmem'
    obtain ⟨e, hinstr, he⟩ := hshrinks.exists_expr hinstr'
    exact ⟨e, mem_exprs.mpr ⟨instr, hmem, hinstr⟩, he⟩
  refine ⟨?_, ?_⟩
  · intro v hv
    rcases mem_scalars.mp hv with ⟨instr', hmem', hv⟩ | ⟨e', he', hv⟩
    · obtain ⟨instr, hmem, hshrinks⟩ := h.exists_of_mem hmem'
      exact mem_scalars.mpr (.inl ⟨instr, hmem, hshrinks.heads_eq ▸ hv⟩)
    · obtain ⟨e, he, hshrinks⟩ := hexpr e' he'
      exact mem_scalars.mpr (.inr ⟨e, he, hshrinks.scalars hv⟩)
  · intro a ha
    obtain ⟨e', he', ha⟩ := mem_indexed.mp ha
    obtain ⟨e, he, hshrinks⟩ := hexpr e' he'
    exact mem_indexed.mpr ⟨e, he, hshrinks.arrays ha⟩

/-- Optimization brings no new scalars and no new arrays. -/
theorem narrows_optimize (code : Code) : Narrows code (optimize code) :=
  (frames_optimizeWith Pass.all roundLimit code).trims.narrows

/-- Optimization keeps arrays and scalars apart. -/
theorem SortsApart.optimize (h : SortsApart code) : SortsApart (optimize code) :=
  fun a ha v hv => h a ((narrows_optimize code).2 a ha) v ((narrows_optimize code).1 v hv)

theorem Unmarked.optimize (h : Unmarked code) : Unmarked (optimize code) := by
  intro v hv
  refine h v (scalars_or_indexed.mp ((scalars_or_indexed.mpr hv).imp ?_ ?_))
  · exact (narrows_optimize code).1 v
  · exact (narrows_optimize code).2 v

end Code

/-! ## Markers -/

theorem Instr.heads_map (f : Version → Version) (instr : Instr) :
    (instr.map f).heads = instr.heads.map f := by
  cases instr <;> rfl

theorem Instr.expr?_map (f : Version → Version) (instr : Instr) :
    (instr.map f).expr? = instr.expr?.map (Expr.map f) := by
  cases instr <;> rfl

namespace Code

theorem exprs_mark (marker : String) (code : Code) :
    exprs (mark marker code) = (exprs code).map (Expr.map (Version.mark marker)) := by
  simp only [exprs, mark, List.filterMap_map, List.map_filterMap]
  exact List.filterMap_congr fun instr _ => Instr.expr?_map _ instr

theorem scalars_mark (marker : String) (code : Code) :
    scalars (mark marker code) = (scalars code).map (Version.mark marker) := by
  rw [scalars, exprs_mark, scalars, List.map_append]
  simp only [mark, List.flatMap_map, List.map_flatMap, Instr.heads_map, Expr.scalars_map]

theorem indexed_mark (marker : String) (code : Code) :
    indexed (mark marker code) = (indexed code).map (Version.mark marker) := by
  rw [indexed, exprs_mark, indexed]
  simp only [List.flatMap_map, List.map_flatMap, Expr.arrays_map]

/-- A marker on all versions keeps arrays and scalars apart. -/
theorem SortsApart.mark {code : Code} (h : SortsApart code) (hunmarked : Unmarked code)
    (marker : String) : SortsApart (mark marker code) := by
  intro a' ha' v' hv' heq
  rw [indexed_mark] at ha'
  rw [scalars_mark] at hv'
  obtain ⟨a, ha, rfl⟩ := List.mem_map.mp ha'
  obtain ⟨v, hv, rfl⟩ := List.mem_map.mp hv'
  have hlist := congrArg String.toList heq
  rw [Version.toList_text_mark (hunmarked v (scalars_or_indexed.mp (.inl hv))),
    Version.toList_text_mark (hunmarked.of_uses (uses_of_indexed ha))] at hlist
  exact h a ha v hv (String.toList_injective (List.append_cancel_right hlist))

end Code

/-! ## Programs -/

namespace Program

variable {p : Program} {code : Code} {s : Scope}

/-- In the code of a program every guard reaches the solver. -/
theorem from_of_mem_exprs (hnum : Block.Numbers p.statements {} code s) {e : Expr Version}
    (he : e ∈ Code.exprs code) : e.From (Block.exprs p.statements) := by
  obtain ⟨instr, hmem, hexpr⟩ := Code.mem_exprs.mp he
  refine (hnum.over valid_empty instr hmem).encoded e ?_
  cases instr with
  | define target value => exact hexpr
  | check cond => exact hexpr
  | join result operands guard =>
    obtain ⟨first, second, rfl⟩ := (hnum.step valid_empty).paired _ _ _ hmem
    cases hexpr
    rfl

/-- A program that keeps its arrays apart from its other names leads to code that does. -/
theorem sortsApart (hnum : Block.Numbers p.statements {} code s) (hapart : p.arraysApart = true) :
    Code.SortsApart code := by
  intro a ha v hv heq
  have hunmarked : Code.Unmarked code := (hnum.step valid_empty).within.unmarked
  obtain rfl := Version.eq_of_text_eq (hunmarked v (Code.scalars_or_indexed.mp (.inl hv)))
    (hunmarked.of_uses (Code.uses_of_indexed ha)) heq
  obtain ⟨e, he, ha⟩ := Code.mem_indexed.mp ha
  obtain ⟨hassigned, hscalar⟩ :=
    not_mem_of_arraysApart hapart ((from_of_mem_exprs hnum he).over.1 v ha)
  rcases Code.mem_scalars.mp hv with ⟨instr, hmem, hv⟩ | ⟨e', he', hv⟩
  · exact hassigned ((hnum.over valid_empty instr hmem).heads v hv)
  · exact hscalar ((from_of_mem_exprs hnum he').over.2 v hv)

theorem oneSorted (hnum : Block.Numbers p.statements {} code s) (hapart : p.arraysApart = true) :
    Code.OneSorted code :=
  (sortsApart hnum hapart).oneSorted

/-- The code of a program that keeps its arrays apart does so too, and so does the optimized code. -/
theorem sortsApart_of_toSsa {p : Program} {f : SsaForm} (h : p.toSsa = .ok f)
    (hapart : p.arraysApart = true) :
    f.code.Unmarked ∧ f.code.SortsApart ∧ (Code.optimize f.code).Unmarked ∧
      (Code.optimize f.code).SortsApart := by
  obtain ⟨code, s, hnum, hssa⟩ := p.exists_toSsa
  rw [hssa] at h
  cases h
  have hcode := sortsApart hnum hapart
  have hunmarked : Code.Unmarked code := (hnum.step valid_empty).within.unmarked
  exact ⟨hunmarked, hcode, hunmarked.optimize, hcode.optimize⟩

end Program

end WhileSmt
