import WhileSmt.Proofs.Ssa.Derivation

/-!
The shape of single-assignment form. Every version has one definition, and a version is read only
after its definition, with two exceptions: the inputs of the program, which nothing defines, and the
versions that the joins at the entries of loops define, which the bodies of the loops read first.

Main statement: every program is numbered, and its code has this shape
(`Program.exists_toSsa_wellFormed`).
-/

namespace WhileSmt

/-- Code that defines every version at most once and reads it only where it is an input, has been
defined at an earlier place, or is carried by a loop. -/
structure Code.WellFormed (code : Code) : Prop where
  once : (Code.defined code).Nodup
  reached : ∀ (i : Nat) (instr : Instr), code[i]? = some instr → ∀ v ∈ instr.uses,
    (v.number = 0 ∧ v.marker = none ∧ v ∉ Code.defined code) ∨
      (∃ j < i, ∃ earlier, code[j]? = some earlier ∧ earlier.defined? = some v) ∨
      ∃ operands, Instr.join v operands none ∈ code

namespace Code

theorem eq_append_of_getElem? {code : Code} {i : Nat} {instr : Instr} (h : code[i]? = some instr) :
    code = code.take i ++ instr :: code.drop (i + 1) := by
  obtain ⟨hi, rfl⟩ := List.getElem?_eq_some_iff.mp h
  rw [List.getElem_cons_drop, List.take_append_drop]

/-- What the instructions before a place define is defined at an earlier place. -/
theorem exists_earlier {code : Code} {i : Nat} {v : Version} (h : v ∈ defined (code.take i)) :
    ∃ j < i, ∃ earlier, code[j]? = some earlier ∧ earlier.defined? = some v := by
  obtain ⟨earlier, hmem, hv⟩ := mem_defined.mp h
  obtain ⟨j, hj⟩ := List.mem_iff_getElem?.mp hmem
  rw [List.getElem?_take] at hj
  split at hj
  · next hji => exact ⟨j, hji, earlier, hj, hv⟩
  · cases hj

/-- A version that is defined without an equation is the result of a join without a guard. -/
theorem bound_or_unguarded {code : Code} {v : Version}
    (hpaired : ∀ v operands guard, Instr.join v operands guard ∈ code → ∃ a b, operands = [a, b])
    (h : v ∈ defined code) : v ∈ bound code ∨ v ∈ unguarded code := by
  obtain ⟨instr, hmem, hv⟩ := mem_defined.mp h
  cases instr with
  | define target value => exact .inl (mem_bound.mpr ⟨_, hmem, hv⟩)
  | check cond => cases hv
  | join result operands guard =>
    cases hv
    cases guard with
    | none => exact .inr (mem_unguarded.mpr ⟨operands, hmem⟩)
    | some guard =>
      obtain ⟨a, b, rfl⟩ := hpaired _ _ _ hmem
      exact .inl (mem_bound.mpr ⟨_, hmem, rfl⟩)

end Code

/-- A step from the empty scope leaves code of the right shape. -/
theorem Scope.Step.wellFormed {w r : List String} {code : Code} {s : Scope}
    (h : Step w r {} code s) : Code.WellFormed code where
  once := h.within.nodup
  reached := by
    intro i instr hi v hv
    have hsplit := Code.eq_append_of_getElem? hi
    have hordered := h.ordered
    have hacyclic := h.within.acyclic
    rw [hsplit] at hordered hacyclic
    rcases hordered.use hv with (hinput | hcarried) | hbefore
    · by_cases hdef : v ∈ Code.defined code
      · -- the definition of an input that has one cannot come later, unless a loop carries it
        refine .inr ?_
        rcases Code.bound_or_unguarded h.paired hdef with hbound | hcarried
        · rw [hsplit, Code.bound_append] at hbound
          have hbefore := (List.mem_append.mp hbound).resolve_right (hacyclic.use hv)
          exact .inl (Code.exists_earlier (Code.defined_of_bound hbefore))
        · exact .inr (Code.mem_unguarded.mp hcarried)
      · rw [hinput] at hdef ⊢
        exact .inl ⟨rfl, rfl, hdef⟩
    · rw [← hsplit] at hcarried
      exact .inr (.inr (Code.mem_unguarded.mp hcarried))
    · exact .inr (.inl (Code.exists_earlier hbefore))

/-- Numbering never fails, and it leaves code that defines every version once and reads it only as
an input, after its definition, or as carried by a loop. -/
theorem Program.exists_toSsa_wellFormed (p : Program) :
    ∃ f, p.toSsa = .ok f ∧ Code.WellFormed f.code := by
  obtain ⟨code, s, h, hssa⟩ := p.exists_toSsa
  exact ⟨_, hssa, (h.step Scope.valid_empty).wellFormed⟩

end WhileSmt
