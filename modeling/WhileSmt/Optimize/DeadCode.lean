import WhileSmt.Ssa.Basic

/-!
Dead code. A definition whose version nobody reads is dropped; this can leave others unread, so
it is done until nothing is dropped. Joins and assertions stay.
-/

namespace WhileSmt

/-- An instruction that stays when these versions are read. -/
def Instr.isLive (used : List Version) : Instr → Bool
  | .define target _ => target ∈ used
  | _ => true

namespace Code

/-- The definitions that nobody reads. -/
def unread (code : Code) : Code :=
  code.filter fun instr => !instr.isLive (uses code)

/-- Drops the definitions that nobody reads. -/
def sweep (code : Code) : Code :=
  code.filter (Instr.isLive (uses code))

theorem length_sweep_le (code : Code) : (sweep code).length ≤ code.length :=
  List.length_filter_le _ _

theorem unread_eq_nil_iff {code : Code} : unread code = [] ↔ sweep code = code := by
  simp [unread, sweep, List.filter_eq_nil_iff, List.filter_eq_self]

theorem length_sweep_lt {code : Code} (h : unread code ≠ []) :
    (sweep code).length < code.length := by
  refine Nat.lt_of_le_of_ne (length_sweep_le code) fun hlength => h ?_
  exact unread_eq_nil_iff.mpr (List.filter_sublist.eq_of_length hlength)

/-- Drops unread definitions until none is left. `changed` tells whether some were dropped before. -/
def sweepAll (changed : Bool) (code : Code) : Code × Bool :=
  if unread code = [] then (code, changed) else sweepAll true (sweep code)
termination_by code.length
decreasing_by exact length_sweep_lt ‹_›

/-- The elimination of dead code, and whether it has dropped anything. -/
def elimination (code : Code) : Code × Bool :=
  sweepAll false code

/-- What the elimination of dead code leaves. -/
def eliminateDead (code : Code) : Code :=
  (elimination code).1

/-- What is left does not depend on what was dropped before. -/
theorem fst_sweepAll (changed : Bool) (code : Code) :
    (sweepAll changed code).1 = eliminateDead code := by
  rw [eliminateDead, elimination, sweepAll.eq_1 changed, sweepAll.eq_1 false]
  split <;> rfl

theorem eliminateDead_of_unread {code : Code} (h : unread code ≠ []) :
    eliminateDead code = eliminateDead (sweep code) := by
  rw [eliminateDead, elimination, sweepAll, if_neg h, fst_sweepAll]

theorem eliminateDead_of_read {code : Code} (h : unread code = []) : eliminateDead code = code := by
  rw [eliminateDead, elimination, sweepAll, if_pos h]

/-- What holds of a list in which nothing is unread, and goes from what a sweep leaves to the list
itself, holds of every list and what is left of it in the end. -/
@[elab_as_elim]
theorem eliminateDead_induct {motive : Code → Code → Prop}
    (again : ∀ code, unread code ≠ [] → motive (sweep code) (eliminateDead (sweep code)) →
      motive code (eliminateDead (sweep code)))
    (done : ∀ code, unread code = [] → motive code code) (code : Code) :
    motive code (eliminateDead code) := by
  by_cases h : unread code = []
  · rw [eliminateDead_of_read h]
    exact done code h
  · rw [eliminateDead_of_unread h]
    exact again code h (eliminateDead_induct again done (sweep code))
termination_by code.length
decreasing_by exact length_sweep_lt h

/-- Eliminating dead code leaves a part of the list. -/
theorem eliminateDead_sublist (code : Code) : (eliminateDead code).Sublist code :=
  eliminateDead_induct (fun _ _ ih => ih.trans List.filter_sublist) (fun code _ => .refl code) code

theorem length_eliminateDead_lt_iff {code : Code} :
    (eliminateDead code).length < code.length ↔ eliminateDead code ≠ code := by
  constructor
  · intro hlt heq
    rw [heq] at hlt
    exact Nat.lt_irrefl _ hlt
  · intro hne
    have hsub := eliminateDead_sublist code
    exact Nat.lt_of_le_of_ne hsub.length_le fun heq => hne (hsub.eq_of_length heq)

theorem sweepAll_changed_iff (changed : Bool) (code : Code) :
    (sweepAll changed code).2 = true ↔
      changed = true ∨ (eliminateDead code).length < code.length := by
  fun_induction sweepAll changed code with
  | case1 changed code hread =>
    simp [eliminateDead_of_read hread]
  | case2 changed code hunread ih =>
    have hlength : (eliminateDead code).length < code.length := by
      rw [eliminateDead_of_unread hunread]
      exact Nat.lt_of_le_of_lt (eliminateDead_sublist _).length_le (length_sweep_lt hunread)
    simp [ih, hlength]

/-- The elimination tells of a change if and only if it leaves less than the list. -/
theorem elimination_changed_iff (code : Code) :
    (elimination code).2 = true ↔ (eliminateDead code).length < code.length := by
  simp [elimination, sweepAll_changed_iff]

end Code

end WhileSmt
