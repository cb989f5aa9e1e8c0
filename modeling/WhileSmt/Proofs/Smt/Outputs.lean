import WhileSmt.Proofs.Optimize.Outputs
import WhileSmt.Proofs.Smt.Separation
import WhileSmt.Proofs.Ssa.Definitions

/-!
The outputs of a program. Every name that it assigns has one, the version that the last assignment
to it defines, and the names are in the order of their first assignments. Programs are compared
output by output in this order.

Main statements: `Program.output_eq_final_iff` says for which names the output is the version that
is in force at the end, and `Program.equivalence_pairs_by_position` which outputs are compared. That
a join can define a later version than the output is `Program.output_before_join`, and that two
names can be compared with each other is `Program.equivalence_crosses_names`.
-/

namespace WhileSmt

open Scope

/-! ## The latest versions of a list -/

theorem eraseDups_snoc (l : List String) (x : String) :
    (l ++ [x]).eraseDups = if x ∈ l then l.eraseDups else l.eraseDups ++ [x] := by
  rw [List.eraseDups_append, List.removeAll]
  split
  · next hold => simp [hold]
  · next hnew => simp [hnew, List.eraseDups_cons]

namespace Code

theorem map_base_setOutput (v : Version) (outputs : List Version) :
    (setOutput v outputs).map Version.base =
      if v.base ∈ outputs.map Version.base then outputs.map Version.base
      else outputs.map Version.base ++ [v.base] := by
  induction outputs with
  | nil => rfl
  | cons o rest ih =>
    unfold setOutput
    by_cases h : o.base = v.base
    · simp [h]
    · have hne : v.base ≠ o.base := fun heq => h heq.symm
      rw [if_neg h, List.map_cons, ih, List.map_cons]
      simp only [List.mem_cons, hne, false_or]
      split <;> rfl

theorem mem_setOutput_iff {v w : Version} {outputs : List Version}
    (h : (outputs.map Version.base).Nodup) :
    w ∈ setOutput v outputs ↔ w = v ∨ w ∈ outputs ∧ w.base ≠ v.base := by
  induction outputs with
  | nil => simp [setOutput]
  | cons o rest ih =>
    rw [List.map_cons, List.nodup_cons] at h
    unfold setOutput
    by_cases hbase : o.base = v.base
    · -- no later output has this name
      have hrest : ∀ u ∈ rest, u.base ≠ v.base := fun u hu heq =>
        h.1 (hbase ▸ heq ▸ List.mem_map_of_mem hu)
      rw [if_pos hbase]
      grind
    · rw [if_neg hbase, List.mem_cons, List.mem_cons, ih h.2]
      grind

/-- The second list has the last version of every name of the first one, and the names are in the
order in which they first occur there. -/
structure Latest (targets outputs : List Version) : Prop where
  order : outputs.map Version.base = (targets.map Version.base).eraseDups
  nodup : (outputs.map Version.base).Nodup
  mem : ∀ v, v ∈ outputs ↔ (targets.filter (·.base = v.base)).getLast? = some v

namespace Latest

variable {targets outputs : List Version}

theorem snoc (h : Latest targets outputs) (v : Version) :
    Latest (targets ++ [v]) (setOutput v outputs) where
  order := by
    rw [map_base_setOutput, h.order, List.map_append, List.map_singleton, eraseDups_snoc]
    simp only [List.mem_eraseDups]
  nodup := by
    rw [map_base_setOutput]
    split
    · exact h.nodup
    · next hnew =>
      refine List.nodup_append.mpr ⟨h.nodup, List.nodup_cons.mpr ⟨List.not_mem_nil, .nil⟩, ?_⟩
      rintro x hx y hy rfl
      exact hnew (List.mem_singleton.mp hy ▸ hx)
  mem := by
    intro w
    rw [mem_setOutput_iff h.nodup, h.mem w, List.filter_append]
    by_cases hbase : v.base = w.base
    · simp [hbase, eq_comm]
    · have hne : w.base ≠ v.base := fun heq => hbase heq.symm
      have hvw : w ≠ v := fun heq => hbase (heq ▸ rfl)
      simp [hbase, hne, hvw]

/-- There is one output for every name. -/
theorem filter_eq (h : Latest targets outputs) {v : Version} (hv : v ∈ outputs) :
    outputs.filter (·.base = v.base) = [v] := by
  obtain ⟨before, after, rfl⟩ := List.append_of_mem hv
  have hnodup := h.nodup
  rw [List.map_append, List.map_cons, List.nodup_append, List.nodup_cons] at hnodup
  have hnone : ∀ w, w ∈ before ∨ w ∈ after → w.base ≠ v.base := by
    rintro w (hw | hw) heq
    · exact hnodup.2.2 _ (List.mem_map_of_mem hw) _ List.mem_cons_self heq
    · exact hnodup.2.1.1 (heq ▸ List.mem_map_of_mem hw)
  have hbefore : before.filter (·.base = v.base) = [] := by
    simpa using fun w hw => hnone w (.inl hw)
  have hafter : after.filter (·.base = v.base) = [] := by
    simpa using fun w hw => hnone w (.inr hw)
  simp [hbefore, hafter]

end Latest

/-- The outputs are the latest versions of what is defined other than by joins. -/
theorem latest_outputs (code : Code) : Latest (targets code) (outputs code) := by
  induction code using List.reverseRecOn with
  | nil => exact ⟨rfl, List.nodup_nil, fun v => by simp [targets, outputs]⟩
  | append_singleton code instr ih =>
    rw [targets_append]
    cases instr with
    | define target value =>
      rw [outputs_snoc_define]
      exact ih.snoc target
    | join result operands guard =>
      rw [outputs_snoc_join]
      exact (List.append_nil (targets code)).symm ▸ ih
    | check cond =>
      rw [outputs_snoc_check]
      exact (List.append_nil (targets code)).symm ▸ ih

/-- The version that the last assignment to a name defines. -/
def lastTarget? (x : String) (code : Code) : Option Version :=
  ((targets code).filter (·.base = x)).getLast?

variable {x : String} {code : Code} {v : Version}

theorem mem_outputs_iff : v ∈ outputs code ↔ lastTarget? v.base code = some v :=
  (latest_outputs code).mem v

theorem mem_targets_of_lastTarget? (h : lastTarget? x code = some v) :
    v ∈ targets code ∧ v.base = x := by
  obtain ⟨hmem, hbase⟩ := List.mem_filter.mp (List.mem_of_getLast? h)
  exact ⟨hmem, of_decide_eq_true hbase⟩

theorem Unmarked.of_lastTarget? (h : Unmarked code) (hv : lastTarget? x code = some v) :
    v.marker = none := by
  obtain ⟨value, hmem⟩ := mem_targets.mp (mem_targets_of_lastTarget? hv).1
  exact h.of_defined (mem_defined.mpr ⟨_, hmem, rfl⟩)

theorem lastTarget?_eq (x : String) (code : Code) :
    lastTarget? x code =
      ((code.filter (Instr.definesName x)).filterMap Instr.target?).getLast? := by
  have hfilter : (targets code).filter (·.base = x) =
      (code.filter (Instr.definesName x)).filterMap Instr.target? := by
    rw [targets, List.filter_filterMap, List.filterMap_filter]
    congr 1
    funext instr
    cases instr with
    | define target value =>
      simp [Instr.target?, Instr.definesName, Instr.defined?, Option.filter_some]
    | join result operands guard => simp [Instr.target?]
    | check cond => simp [Instr.target?]
  rw [lastTarget?, hfilter]

/-- If an assignment defines a name last, its target is the output. -/
theorem EndsWith.lastTarget?_eq_some (h : EndsWith x code v false) :
    lastTarget? x code = some v := by
  obtain ⟨instr, hlast, hdef, htarget⟩ := h
  obtain ⟨before, hbefore⟩ := List.getLast?_eq_some_iff.mp hlast
  have hsome : instr.target? = some v := by
    cases instr with
    | define target value => exact hdef
    | join result operands guard => cases htarget
    | check cond => cases htarget
  rw [lastTarget?_eq, hbefore, List.filterMap_append]
  simp [hsome]

/-- If a join defines a name last, the output is another version. -/
theorem EndsWith.lastTarget?_ne (h : EndsWith x code v true) (hnodup : (defined code).Nodup) :
    lastTarget? x code ≠ some v := by
  intro hlast
  obtain ⟨instr, hinstr, hdef, htarget⟩ := h
  obtain ⟨value, hmem⟩ := mem_targets.mp (mem_targets_of_lastTarget? hlast).1
  have hlastMem := (List.mem_filter.mp (List.mem_of_getLast? hinstr)).1
  cases eq_of_defined hnodup hlastMem hmem hdef rfl
  cases htarget

end Code

/-! ## Outputs and final versions -/

namespace Program

/-- The names that a program assigns, in the order of their first assignments. -/
def outputNames (p : Program) : List String :=
  (Block.targets p.statements).eraseDups

theorem mem_outputNames {p : Program} {x : String} :
    x ∈ p.outputNames ↔ x ∈ Block.assigned p.statements := by
  rw [outputNames, List.mem_eraseDups, Block.mem_targets]

theorem map_base_outputs {p : Program} {f : SsaForm} (h : p.toSsa = .ok f) :
    (Code.outputs f.code).map Version.base = p.outputNames := by
  obtain ⟨code, s, hnum, hssa⟩ := p.exists_toSsa
  rw [hssa] at h
  cases h
  rw [(Code.latest_outputs code).order, hnum.map_base_targets valid_empty, outputNames]

/-- Every assigned name has exactly one output, the version that the last assignment to it defines,
and the version that is in force at the end is the last one that any instruction defines. The two
are the same unless a join comes last, and the program says when it does. -/
theorem output_eq_final_iff (p : Program) :
    ∃ f, p.toSsa = .ok f ∧ ∀ x ∈ Block.assigned p.statements, ∃ v final,
      (Code.outputs f.code).filter (·.base = x) = [v] ∧ Code.lastTarget? x f.code = some v ∧
      f.finals.get? x = some final ∧
      Code.EndsWith x f.code final (Block.endsInJoin x false p.statements) ∧
      (v = final ↔ Block.endsInJoin x false p.statements = false) := by
  obtain ⟨code, s, hnum, hssa⟩ := p.exists_toSsa
  have hstep := hnum.step valid_empty
  refine ⟨_, hssa, ?_⟩
  intro x hx
  obtain ⟨n, hn⟩ := Option.ne_none_iff_exists'.mp ((hstep.known x).mpr (.inr (.inr hx)))
  have hends : Code.EndsWith x code { base := x, number := n }
      (Block.endsInJoin x false p.statements) := by
    have hlast := hnum.endsWith valid_empty hx
    rw [current_of_get? hn] at hlast
    exact hlast
  obtain ⟨v, hv, rfl⟩ : ∃ v ∈ Code.outputs code, v.base = x := by
    refine List.mem_map.mp ?_
    rw [map_base_outputs hssa]
    exact mem_outputNames.mpr hx
  have hlast := Code.mem_outputs_iff.mp hv
  refine ⟨v, { base := v.base, number := n }, (Code.latest_outputs code).filter_eq hv, hlast, ?_,
    hends, ?_⟩
  · rw [NameMap.get?_mapValues, hn]
    rfl
  · cases hjoin : Block.endsInJoin v.base false p.statements with
    | false =>
      rw [hjoin] at hends
      rw [hends.lastTarget?_eq_some] at hlast
      simpa using hlast.symm
    | true =>
      rw [hjoin] at hends
      have hne := hends.lastTarget?_ne hstep.within.nodup
      rw [hlast] at hne
      simpa using hne

end Program

/-- A loop that counts up to an input and keeps its last step. -/
def lastStep : Program where
  statements :=
    [.assign {} { target := "s", value := .lit 0 },
      .assign {} { target := "i", value := .lit 0 },
      .whileDo {} (.binary (.cmp .lt) (.var "i") (.var "n"))
        [.assign {} { target := "i", value := .binary (.arith .add) (.var "i") (.lit 1) },
          .assign {} { target := "t", value := .var "i" }],
      .assign {} { target := "s", value := .binary (.arith .add) (.var "s") (.var "t") }]

/-- In `lastStep` only the counter is joined after its last assignment. -/
theorem lastStep_outputs :
    ∃ f, lastStep.toSsa = .ok f ∧
      (∃ v, (Code.outputs f.code).filter (·.base = "s") = [v] ∧ f.finals.get? "s" = some v) ∧
      (∃ v, (Code.outputs f.code).filter (·.base = "t") = [v] ∧ f.finals.get? "t" = some v) ∧
      ∃ v final, (Code.outputs f.code).filter (·.base = "i") = [v] ∧
        f.finals.get? "i" = some final ∧ v ≠ final := by
  obtain ⟨f, hssa, hall⟩ := Program.output_eq_final_iff lastStep
  obtain ⟨s, s', hs, -, hs', -, hsame⟩ := hall "s" (by decide)
  obtain ⟨t, t', ht, -, ht', -, htsame⟩ := hall "t" (by decide)
  obtain ⟨i, i', hi, -, hi', -, hisame⟩ := hall "i" (by decide)
  cases hsame.mpr (by decide)
  cases htsame.mpr (by decide)
  exact ⟨f, hssa, ⟨s, hs, hs'⟩, ⟨t, ht, ht'⟩, i, i', hi, hi', fun heq =>
    absurd (hisame.mp heq) (by decide)⟩

/-- A name that is assigned again in one arm of a branch. -/
def assignedAgain : Program where
  statements :=
    [.assign {} { target := "x", value := .lit 0 },
      .ifElse {} (.var "c") [.assign {} { target := "x", value := .lit 1 }] []]

/-- The output is the version of the arm, while the join after the branch defines the final one. -/
theorem Program.output_before_join :
    ∃ f, assignedAgain.toSsa = .ok f ∧ "x" ∈ Block.assigned assignedAgain.statements ∧
      Code.outputs f.code = [⟨"x", 1, none⟩] ∧ f.finals.get? "x" = some ⟨"x", 2, none⟩ :=
  ⟨_, rfl, by decide, by decide, by decide⟩

/-! ## The goals of an equivalence script -/

/-- A term equates the output of a name in one program with that of a name in another. -/
def Script.Compares (first second : Code) (x y : String) (t : Term .bool) : Prop :=
  ∃ v w, Code.lastTarget? x first = some v ∧ Code.lastTarget? y second = some w ∧
    t = .rel .eq (.const v.text) (.const (w.mark secondMarker).text)

namespace Script

variable {first second : Code} {x x' y y' : String} {t : Term .bool} {k : Nat}

/-- The text of a goal tells which names it compares. -/
theorem Compares.unique (hfirst : Code.Unmarked first) (h : Compares first second x y t)
    (h' : Compares first second x' y' t) : x = x' ∧ y = y' := by
  obtain ⟨v, w, hv, hw, rfl⟩ := h
  obtain ⟨v', w', hv', hw', heq⟩ := h'
  injection heq with _ htext htext'
  injection htext with htext
  injection htext' with htext'
  obtain rfl := Version.eq_of_text_eq (hfirst.of_lastTarget? hv) (hfirst.of_lastTarget? hv') htext
  have hmark : w.mark secondMarker = w'.mark secondMarker :=
    Version.eq_of_text_eq_of_marker (.inr rfl) (.inr rfl) htext'
  have hbase : (w.mark secondMarker).base = (w'.mark secondMarker).base := by rw [hmark]
  change w.base = w'.base at hbase
  rw [(Code.mem_targets_of_lastTarget? hw).2, (Code.mem_targets_of_lastTarget? hw').2] at hbase
  exact ⟨(Code.mem_targets_of_lastTarget? hv).2.symm.trans (Code.mem_targets_of_lastTarget? hv').2,
    hbase⟩

/-- If the numbers of outputs are the same, the goals compare the outputs at each position. -/
theorem getElem?_goals_equivalence
    (hlen : (Code.outputs first).length = (Code.outputs second).length) :
    (equivalence first second).goals[k]? = some t ↔
      ∃ x y, ((Code.outputs first).map Version.base)[k]? = some x ∧
        ((Code.outputs second).map Version.base)[k]? = some y ∧ Compares first second x y t := by
  have hgoals : (equivalence first second).goals =
      ((Code.outputs first).zip (Code.outputs second)).map fun p =>
        .rel .eq (.const p.1.text) (.const (p.2.mark secondMarker).text) := by
    simp only [equivalence, Code.outputs_mark, List.length_map, if_pos hlen, List.zip_map_right,
      List.map_map]
    rfl
  simp only [hgoals, List.getElem?_map, Option.map_eq_some_iff, List.getElem?_zip_eq_some]
  constructor
  · rintro ⟨⟨v, w⟩, ⟨hv, hw⟩, rfl⟩
    exact ⟨v.base, w.base, ⟨v, hv, rfl⟩, ⟨w, hw, rfl⟩, v, w,
      Code.mem_outputs_iff.mp (List.mem_of_getElem? hv),
      Code.mem_outputs_iff.mp (List.mem_of_getElem? hw), rfl⟩
  · rintro ⟨_, _, ⟨v, hv, rfl⟩, ⟨w, hw, rfl⟩, v', w', hv', hw', rfl⟩
    rw [Code.mem_outputs_iff.mp (List.mem_of_getElem? hv)] at hv'
    rw [Code.mem_outputs_iff.mp (List.mem_of_getElem? hw)] at hw'
    cases hv'
    cases hw'
    exact ⟨(v, w), ⟨hv, hw⟩, rfl⟩

/-- At every position there is a goal that compares the two names there. -/
theorem exists_compares (hlen : (Code.outputs first).length = (Code.outputs second).length)
    (hk : k < (Code.outputs first).length) :
    ∃ x y t, ((Code.outputs first).map Version.base)[k]? = some x ∧
      ((Code.outputs second).map Version.base)[k]? = some y ∧
      (equivalence first second).goals[k]? = some t ∧ Compares first second x y t := by
  have hk' : k < (Code.outputs second).length := hlen ▸ hk
  have hx : ((Code.outputs first).map Version.base)[k]? = some (Code.outputs first)[k].base := by
    simp [hk]
  have hy : ((Code.outputs second).map Version.base)[k]? = some (Code.outputs second)[k].base := by
    simp [hk']
  have hcompares : Compares first second (Code.outputs first)[k].base (Code.outputs second)[k].base
      (.rel .eq (.const (Code.outputs first)[k].text)
        (.const ((Code.outputs second)[k].mark secondMarker).text)) :=
    ⟨_, _, Code.mem_outputs_iff.mp (List.getElem_mem hk),
      Code.mem_outputs_iff.mp (List.getElem_mem hk'), rfl⟩
  exact ⟨_, _, _, hx, hy, (getElem?_goals_equivalence hlen).mpr ⟨_, _, hx, hy, hcompares⟩,
    hcompares⟩

/-- A goal compares two names if and only if both outputs are at its position. -/
theorem compared_iff (hfirst : Code.Unmarked first)
    (hlen : (Code.outputs first).length = (Code.outputs second).length) :
    (∃ t, (equivalence first second).goals[k]? = some t ∧ Compares first second x y t) ↔
      ((Code.outputs first).map Version.base)[k]? = some x ∧
        ((Code.outputs second).map Version.base)[k]? = some y := by
  constructor
  · rintro ⟨t, hk, hcompares⟩
    obtain ⟨x', y', hx', hy', hcompares'⟩ := (getElem?_goals_equivalence hlen).mp hk
    obtain ⟨rfl, rfl⟩ := hcompares.unique hfirst hcompares'
    exact ⟨hx', hy'⟩
  · rintro ⟨hx, hy⟩
    have hk : k < (Code.outputs first).length := by
      simpa using (List.getElem?_eq_some_iff.mp hx).1
    obtain ⟨x', y', t, hx', hy', hgoal, hcompares⟩ := exists_compares hlen hk
    rw [hx] at hx'
    rw [hy] at hy'
    cases hx'
    cases hy'
    exact ⟨t, hgoal, hcompares⟩

/-- All goals compare namesakes if and only if the outputs have the same names in order. -/
theorem forall_compares_self_iff (hfirst : Code.Unmarked first)
    (hlen : (Code.outputs first).length = (Code.outputs second).length) :
    (∀ t ∈ (equivalence first second).goals, ∃ x, Compares first second x x t) ↔
      (Code.outputs first).map Version.base = (Code.outputs second).map Version.base := by
  constructor
  · intro hall
    refine List.ext_getElem? ?_
    intro k
    by_cases hk : k < (Code.outputs first).length
    · obtain ⟨x, y, t, hx, hy, hgoal, hcompares⟩ := exists_compares hlen hk
      obtain ⟨z, hz⟩ := hall t (List.mem_of_getElem? hgoal)
      obtain ⟨rfl, rfl⟩ := hcompares.unique hfirst hz
      rw [hx, hy]
    · rw [List.getElem?_eq_none (by simpa using hk),
        List.getElem?_eq_none (by simpa [← hlen] using hk)]
  · intro hnames t ht
    obtain ⟨k, hk⟩ := List.mem_iff_getElem?.mp ht
    obtain ⟨x, y, hx, hy, hcompares⟩ := (getElem?_goals_equivalence hlen).mp hk
    rw [hnames, hy] at hx
    cases hx
    exact ⟨_, hcompares⟩

end Script

namespace Program

theorem nodup_outputNames (p : Program) : p.outputNames.Nodup := by
  obtain ⟨f, hf⟩ := p.exists_ssaForm
  rw [← map_base_outputs hf]
  exact (Code.latest_outputs f.code).nodup

theorem existsUnique_position {names others : List String} {x : String} (hnodup : names.Nodup)
    (hlen : names.length = others.length) (hx : x ∈ names) :
    ∃! k : Nat, ∃ y, names[k]? = some x ∧ others[k]? = some y := by
  obtain ⟨k, hk⟩ := List.mem_iff_getElem?.mp hx
  have hlt : k < others.length := hlen ▸ (List.getElem?_eq_some_iff.mp hk).1
  refine ⟨k, ⟨others[k], hk, List.getElem?_eq_getElem hlt⟩, ?_⟩
  rintro j ⟨-, hj, -⟩
  exact (List.getElem?_inj (List.getElem?_eq_some_iff.mp hj).1 hnodup).mp (hj.trans hk.symm)

/-- Programs that assign the same names are compared in the order of their first assignments: the
`k`-th name of one with the `k`-th name of the other. So every assigned name of either program is
compared exactly once, and with its namesake throughout only if the orders are the same. -/
theorem equivalence_pairs_by_position (p q : Program)
    (h : ∀ x, x ∈ Block.assigned p.statements ↔ x ∈ Block.assigned q.statements) :
    ∃ f g goals, p.toSsa = .ok f ∧ q.toSsa = .ok g ∧
      (Script.equivalence f.code g.code).mismatch = none ∧
      (Script.equivalence f.code g.code).goals = goals ∧
      (∀ (k : Nat) t, goals[k]? = some t ↔ ∃ x y, p.outputNames[k]? = some x ∧
        q.outputNames[k]? = some y ∧ Script.Compares f.code g.code x y t) ∧
      (∀ x ∈ Block.assigned p.statements,
        (∃! k : Nat, ∃ y t, goals[k]? = some t ∧ Script.Compares f.code g.code x y t) ∧
        ∃! k : Nat, ∃ y t, goals[k]? = some t ∧ Script.Compares f.code g.code y x t) ∧
      ((∀ t ∈ goals, ∃ x, Script.Compares f.code g.code x x t) ↔
        p.outputNames = q.outputNames) := by
  obtain ⟨f, hf⟩ := p.exists_ssaForm
  obtain ⟨g, hg⟩ := q.exists_ssaForm
  have hunmarked : Code.Unmarked f.code := fun v hv =>
    (unmarked_of_toSsa hf).1 v (List.mem_append.mp hv)
  have hperm : p.outputNames.Perm q.outputNames := by
    refine (List.perm_ext_iff_of_nodup p.nodup_outputNames q.nodup_outputNames).mpr ?_
    intro x
    rw [mem_outputNames, mem_outputNames, h x]
  have hlen : (Code.outputs f.code).length = (Code.outputs g.code).length := by
    rw [← List.length_map Version.base, map_base_outputs hf, ← List.length_map Version.base,
      map_base_outputs hg, hperm.length_eq]
  have hgoals : ∀ (k : Nat) t, (Script.equivalence f.code g.code).goals[k]? = some t ↔
      ∃ x y, p.outputNames[k]? = some x ∧ q.outputNames[k]? = some y ∧
        Script.Compares f.code g.code x y t := by
    intro k t
    rw [Script.getElem?_goals_equivalence hlen, map_base_outputs hf, map_base_outputs hg]
  refine ⟨f, g, _, hf, hg, ?_, rfl, hgoals, ?_, ?_⟩
  · rw [Script.mismatch_equivalence, if_pos hlen]
  · intro x hx
    simp only [Script.compared_iff hunmarked hlen, map_base_outputs hf, map_base_outputs hg]
    refine ⟨existsUnique_position p.nodup_outputNames hperm.length_eq (mem_outputNames.mpr hx), ?_⟩
    refine (existsUnique_congr fun k => exists_congr fun y => and_comm).mp ?_
    exact existsUnique_position q.nodup_outputNames hperm.symm.length_eq
      (mem_outputNames.mpr ((h x).mp hx))
  · rw [Script.forall_compares_self_iff hunmarked hlen, map_base_outputs hf, map_base_outputs hg]

end Program

/-- Two independent assignments. -/
def assignXY : Program where
  statements :=
    [.assign {} { target := "x", value := .lit 1 }, .assign {} { target := "y", value := .lit 2 }]

/-- Assigns `x` twice, before and after `y`. -/
def xBeforeY : Program where
  statements :=
    [.assign {} { target := "x", value := .lit 1 }, .assign {} { target := "y", value := .var "x" },
      .assign {} { target := "x", value := .var "y" }]

/-- Both programs assign `x` first, so only namesakes are compared. -/
theorem xBeforeY_assignXY_namesakes :
    (∀ x, x ∈ Block.assigned xBeforeY.statements ↔ x ∈ Block.assigned assignXY.statements) ∧
      ∃ f g, xBeforeY.toSsa = .ok f ∧ assignXY.toSsa = .ok g ∧
        (Script.equivalence f.code g.code).mismatch = none ∧
        ∀ t ∈ (Script.equivalence f.code g.code).goals, ∃ x,
          Script.Compares f.code g.code x x t := by
  have hsame : ∀ x, x ∈ Block.assigned xBeforeY.statements ↔
      x ∈ Block.assigned assignXY.statements := by
    intro x
    simp [Block.assigned, Stmt.assigned, xBeforeY, assignXY]
    grind
  obtain ⟨f, g, _, hf, hg, hmismatch, rfl, -, -, hnamesakes⟩ :=
    Program.equivalence_pairs_by_position xBeforeY assignXY hsame
  exact ⟨hsame, f, g, hf, hg, hmismatch, hnamesakes.mpr (by decide)⟩

/-- The same assignments in the other order. -/
def assignYX : Program where
  statements :=
    [.assign {} { target := "y", value := .lit 2 }, .assign {} { target := "x", value := .lit 1 }]

/-- Two independent assignments in another order: each name is compared with the other one, and the
programs, which compute the same values, cannot agree. -/
theorem Program.equivalence_crosses_names :
    (∀ x, x ∈ Block.assigned assignXY.statements ↔ x ∈ Block.assigned assignYX.statements) ∧
      ∃ f g, assignXY.toSsa = .ok f ∧ assignYX.toSsa = .ok g ∧
        (Script.equivalence f.code g.code).goals =
          [.rel .eq (.const "x_0") (.const "y_0_p2"), .rel .eq (.const "y_0") (.const "x_0_p2")] ∧
        ¬ (Script.equivalence f.code g.code).Satisfiable ⟨fun _ => 0, fun _ => 0⟩ := by
  refine ⟨?_, ⟨[.define ⟨"x", 0, none⟩ (.lit 1), .define ⟨"y", 0, none⟩ (.lit 2)], _⟩,
    ⟨[.define ⟨"y", 0, none⟩ (.lit 2), .define ⟨"x", 0, none⟩ (.lit 1)], _⟩, rfl, rfl, ?_, ?_⟩
  · intro x
    simp [Block.assigned, Stmt.assigned, assignYX, assignXY, or_comm]
  · have hx : Version.text ⟨"x", 0, none⟩ = "x_0" := by decide +kernel
    have hy : Version.text ⟨"y", 0, none⟩ = "y_0" := by decide +kernel
    have hx' : Version.text ⟨"x", 0, some "p2"⟩ = "x_0_p2" := by decide +kernel
    have hy' : Version.text ⟨"y", 0, some "p2"⟩ = "y_0_p2" := by decide +kernel
    show [Term.rel .eq (.const (Version.text ⟨"x", 0, none⟩))
        (.const (Version.text ⟨"y", 0, some "p2"⟩)),
      Term.rel .eq (.const (Version.text ⟨"y", 0, none⟩))
        (.const (Version.text ⟨"x", 0, some "p2"⟩))] = _
    rw [hx, hy', hy, hx']
  · rintro ⟨m, hm⟩
    rw [Script.holds_equivalence_iff, Script.holds_verification_iff, Script.holds_verification_iff,
      Code.satisfied_mark, Code.outputs_mark] at hm
    obtain ⟨⟨hfirst, -⟩, ⟨hsecond, -⟩, hagree⟩ := hm
    -- one, from the first program, is two, from the second
    have hx : m.ints (Version.text ⟨"x", 0, none⟩) = 1 :=
      hfirst _ List.mem_cons_self
    have hy : m.ints (Version.text (Version.mark Script.secondMarker ⟨"y", 0, none⟩)) = 2 :=
      hsecond _ List.mem_cons_self
    cases hagree with
    | cons hgoal _ =>
      rw [hx, hy] at hgoal
      cases hgoal

end WhileSmt
