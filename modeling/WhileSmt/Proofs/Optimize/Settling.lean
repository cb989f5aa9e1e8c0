import Mathlib.Data.List.Forall2
import Mathlib.Logic.Relation
import WhileSmt.Proofs.Optimize.NormalForm

/-!
How many rounds the optimizer needs. A walk of constant propagation goes through the list once, so a
definition that stands after its readers becomes known to them in the next round only. The optimizer
stops after `roundLimit` rounds, whether or not there is something left to do.

Main statements: what the optimizer leaves unchanged (`Code.optimize_eq_self_iff`), that every round
adds one definition to a chain of late ones (`Code.Delayed.round`), and that a second run does
something only after a chain as long as there are rounds (`Code.optimize_settles`). Such a chain
exists (`Code.optimize_not_idempotent`).
-/

namespace WhileSmt

/-! ## Weights -/

/-- The number of nodes of an expression that are not literals. -/
def Expr.weight {ν : Type} : Expr ν → Nat
  | lit _ => 0
  | var _ => 1
  | index _ i => i.weight + 1
  | unary _ e => e.weight + 1
  | binary _ l r => l.weight + r.weight + 1

/-- Folding makes an expression lighter or does nothing. -/
theorem Expr.weight_fold {ν : Type} (constant? : ν → Option Int64) (e : Expr ν) :
    (e.fold constant?).weight < e.weight ∨ e.fold constant? = e := by
  induction e with
  | lit n => exact .inr rfl
  | var x =>
    unfold fold
    split
    · exact .inl Nat.zero_lt_one
    · exact .inr rfl
  | index a i ih =>
    rcases ih with ih | ih
    · exact .inl (Nat.succ_lt_succ ih)
    · exact .inr (by rw [fold, ih])
  | unary op e ih =>
    rcases foldUnary_cases op (e.fold constant?) with ⟨n, heq⟩ | heq
    · rw [fold, heq]
      exact .inl (Nat.succ_pos _)
    · rw [fold, heq]
      rcases ih with ih | ih
      · exact .inl (Nat.succ_lt_succ ih)
      · exact .inr (by rw [ih])
  | binary op l r ihl ihr =>
    rcases foldBinary_cases op (l.fold constant?) (r.fold constant?) with ⟨n, heq⟩ | heq
    · rw [fold, heq]
      exact .inl (Nat.succ_pos _)
    · rw [fold, heq]
      simp only [weight]
      rcases ihl with ihl | ihl <;> rcases ihr with ihr | ihr
      · exact .inl (by omega)
      · exact .inl (by rw [ihr]; omega)
      · exact .inl (by rw [ihl]; omega)
      · exact .inr (by rw [ihl, ihr])

/-- The weight of the expression of an instruction. -/
def Instr.weight (instr : Instr) : Nat :=
  (instr.expr?.map Expr.weight).getD 0

theorem Instr.weight_fold (table : Constants) (instr : Instr) :
    (instr.fold table).weight < instr.weight ∨ instr.fold table = instr := by
  unfold weight
  rw [expr?_fold]
  cases he : instr.expr? with
  | none =>
    refine .inr (fold_eq_self fun e h => ?_)
    rw [he] at h
    cases h
  | some e =>
    rcases e.weight_fold table.get? with h | h
    · exact .inl h
    · refine .inr (fold_eq_self fun e' h' => ?_)
      rw [he] at h'
      cases h'
      exact h

namespace Code

/-- The weights of all expressions, where each instruction counts for one more. -/
def weight : Code → Nat
  | [] => 0
  | instr :: rest => instr.weight + 1 + weight rest

theorem weight_foldWith (table : Constants) (code : Code) :
    weight (foldWith table code) < weight code ∨ foldWith table code = code := by
  induction code generalizing table with
  | nil => exact .inr rfl
  | cons instr rest ih =>
    simp only [foldWith_cons, weight]
    rcases instr.weight_fold table with hfirst | hfirst <;>
      rcases ih ((instr.fold table).constant?.toList ++ table) with hrest | hrest
    · exact .inl (by omega)
    · exact .inl (by rw [hrest]; omega)
    · exact .inl (by rw [hfirst] at hrest ⊢; omega)
    · exact .inr (by rw [hrest, hfirst])

theorem weight_sublist {code code' : Code} (h : code'.Sublist code) :
    weight code' < weight code ∨ code' = code := by
  induction h with
  | slnil => exact .inr rfl
  | cons instr _ ih =>
    refine .inl ?_
    rw [weight]
    rcases ih with ih | rfl <;> omega
  | cons_cons instr _ ih =>
    rw [weight, weight]
    rcases ih with ih | rfl
    · exact .inl (by omega)
    · exact .inr rfl

end Code

/-- A pass makes the code lighter or does nothing. -/
theorem Pass.weight_run (pass : Pass) (code : Code) :
    Code.weight (pass.run code).1 < Code.weight code ∨ (pass.run code).1 = code := by
  cases pass with
  | constants => exact Code.weight_foldWith _ code
  | deadCode => exact Code.weight_sublist (Code.eliminateDead_sublist code)

namespace Optimized

variable {passes : List Pass} {o : Optimized}

theorem weight_le (passes : List Pass) (w : Nat) :
    ∀ pass ∈ passes, ∀ code, Code.weight code ≤ w → Code.weight (pass.run code).1 ≤ w := by
  intro pass _ code h
  rcases pass.weight_run code with hlt | heq
  · omega
  · rwa [heq]

/-- A round makes the code lighter, unless no pass does anything. -/
theorem weight_steps (passes : List Pass) (o : Optimized) :
    Code.weight (passes.foldl step o).code < Code.weight o.code ∨
      ∀ pass ∈ passes, (pass.run o.code).1 = o.code := by
  induction passes with
  | nil => exact .inr (List.forall_mem_nil _)
  | cons pass rest ih =>
    rw [List.foldl_cons]
    rcases pass.weight_run o.code with hlt | heq
    · have hle := steps_keep (weight_le rest (Code.weight (o.step pass).code)) (Nat.le_refl _)
      rw [code_step] at hle
      exact .inl (Nat.lt_of_le_of_lt hle hlt)
    · rw [step_eq_self heq]
      exact ih.imp_right fun h => List.forall_mem_cons.mpr ⟨heq, h⟩

/-- The rounds together make the code lighter, unless no pass does anything. -/
theorem weight_run {limit : Nat} (hlimit : 0 < limit) (passes : List Pass) (o : Optimized) :
    Code.weight (run passes limit o).code < Code.weight o.code ∨
      ∀ pass ∈ passes, (pass.run o.code).1 = o.code := by
  obtain ⟨limit, rfl⟩ := Nat.exists_eq_add_one_of_ne_zero (Nat.ne_of_gt hlimit)
  refine (weight_steps passes o).imp_left fun hlt => ?_
  rw [run]
  split
  · exact hlt
  · have hle := run_keeps (weight_le passes (Code.weight (passes.foldl step o).code)) limit
      (o := { passes.foldl step o with rounds := o.rounds + 1 }) (Nat.le_refl _)
    exact Nat.lt_of_le_of_lt hle hlt

end Optimized

namespace Code

theorem run_eq_self_iff {code : Code} :
    (∀ pass ∈ Pass.all, (pass.run code).1 = code) ↔ Propagated code ∧ Swept code := by
  constructor
  · intro h
    exact ⟨propagate_eq_self_iff.mp (h .constants (by decide)),
      eliminateDead_eq_self_iff.mp (h .deadCode (by decide))⟩
  · rintro ⟨hpropagated, hswept⟩
    exact hpropagated.run_eq_self hswept

/-- The optimizer leaves exactly the lists unchanged that are in the normal forms of its passes. -/
theorem optimize_eq_self_iff {code : Code} :
    optimize code = code ↔ Propagated code ∧ Swept code := by
  rw [← run_eq_self_iff]
  constructor
  · intro h
    refine (Optimized.weight_run (by decide : 0 < roundLimit) Pass.all
      { code := code }).resolve_left ?_
    rw [show (Optimized.run Pass.all roundLimit { code := code }).code = code from h]
    exact Nat.lt_irrefl _
  · intro h
    exact congrArg Optimized.code (Optimized.run_eq_self h roundLimit)

/-! ## Rounds -/

/-- One round of the usual passes. -/
def round (code : Code) : Code :=
  eliminateDead (propagate code)

end Code

namespace Optimized

theorem code_round (o : Optimized) : (Pass.all.foldl step o).code = Code.round o.code :=
  rfl

/-- What holds after so many rounds holds in the end, unless no pass does anything any more. -/
theorem run_rounds {P : Nat → Code → Prop}
    (hround : ∀ n code, P n code → P (n + 1) (Code.round code)) {n : Nat} {o : Optimized}
    (h : P n o.code) (limit : Nat) :
    (∀ pass ∈ Pass.all,
        (pass.run (run Pass.all limit o).code).1 = (run Pass.all limit o).code) ∨
      P (n + limit) (run Pass.all limit o).code := by
  induction limit generalizing n o with
  | zero => exact .inr h
  | succ limit ih =>
    rw [run]
    split
    · next hsame =>
      have hsteps := weight_steps Pass.all o
      rw [steps_eq_self_of_length hsame] at hsteps ⊢
      exact .inl (hsteps.resolve_left (Nat.lt_irrefl _))
    · have hnext := hround n o.code h
      rw [← code_round] at hnext
      rw [Nat.add_comm limit 1, ← Nat.add_assoc]
      exact @ih (n + 1) { Pass.all.foldl step o with rounds := o.rounds + 1 } hnext

end Optimized

theorem Code.swept_optimize (code : Code) : Swept (optimize code) := by
  have hround : ∀ n c, (0 < n → Swept c) → 0 < n + 1 → Swept (round c) :=
    fun _ c _ _ => swept_eliminateDead (propagate c)
  rcases Optimized.run_rounds (P := fun n c => 0 < n → Swept c) hround
    (o := { code := code }) (n := 0) (fun h => absurd h (Nat.lt_irrefl 0)) roundLimit with h | h
  · exact (run_eq_self_iff.mp h).2
  · exact h (by decide)

/-! ## Late definitions -/

namespace Code

/-- The definition of a version comes late: it is not a literal, and an expression before it reads
the version as a scalar. -/
def Late (code : Code) (v : Version) : Prop :=
  ∃ reader e value, reader.expr? = some e ∧ v ∈ e.scalars ∧ value.literal? = none ∧
    [reader, .define v value].Sublist code

/-- The definition of one version reads the other one as a scalar. -/
def Reads (code : Code) (v w : Version) : Prop :=
  ∃ value, .define v value ∈ code ∧ w ∈ value.scalars

/-- The definition of one version reads the other one, directly or through other definitions. -/
def RestsOn (code : Code) : Version → Version → Prop :=
  Relation.TransGen (Reads code)

/-- A version that is defined as a literal and still read as a scalar. -/
def Stale (code : Code) (v : Version) : Prop :=
  (∃ n, .define v (.lit n) ∈ code) ∧ ∃ e ∈ exprs code, v ∈ e.scalars

/-- A version that is defined as a literal if it is defined at all. -/
def Known (code : Code) (v : Version) : Prop :=
  ∀ value, .define v value ∈ code → value.literal? ≠ none

theorem Late.of_sublist {code code' : Code} {v : Version} (h : Late code' v)
    (hsub : code'.Sublist code) : Late code v := by
  obtain ⟨reader, e, value, hexpr, hv, hvalue, hpair⟩ := h
  exact ⟨reader, e, value, hexpr, hv, hvalue, hpair.trans hsub⟩

theorem Stale.of_sublist {code code' : Code} {v : Version} (h : Stale code' v)
    (hsub : code'.Sublist code) : Stale code v := by
  obtain ⟨⟨n, hdef⟩, e, he, hv⟩ := h
  obtain ⟨instr, hmem, hexpr⟩ := mem_exprs.mp he
  exact ⟨⟨n, hsub.subset hdef⟩, e, mem_exprs.mpr ⟨instr, hsub.subset hmem, hexpr⟩, hv⟩

/-- A late definition is not a literal. -/
theorem Late.not_known {code : Code} {v : Version} (h : Late code v) : ¬Known code v := by
  obtain ⟨reader, e, value, -, -, hvalue, hpair⟩ := h
  exact fun hknown => hknown value (hpair.subset (by simp)) hvalue

end Code

theorem Instr.eq_define_of_fold {table : Constants} {instr : Instr} {v : Version}
    {value : Expr Version} (h : instr.fold table = .define v value) :
    ∃ value₀, instr = .define v value₀ ∧ value = value₀.fold table.get? := by
  cases instr with
  | define target value₀ =>
    cases h
    exact ⟨value₀, rfl, rfl⟩
  | join result operands guard => cases h
  | check cond => cases h

namespace Code

/-- A part of folded code was a part of the code. -/
theorem exists_sublist_of_foldWith {table : Constants} {code part : Code}
    (h : part.Sublist (foldWith table code)) :
    ∃ part₀ : Code, part₀.Sublist code ∧
      List.Forall₂ (fun instr instr₀ => ∃ table, instr = Instr.fold table instr₀) part part₀ := by
  induction code generalizing table part with
  | nil =>
    cases h
    exact ⟨[], .slnil, .nil⟩
  | cons instr rest ih =>
    cases h with
    | cons _ h =>
      obtain ⟨part₀, hsub, hfold⟩ := ih h
      exact ⟨part₀, hsub.cons instr, hfold⟩
    | cons_cons _ h =>
      obtain ⟨part₀, hsub, hfold⟩ := ih h
      exact ⟨instr :: part₀, hsub.cons_cons instr, .cons ⟨table, rfl⟩ hfold⟩

theorem Late.of_foldWith {table : Constants} {code : Code} {v : Version}
    (h : Late (foldWith table code) v) : Late code v := by
  obtain ⟨reader, e, value, hexpr, hv, hvalue, hpair⟩ := h
  obtain ⟨part₀, hsub, hfold⟩ := exists_sublist_of_foldWith hpair
  cases hfold with
  | @cons _ reader₀ _ _ hreader hrest =>
    cases hrest with
    | cons hdef hnil =>
      cases hnil
      obtain ⟨table₁, rfl⟩ := hreader
      obtain ⟨table₂, hdef⟩ := hdef
      obtain ⟨value₀, rfl, rfl⟩ := Instr.eq_define_of_fold hdef.symm
      rw [Instr.expr?_fold] at hexpr
      obtain ⟨e₀, he₀, rfl⟩ := Option.map_eq_some_iff.mp hexpr
      refine ⟨reader₀, e₀, value₀, he₀, (Expr.scalars_fold hv).1, ?_, hsub⟩
      -- folding keeps literals
      cases value₀ with
      | lit n => cases hvalue
      | _ => rfl

theorem Reads.of_foldWith {table : Constants} {code : Code} {v w : Version}
    (h : Reads (foldWith table code) v w) : Reads code v w := by
  obtain ⟨value, hmem, hw⟩ := h
  obtain ⟨instr, hinstr, table', hfold⟩ := mem_foldWith hmem
  obtain ⟨value₀, rfl, rfl⟩ := Instr.eq_define_of_fold hfold.symm
  exact ⟨value₀, hinstr, (Expr.scalars_fold hw).1⟩

theorem Known.foldWith {code : Code} {v : Version} (h : Known code v) (table : Constants) :
    Known (foldWith table code) v := by
  intro value hmem
  obtain ⟨instr, hinstr, table', hfold⟩ := mem_foldWith hmem
  obtain ⟨value₀, rfl, rfl⟩ := Instr.eq_define_of_fold hfold.symm
  have hvalue := h value₀ hinstr
  cases value₀ with
  | lit n => exact hvalue
  | _ => exact absurd rfl hvalue

/-- A version that a walk leaves stale is read before its definition, and the walk did not know it
from the start. -/
theorem Stale.exists_before {table : Constants} {code : Code} {v : Version}
    (h : Stale (foldWith table code) v) :
    ∃ reader e value, reader.expr? = some e ∧ v ∈ e.scalars ∧ table.get? v = none ∧
      [reader, .define v value].Sublist code := by
  obtain ⟨⟨n, hdef⟩, e, he, hv⟩ := h
  have hnone := (mem_exprs_foldWith he).2 v hv
  induction code generalizing table with
  | nil => cases he
  | cons instr rest ih =>
    obtain ⟨i, hmem, hexpr⟩ := mem_exprs.mp he
    rcases List.mem_cons.mp hmem with rfl | hmem
    · -- the reader is folded first, so its definition comes after it
      rw [Instr.expr?_fold] at hexpr
      obtain ⟨e₀, he₀, rfl⟩ := Option.map_eq_some_iff.mp hexpr
      rcases List.mem_cons.mp hdef with hdef | hdef
      · obtain ⟨value₀, rfl, hlit⟩ := Instr.eq_define_of_fold hdef.symm
        cases he₀
        rw [← hlit] at hv
        cases hv
      · obtain ⟨instr', hinstr', table', hfold⟩ := mem_foldWith hdef
        obtain ⟨value₀, rfl, -⟩ := Instr.eq_define_of_fold hfold.symm
        exact ⟨instr, e₀, value₀, he₀, (Expr.scalars_fold hv).1, hnone,
          .cons_cons _ (List.singleton_sublist.mpr hinstr')⟩
    · have he' := mem_exprs.mpr ⟨i, hmem, hexpr⟩
      have hnone' := (mem_exprs_foldWith he').2 v hv
      rcases List.mem_cons.mp hdef with hdef | hdef
      · -- a definition before its reader is known to the reader
        refine absurd ?_ (Constants.get?_eq_none_iff.mp hnone' n)
        refine List.mem_append_left _ ?_
        rw [← hdef]
        exact List.mem_singleton_self _
      · obtain ⟨reader, e₁, value, hreader, hv₁, -, hpair⟩ := ih hdef he' hnone'
        exact ⟨reader, e₁, value, hreader, hv₁, hnone, hpair.cons instr⟩

/-- What a walk leaves stale was defined late. -/
theorem Stale.late {code : Code} {v : Version} (h : Stale (propagate code) v) : Late code v := by
  obtain ⟨reader, e, value, hreader, hv, hnone, hpair⟩ := h.exists_before
  refine ⟨reader, e, value, hreader, hv, ?_, hpair⟩
  cases hvalue : value.literal? with
  | none => rfl
  | some n =>
    -- the literals of the list are in the table from the start
    rw [Expr.literal?_eq_some.mp hvalue] at hpair
    exact absurd (mem_constants_iff.mpr (hpair.subset (by simp)))
      (Constants.get?_eq_none_iff.mp hnone n)

/-- In folded code a walk makes a definition a literal only by what is stale. -/
theorem restsOn_of_foldWith {code rest : Code} (hfolded : ∀ e ∈ exprs code, e.Folded)
    (hsub : ∀ instr ∈ rest, instr ∈ code) {table : Constants}
    (htable : ∀ v n, (v, n) ∈ table →
      .define v (.lit n) ∈ code ∨ ∃ w, Stale code w ∧ RestsOn code v w)
    {v : Version} {n : Int64} (h : .define v (.lit n) ∈ foldWith table rest) :
    .define v (.lit n) ∈ code ∨ ∃ w, Stale code w ∧ RestsOn code v w := by
  induction rest generalizing table with
  | nil => cases h
  | cons instr rest ih =>
    rw [List.forall_mem_cons] at hsub
    have hfirst : ∀ v n, instr.fold table = .define v (.lit n) →
        .define v (.lit n) ∈ code ∨ ∃ w, Stale code w ∧ RestsOn code v w := by
      intro v n hfold
      obtain ⟨value, rfl, hvalue⟩ := Instr.eq_define_of_fold hfold
      have hexpr : value ∈ exprs code := mem_exprs.mpr ⟨_, hsub.1, rfl⟩
      by_cases hscalars : ∀ x ∈ value.scalars, table.get? x = none
      · rw [(hfolded value hexpr).fold_eq_self hscalars] at hvalue
        exact .inl (hvalue ▸ hsub.1)
      · simp only [not_forall] at hscalars
        obtain ⟨x, hx, hsome⟩ := hscalars
        obtain ⟨m, hm⟩ := Option.ne_none_iff_exists'.mp hsome
        have hread : Reads code v x := ⟨value, hsub.1, hx⟩
        rcases htable x m (Constants.mem_of_get? hm) with hlit | ⟨w, hw, hrests⟩
        · exact .inr ⟨x, ⟨⟨m, hlit⟩, value, hexpr, hx⟩, .single hread⟩
        · exact .inr ⟨w, hw, .head hread hrests⟩
    rcases List.mem_cons.mp h with h | h
    · exact hfirst v n h.symm
    · refine ih hsub.2 ?_ h
      intro x m hmem
      rcases List.mem_append.mp hmem with hmem | hmem
      · exact hfirst x m (Instr.define_of_constant? (Option.mem_toList.mp hmem))
      · exact htable x m hmem

/-! ## Chains -/

/-- What is left of a list after some rounds. Each version that is stale now has waited for one late
definition in every round. -/
structure Delayed (code : Code) (n : Nat) (left : Code) : Prop where
  late : ∀ v, Late left v → Late code v
  reads : ∀ v w, Reads left v w → Reads code v w
  single : (defined left).Nodup
  folded : 0 < n → ∀ e ∈ exprs left, e.Folded
  chains : 0 < n → ∀ v, Stale left v → ∃ rest, rest.length + 1 = n ∧
    (v :: rest).IsChain (RestsOn code) ∧ (v :: rest).Nodup ∧
    ∀ w ∈ v :: rest, Late code w ∧ Known left w

theorem Known.of_sublist {code code' : Code} {v : Version} (h : Known code v)
    (hsub : code'.Sublist code) : Known code' v :=
  fun value hmem => h value (hsub.subset hmem)

theorem known_of_define {code : Code} (hsingle : (defined code).Nodup) {v : Version} {n : Int64}
    (h : .define v (.lit n) ∈ code) : Known code v := by
  intro value hmem
  have heq := eq_of_defined hsingle hmem h rfl rfl
  cases heq
  exact Option.some_ne_none n

theorem round_sublist (code : Code) : (round code).Sublist (propagate code) :=
  eliminateDead_sublist (propagate code)

theorem nodup_defined_round {code : Code} (h : (defined code).Nodup) :
    (defined (round code)).Nodup := by
  have hsub : (defined (round code)).Sublist (defined (propagate code)) :=
    (round_sublist code).filterMap _
  rw [propagate, defined_foldWith] at hsub
  exact h.sublist hsub

namespace Delayed

variable {code left : Code} {n : Nat}

theorem start (h : (defined code).Nodup) : Delayed code 0 code where
  late := fun _ h => h
  reads := fun _ _ h => h
  single := h
  folded := fun h => absurd h (Nat.lt_irrefl 0)
  chains := fun h => absurd h (Nat.lt_irrefl 0)

/-- A version that a round leaves stale has a late definition. In the first round that is all; later
the definition has waited for one that was stale before. -/
theorem exists_chain (h : Delayed code n left) {v : Version} (hstale : Stale (round left) v) :
    ∃ rest, rest.length + 1 = n + 1 ∧ (v :: rest).IsChain (RestsOn code) ∧ (v :: rest).Nodup ∧
      (∀ w ∈ v :: rest, Late code w) ∧ ∀ w ∈ rest, Known left w := by
  have hstale' := hstale.of_sublist (round_sublist left)
  have hlate := hstale'.late
  rcases Nat.eq_zero_or_pos n with rfl | hn
  · exact ⟨[], rfl, .singleton v, List.pairwise_singleton _ v,
      List.forall_mem_singleton.mpr (h.late v hlate), List.forall_mem_nil _⟩
  · obtain ⟨⟨m, hdef⟩, -⟩ := hstale'
    rcases restsOn_of_foldWith (h.folded hn) (fun _ hmem => hmem)
      (fun _ _ hmem => .inl (mem_constants hmem)) hdef with hlit | ⟨w, hw, hrests⟩
    · exact absurd (known_of_define h.single hlit) hlate.not_known
    · obtain ⟨rest, hlength, hchain, hnodup, hall⟩ := h.chains hn w hw
      refine ⟨w :: rest, by rw [List.length_cons, hlength], .cons_cons ?_ hchain, ?_, ?_, ?_⟩
      · exact Relation.TransGen.mono h.reads v w hrests
      · refine List.nodup_cons.mpr ⟨?_, hnodup⟩
        exact fun hmem => hlate.not_known (hall v hmem).2
      · exact List.forall_mem_cons.mpr ⟨h.late v hlate, fun x hx => (hall x hx).1⟩
      · exact fun x hx => (hall x hx).2

/-- A round makes the chains longer by one. -/
theorem round (h : Delayed code n left) : Delayed code (n + 1) (round left) where
  late := fun v hv => h.late v (hv.of_sublist (round_sublist left)).of_foldWith
  reads := by
    rintro v w ⟨value, hmem, hw⟩
    exact h.reads v w (Reads.of_foldWith ⟨value, (round_sublist left).subset hmem, hw⟩)
  single := nodup_defined_round h.single
  folded := by
    intro _ e he
    obtain ⟨instr, hmem, hexpr⟩ := mem_exprs.mp he
    exact (mem_exprs_foldWith (mem_exprs.mpr ⟨instr, (round_sublist left).subset hmem, hexpr⟩)).1
  chains := by
    intro _ v hstale
    obtain ⟨rest, hlength, hchain, hnodup, hlate, hknown⟩ := h.exists_chain hstale
    refine ⟨rest, hlength, hchain, hnodup, fun w hw => ⟨hlate w hw, ?_⟩⟩
    rcases List.mem_cons.mp hw with rfl | hw
    · exact known_of_define (nodup_defined_round h.single) hstale.1.choose_spec
    · exact ((hknown w hw).foldWith _).of_sublist (round_sublist left)

end Delayed

/-- A second run of the optimizer does nothing if and only if the first one has left no version
that is defined as a literal and read as a scalar. It leaves one only if its rounds were too few:
there are as many late definitions as rounds, each of which rests on the next. -/
theorem optimize_settles {code : Code} (h : checkSingle code = .ok ()) :
    (optimize (optimize code) = optimize code ↔
      ∀ v n, .define v (.lit n) ∈ optimize code → ∀ e ∈ exprs (optimize code), v ∉ e.scalars) ∧
    (optimize (optimize code) = optimize code ∨
      ∃ chain : List Version, chain.length = roundLimit ∧ chain.Nodup ∧
        (∀ v ∈ chain, Late code v) ∧ chain.IsChain (RestsOn code)) := by
  have hdelayed := Delayed.start (checkSingle_eq_ok_iff.mp h)
  have hrun := Optimized.run_rounds (fun _ _ => Delayed.round) (o := { code := code }) hdelayed
    roundLimit
  have hswept := swept_optimize code
  have hsettled : optimize (optimize code) = optimize code ↔ ∀ v, ¬Stale (optimize code) v := by
    rw [optimize_eq_self_iff]
    constructor
    · rintro ⟨hpropagated, -⟩ v ⟨⟨n, hdef⟩, e, he, hv⟩
      exact hpropagated.replaced e he v hv n hdef
    · intro hstale
      refine ⟨⟨?_, ?_⟩, hswept⟩
      · rcases hrun with hfixed | hdelayed
        · exact (run_eq_self_iff.mp hfixed).1.folded
        · exact hdelayed.folded (by decide)
      · exact fun e he v hv n hdef => hstale v ⟨⟨n, hdef⟩, e, he, hv⟩
  refine ⟨?_, ?_⟩
  · rw [hsettled]
    constructor
    · exact fun hstale v n hdef e he hv => hstale v ⟨⟨n, hdef⟩, e, he, hv⟩
    · rintro hread v ⟨⟨n, hdef⟩, e, he, hv⟩
      exact hread v n hdef e he hv
  · rcases hrun with hfixed | hdelayed
    · exact .inl (optimize_eq_self_iff.mpr (run_eq_self_iff.mp hfixed))
    · by_cases hstale : ∀ v, ¬Stale (optimize code) v
      · exact .inl (hsettled.mpr hstale)
      · simp only [not_forall, not_not] at hstale
        obtain ⟨v, hv⟩ := hstale
        obtain ⟨rest, hlength, hchain, hnodup, hall⟩ := hdelayed.chains (by decide) v hv
        rw [Nat.zero_add] at hlength
        exact .inr ⟨v :: rest, hlength, hnodup, fun w hw => (hall w hw).1, hchain⟩

/-- Definitions of `x` in the wrong order, each a copy of the one after it; the last of them is a
literal, and an assertion reads the first. -/
def backwards (copies : Nat) : Code :=
  .check (.var ⟨"x", copies, none⟩) ::
    ((List.range copies).reverse.map fun k =>
      .define ⟨"x", k + 1, none⟩ (.var ⟨"x", k, none⟩)) ++
    [.define ⟨"x", 0, none⟩ (.lit 5)]

/-- Nine copies are few enough. -/
theorem backwards_settles :
    checkSingle (backwards 9) = .ok () ∧ optimize (backwards 9) = [.check (.lit 5)] ∧
      optimize (optimize (backwards 9)) = optimize (backwards 9) := by
  have hsingle : checkSingle (backwards 9) = .ok () := by decide
  have hleft : optimize (backwards 9) = [.check (.lit 5)] := by decide +kernel
  refine ⟨hsingle, hleft, (optimize_settles hsingle).1.mpr ?_⟩
  intro v n hdef
  rw [hleft] at hdef
  simp at hdef

/-- With ten copies the rounds end just before the assertion is reached, so a second run has
something left to do. -/
theorem optimize_not_idempotent :
    checkSingle (backwards 10) = .ok () ∧
      optimize (optimize (backwards 10)) ≠ optimize (backwards 10) := by
  have hleft : optimize (backwards 10) =
      [.check (.var ⟨"x", 10, none⟩), .define ⟨"x", 10, none⟩ (.lit 5)] := by decide +kernel
  refine ⟨by decide, ?_⟩
  rw [hleft]
  decide +kernel

end Code

end WhileSmt
