import WhileSmt.Proofs.Smt.Lines

/-!
Sorts of S-expressions. A solver knows the sorts of constants by their declarations and those of
applications by the signatures of its operators; an S-expression that follows them has a sort.

Main statement: the S-expression of a term has the sort of the term, if the constants of the term
are declared with the sorts that they have there (`Term.sort?_toSexp`).
-/

namespace WhileSmt

/-- The sort of an application, by the operator and the sorts of its arguments. -/
def resultSort? : String → List Srt → Option Srt
  | "select", [.array, .int] => some .int
  | "ite", [.bool, .int, .int] => some .int
  | "not", [.bool] => some .bool
  | "-", [.int] => some .int
  | op, [.int, .int] =>
    if op ∈ ["+", "-", "*", "div", "mod"] then some .int
    else if op ∈ ["=", "<=", ">=", "<", ">"] then some .bool
    else none
  | _, _ => none

/-- The sort of an atom: a numeral, `false`, or a constant with a declaration. -/
def atomSort? (declared : List (String × Srt)) (text : String) : Option Srt :=
  if (Text.readNatural? text.toList).isSome then some .int
  else if text = "false" then some .bool
  else declared.lookup text

namespace Sexp

variable (declared : List (String × Srt))

mutual

/-- The sort of an S-expression under declarations, if it has one. -/
def sort? : Sexp → Option Srt
  | .atom text => atomSort? declared text
  | .list (.atom op :: args) => (sorts? args).bind (resultSort? op)
  | .list _ => none

/-- The sorts of the arguments of an operator. -/
def sorts? : List Sexp → Option (List Srt)
  | [] => some []
  | arg :: rest => (sort? arg).bind fun s => (sorts? rest).map (s :: ·)

end

end Sexp

theorem resultSort?_arith (op : Arith) :
    resultSort? op.solverSymbol [.int, .int] = some .int := by
  cases op <;> rfl

theorem resultSort?_rel (op : Rel) : resultSort? op.symbol [.int, .int] = some .bool := by
  cases op <;> rfl

theorem atomSort?_natural (declared : List (String × Srt)) (n : Nat) :
    atomSort? declared (Text.natural n) = some .int := by
  simp [atomSort?, Text.natural, Text.readNatural?_digits]

/-- The S-expression of a term has the sort of the term. -/
theorem Term.sort?_toSexp {declared : List (String × Srt)} {s : Srt} (t : Term s)
    (h : ∀ p ∈ t.symbols, atomSort? declared p.1 = some p.2) :
    Sexp.sort? declared t.toSexp = some s := by
  induction t with
  | numeral n => exact atomSort?_natural declared n
  | const name => exact h (name, .int) List.mem_cons_self
  | array name => exact h (name, .array) List.mem_cons_self
  | select a i iha ihi =>
    simp only [symbols, List.forall_mem_append] at h
    simp [toSexp, Sexp.sort?, Sexp.sorts?, iha h.1, ihi h.2, resultSort?]
  | neg t ih => simp [toSexp, Sexp.sort?, Sexp.sorts?, ih h, resultSort?]
  | arith op l r ihl ihr =>
    simp only [symbols, List.forall_mem_append] at h
    simp [toSexp, Sexp.sort?, Sexp.sorts?, ihl h.1, ihr h.2, resultSort?_arith]
  | ite c t e ihc iht ihe =>
    simp only [symbols, List.forall_mem_append] at h
    simp [toSexp, Sexp.sort?, Sexp.sorts?, ihc h.1.1, iht h.1.2, ihe h.2, resultSort?]
  | rel op l r ihl ihr =>
    simp only [symbols, List.forall_mem_append] at h
    simp [toSexp, Sexp.sort?, Sexp.sorts?, ihl h.1, ihr h.2, resultSort?_rel]
  | not t ih => simp [toSexp, Sexp.sort?, Sexp.sorts?, ih h, resultSort?]
  | falsity => rfl

theorem lookup_of_mem {declared : List (String × Srt)} {x : String} {s : Srt}
    (honce : (declared.map Prod.fst).Nodup) (h : (x, s) ∈ declared) :
    declared.lookup x = some s := by
  obtain ⟨before, after, rfl⟩ := List.append_of_mem h
  rw [List.map_append, List.map_cons, List.nodup_append] at honce
  refine List.lookup_eq_some_iff.mpr ⟨before, after, rfl, ?_⟩
  intro p hp
  have hne := honce.2.2 p.1 (List.mem_map_of_mem hp) x List.mem_cons_self
  simpa using hne.symm

/-- A version that is declared once has the sort of its declaration. -/
theorem Version.atomSort?_text {declared : List (String × Srt)} {v : Version} {s : Srt}
    (honce : (declared.map Prod.fst).Nodup) (h : (v.text, s) ∈ declared) :
    atomSort? declared v.text = some s := by
  have hfalse : v.text ≠ "false" := by
    intro heq
    have hmem : '_' ∈ v.text.toList := by simp [text]
    rw [heq] at hmem
    exact absurd hmem (by decide)
  simp [atomSort?, v.readNatural?_text, hfalse, lookup_of_mem honce h]

end WhileSmt
