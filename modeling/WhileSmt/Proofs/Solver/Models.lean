import WhileSmt.Proofs.Smt.SexpReading
import WhileSmt.Smt.Term
import WhileSmt.Solver.Answer

/-!
Reading models back. A model lists its constants in any order, with any layout and among definitions
of other sorts, and its integers are written as in scripts: a negative one as the negation of a
numeral. The least 64-bit integer is the negation of a numeral that is no 64-bit integer itself, so
it is taken for no integer, and its constant is missing from what is read.

Main statement: `Model.parse_listing`. That a constant can be missing is
`Model.parse_forgets_least`.
-/

namespace WhileSmt

/-! ## Maps -/

namespace NameMap

variable {α : Type}

theorem nodup_keys (m : NameMap α) : m.keys.Nodup := by
  refine m.sorted_keys.imp ?_
  rintro x _ hlt rfl
  exact String.lt_irrefl x hlt

theorem nodup_toList (m : NameMap α) : m.toList.Nodup :=
  List.Pairwise.of_map Prod.fst (fun _ _ hne heq => hne (congrArg Prod.fst heq)) m.nodup_keys

/-- A map is determined by its values. -/
theorem ext_get? {m m' : NameMap α} (h : ∀ x, m.get? x = m'.get? x) : m = m' := by
  have hmem : ∀ p, p ∈ m.toList ↔ p ∈ m'.toList := by
    rintro ⟨x, a⟩
    rw [mem_toList, mem_toList, h x]
  have hperm := (List.perm_ext_iff_of_nodup m.nodup_toList m'.nodup_toList).mpr hmem
  have hlists : m.toList = m'.toList := by
    refine List.Perm.eq_of_pairwise ?_ m.sorted m'.sorted hperm
    intro p q _ _ hpq hqp
    exact absurd (String.lt_trans hpq hqp) (String.lt_irrefl _)
  obtain ⟨entries, hs⟩ := m
  obtain ⟨entries', hs'⟩ := m'
  cases hlists
  rfl

/-- The entries whose values pass a test. -/
def filterValues (p : α → Bool) (m : NameMap α) : NameMap α where
  toList := m.toList.filter fun e => p e.2
  sorted := m.sorted.filter _

theorem get?_filterValues (p : α → Bool) (m : NameMap α) (x : String) :
    (m.filterValues p).get? x = (m.get? x).filter p := by
  refine Option.ext ?_
  intro a
  rw [← mem_toList, filterValues, List.mem_filter, mem_toList, Option.filter_eq_some_iff]

theorem filterValues_eq_self_iff (p : α → Bool) (m : NameMap α) :
    m.filterValues p = m ↔ ∀ x a, m.get? x = some a → p a = true := by
  constructor
  · intro h x a ha
    rw [← h, get?_filterValues, Option.filter_eq_some_iff] at ha
    exact ha.2
  · intro h
    refine ext_get? fun x => ?_
    rw [get?_filterValues]
    cases hx : m.get? x with
    | none => rfl
    | some a => rw [Option.filter_some, if_pos (h x a hx)]

end NameMap

/-! ## Integers -/

theorem Text.readInt64?_natural (n : Nat) :
    Text.readInt64? (Text.natural n).toList = Text.narrow? n := by
  have hread := Text.readInteger?_integer (.ofNat n)
  rw [Text.readInt64?, show Text.natural n = Text.integer (.ofNat n) from rfl, hread]
  rfl

namespace Model

/-- The term of an integer is read as that integer, unless it is the least one. -/
theorem integer?_ofInt (n : Int64) :
    integer? (Term.ofInt n.toInt).toSexp = if n = Int64.minValue then none else some n := by
  by_cases hneg : n.toInt < 0
  · rw [Term.ofInt, if_pos hneg, Term.toSexp, Term.toSexp, integer?, integer?,
      Text.readInt64?_natural]
    split
    · next hleast =>
      rw [hleast]
      rfl
    · next hleast =>
      -- the numeral is a 64-bit integer itself
      have hmin : Int64.minValue.toInt ≠ n.toInt := fun heq => hleast (Int64.toInt_inj.mp heq.symm)
      have hle := Int64.minValue_le_toInt n
      have hbound : Int64.minValue.toInt ≤ n.toInt.natAbs ∧
          (n.toInt.natAbs : Int) ≤ Int64.maxValue.toInt := by
        change -9223372036854775808 ≠ n.toInt at hmin
        change -9223372036854775808 ≤ n.toInt at hle
        change (-9223372036854775808 : Int) ≤ _ ∧ _ ≤ (9223372036854775807 : Int)
        omega
      rw [Text.narrow?, dif_pos hbound, Option.bind_some, Text.narrow?_eq_some_iff,
        Int64.toInt_ofIntLE]
      omega
  · have hleast : n ≠ Int64.minValue := by
      rintro rfl
      exact hneg (by decide)
    rw [Term.ofInt, if_neg hneg, Term.toSexp, integer?, Text.readInt64?_natural, if_neg hleast,
      Text.narrow?_eq_some_iff]
    omega

/-! ## Definitions -/

/-- The definition of an integer constant. -/
def entry (x : String) (n : Int64) : Sexp :=
  .list [.atom "define-fun", .atom x, .list [], .atom "Int", (Term.ofInt n.toInt).toSexp]

/-- A definition of a function, or of a constant that is not an integer. -/
inductive OtherDefinition : Sexp → Prop where
  | intro (x : String) {params sort : Sexp} (body : Sexp) :
      params ≠ .list [] ∨ sort ≠ .atom "Int" →
      OtherDefinition (.list [.atom "define-fun", .atom x, params, sort, body])

/-- Some items define the entries of a list in order, and are other definitions besides. -/
inductive Defines : List (String × Int64) → List Sexp → Prop where
  | nil : Defines [] []
  | entry {entries : List (String × Int64)} {items : List Sexp} (x : String) (n : Int64) :
      Defines entries items → Defines ((x, n) :: entries) (entry x n :: items)
  | other {entries : List (String × Int64)} {items : List Sexp} {item : Sexp} :
      OtherDefinition item → Defines entries items → Defines entries (item :: items)

theorem definition?_entry (x : String) (n : Int64) :
    definition? (entry x n) = if n = Int64.minValue then none else some (x, n) := by
  rw [entry, definition?, integer?_ofInt]
  split <;> rfl

theorem OtherDefinition.definition?_eq {item : Sexp} (h : OtherDefinition item) :
    definition? item = none := by
  obtain ⟨x, body, hother⟩ := h
  rw [definition?]
  intro x' value heq
  cases heq
  exact hother.elim (absurd rfl) (absurd rfl)

theorem addItems_of_none {item : Sexp} (h : definition? item = none) (m : Model)
    (items : List Sexp) : m.addItems (item :: items) = m.addItems items := by
  simp [addItems, h]

theorem addItems_of_some {item : Sexp} {x : String} {n : Int64} (h : definition? item = some (x, n))
    (m : Model) (items : List Sexp) :
    m.addItems (item :: items) = addItems (m.insert x n) items := by
  simp [addItems, h]

variable {entries : List (String × Int64)} {items : List Sexp}

/-- Reading adds the entries to a map that has none of their names, all but those with the least
integer. -/
theorem Defines.get?_addItems (h : Defines entries items) (hnodup : (entries.map Prod.fst).Nodup)
    {m : Model} (hnew : ∀ x ∈ entries.map Prod.fst, m.get? x = none) (x : String) (n : Int64) :
    (m.addItems items).get? x = some n ↔
      m.get? x = some n ∨ (x, n) ∈ entries ∧ n ≠ Int64.minValue := by
  induction h generalizing m with
  | nil => simp [addItems]
  | other hitem _ ih => rw [addItems_of_none hitem.definition?_eq, ih hnodup hnew]
  | @entry entries items y k _ ih =>
    rw [List.map_cons, List.nodup_cons] at hnodup
    rw [List.map_cons, List.forall_mem_cons] at hnew
    have hentry := definition?_entry y k
    by_cases hk : k = Int64.minValue
    · rw [if_pos hk] at hentry
      rw [addItems_of_none hentry, ih hnodup.2 hnew.2]
      grind
    · rw [if_neg hk] at hentry
      have hnew' : ∀ z ∈ entries.map Prod.fst, (m.insert y k).get? z = none := by
        intro z hz
        have hzy : z ≠ y := fun heq => hnodup.1 (heq ▸ hz)
        rw [NameMap.get?_insert, if_neg hzy, hnew.2 z hz]
      rw [addItems_of_some hentry, ih hnodup.2 hnew', NameMap.get?_insert]
      grind

theorem addAll_single (m : Model) (h : ∀ rest, items ≠ .atom "error" :: rest) :
    m.addAll [.list items] = .ok (m.addItems items) := by
  rw [addAll, addAll]
  exact h

/-- A model as a solver writes it, with or without the word `model`. -/
def listing (headed : Bool) (items : List Sexp) : Sexp :=
  .list (if headed then .atom "model" :: items else items)

theorem Defines.addAll_listing (h : Defines entries items) (m : Model) (headed : Bool) :
    m.addAll [listing headed items] = .ok (m.addItems items) := by
  cases headed with
  | true =>
    refine addAll_single m ?_
    simp
  | false =>
    refine addAll_single m ?_
    intro rest heq
    cases h with
    | nil => cases heq
    | entry => cases heq
    | other hitem =>
      cases hitem
      cases heq

/-- However a model is laid out, and whatever else it defines, its integer constants are read back
with their values, unless that is the least integer: such a constant is left out. So the model is
read back as it is if and only if it has no such constant. -/
theorem parse_listing {m : Model} {headed : Bool} {text : List Char}
    (hentries : entries.Perm m.toList) (hitems : Defines entries items)
    (htext : Sexp.Spells (listing headed items).tokens text) :
    parse text = .ok (m.filterValues fun n => n ≠ Int64.minValue) ∧
      (parse text = .ok m ↔ ∀ x, m.get? x ≠ some Int64.minValue) := by
  have hsexps : Sexp.parse text = .ok [listing headed items] := by
    refine Sexp.parse_of_spells ?_
    rwa [Sexp.allTokens, Sexp.allTokens, List.append_nil]
  have hnodup : (entries.map Prod.fst).Nodup :=
    (hentries.map Prod.fst).nodup_iff.mpr m.nodup_keys
  have hread : (∅ : Model).addItems items = m.filterValues fun n => n ≠ Int64.minValue := by
    refine NameMap.ext_get? fun x => Option.ext fun n => ?_
    rw [hitems.get?_addItems hnodup (fun _ _ => rfl), NameMap.get?_filterValues,
      Option.filter_eq_some_iff, hentries.mem_iff, NameMap.mem_toList]
    simp
  have hparse : parse text = .ok (m.filterValues fun n => n ≠ Int64.minValue) := by
    rw [parse, hsexps]
    show (∅ : Model).addAll [listing headed items] = _
    rw [hitems.addAll_listing, hread]
  refine ⟨hparse, ?_⟩
  rw [hparse, Except.ok.injEq, NameMap.filterValues_eq_self_iff]
  constructor
  · intro hall x hx
    exact of_decide_eq_true (hall x _ hx) rfl
  · intro hall x n hx
    refine decide_eq_true ?_
    rintro rfl
    exact hall x hx

/-- An integer constant between an array and a function. -/
def mixedItems : List Sexp :=
  [.list [.atom "define-fun", .atom "a", .list [], Srt.array.toSexp, .atom "b"],
    entry "x" (-3),
    .list [.atom "define-fun", .atom "f", .list [.list [.atom "y", .atom "Int"]], .atom "Int",
      .atom "y"]]

/-- The definitions on lines of their own, in the older form. -/
def mixedText : String :=
  "(model (define-fun a () (Array Int Int) b)\n" ++
  "  (define-fun x() Int\n    (- 3))\n" ++
  "  (define-fun f ((y Int)) Int y)\n)"

theorem parse_mixedText : parse mixedText.toList = .ok ((∅ : Model).insert "x" (-3)) := by
  have hitems : Defines [("x", -3)] mixedItems :=
    .other (.intro _ _ (.inr (by simp [Srt.toSexp])))
      (.entry _ _ (.other (.intro _ _ (.inl (by simp))) .nil))
  have htext : Sexp.Spells (listing true mixedItems).tokens mixedText.toList :=
    Sexp.spells_iff.mpr (by decide +kernel)
  refine (parse_listing (m := (∅ : Model).insert "x" (-3)) (.refl _) hitems htext).2.mpr ?_
  intro x
  rw [NameMap.get?_insert, NameMap.get?_empty]
  split <;> decide

/-- A model with the least integer. -/
def leastValued : Model := (∅ : Model).insert "x" Int64.minValue

/-- The text of this model is read as a model without constants. -/
theorem parse_forgets_least :
    leastValued.toList = [("x", Int64.minValue)] ∧
      (listing false [entry "x" Int64.minValue]).text =
        "((define-fun x () Int (- 9223372036854775808)))" ∧
      parse "((define-fun x () Int (- 9223372036854775808)))".toList = .ok ∅ ∧
      leastValued ≠ ∅ := by
  refine ⟨rfl, by decide +kernel, rfl, ?_⟩
  intro heq
  have hx := congrArg (NameMap.get? · "x") heq
  cases hx

end Model

end WhileSmt
