import WhileSmt.Proofs.Ssa.Scope

/-!
The order of definitions and uses in a list of instructions. A piece of code that was numbered
between two states of the allocator defines only numbers between them and reads only numbers below
the second, so pieces numbered one after the other do not interfere.

Main statements: such pieces can be put together (`Code.Within.append`), and in an ordered list
every use comes after its definition or is known from outside (`Code.Ordered.use`).
-/

namespace WhileSmt

/-- The result of a join without a guard. -/
def Instr.unguarded? : Instr → Option Version
  | join result _ none => some result
  | _ => none

namespace Code

/-- The results of the joins without a guard. -/
def unguarded (code : Code) : List Version :=
  code.filterMap Instr.unguarded?

@[simp] theorem unguarded_append (c₁ c₂ : Code) :
    unguarded (c₁ ++ c₂) = unguarded c₁ ++ unguarded c₂ :=
  List.filterMap_append

theorem mem_unguarded {v : Version} {code : Code} :
    v ∈ unguarded code ↔ ∃ operands, Instr.join v operands none ∈ code := by
  unfold unguarded
  rw [List.mem_filterMap]
  constructor
  · rintro ⟨instr, hmem, hv⟩
    unfold Instr.unguarded? at hv
    split at hv
    · next result operands =>
      cases hv
      exact ⟨operands, hmem⟩
    · cases hv
  · rintro ⟨operands, hmem⟩
    exact ⟨_, hmem, rfl⟩

/-! ## Numbers between two states of the allocator -/

/-- A number of the given name below the bound. -/
def Below (bound : String → Nat) (v : Version) : Prop :=
  v.marker = none ∧ v.number < bound v.base

theorem Below.mono {f g : String → Nat} {v : Version} (h : Below f v) (hfg : ∀ x, f x ≤ g x) :
    Below g v :=
  ⟨h.1, Nat.lt_of_lt_of_le h.2 (hfg v.base)⟩

/-- Code that defines each version once, with numbers from `lo` on and below `hi`, and reads only
numbers below `hi`. -/
structure Within (lo hi : String → Nat) (code : Code) : Prop where
  le : ∀ x, lo x ≤ hi x
  defined : ∀ v ∈ defined code, Below hi v ∧ lo v.base ≤ v.number
  uses : ∀ v ∈ uses code, Below hi v
  nodup : (Code.defined code).Nodup
  acyclic : Acyclic code

namespace Within

variable {lo mid hi : String → Nat} {c₁ c₂ code : Code}

theorem nil (h : ∀ x, lo x ≤ hi x) : Within lo hi [] where
  le := h
  defined := by intro v hv; cases hv
  uses := by intro v hv; cases hv
  nodup := List.nodup_nil
  acyclic := trivial

/-- What is numbered later is neither read nor defined before. -/
theorem not_defined (h : Within mid hi code) {v : Version} (hv : Below mid v) :
    v ∉ Code.defined code := by
  intro hmem
  have hle := (h.defined v hmem).2
  have hlt := hv.2
  omega

theorem unmarked (h : Within lo hi code) :
    ∀ v ∈ Code.defined code ++ Code.uses code, v.marker = none := by
  intro v hv
  rcases List.mem_append.mp hv with hv | hv
  · exact (h.defined v hv).1.1
  · exact (h.uses v hv).1

theorem append (h₁ : Within lo mid c₁) (h₂ : Within mid hi c₂) : Within lo hi (c₁ ++ c₂) where
  le := fun x => Nat.le_trans (h₁.le x) (h₂.le x)
  defined := by
    intro v hv
    rw [defined_append] at hv
    rcases List.mem_append.mp hv with hv | hv
    · obtain ⟨hbelow, hle⟩ := h₁.defined v hv
      exact ⟨hbelow.mono h₂.le, hle⟩
    · obtain ⟨hbelow, hle⟩ := h₂.defined v hv
      exact ⟨hbelow, Nat.le_trans (h₁.le v.base) hle⟩
  uses := by
    intro v hv
    rw [uses_append] at hv
    rcases List.mem_append.mp hv with hv | hv
    · exact (h₁.uses v hv).mono h₂.le
    · exact h₂.uses v hv
  nodup := by
    rw [defined_append]
    refine List.nodup_append.mpr ⟨h₁.nodup, h₂.nodup, ?_⟩
    intro v hv w hw hvw
    exact h₂.not_defined (h₁.defined v hv).1 (hvw ▸ hw)
  acyclic := by
    refine acyclic_append h₁.acyclic h₂.acyclic ?_ ?_
    · exact fun v hv hb => h₂.not_defined (h₁.uses v hv) (defined_of_bound hb)
    · intro v hv hb
      exact h₂.not_defined (h₁.defined v (defined_of_bound hv)).1 (defined_of_bound hb)

/-- One instruction that reads only versions that are handed out already. -/
theorem single {instr : Instr} (hle : ∀ x, lo x ≤ hi x) (huse : ∀ v ∈ instr.uses, Below lo v)
    (hdef : ∀ v, instr.defined? = some v → Below hi v ∧ lo v.base ≤ v.number) :
    Within lo hi [instr] := by
  have hdefined : ∀ v, v ∈ Code.defined [instr] → instr.defined? = some v := by
    intro v hv
    obtain ⟨i, hi, hiv⟩ := mem_defined.mp hv
    cases List.mem_singleton.mp hi
    exact hiv
  have hnodup : (Code.defined [instr]).Nodup := by
    unfold Code.defined
    cases h : instr.defined? with
    | none => simp [h]
    | some v => simp [h]
  have huses : ∀ v ∈ Code.uses [instr], Below lo v := by
    intro v hv
    obtain ⟨i, hi, hiv⟩ := mem_uses.mp hv
    cases List.mem_singleton.mp hi
    exact huse v hiv
  refine ⟨hle, fun v hv => hdef v (hdefined v hv), fun v hv => (huses v hv).mono hle, hnodup,
    acyclic_of_disjoint ?_ (hnodup.sublist (bound_sublist_defined _))⟩
  intro v hv hb
  have h₁ := (huses v hv).2
  have h₂ := (hdef v (hdefined v (defined_of_bound hb))).2
  omega

/-- Joins of versions that are handed out already. -/
theorem joins {guard : Expr Version} {one : NameMap Nat} {s s' : Scope}
    (h : Scope.Meets guard one s code s') (hv : s.Valid)
    (hone : ∀ x a, one.get? x = some a → a < s.nextNumber x)
    (hguard : ∀ v ∈ guard.names, Below s.nextNumber v) :
    Within s.nextNumber s'.nextNumber code := by
  have huses : ∀ v ∈ Code.uses code, Below s.nextNumber v := by
    intro v hmem
    rcases h.uses hmem with ⟨x, a, ha, rfl⟩ | ⟨x, b, hb, rfl⟩ | hmem
    · exact ⟨rfl, hone x a ha⟩
    · exact ⟨rfl, hv x b hb⟩
    · exact hguard v hmem
  refine ⟨h.nextNumber_le, ?_, ?_, h.nodup_defined, ?_⟩
  · intro v hmem
    obtain ⟨x, a, b, ha, hb, hab, rfl⟩ := h.defined hmem
    have hnext := (h.of_ne ha hb hab).2
    exact ⟨⟨rfl, by show s.nextNumber x < s'.nextNumber x; omega⟩, Nat.le_refl _⟩
  · exact fun v hmem => (huses v hmem).mono h.nextNumber_le
  · refine acyclic_of_disjoint ?_ (h.nodup_defined.sublist (bound_sublist_defined code))
    intro v hmem hb
    obtain ⟨x, a, b, -, -, -, rfl⟩ := h.defined (defined_of_bound hb)
    exact Nat.lt_irrefl _ (huses _ hmem).2

end Within

/-! ## Definitions before uses -/

/-- Every version that is read is known from outside or defined before. -/
def Ordered (known : Version → Prop) : Code → Prop
  | [] => True
  | instr :: rest =>
    (∀ v ∈ instr.uses, known v) ∧ Ordered (fun v => known v ∨ instr.defined? = some v) rest

theorem Ordered.mono {known known' : Version → Prop} {code : Code} (h : Ordered known code)
    (hk : ∀ v, known v → known' v) : Ordered known' code := by
  induction code generalizing known known' with
  | nil => trivial
  | cons instr rest ih =>
    refine ⟨fun v hv => hk v (h.1 v hv), ih h.2 ?_⟩
    intro v hv
    exact hv.imp (hk v) id

theorem ordered_of_uses {known : Version → Prop} {code : Code} (h : ∀ v ∈ uses code, known v) :
    Ordered known code := by
  induction code generalizing known with
  | nil => trivial
  | cons instr rest ih =>
    refine ⟨fun v hv => h v (mem_uses_cons.mpr (.inl hv)), ih ?_⟩
    exact fun v hv => .inl (h v (mem_uses_cons.mpr (.inr hv)))

theorem Ordered.append {known : Version → Prop} {c₁ c₂ : Code} (h₁ : Ordered known c₁)
    (h₂ : Ordered (fun v => known v ∨ v ∈ defined c₁) c₂) : Ordered known (c₁ ++ c₂) := by
  induction c₁ generalizing known with
  | nil => exact h₂.mono fun v hv => hv.resolve_right (by simp [defined])
  | cons instr rest ih =>
    refine ⟨h₁.1, ih h₁.2 (h₂.mono ?_)⟩
    rintro v (hv | hv)
    · exact .inl (.inl hv)
    · obtain ⟨i, hi, hiv⟩ := mem_defined.mp hv
      rcases List.mem_cons.mp hi with rfl | hi
      · exact .inl (.inr hiv)
      · exact .inr (mem_defined.mpr ⟨i, hi, hiv⟩)

/-- A use at a place of an ordered list is known from outside or defined at an earlier place. -/
theorem Ordered.use {known : Version → Prop} {before after : Code} {instr : Instr}
    (h : Ordered known (before ++ instr :: after)) {v : Version} (hv : v ∈ instr.uses) :
    known v ∨ v ∈ defined before := by
  induction before generalizing known with
  | nil => exact .inl (h.1 v hv)
  | cons i rest ih =>
    rcases ih h.2 with (hk | hi) | hd
    · exact .inl hk
    · exact .inr (mem_defined.mpr ⟨i, List.mem_cons_self, hi⟩)
    · obtain ⟨j, hj, hjv⟩ := mem_defined.mp hd
      exact .inr (mem_defined.mpr ⟨j, List.mem_cons_of_mem _ hj, hjv⟩)

/-- In an acyclic list nothing that is read at a place is determined there or later. -/
theorem Acyclic.use {before after : Code} {instr : Instr}
    (h : Acyclic (before ++ instr :: after)) {v : Version} (hv : v ∈ instr.uses) :
    v ∉ bound (instr :: after) := by
  induction before with
  | nil => exact h.1 v hv
  | cons i rest ih => exact ih h.2.2

end Code

end WhileSmt
