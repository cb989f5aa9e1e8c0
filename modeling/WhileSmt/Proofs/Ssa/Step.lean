import WhileSmt.Proofs.Ssa.Order

/-!
What numbering a piece of a program does, said once for all pieces: `Scope.Step` relates the scope
before a piece, its code and the scope after it, given the names that the piece writes and reads.

Main statements: steps compose (`Scope.Step.trans`), and every form of statement is a step
(`Scope.Step.define`, `Scope.Step.check`, `Scope.Step.ifElse`, `Scope.Step.whileDo`).
-/

namespace WhileSmt

namespace Scope

/-! ## The joins at the entry of a loop -/

/-- The joins at the entry of a loop that carries the names of a list: a loop is entered from
before it and from the end of its body. -/
def entryCode (s after : Scope) (names : List String) : Code :=
  names.map fun x =>
    .join { base := x, number := s.nextNumber x } [s.current x, after.current x] none

theorem mem_defined_entryCode {s after : Scope} {names : List String} {v : Version} :
    v ∈ Code.defined (entryCode s after names) ↔
      ∃ x ∈ names, v = { base := x, number := s.nextNumber x } := by
  simp only [Code.mem_defined, entryCode, List.mem_map]
  constructor
  · rintro ⟨_, ⟨x, hx, rfl⟩, hv⟩
    exact ⟨x, hx, (Option.some.inj hv).symm⟩
  · rintro ⟨x, hx, rfl⟩
    exact ⟨_, ⟨x, hx, rfl⟩, rfl⟩

theorem mem_unguarded_entryCode {s after : Scope} {names : List String} {x : String}
    (hx : x ∈ names) :
    { base := x, number := s.nextNumber x } ∈ Code.unguarded (entryCode s after names) :=
  Code.mem_unguarded.mpr ⟨_, List.mem_map.mpr ⟨x, hx, rfl⟩⟩

theorem mem_uses_entryCode {s after : Scope} {names : List String} {v : Version}
    (h : v ∈ Code.uses (entryCode s after names)) :
    ∃ x ∈ names, v = s.current x ∨ v = after.current x := by
  obtain ⟨instr, hinstr, hv⟩ := Code.mem_uses.mp h
  obtain ⟨x, hx, rfl⟩ := List.mem_map.mp hinstr
  refine ⟨x, hx, ?_⟩
  simpa [Instr.uses] using hv

theorem bound_entryCode {s after : Scope} {names : List String} :
    Code.bound (entryCode s after names) = [] := by
  simp [Code.bound, entryCode, Instr.bound?]

theorem nodup_defined_entryCode {s after : Scope} {names : List String} (h : names.Nodup) :
    (Code.defined (entryCode s after names)).Nodup := by
  have hmap : Code.defined (entryCode s after names) =
      names.map fun x => { base := x, number := s.nextNumber x } := by
    simp [Code.defined, entryCode, List.filterMap_map, Function.comp_def, Instr.defined?]
  rw [hmap]
  refine List.pairwise_map.mpr (h.imp ?_)
  intro x y hxy heq
  exact hxy (congrArg Version.base heq)

/-! ## Steps -/

/-- The effect of numbering a piece of a program. The versions of the written names that are in
force afterwards are new, all other names keep theirs; the code defines versions of written names
only, and whatever it reads is defined in it, carried by one of its loops, or was in force
before. -/
structure Step (written read : List String) (s : Scope) (code : Code) (s' : Scope) : Prop where
  known : ∀ x, s'.env.get? x ≠ none ↔ s.env.get? x ≠ none ∨ x ∈ read ∨ x ∈ written
  unused : ∀ x, x ∉ read → x ∉ written → s.next.get? x = none → s'.next.get? x = none
  valid : s'.Valid
  kept : ∀ x, x ∉ written → s'.current x = s.current x
  fresh : ∀ x ∈ written, s.nextNumber x ≤ (s'.current x).number
  targets : ∀ v ∈ Code.defined code, v.base ∈ written
  origin : ∀ x, s'.current x = s.current x ∨ s'.current x ∈ Code.defined code
  paired : ∀ v operands guard, Instr.join v operands guard ∈ code → ∃ a b, operands = [a, b]
  ordered : Code.Ordered (fun v => v = s.current v.base ∨ v ∈ Code.unguarded code) code
  within : Code.Within s.nextNumber s'.nextNumber code

/-- The versions that an expression reads are handed out if its names are known. -/
theorem below_resolve {s : Scope} (hv : s.Valid) {e : Expr String}
    (hknown : ∀ x ∈ e.names, s.env.get? x ≠ none) {v : Version} (h : v ∈ (s.resolve e).names) :
    v = s.current v.base ∧ Code.Below s.nextNumber v := by
  rw [resolve, Expr.names_map] at h
  obtain ⟨x, hx, rfl⟩ := List.mem_map.mp h
  exact ⟨rfl, rfl, hv.current_lt (hknown x hx)⟩

namespace Step

variable {w w₁ w₂ r r₁ r₂ : List String} {s s₁ s₂ s' : Scope} {c₁ c₂ code : Code} {x : String}

theorem env_of_written (h : Step w r s code s') (hx : x ∈ w) :
    ∃ n, s'.env.get? x = some n ∧ s.nextNumber x ≤ n := by
  obtain ⟨n, hn⟩ := Option.ne_none_iff_exists'.mp ((h.known x).mpr (.inr (.inr hx)))
  have hfresh := h.fresh x hx
  rw [current_of_get? hn] at hfresh
  exact ⟨n, hn, hfresh⟩

/-- A name that is unknown and unused stays unused until it is known. -/
theorem next_of_unknown (h : Step w r s code s')
    (hx : s.env.get? x = none → s.next.get? x = none) (hnone : s'.env.get? x = none) :
    s'.next.get? x = none := by
  have hnot := mt (h.known x).mpr (not_not_intro hnone)
  rw [not_or, not_or, not_not] at hnot
  exact h.unused x hnot.2.1 hnot.2.2 (hx hnot.1)

/-- Only membership counts in the lists of names. -/
theorem congr (h : Step w₁ r₁ s code s') (hw : ∀ x, x ∈ w₁ ↔ x ∈ w₂)
    (hr : ∀ x, x ∈ r₁ ↔ x ∈ r₂) : Step w₂ r₂ s code s' where
  known := fun x => by rw [h.known x, hw, hr]
  unused := fun x hx hx' => h.unused x (mt (hr x).mp hx) (mt (hw x).mp hx')
  valid := h.valid
  kept := fun x hx => h.kept x (mt (hw x).mp hx)
  fresh := fun x hx => h.fresh x ((hw x).mpr hx)
  targets := fun v hv => (hw v.base).mp (h.targets v hv)
  origin := h.origin
  paired := h.paired
  ordered := h.ordered
  within := h.within

theorem nil (hv : s.Valid) : Step [] [] s [] s where
  known := by simp
  unused := fun _ _ _ h => h
  valid := hv
  kept := fun _ _ => rfl
  fresh := by simp
  targets := by simp [Code.defined]
  origin := fun _ => .inl rfl
  paired := by simp
  ordered := trivial
  within := .nil fun _ => Nat.le_refl _

/-- Two pieces in sequence. -/
theorem trans (h₁ : Step w₁ r₁ s c₁ s₁) (h₂ : Step w₂ r₂ s₁ c₂ s₂) :
    Step (w₁ ++ w₂) (r₁ ++ r₂) s (c₁ ++ c₂) s₂ where
  known := by
    intro x
    rw [h₂.known x, h₁.known x, List.mem_append, List.mem_append]
    grind
  unused := by
    intro x hr hw hx
    rw [List.mem_append, not_or] at hr hw
    exact h₂.unused x hr.2 hw.2 (h₁.unused x hr.1 hw.1 hx)
  valid := h₂.valid
  kept := by
    intro x hx
    rw [List.mem_append, not_or] at hx
    rw [h₂.kept x hx.2, h₁.kept x hx.1]
  fresh := by
    intro x hx
    by_cases hx₂ : x ∈ w₂
    · exact Nat.le_trans (h₁.within.le x) (h₂.fresh x hx₂)
    · rw [h₂.kept x hx₂]
      exact h₁.fresh x ((List.mem_append.mp hx).resolve_right hx₂)
  targets := by
    intro v hv
    rw [Code.defined_append] at hv
    rcases List.mem_append.mp hv with hv | hv
    · exact List.mem_append_left _ (h₁.targets v hv)
    · exact List.mem_append_right _ (h₂.targets v hv)
  origin := by
    intro x
    rw [Code.defined_append, List.mem_append]
    rcases h₂.origin x with h | h
    · rw [h]
      exact (h₁.origin x).imp id .inl
    · exact .inr (.inr h)
  paired := by
    intro v operands guard hmem
    exact (List.mem_append.mp hmem).elim (h₁.paired v operands guard) (h₂.paired v operands guard)
  ordered := by
    refine Code.Ordered.append (h₁.ordered.mono ?_) (h₂.ordered.mono ?_)
    · rintro v (hv | hv)
      · exact .inl hv
      · exact .inr (by simp [hv])
    · rintro v (hv | hv)
      · -- what was in force between the pieces was in force before, or the first piece defined it
        rcases h₁.origin v.base with h | h
        · exact .inl (.inl (hv.trans h))
        · exact .inr (hv ▸ h)
      · exact .inl (.inr (by simp [hv]))
  within := h₁.within.append h₂.within

theorem claims {names : List String} (h : s.Claims names s') (hv : s.Valid) :
    Step [] names s [] s' where
  known := by simp [h.env_ne_none]
  unused := fun _ hr _ => h.next_none hr
  valid := h.valid hv
  kept := fun x _ => h.current_eq x
  fresh := by simp
  targets := by simp [Code.defined]
  origin := fun x => .inl (h.current_eq x)
  paired := by simp
  ordered := trivial
  within := .nil h.nextNumber_le

/-- An assignment whose value reads known names. -/
theorem define (hv : s.Valid) (target : String) {value : Expr String}
    (hknown : ∀ x ∈ value.names, s.env.get? x ≠ none) :
    Step [target] [] s
      [.define { base := target, number := s.nextNumber target } (s.resolve value)]
      (s.advance target) where
  known := by
    intro x
    rw [env_advance]
    by_cases hx : x = target <;> simp [hx]
  unused := by
    intro x _ hx h
    rw [next_advance, if_neg (by simpa using hx), h]
  valid := hv.advance target
  kept := by
    intro x hx
    refine current_congr ?_
    rw [env_advance, if_neg (by simpa using hx)]
  fresh := by
    intro x hx
    cases List.mem_singleton.mp hx
    rw [current, env_advance, if_pos rfl]
    exact Nat.le_refl _
  targets := by simp [Code.defined, Instr.defined?]
  origin := by
    intro x
    by_cases hx : x = target
    · subst hx
      exact .inr (by simp [current, Code.defined, Instr.defined?])
    · exact .inl (current_congr (by rw [env_advance, if_neg hx]))
  paired := by simp
  ordered := by
    refine Code.ordered_of_uses ?_
    intro v hmem
    exact .inl (below_resolve hv hknown (by simpa [Code.uses, Instr.uses] using hmem)).1
  within := by
    refine .single ?_ (fun v hmem => (below_resolve hv hknown hmem).2) ?_
    · intro x
      rw [nextNumber_advance]
      split <;> omega
    · intro v hmem
      cases hmem
      refine ⟨⟨rfl, ?_⟩, Nat.le_refl _⟩
      show s.nextNumber target < (s.advance target).nextNumber target
      rw [nextNumber_advance, if_pos rfl]
      exact Nat.lt_succ_self _

/-- An assertion whose condition reads known names. -/
theorem check (hv : s.Valid) {cond : Expr String}
    (hknown : ∀ x ∈ cond.names, s.env.get? x ≠ none) :
    Step [] [] s [.check (s.resolve cond)] s where
  known := by simp
  unused := fun _ _ _ h => h
  valid := hv
  kept := fun _ _ => rfl
  fresh := by simp
  targets := by simp [Code.defined, Instr.defined?]
  origin := fun _ => .inl rfl
  paired := by simp
  ordered := by
    refine Code.ordered_of_uses ?_
    intro v hmem
    exact .inl (below_resolve hv hknown (by simpa [Code.uses, Instr.uses] using hmem)).1
  within :=
    .single (fun _ => Nat.le_refl _) (fun v hmem => (below_resolve hv hknown hmem).2)
      (by simp [Instr.defined?])

/-! ## Branches

The second arm starts where the first one started, but its numbers go on where those of the first one
end.
-/

section Branches

variable {cond : Expr String} {first second joined : Scope} {thenCode elseCode joins : Code}
  (ht : Step w₁ r₁ s thenCode first)
  (he : Step w₂ r₂ { env := s.env, next := first.next } elseCode second)
  (hm : Meets (s.resolve cond) first.env second joins joined)

include ht he

theorem arms_kept (hx : x ∉ w₁ ++ w₂) :
    first.current x = s.current x ∧ second.current x = first.current x := by
  rw [List.mem_append, not_or] at hx
  rw [ht.kept x hx.1]
  exact ⟨rfl, he.kept x hx.2⟩

/-- The arms differ only on names that one of them writes. -/
theorem arms_differ {a b : Nat} (ha : first.env.get? x = some a) (hb : second.env.get? x = some b)
    (hab : a ≠ b) : x ∈ w₁ ++ w₂ := by
  by_cases hx : x ∈ w₁ ++ w₂
  · exact hx
  · exact absurd (arms_kept ht he hx).2.symm (current_ne ha hb hab)

theorem arms_lt {a : Nat} (ha : first.env.get? x = some a) : a < second.nextNumber x :=
  Nat.lt_of_lt_of_le (ht.valid x a ha) (he.within.le x)

theorem arms_le (x : String) : s.nextNumber x ≤ second.nextNumber x :=
  Nat.le_trans (ht.within.le x) (he.within.le x)

include hm

theorem branch_known (x : String) :
    joined.env.get? x ≠ none ↔ s.env.get? x ≠ none ∨ x ∈ r₁ ++ r₂ ∨ x ∈ w₁ ++ w₂ := by
  rw [hm.env_ne_none, ht.known x, he.known x, List.mem_append, List.mem_append]
  grind

theorem branch_fresh (hx : x ∈ w₁ ++ w₂) : s.nextNumber x ≤ (joined.current x).number := by
  have hsecond : x ∈ w₂ → s.nextNumber x ≤ (second.current x).number := fun hx₂ =>
    Nat.le_trans (ht.within.le x) (he.fresh x hx₂)
  rcases hm.cases x with ⟨henv, -, hagree⟩ | ⟨hnone, henv⟩ | ⟨a, b, ha, hb, hab⟩
  · rw [current_congr henv]
    by_cases hx₁ : x ∈ w₁
    · exact ht.fresh x hx₁
    · have hx₂ := (List.mem_append.mp hx).resolve_left hx₁
      rcases hagree with hnone | hsame
      · exact absurd hnone ((he.known x).mpr (.inr (.inr hx₂)))
      · rw [← current_congr hsame]
        exact hsecond hx₂
  · have hx₁ : x ∉ w₁ := fun hx₁ => (ht.known x).mpr (.inr (.inr hx₁)) hnone
    rw [current_congr henv]
    exact hsecond ((List.mem_append.mp hx).resolve_left hx₁)
  · rw [(hm.current_of_ne ha hb hab).1]
    exact arms_le ht he x

theorem branch_targets {v : Version} (h : v ∈ Code.defined (thenCode ++ elseCode ++ joins)) :
    v.base ∈ w₁ ++ w₂ := by
  rw [Code.defined_append, Code.defined_append, List.mem_append, List.mem_append] at h
  rcases h with (h | h) | h
  · exact List.mem_append_left _ (ht.targets v h)
  · exact List.mem_append_right _ (he.targets v h)
  · obtain ⟨x, a, b, ha, hb, hab, rfl⟩ := hm.defined h
    exact arms_differ ht he ha hb hab

theorem branch_origin (x : String) :
    joined.current x = s.current x ∨
      joined.current x ∈ Code.defined (thenCode ++ elseCode ++ joins) := by
  rw [Code.defined_append, Code.defined_append, List.mem_append, List.mem_append]
  rcases hm.cases x with ⟨henv, -, -⟩ | ⟨-, henv⟩ | ⟨a, b, ha, hb, hab⟩
  · rw [current_congr henv]
    exact (ht.origin x).imp id fun h => .inl (.inl h)
  · rw [current_congr henv]
    exact (he.origin x).imp id fun h => .inl (.inr h)
  · exact .inr (.inr (hm.current_of_ne ha hb hab).2)

/-- The code of a branch reads what its arms define before and what was in force before the branch. -/
theorem branch_ordered (hv : s.Valid) (hknown : ∀ x ∈ cond.names, s.env.get? x ≠ none) :
    Code.Ordered
      (fun v => v = s.current v.base ∨ v ∈ Code.unguarded (thenCode ++ elseCode ++ joins))
      (thenCode ++ elseCode ++ joins) := by
  refine Code.Ordered.append (Code.Ordered.append (ht.ordered.mono ?_) (he.ordered.mono ?_))
    (Code.ordered_of_uses ?_)
  · rintro v (hv | hv)
    · exact .inl hv
    · exact .inr (by simp [hv])
  · rintro v (hv | hv)
    · exact .inl (.inl hv)
    · exact .inl (.inr (by simp [hv]))
  · intro v hmem
    rw [Code.defined_append, List.mem_append]
    rcases hm.uses hmem with ⟨x, a, ha, rfl⟩ | ⟨x, b, hb, rfl⟩ | hmem
    · rw [← current_of_get? ha]
      exact (ht.origin x).imp .inl .inl
    · rw [← current_of_get? hb]
      exact (he.origin x).imp .inl .inr
    · exact .inl (.inl (below_resolve hv hknown hmem).1)

/-- A branch whose condition reads known names. -/
theorem ifElse (hv : s.Valid) (hknown : ∀ x ∈ cond.names, s.env.get? x ≠ none) :
    Step (w₁ ++ w₂) (r₁ ++ r₂) s (thenCode ++ elseCode ++ joins) joined where
  known := branch_known ht he hm
  unused := by
    intro x hr hw hx
    rw [List.mem_append, not_or] at hr hw
    have hfirst := ht.unused x hr.1 hw.1 hx
    exact hm.next_none (ht.valid.unknown_of_unused hfirst) (he.unused x hr.2 hw.2 hfirst)
  valid := hm.valid he.valid fun _ _ => arms_lt ht he
  kept := by
    intro x hx
    obtain ⟨hfirst, hsecond⟩ := arms_kept ht he hx
    rw [hm.current_eq hsecond, hfirst]
  fresh := fun _ => branch_fresh ht he hm
  targets := fun _ => branch_targets ht he hm
  origin := branch_origin ht he hm
  paired := by
    intro v operands guard hmem
    rcases List.mem_append.mp hmem with hmem | hmem
    · exact (List.mem_append.mp hmem).elim (ht.paired v operands guard) (he.paired v operands guard)
    · exact hm.paired hmem
  ordered := branch_ordered ht he hm hv hknown
  within := by
    refine (ht.within.append he.within).append (.joins hm he.valid (fun _ _ => arms_lt ht he) ?_)
    intro v hmem
    exact (below_resolve hv hknown hmem).2.mono (arms_le ht he)

end Branches

/-! ## Loops -/

/-- The body of a loop with the joins at its entry. The versions in force at the entry are handed
out first, but their joins come last. -/
theorem within_body {after : Scope} {names : List String} (hv : s.Valid) (hnodup : names.Nodup)
    (hnames : ∀ x ∈ names, s.env.get? x ≠ none)
    (hb : Step w r (s.advanceAll names) code after) :
    Code.Within s.nextNumber after.nextNumber (code ++ entryCode s after names) := by
  have hentry : ∀ x, (s.advanceAll names).nextNumber x =
      if x ∈ names then s.nextNumber x + 1 else s.nextNumber x := nextNumber_advanceAll hnodup
  have hle₀ : ∀ x, s.nextNumber x ≤ (s.advanceAll names).nextNumber x := by
    intro x
    rw [hentry]
    split <;> omega
  have hle : ∀ x, s.nextNumber x ≤ after.nextNumber x := fun x =>
    Nat.le_trans (hle₀ x) (hb.within.le x)
  have hbelow : ∀ x ∈ names, Code.Below (s.advanceAll names).nextNumber
      { base := x, number := s.nextNumber x } := by
    intro x hx
    refine ⟨rfl, ?_⟩
    show s.nextNumber x < (s.advanceAll names).nextNumber x
    rw [hentry, if_pos hx]
    exact Nat.lt_succ_self _
  refine ⟨hle, ?_, ?_, ?_, ?_⟩
  · intro v hmem
    rw [Code.defined_append, List.mem_append] at hmem
    rcases hmem with hmem | hmem
    · obtain ⟨hbelow, hge⟩ := hb.within.defined v hmem
      exact ⟨hbelow, Nat.le_trans (hle₀ v.base) hge⟩
    · obtain ⟨x, hx, rfl⟩ := mem_defined_entryCode.mp hmem
      exact ⟨(hbelow x hx).mono hb.within.le, Nat.le_refl _⟩
  · intro v hmem
    rw [Code.uses_append, List.mem_append] at hmem
    rcases hmem with hmem | hmem
    · exact hb.within.uses v hmem
    · obtain ⟨x, hx, rfl | rfl⟩ := mem_uses_entryCode hmem
      · exact ⟨rfl, Nat.lt_of_lt_of_le (hv.current_lt (hnames x hx)) (hle x)⟩
      · refine ⟨rfl, hb.valid.current_lt ((hb.known x).mpr (.inl ?_))⟩
        rw [env_advanceAll hnodup, if_pos hx]
        exact Option.some_ne_none _
  · rw [Code.defined_append]
    refine List.nodup_append.mpr ⟨hb.within.nodup, nodup_defined_entryCode hnodup, ?_⟩
    intro v hmem v' hmem' heq
    obtain ⟨x, hx, rfl⟩ := mem_defined_entryCode.mp hmem'
    exact hb.within.not_defined (hbelow x hx) (heq ▸ hmem)
  · refine Code.acyclic_append hb.within.acyclic (Code.acyclic_of_disjoint ?_ ?_) ?_ ?_ <;>
      simp [bound_entryCode]

/-- The code of a loop reads what it defines before, what its entry joins, and what was in force
before the loop. -/
theorem ordered_loop {cond : Expr String} {names : List String} {after final : Scope}
    {exits : Code} (hv : s.Valid) (hknown : ∀ x ∈ cond.names, s.env.get? x ≠ none)
    (hnodup : names.Nodup) (hb : Step w r (s.advanceAll names) code after)
    (hm : Meets (.unary .not (s.resolve cond)) s.env after exits final) :
    Code.Ordered
      (fun v => v = s.current v.base ∨
        v ∈ Code.unguarded (code ++ entryCode s after names ++ exits))
      (code ++ entryCode s after names ++ exits) := by
  have hentry : ∀ x, (s.advanceAll names).current x = s.current x ∨
      (s.advanceAll names).current x ∈
        Code.unguarded (code ++ entryCode s after names ++ exits) := by
    intro x
    by_cases hx : x ∈ names
    · rw [current_of_get? (by rw [env_advanceAll hnodup, if_pos hx])]
      exact .inr (by simp [mem_unguarded_entryCode hx])
    · exact .inl (current_congr (by rw [env_advanceAll hnodup, if_neg hx]))
  have hafter : ∀ x, (after.current x = s.current x ∨
      after.current x ∈ Code.unguarded (code ++ entryCode s after names ++ exits)) ∨
      after.current x ∈ Code.defined code := by
    intro x
    rcases hb.origin x with h | h
    · rw [h]
      exact .inl (hentry x)
    · exact .inr h
  refine Code.Ordered.append (Code.Ordered.append (hb.ordered.mono ?_)
    (Code.ordered_of_uses ?_)) (Code.ordered_of_uses ?_)
  · rintro v (hv | hv)
    · rw [hv]
      exact hentry v.base
    · exact .inr (by simp [hv])
  · intro v hmem
    obtain ⟨x, -, rfl | rfl⟩ := mem_uses_entryCode hmem
    · exact .inl (.inl rfl)
    · exact hafter x
  · intro v hmem
    rw [Code.defined_append, List.mem_append]
    rcases hm.uses hmem with ⟨x, a, ha, rfl⟩ | ⟨x, b, hb', rfl⟩ | hmem
    · rw [← current_of_get? ha]
      exact .inl (.inl rfl)
    · rw [← current_of_get? hb']
      exact (hafter x).imp id .inl
    · exact .inl (.inl (below_resolve hv hknown hmem).1)

section Loops

variable {cond : Expr String} {names : List String} {after final : Scope} {exits : Code}
  (hnodup : names.Nodup) (hnames : ∀ x, x ∈ names ↔ x ∈ w ∧ s.env.get? x ≠ none)
  (hb : Step w r (s.advanceAll names) code after)
  (hm : Meets (.unary .not (s.resolve cond)) s.env after exits final)

theorem current_advanceAll (hnodup : names.Nodup) (hx : x ∉ names) :
    (s.advanceAll names).current x = s.current x := by
  refine current_congr ?_
  rw [env_advanceAll hnodup, if_neg hx]

include hnodup hnames hb

theorem body_kept (hx : x ∉ w) : after.current x = s.current x := by
  rw [hb.kept x hx, current_advanceAll hnodup fun hmem => hx ((hnames x).mp hmem).1]

omit hnames in
theorem body_fresh (hx : x ∈ w) : s.nextNumber x ≤ (after.current x).number := by
  refine Nat.le_trans ?_ (hb.fresh x hx)
  rw [nextNumber_advanceAll hnodup]
  split <;> omega

/-- A loop changes only names that its body writes. -/
theorem body_differ {a b : Nat} (ha : s.env.get? x = some a) (hb' : after.env.get? x = some b)
    (hab : a ≠ b) : x ∈ w := by
  by_cases hx : x ∈ w
  · exact hx
  · exact absurd (body_kept hnodup hnames hb hx).symm (current_ne ha hb' hab)

include hm

theorem loop_known (x : String) :
    final.env.get? x ≠ none ↔ s.env.get? x ≠ none ∨ x ∈ r ∨ x ∈ w := by
  rw [hm.env_ne_none, hb.known x, env_advanceAll hnodup]
  by_cases hx : x ∈ names
  · have h := ((hnames x).mp hx).2
    simp [hx, h]
  · simp only [if_neg hx]
    grind

theorem loop_fresh (hv : s.Valid) (hx : x ∈ w) : s.nextNumber x ≤ (final.current x).number := by
  have hfresh := body_fresh hnodup hb hx
  rcases hm.cases x with ⟨-, hsome, hagree⟩ | ⟨-, henv⟩ | ⟨a, b, ha, hb', hab⟩
  · -- a written name cannot leave the body in the version in which it was before the loop
    exfalso
    rcases hagree with hnone | hagree
    · exact (hb.known x).mpr (.inr (.inr hx)) hnone
    · have hlt := hv.current_lt hsome
      rw [current_congr hagree] at hfresh
      omega
  · rw [current_congr henv]
    exact hfresh
  · rw [(hm.current_of_ne ha hb' hab).1]
    exact (within_body hv hnodup (fun x hx => ((hnames x).mp hx).2) hb).le x

theorem loop_targets {v : Version}
    (h : v ∈ Code.defined (code ++ entryCode s after names ++ exits)) : v.base ∈ w := by
  rw [Code.defined_append, Code.defined_append, List.mem_append, List.mem_append] at h
  rcases h with (h | h) | h
  · exact hb.targets v h
  · obtain ⟨x, hx, rfl⟩ := mem_defined_entryCode.mp h
    exact ((hnames x).mp hx).1
  · obtain ⟨x, a, b, ha, hb', hab, rfl⟩ := hm.defined h
    exact body_differ hnodup hnames hb ha hb' hab

theorem loop_origin (x : String) :
    final.current x = s.current x ∨
      final.current x ∈ Code.defined (code ++ entryCode s after names ++ exits) := by
  rw [Code.defined_append, Code.defined_append, List.mem_append, List.mem_append]
  rcases hm.cases x with ⟨henv, -, -⟩ | ⟨hnone, henv⟩ | ⟨a, b, ha, hb', hab⟩
  · exact .inl (current_congr henv)
  · have hcurrent : (s.advanceAll names).current x = s.current x :=
      current_advanceAll hnodup fun hx => ((hnames x).mp hx).2 hnone
    rw [current_congr henv, ← hcurrent]
    exact (hb.origin x).imp id fun h => .inl (.inl h)
  · exact .inr (.inr (hm.current_of_ne ha hb' hab).2)

/-- A loop whose condition reads known names, and that carries the known ones among the names that
its body writes. -/
theorem whileDo (hv : s.Valid) (hknown : ∀ x ∈ cond.names, s.env.get? x ≠ none) :
    Step w r s (code ++ entryCode s after names ++ exits) final := by
  have hbody := within_body hv hnodup (fun x hx => ((hnames x).mp hx).2) hb
  have hone : ∀ x a, s.env.get? x = some a → a < after.nextNumber x := fun x a ha =>
    Nat.lt_of_lt_of_le (hv x a ha) (hbody.le x)
  exact
    { known := loop_known hnodup hnames hb hm
      unused := by
        intro x hr hw hx
        refine hm.next_none (hv.unknown_of_unused hx) (hb.unused x hr hw ?_)
        rw [next_advanceAll hnodup, if_neg (fun hmem => hw ((hnames x).mp hmem).1), hx]
      valid := hm.valid hb.valid hone
      kept := fun x hx => hm.current_eq (body_kept hnodup hnames hb hx)
      fresh := fun _ => loop_fresh hnodup hnames hb hm hv
      targets := fun _ => loop_targets hnodup hnames hb hm
      origin := loop_origin hnodup hnames hb hm
      paired := by
        intro v operands guard hmem
        rcases List.mem_append.mp hmem with hmem | hmem
        · rcases List.mem_append.mp hmem with hmem | hmem
          · exact hb.paired v operands guard hmem
          · obtain ⟨x, -, heq⟩ := List.mem_map.mp hmem
            cases heq
            exact ⟨_, _, rfl⟩
        · exact hm.paired hmem
      ordered := ordered_loop hv hknown hnodup hb hm
      within := by
        refine hbody.append (.joins hm hb.valid hone ?_)
        intro v hmem
        exact (below_resolve hv hknown hmem).2.mono hbody.le }

end Loops

end Step

end Scope

end WhileSmt
