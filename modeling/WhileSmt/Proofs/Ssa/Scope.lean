import Mathlib.Data.List.Basic
import WhileSmt.Proofs.Meaning
import WhileSmt.Ssa.Numbering

/-!
What the steps of numbering do to a scope: claiming inputs, handing out versions, and joining two
scopes. A scope is valid if every version in force is one that has been handed out.

Main statements: claiming succeeds unless a name would be read whose version is out of sight
(`Scope.exists_claim`), and both kinds of joins meet one description (`joinArms_meets`,
`exitJoins_meets`).
-/

namespace WhileSmt

namespace Scope

/-- Every version in force has been handed out. -/
def Valid (s : Scope) : Prop :=
  ∀ x n, s.env.get? x = some n → n < s.nextNumber x

theorem valid_empty : Valid {} := by
  intro x n h
  cases h

@[simp] theorem base_current (s : Scope) (x : String) : (s.current x).base = x := rfl

theorem current_of_get? {s : Scope} {x : String} {n : Nat} (h : s.env.get? x = some n) :
    s.current x = { base := x, number := n } := by
  rw [current, h, Option.getD_some]

theorem current_of_unknown {s : Scope} {x : String} (h : s.env.get? x = none) :
    s.current x = { base := x, number := 0 } := by
  rw [current, h, Option.getD_none]

theorem current_congr {s s' : Scope} {x : String} (h : s'.env.get? x = s.env.get? x) :
    s'.current x = s.current x := by
  rw [current, current, h]

/-- The version in force of a known name has been handed out. -/
theorem Valid.current_lt {s : Scope} (h : s.Valid) {x : String} (hx : s.env.get? x ≠ none) :
    (s.current x).number < s.nextNumber x := by
  obtain ⟨n, hn⟩ := Option.ne_none_iff_exists'.mp hx
  rw [current_of_get? hn]
  exact h x n hn

/-- More numbers handed out do no harm. -/
theorem Valid.mono {s s' : Scope} (h : s.Valid) (henv : s'.env = s.env)
    (hnext : ∀ x, s.nextNumber x ≤ s'.nextNumber x) : s'.Valid := by
  intro x n hn
  rw [henv] at hn
  exact Nat.lt_of_lt_of_le (h x n hn) (hnext x)

theorem nextNumber_of_unused {s : Scope} {x : String} (h : s.next.get? x = none) :
    s.nextNumber x = 0 := by
  rw [nextNumber, h, Option.getD_none]

theorem Valid.unknown_of_unused {s : Scope} (h : s.Valid) {x : String}
    (hx : s.next.get? x = none) : s.env.get? x = none := by
  cases henv : s.env.get? x with
  | none => rfl
  | some n =>
    have hlt := h x n henv
    rw [nextNumber_of_unused hx] at hlt
    exact absurd hlt (Nat.not_lt_zero n)

theorem current_ne {s s' : Scope} {x : String} {a b : Nat} (ha : s.env.get? x = some a)
    (hb : s'.env.get? x = some b) (hab : a ≠ b) : s.current x ≠ s'.current x := by
  rw [current_of_get? ha, current_of_get? hb]
  intro h
  exact hab (congrArg Version.number h)

/-! ## Claiming inputs -/

/-- The effect of making the unknown names of a list inputs. -/
structure Claims (s : Scope) (names : List String) (s' : Scope) : Prop where
  env : ∀ x, s'.env.get? x = if s.env.get? x = none ∧ x ∈ names then some 0 else s.env.get? x
  next : ∀ x, s'.next.get? x = if s.env.get? x = none ∧ x ∈ names then some 1 else s.next.get? x
  unused : ∀ x ∈ names, s.env.get? x = none → s.next.get? x = none

theorem claims_of_claim {s s' : Scope} {names : List String} (h : s.claim names = .ok s') :
    s.Claims names s' := by
  induction names generalizing s with
  | nil =>
    cases h
    exact ⟨by simp, by simp, by simp⟩
  | cons y rest ih =>
    unfold claim NameMap.contains at h
    split at h
    · next hy =>
      obtain ⟨henv, hnext, hunused⟩ := ih h
      have hne : s.env.get? y ≠ none := by
        intro hnone
        rw [hnone] at hy
        cases hy
      refine ⟨?_, ?_, ?_⟩
      · intro x
        rw [henv]
        grind
      · intro x
        rw [hnext]
        grind
      · intro x hx hnone
        grind
    · next hy =>
      split at h
      · cases h
      · next hfree =>
        obtain ⟨henv, hnext, hunused⟩ := ih h
        have hnone : s.env.get? y = none := by simpa using hy
        have hnext' : s.next.get? y = none := by simpa using hfree
        simp only [NameMap.get?_insert] at henv hnext hunused
        refine ⟨?_, ?_, ?_⟩
        · intro x
          rw [henv]
          grind
        · intro x
          rw [hnext]
          grind
        · intro x hx hx'
          grind

/-- Claiming fails only on a name that has been numbered but is not known here. -/
theorem exists_claim {s : Scope} {names : List String}
    (h : ∀ x ∈ names, s.env.get? x = none → s.next.get? x = none) :
    ∃ s', s.claim names = .ok s' := by
  induction names generalizing s with
  | nil => exact ⟨s, rfl⟩
  | cons y rest ih =>
    unfold claim NameMap.contains
    split
    · exact ih fun x hx => h x (List.mem_cons_of_mem _ hx)
    · next hy =>
      have hnone : s.env.get? y = none := by simpa using hy
      rw [h y List.mem_cons_self hnone, Option.isSome_none, if_neg Bool.false_ne_true]
      refine ih ?_
      intro x hx hx'
      rw [NameMap.get?_insert] at hx' ⊢
      have hxy : x ≠ y := by
        rintro rfl
        rw [if_pos rfl] at hx'
        cases hx'
      rw [if_neg hxy] at hx' ⊢
      exact h x (List.mem_cons_of_mem _ hx) hx'

/-- Claiming known names changes nothing. -/
theorem claim_known {s : Scope} {names : List String} (h : ∀ x ∈ names, s.env.get? x ≠ none) :
    s.claim names = .ok s := by
  induction names with
  | nil => rfl
  | cons y rest ih =>
    have hy : s.env.contains y = true :=
      Option.isSome_iff_ne_none.mpr (h y List.mem_cons_self)
    unfold claim
    rw [if_pos hy]
    exact ih fun x hx => h x (List.mem_cons_of_mem _ hx)

namespace Claims

variable {s s' : Scope} {names : List String} {x : String}

/-- A claimed name is in force where it was read as an input before. -/
theorem current_eq (h : s.Claims names s') (x : String) : s'.current x = s.current x := by
  have henv := h.env x
  by_cases hx : s.env.get? x = none ∧ x ∈ names
  · rw [if_pos hx] at henv
    rw [current_of_get? henv, current_of_unknown hx.1]
  · rw [if_neg hx] at henv
    exact current_congr henv

theorem env_ne_none (h : s.Claims names s') :
    s'.env.get? x ≠ none ↔ s.env.get? x ≠ none ∨ x ∈ names := by
  rw [h.env x]
  by_cases hx : s.env.get? x = none <;> simp [hx]

theorem next_none (h : s.Claims names s') (hx : x ∉ names) (hnext : s.next.get? x = none) :
    s'.next.get? x = none := by
  rw [h.next x, if_neg (fun hc => hx hc.2), hnext]

theorem nextNumber_le (h : s.Claims names s') (x : String) : s.nextNumber x ≤ s'.nextNumber x := by
  have hnext := h.next x
  by_cases hx : s.env.get? x = none ∧ x ∈ names
  · rw [nextNumber_of_unused (h.unused x hx.2 hx.1)]
    exact Nat.zero_le _
  · rw [if_neg hx] at hnext
    have heq : s.nextNumber x = s'.nextNumber x := by rw [nextNumber, nextNumber, hnext]
    exact Nat.le_of_eq heq

theorem valid (h : s.Claims names s') (hv : s.Valid) : s'.Valid := by
  intro x n hn
  rw [h.env x] at hn
  by_cases hx : s.env.get? x = none ∧ x ∈ names
  · rw [if_pos hx] at hn
    cases hn
    rw [nextNumber, h.next x, if_pos hx]
    exact Nat.zero_lt_one
  · rw [if_neg hx] at hn
    exact Nat.lt_of_lt_of_le (hv x n hn) (h.nextNumber_le x)

end Claims

/-! ## Handing out versions -/

@[simp] theorem env_advance (s : Scope) (y x : String) :
    (s.advance y).env.get? x = if x = y then some (s.nextNumber y) else s.env.get? x :=
  NameMap.get?_insert ..

@[simp] theorem next_advance (s : Scope) (y x : String) :
    (s.advance y).next.get? x = if x = y then some (s.nextNumber y + 1) else s.next.get? x :=
  NameMap.get?_insert ..

theorem nextNumber_advance (s : Scope) (y x : String) :
    (s.advance y).nextNumber x = if x = y then s.nextNumber x + 1 else s.nextNumber x := by
  rw [nextNumber, next_advance]
  split
  · next hxy => rw [hxy, Option.getD_some]
  · rfl

theorem Valid.advance {s : Scope} (h : s.Valid) (y : String) : (s.advance y).Valid := by
  intro x n hn
  rw [env_advance] at hn
  rw [nextNumber_advance]
  split at hn
  · next hxy =>
    cases hn
    rw [if_pos hxy, hxy]
    exact Nat.lt_succ_self _
  · next hxy =>
    rw [if_neg hxy]
    exact h x n hn

theorem env_advanceAll {s : Scope} {names : List String} (hnd : names.Nodup) (x : String) :
    (s.advanceAll names).env.get? x =
      if x ∈ names then some (s.nextNumber x) else s.env.get? x := by
  induction names generalizing s with
  | nil => rfl
  | cons y rest ih =>
    obtain ⟨hy, hrest⟩ := List.nodup_cons.mp hnd
    show ((s.advance y).advanceAll rest).env.get? x = _
    rw [ih hrest, env_advance, nextNumber_advance]
    by_cases hxy : x = y
    · subst hxy
      simp [hy]
    · simp [hxy]

theorem next_advanceAll {s : Scope} {names : List String} (hnd : names.Nodup) (x : String) :
    (s.advanceAll names).next.get? x =
      if x ∈ names then some (s.nextNumber x + 1) else s.next.get? x := by
  induction names generalizing s with
  | nil => rfl
  | cons y rest ih =>
    obtain ⟨hy, hrest⟩ := List.nodup_cons.mp hnd
    show ((s.advance y).advanceAll rest).next.get? x = _
    rw [ih hrest, next_advance, nextNumber_advance]
    by_cases hxy : x = y
    · subst hxy
      simp [hy]
    · simp [hxy]

theorem nextNumber_advanceAll {s : Scope} {names : List String} (hnd : names.Nodup) (x : String) :
    (s.advanceAll names).nextNumber x =
      if x ∈ names then s.nextNumber x + 1 else s.nextNumber x := by
  rw [nextNumber, next_advanceAll hnd]
  split
  · rfl
  · rfl

theorem Valid.advanceAll {s : Scope} (h : s.Valid) (names : List String) :
    (s.advanceAll names).Valid := by
  induction names generalizing s with
  | nil => exact h
  | cons y rest ih => exact ih (h.advance y)

/-! ## Joining two scopes -/

/-- The join of a name that is in force in two versions: none if they are the same. -/
def joinPair? (guard : Expr Version) (s : Scope) (x : String) (a b : Nat) : Option Instr :=
  if a = b then none
  else some (.join { base := x, number := s.nextNumber x }
    [{ base := x, number := a }, { base := x, number := b }] (some guard))

/-- The join of a name where a path with the versions `one` meets a path that ends in the scope `s`:
none unless both know the name. -/
def joinAt? (guard : Expr Version) (one : NameMap Nat) (s : Scope) (x : String) : Option Instr :=
  (one.get? x).bind fun a => (s.env.get? x).bind fun b => joinPair? guard s x a b

/-- The number in force of a name after the two paths have met. -/
def meetNumber (one : NameMap Nat) (s : Scope) (x : String) : Option Nat :=
  match one.get? x, s.env.get? x with
  | some a, some b => some (if a = b then a else s.nextNumber x)
  | some a, none => some a
  | none, b => b

/-- The joins and the scope where a path with the versions `one` meets a path that ends in the
scope `s`, which has handed out the versions of both. -/
structure Meets (guard : Expr Version) (one : NameMap Nat) (s : Scope) (code : Code)
    (s' : Scope) : Prop where
  env : ∀ x, s'.env.get? x = meetNumber one s x
  next : ∀ x, s'.next.get? x =
    if (joinAt? guard one s x).isSome then some (s.nextNumber x + 1) else s.next.get? x
  code : ∃ keys : List String, keys.Pairwise (· < ·) ∧ code = keys.filterMap (joinAt? guard one s) ∧
    ∀ x, one.get? x ≠ none → s.env.get? x ≠ none → x ∈ keys

namespace Meets

variable {guard : Expr Version} {one : NameMap Nat} {s s' : Scope} {code : Code} {x : String}

theorem env_ne_none (h : Meets guard one s code s') :
    s'.env.get? x ≠ none ↔ one.get? x ≠ none ∨ s.env.get? x ≠ none := by
  rw [h.env x, meetNumber]
  cases h₁ : one.get? x <;> cases h₂ : s.env.get? x <;> simp

theorem mem_code (h : Meets guard one s code s') {instr : Instr} :
    instr ∈ code ↔ ∃ x a b, one.get? x = some a ∧ s.env.get? x = some b ∧ a ≠ b ∧
      instr = .join { base := x, number := s.nextNumber x }
        [{ base := x, number := a }, { base := x, number := b }] (some guard) := by
  obtain ⟨keys, -, rfl, hkeys⟩ := h.code
  rw [List.mem_filterMap]
  constructor
  · rintro ⟨x, -, hx⟩
    obtain ⟨a, ha, hx⟩ := Option.bind_eq_some_iff.mp hx
    obtain ⟨b, hb, hx⟩ := Option.bind_eq_some_iff.mp hx
    unfold joinPair? at hx
    split at hx
    · cases hx
    · next hab => exact ⟨x, a, b, ha, hb, hab, (Option.some.inj hx).symm⟩
  · rintro ⟨x, a, b, ha, hb, hab, rfl⟩
    refine ⟨x, hkeys x (by simp [ha]) (by simp [hb]), ?_⟩
    simp [joinAt?, joinPair?, ha, hb, hab]

/-- A join reads one version of each path, and its guard. -/
theorem uses (h : Meets guard one s code s') {v : Version} (hv : v ∈ Code.uses code) :
    (∃ x a, one.get? x = some a ∧ v = { base := x, number := a }) ∨
      (∃ x b, s.env.get? x = some b ∧ v = { base := x, number := b }) ∨ v ∈ guard.names := by
  obtain ⟨instr, hinstr, hv⟩ := Code.mem_uses.mp hv
  obtain ⟨x, a, b, ha, hb, -, rfl⟩ := h.mem_code.mp hinstr
  simp only [Instr.uses, Option.map_some, Option.getD_some, List.mem_append, List.mem_cons,
    List.not_mem_nil, or_false] at hv
  rcases hv with (rfl | rfl) | hv
  · exact .inl ⟨x, a, ha, rfl⟩
  · exact .inr (.inl ⟨x, b, hb, rfl⟩)
  · exact .inr (.inr hv)

/-- A join defines the next version of a name on which the paths differ. -/
theorem defined (h : Meets guard one s code s') {v : Version} (hv : v ∈ Code.defined code) :
    ∃ x a b, one.get? x = some a ∧ s.env.get? x = some b ∧ a ≠ b ∧
      v = { base := x, number := s.nextNumber x } := by
  obtain ⟨instr, hinstr, hv⟩ := Code.mem_defined.mp hv
  obtain ⟨x, a, b, ha, hb, hab, rfl⟩ := h.mem_code.mp hinstr
  exact ⟨x, a, b, ha, hb, hab, (Option.some.inj hv).symm⟩

/-- A name keeps the version on which the paths agree, or that of the only path that knows it;
otherwise the paths differ on it. -/
theorem cases (h : Meets guard one s code s') (x : String) :
    (s'.env.get? x = one.get? x ∧ one.get? x ≠ none ∧
        (s.env.get? x = none ∨ s.env.get? x = one.get? x)) ∨
      (one.get? x = none ∧ s'.env.get? x = s.env.get? x) ∨
      ∃ a b, one.get? x = some a ∧ s.env.get? x = some b ∧ a ≠ b := by
  have henv := h.env x
  unfold meetNumber at henv
  cases h₁ : one.get? x with
  | none =>
    rw [h₁] at henv
    exact .inr (.inl ⟨rfl, henv⟩)
  | some a =>
    cases h₂ : s.env.get? x with
    | none =>
      rw [h₁, h₂] at henv
      exact .inl ⟨henv, Option.some_ne_none a, .inl rfl⟩
    | some b =>
      by_cases hab : a = b
      · subst hab
        rw [h₁, h₂] at henv
        exact .inl ⟨by simpa using henv, Option.some_ne_none a, .inr rfl⟩
      · exact .inr (.inr ⟨a, b, rfl, rfl, hab⟩)

theorem nextNumber_le (h : Meets guard one s code s') (x : String) :
    s.nextNumber x ≤ s'.nextNumber x := by
  have hnext := h.next x
  show s.nextNumber x ≤ (s'.next.get? x).getD 0
  split at hnext
  · rw [hnext]
    exact Nat.le_succ _
  · rw [hnext]
    exact Nat.le_refl _

/-- A name with two different versions gets the next one. -/
theorem of_ne (h : Meets guard one s code s') {a b : Nat} (ha : one.get? x = some a)
    (hb : s.env.get? x = some b) (hab : a ≠ b) :
    s'.env.get? x = some (s.nextNumber x) ∧ s'.nextNumber x = s.nextNumber x + 1 := by
  constructor
  · simp [h.env x, meetNumber, ha, hb, hab]
  · simp [nextNumber, h.next x, joinAt?, joinPair?, ha, hb, hab]

theorem current_of_ne (h : Meets guard one s code s') {a b : Nat} (ha : one.get? x = some a)
    (hb : s.env.get? x = some b) (hab : a ≠ b) :
    s'.current x = { base := x, number := s.nextNumber x } ∧ s'.current x ∈ Code.defined code := by
  have hcur := current_of_get? (h.of_ne ha hb hab).1
  refine ⟨hcur, ?_⟩
  rw [hcur]
  exact Code.mem_defined.mpr ⟨_, h.mem_code.mpr ⟨x, a, b, ha, hb, hab, rfl⟩, rfl⟩

/-- A name that is in the same version on both paths keeps it. -/
theorem current_eq {t : Scope} (h : Meets guard t.env s code s') (hx : s.current x = t.current x) :
    s'.current x = t.current x := by
  rcases h.cases x with ⟨henv, -, -⟩ | ⟨-, henv⟩ | ⟨a, b, ha, hb, hab⟩
  · exact current_congr henv
  · rw [current_congr henv, hx]
  · exact absurd hx.symm (current_ne ha hb hab)

theorem paired (h : Meets guard one s code s') {v : Version} {operands : List Version}
    {guard' : Option (Expr Version)} (hmem : Instr.join v operands guard' ∈ code) :
    ∃ a b, operands = [a, b] := by
  obtain ⟨x, a, b, -, -, -, heq⟩ := h.mem_code.mp hmem
  cases heq
  exact ⟨_, _, rfl⟩

theorem next_none (h : Meets guard one s code s') (hone : one.get? x = none)
    (hnext : s.next.get? x = none) : s'.next.get? x = none := by
  simp [h.next x, joinAt?, hone, hnext]

theorem valid (h : Meets guard one s code s') (hv : s.Valid)
    (hone : ∀ x a, one.get? x = some a → a < s.nextNumber x) : s'.Valid := by
  intro x n hn
  have hle := h.nextNumber_le x
  rcases h.cases x with ⟨henv, -, -⟩ | ⟨-, henv⟩ | ⟨a, b, ha, hb, hab⟩
  · rw [henv] at hn
    exact Nat.lt_of_lt_of_le (hone x n hn) hle
  · rw [henv] at hn
    exact Nat.lt_of_lt_of_le (hv x n hn) hle
  · obtain ⟨henv, hnext⟩ := h.of_ne ha hb hab
    rw [henv, Option.some.injEq] at hn
    omega

/-- The joins define different names. -/
theorem nodup_defined (h : Meets guard one s code s') : (Code.defined code).Nodup := by
  obtain ⟨keys, hsorted, rfl, -⟩ := h.code
  have hbase : ∀ x instr, joinAt? guard one s x = some instr →
      ∀ v, instr.defined? = some v → v.base = x := by
    intro x instr hx v hv
    obtain ⟨a, -, hx⟩ := Option.bind_eq_some_iff.mp hx
    obtain ⟨b, -, hx⟩ := Option.bind_eq_some_iff.mp hx
    unfold joinPair? at hx
    split at hx
    · cases hx
    · cases hx
      cases hv
      rfl
  refine List.pairwise_filterMap.mpr (List.pairwise_filterMap.mpr (hsorted.imp ?_))
  intro x y hxy i hi j hj v hv w hw heq
  rw [heq] at hv
  exact ne_of_gt_name hxy ((hbase y j hj w hw).symm.trans (hbase x i hi w hv))

end Meets

end Scope

open Scope

/-- One walk of `joinArms`: the joins in the order of the list, and a scope changed at the names of
the list only. -/
theorem joinArms_spec (guard : Expr Version) (one : NameMap Nat) {l : List (String × Nat)}
    (hl : l.Pairwise (fun p q => p.1 < q.1)) (s : Scope) :
    (joinArms guard one l s).1 =
        l.filterMap (fun p => (one.get? p.1).bind fun a => joinPair? guard s p.1 a p.2) ∧
      ∀ x, (joinArms guard one l s).2.env.get? x =
          (match l.lookup x, one.get? x with
            | none, _ => s.env.get? x
            | some b, none => some b
            | some b, some a => if a = b then s.env.get? x else some (s.nextNumber x)) ∧
        (joinArms guard one l s).2.next.get? x =
          (match l.lookup x, one.get? x with
            | some b, some a => if a = b then s.next.get? x else some (s.nextNumber x + 1)
            | _, _ => s.next.get? x) := by
  induction l generalizing s with
  | nil => exact ⟨rfl, fun x => ⟨rfl, rfl⟩⟩
  | cons p rest ih =>
    obtain ⟨y, b⟩ := p
    obtain ⟨hy, hrest⟩ := List.pairwise_cons.mp hl
    have hnot : rest.lookup y = none := NameMap.lookup_eq_none_of_lt hy
    unfold joinArms
    split
    · next hone =>
      obtain ⟨hcode, hscope⟩ := ih hrest { s with env := s.env.insert y b }
      refine ⟨?_, ?_⟩
      · rw [List.filterMap_cons_none (by simp [hone]), hcode]
        rfl
      · intro x
        obtain ⟨henv, hnext⟩ := hscope x
        rw [henv, hnext, NameMap.lookup_cons_ite]
        by_cases hxy : x = y
        · subst hxy
          simp [hnot, hone]
        · simp [hxy, nextNumber]
    · next a hone =>
      split
      · next hab =>
        obtain ⟨hcode, hscope⟩ := ih hrest s
        refine ⟨?_, ?_⟩
        · rw [List.filterMap_cons_none (by simp [hone, joinPair?, hab]), hcode]
        · intro x
          obtain ⟨henv, hnext⟩ := hscope x
          rw [henv, hnext, NameMap.lookup_cons_ite]
          by_cases hxy : x = y
          · subst hxy
            simp [hnot, hone, hab]
          · simp [hxy]
      · next hab =>
        obtain ⟨hcode, hscope⟩ := ih hrest (s.advance y)
        refine ⟨?_, ?_⟩
        · rw [List.filterMap_cons_some (b := Instr.join { base := y, number := s.nextNumber y }
            [{ base := y, number := a }, { base := y, number := b }] (some guard))
            (by simp [hone, joinPair?, hab, nextNumber])]
          simp only [List.cons.injEq, true_and]
          rw [hcode]
          -- the names that follow are all different from `y`
          refine List.filterMap_congr ?_
          intro q hq
          simp [joinPair?, nextNumber_advance, ne_of_gt_name (hy q hq)]
        · intro x
          obtain ⟨henv, hnext⟩ := hscope x
          simp only [henv, hnext, NameMap.lookup_cons_ite]
          by_cases hxy : x = y
          · subst hxy
            simp [hnot, hone, hab]
          · simp [hxy, nextNumber_advance]

/-- The joins after a branch. -/
theorem joinArms_meets (guard : Expr Version) (one : NameMap Nat) (s : Scope) :
    Meets guard one s (joinArms guard one s.env.toList { env := one, next := s.next }).1
      (joinArms guard one s.env.toList { env := one, next := s.next }).2 := by
  obtain ⟨hcode, hscope⟩ := joinArms_spec guard one s.env.sorted { env := one, next := s.next }
  refine ⟨?_, ?_, s.env.keys, List.pairwise_map.mpr s.env.sorted, ?_, ?_⟩
  · intro x
    rw [(hscope x).1]
    show (match s.env.get? x, one.get? x with
      | none, _ => one.get? x
      | some b, none => some b
      | some b, some a => if a = b then one.get? x else some (s.nextNumber x)) = _
    unfold meetNumber
    cases h₁ : one.get? x with
    | none => cases h₂ : s.env.get? x <;> rfl
    | some a =>
      cases h₂ : s.env.get? x with
      | none => rfl
      | some b => by_cases hab : a = b <;> simp [hab]
  · intro x
    rw [(hscope x).2]
    show (match s.env.get? x, one.get? x with
      | some b, some a => if a = b then s.next.get? x else some (s.nextNumber x + 1)
      | _, _ => s.next.get? x) = _
    unfold joinAt? joinPair?
    cases h₁ : one.get? x with
    | none => cases h₂ : s.env.get? x <;> simp
    | some a =>
      cases h₂ : s.env.get? x with
      | none => simp
      | some b => by_cases hab : a = b <;> simp [hab]
  · rw [hcode, NameMap.keys, List.filterMap_map]
    refine List.filterMap_congr ?_
    intro p hp
    simp only [Function.comp_apply, joinAt?, NameMap.mem_toList.mp hp, Option.bind_some]
    rfl
  · intro x _ hx
    obtain ⟨b, hb⟩ := Option.ne_none_iff_exists'.mp hx
    exact List.mem_map.mpr ⟨(x, b), NameMap.mem_toList.mpr hb, rfl⟩

/-- One walk of `exitJoins`, where the body has kept every name known. -/
theorem exitJoins_spec (guard : Expr Version) (after : NameMap Nat) {l : List (String × Nat)}
    (hl : l.Pairwise (fun p q => p.1 < q.1)) (hknown : ∀ p ∈ l, after.get? p.1 ≠ none)
    (s : Scope) :
    ∃ code s', exitJoins guard after l s = .ok (code, s') ∧
      code = l.filterMap (fun p => (after.get? p.1).bind fun b => joinPair? guard s p.1 p.2 b) ∧
      ∀ x, s'.env.get? x =
          (match l.lookup x, after.get? x with
            | some a, some b => if a = b then s.env.get? x else some (s.nextNumber x)
            | _, _ => s.env.get? x) ∧
        s'.next.get? x =
          (match l.lookup x, after.get? x with
            | some a, some b => if a = b then s.next.get? x else some (s.nextNumber x + 1)
            | _, _ => s.next.get? x) := by
  induction l generalizing s with
  | nil => exact ⟨[], s, rfl, rfl, fun x => ⟨rfl, rfl⟩⟩
  | cons p rest ih =>
    obtain ⟨y, a⟩ := p
    obtain ⟨hy, hrest⟩ := List.pairwise_cons.mp hl
    have hnot : rest.lookup y = none := NameMap.lookup_eq_none_of_lt hy
    have hknown' : ∀ p ∈ rest, after.get? p.1 ≠ none := fun p hp =>
      hknown p (List.mem_cons_of_mem _ hp)
    obtain ⟨b, hb⟩ := Option.ne_none_iff_exists'.mp (hknown (y, a) List.mem_cons_self)
    have hversion : versionOf after y = .ok b := by rw [versionOf, hb]
    by_cases hab : b = a
    · obtain ⟨code, s', hok, hcode, hscope⟩ := ih hrest hknown' s
      refine ⟨code, s', ?_, ?_, ?_⟩
      · rw [exitJoins, hversion]
        simp only [bind, Except.bind, if_pos hab, hok]
      · rw [List.filterMap_cons_none (by simp [hb, joinPair?, hab]), hcode]
      · intro x
        obtain ⟨henv, hnext⟩ := hscope x
        rw [henv, hnext, NameMap.lookup_cons_ite]
        by_cases hxy : x = y
        · subst hxy
          simp [hnot, hb, hab]
        · simp [hxy]
    · obtain ⟨code, s', hok, hcode, hscope⟩ := ih hrest hknown' (s.advance y)
      refine ⟨.join { base := y, number := s.nextNumber y }
        [{ base := y, number := a }, { base := y, number := b }] (some guard) :: code, s',
        ?_, ?_, ?_⟩
      · rw [exitJoins, hversion]
        simp only [bind, Except.bind, if_neg hab, hok]
        rfl
      · rw [List.filterMap_cons_some (b := Instr.join { base := y, number := s.nextNumber y }
          [{ base := y, number := a }, { base := y, number := b }] (some guard))
          (by simp [hb, joinPair?, Ne.symm hab, nextNumber]), hcode]
        refine congrArg _ (List.filterMap_congr ?_)
        intro q hq
        simp [joinPair?, nextNumber_advance, ne_of_gt_name (hy q hq)]
      · intro x
        obtain ⟨henv, hnext⟩ := hscope x
        simp only [henv, hnext, NameMap.lookup_cons_ite]
        by_cases hxy : x = y
        · subst hxy
          simp [hnot, hb, Ne.symm hab]
        · simp [hxy, nextNumber_advance]

/-- The joins at the exit of a loop: they are those of a branch with the loop as its second arm. -/
theorem exitJoins_meets (guard : Expr Version) {one : NameMap Nat} {s : Scope}
    (hknown : ∀ x, one.get? x ≠ none → s.env.get? x ≠ none) :
    ∃ code s', exitJoins guard s.env one.toList s = .ok (code, s') ∧
      Meets guard one s code s' := by
  have hlist : ∀ p ∈ one.toList, s.env.get? p.1 ≠ none := by
    intro p hp
    refine hknown p.1 ?_
    rw [NameMap.mem_toList.mp hp]
    exact Option.some_ne_none _
  obtain ⟨code, s', hok, hcode, hscope⟩ := exitJoins_spec guard s.env one.sorted hlist s
  refine ⟨code, s', hok, ?_, ?_, one.keys, List.pairwise_map.mpr one.sorted, ?_, ?_⟩
  · intro x
    rw [(hscope x).1]
    show (match one.get? x, s.env.get? x with
      | some a, some b => if a = b then s.env.get? x else some (s.nextNumber x)
      | _, _ => s.env.get? x) = _
    unfold meetNumber
    cases h₁ : one.get? x with
    | none => cases h₂ : s.env.get? x <;> rfl
    | some a =>
      cases h₂ : s.env.get? x with
      | none => exact absurd h₂ (hknown x (by simp [h₁]))
      | some b => by_cases hab : a = b <;> simp [hab, nextNumber]
  · intro x
    rw [(hscope x).2]
    show (match one.get? x, s.env.get? x with
      | some a, some b => if a = b then s.next.get? x else some (s.nextNumber x + 1)
      | _, _ => s.next.get? x) = _
    unfold joinAt? joinPair?
    cases h₁ : one.get? x with
    | none => cases h₂ : s.env.get? x <;> simp
    | some a =>
      cases h₂ : s.env.get? x with
      | none => simp
      | some b => by_cases hab : a = b <;> simp [hab, nextNumber]
  · rw [hcode, NameMap.keys, List.filterMap_map]
    refine List.filterMap_congr ?_
    intro p hp
    simp [joinAt?, NameMap.mem_toList.mp hp]
  · intro x hx _
    obtain ⟨a, ha⟩ := Option.ne_none_iff_exists'.mp hx
    exact List.mem_map.mpr ⟨(x, a), NameMap.mem_toList.mpr ha, rfl⟩

end WhileSmt
