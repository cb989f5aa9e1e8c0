import WhileSmt.Proofs.Smt.Equivalence
import WhileSmt.Proofs.Smt.Provenance

/-!
The two programs of an equivalence script have nothing in common but the comparison of their
outputs. A valuation of such a script falls apart into one for each program, and any two valuations
make one of the script.

Main statement: `Script.equivalence_separate`.
-/

namespace WhileSmt

/-! ## The two parts of a valuation -/

/-- The values of the unmarked versions are those of `m₁`, and the values of the versions with the
marker of the second program are those of `m₂` for the same versions without it. -/
structure Valuation.Parts (m m₁ m₂ : Valuation) : Prop where
  first : ∀ v : Version, v.marker = none →
    m₁.ints v.text = m.ints v.text ∧ m₁.arrays v.text = m.arrays v.text
  second : ∀ v : Version, v.marker = none →
    m₂.ints v.text = m.ints (v.mark Script.secondMarker).text ∧
      m₂.arrays v.text = m.arrays (v.mark Script.secondMarker).text

namespace Valuation

/-- Every valuation has two parts. -/
theorem exists_parts (m : Valuation) : ∃ m₁ m₂, m.Parts m₁ m₂ := by
  obtain ⟨m₂, hm₂⟩ := exists_of_programs (fun v => m.ints (v.mark Script.secondMarker).text)
    (fun _ => 0) (fun v => m.arrays (v.mark Script.secondMarker).text) fun _ _ => 0
  exact ⟨m, m₂, fun _ _ => ⟨rfl, rfl⟩, fun v hv => ⟨(hm₂ v hv).1, (hm₂ v hv).2.1⟩⟩

/-- Any two valuations are the parts of one, since no marked version is written like an unmarked
one. -/
theorem exists_of_parts (m₁ m₂ : Valuation) : ∃ m : Valuation, m.Parts m₁ m₂ := by
  obtain ⟨m, hm⟩ := exists_of_programs (fun v => m₁.ints v.text) (fun v => m₂.ints v.text)
    (fun v => m₁.arrays v.text) fun v => m₂.arrays v.text
  refine ⟨m, ?_, ?_⟩
  · intro v hv
    obtain ⟨hint, harray, -, -⟩ := hm v hv
    exact ⟨hint.symm, harray.symm⟩
  · intro v hv
    obtain ⟨-, -, hint, harray⟩ := hm v hv
    exact ⟨hint.symm, harray.symm⟩

end Valuation

/-- No version of a list of instructions has a marker. -/
def Code.Unmarked (code : Code) : Prop :=
  ∀ v ∈ defined code ++ uses code, v.marker = none

instance (code : Code) : Decidable code.Unmarked :=
  inferInstanceAs (Decidable (∀ v ∈ Code.defined code ++ Code.uses code, v.marker = none))

namespace Code.Unmarked

variable {code : Code}

theorem of_defined (h : Unmarked code) {v : Version} (hv : v ∈ defined code) : v.marker = none :=
  h v (List.mem_append_left _ hv)

theorem of_uses (h : Unmarked code) {v : Version} (hv : v ∈ uses code) : v.marker = none :=
  h v (List.mem_append_right _ hv)

theorem of_outputs (h : Unmarked code) {v : Version} (hv : v ∈ outputs code) : v.marker = none := by
  obtain ⟨value, hmem⟩ := exists_define_of_mem_outputs hv
  exact h.of_defined (mem_defined.mpr ⟨_, hmem, rfl⟩)

theorem exists_of_symbol (h : Unmarked code) {p : String × Srt} (hp : p ∈ symbols code) :
    ∃ v : Version, v.marker = none ∧ v.text = p.1 := by
  obtain ⟨v, hv, htext⟩ := exists_version_of_symbol hp
  exact ⟨v, h v (List.mem_append.mpr hv), htext⟩

variable {z : ZeroDivision} {m m₁ m₂ : Valuation}

/-- A script of unmarked instructions is about the first part of a valuation. -/
theorem holds_first (h : Unmarked code) (hparts : m.Parts m₁ m₂) :
    (Script.verification code).Holds z m ↔ (Script.verification code).Holds z m₁ := by
  rw [Script.holds_verification_iff]
  refine (Script.holds_verification ?_ ?_ ?_).symm
  · exact fun v hv => (hparts.first v (h.of_defined hv)).1
  · exact fun v hv => (hparts.first v (h.of_uses hv)).1
  · exact fun a ha => (hparts.first a (h.of_uses (uses_of_arrays ha))).2

/-- With a marker on all of its instructions, it is about the second part. -/
theorem holds_second (h : Unmarked code) (hparts : m.Parts m₁ m₂) :
    (Script.verification (mark Script.secondMarker code)).Holds z m ↔
      (Script.verification code).Holds z m₂ := by
  rw [Script.holds_verification_iff, satisfied_mark]
  refine (Script.holds_verification ?_ ?_ ?_).symm
  · exact fun v hv => (hparts.second v (h.of_defined hv)).1
  · exact fun v hv => (hparts.second v (h.of_uses hv)).1
  · exact fun a ha => (hparts.second a (h.of_uses (uses_of_arrays ha))).2

end Code.Unmarked

/-! ## Declarations -/

/-- Which entries are kept depends only on which names of the list have been seen. -/
theorem keepFirst_congr {α : Type} {seen seen' : List String} {l : List (String × α)}
    (h : ∀ x ∈ l.map Prod.fst, x ∈ seen ↔ x ∈ seen') : keepFirst seen l = keepFirst seen' l := by
  induction l generalizing seen seen' with
  | nil => rfl
  | cons p rest ih =>
    obtain ⟨y, a⟩ := p
    rw [List.map_cons, List.forall_mem_cons] at h
    obtain ⟨hy, hrest⟩ := h
    have hmore : keepFirst (y :: seen) rest = keepFirst (y :: seen') rest :=
      ih fun x hx => by rw [List.mem_cons, List.mem_cons, hrest x hx]
    simp only [keepFirst, hy, ih hrest, hmore]

/-- Of two lists that share no name, the first entries are kept separately. -/
theorem keepFirst_append {α : Type} {seen : List String} {l₁ l₂ : List (String × α)}
    (h : ∀ x ∈ l₁.map Prod.fst, x ∉ l₂.map Prod.fst) :
    keepFirst seen (l₁ ++ l₂) = keepFirst seen l₁ ++ keepFirst seen l₂ := by
  induction l₁ generalizing seen with
  | nil => rfl
  | cons p rest ih =>
    obtain ⟨x, a⟩ := p
    rw [List.map_cons, List.forall_mem_cons] at h
    have hunseen : keepFirst (x :: seen) l₂ = keepFirst seen l₂ := by
      refine keepFirst_congr ?_
      intro y hy
      have hyx : y ≠ x := fun heq => h.1 (heq ▸ hy)
      rw [List.mem_cons, or_iff_right hyx]
    simp only [List.cons_append, keepFirst, ih h.2, hunseen]
    split
    · rfl
    · rfl

theorem mem_of_mem_keepFirst {α : Type} {seen : List String} {l : List (String × α)}
    {p : String × α} (h : p ∈ keepFirst seen l) : p ∈ l := by
  induction l generalizing seen with
  | nil => cases h
  | cons q rest ih =>
    obtain ⟨y, a⟩ := q
    rw [keepFirst] at h
    split at h
    · exact List.mem_cons_of_mem _ (ih h)
    · rcases List.mem_cons.mp h with rfl | h
      · exact List.mem_cons_self
      · exact List.mem_cons_of_mem _ (ih h)

namespace Code

/-- No constant of unmarked instructions is one of marked instructions. -/
theorem Unmarked.symbols_apart {first second : Code} (h₁ : Unmarked first) (h₂ : Unmarked second) :
    ∀ x ∈ (symbols first).map Prod.fst,
      x ∉ (symbols (mark Script.secondMarker second)).map Prod.fst := by
  intro x hx hx'
  obtain ⟨p, hp, rfl⟩ := List.mem_map.mp hx
  obtain ⟨q, hq, hqp⟩ := List.mem_map.mp hx'
  obtain ⟨v, hv, hvp⟩ := h₁.exists_of_symbol hp
  obtain ⟨w, hw, hwq⟩ := exists_version_of_symbol hq
  rw [defined_mark, uses_mark, List.mem_map, List.mem_map] at hw
  have hmarked : ∃ u : Version, u.marker = none ∧ u.mark Script.secondMarker = w := by
    rcases hw with ⟨u, hu, huw⟩ | ⟨u, hu, huw⟩
    · exact ⟨u, h₂.of_defined hu, huw⟩
    · exact ⟨u, h₂.of_uses hu, huw⟩
  obtain ⟨u, hu, rfl⟩ := hmarked
  exact Version.text_ne_text_mark hv hu (hvp.trans (hqp.symm.trans hwq.symm))

end Code

/-! ## Scripts -/

namespace Script

variable {first second : Code}

/-- An equivalence script declares the constants of the first program and then those of the second;
no name is declared for both. -/
theorem declarations_equivalence (h₁ : Code.Unmarked first) (h₂ : Code.Unmarked second) :
    (equivalence first second).declarations =
        (verification first).declarations ++
          (verification (Code.mark secondMarker second)).declarations ∧
      ∀ x ∈ (verification first).declarations.map Prod.fst,
        x ∉ (verification (Code.mark secondMarker second)).declarations.map Prod.fst := by
  have hapart := h₁.symbols_apart h₂
  refine ⟨keepFirst_append hapart, ?_⟩
  intro x hx hx'
  obtain ⟨p, hp, rfl⟩ := List.mem_map.mp hx
  obtain ⟨q, hq, hqp⟩ := List.mem_map.mp hx'
  exact hapart p.1 (List.mem_map.mpr ⟨p, mem_of_mem_keepFirst hp, rfl⟩)
    (List.mem_map.mpr ⟨q, mem_of_mem_keepFirst hq, hqp⟩)

/-- A valuation makes an equivalence script true if and only if its parts make the scripts of the
two programs true and give their outputs, paired in order, the same values. -/
theorem holds_equivalence_parts {z : ZeroDivision} {m m₁ m₂ : Valuation}
    (h₁ : Code.Unmarked first) (h₂ : Code.Unmarked second) (hparts : m.Parts m₁ m₂) :
    (equivalence first second).Holds z m ↔
      (verification first).Holds z m₁ ∧ (verification second).Holds z m₂ ∧
        List.Forall₂ (fun a b => m₁.ints a.text = m₂.ints b.text) (Code.outputs first)
          (Code.outputs second) := by
  rw [holds_equivalence_iff, h₁.holds_first hparts, h₂.holds_second hparts, Code.outputs_mark,
    List.forall₂_map_right_iff]
  have houtputs : List.Forall₂
        (fun a b => m.ints a.text = m.ints (Version.mark secondMarker b).text)
        (Code.outputs first) (Code.outputs second) ↔
      List.Forall₂ (fun a b => m₁.ints a.text = m₂.ints b.text) (Code.outputs first)
        (Code.outputs second) := by
    rw [List.forall₂_iff_zip, List.forall₂_iff_zip]
    refine and_congr_right fun _ => ?_
    refine forall₂_congr fun a b => ?_
    refine forall_congr' fun hab => ?_
    obtain ⟨ha, hb⟩ := List.of_mem_zip hab
    rw [(hparts.first a (h₁.of_outputs ha)).1, (hparts.second b (h₂.of_outputs hb)).1]
  rw [houtputs]

/-- A program can agree with itself if and only if its assertions can hold. -/
theorem satisfiable_equivalence_self {z : ZeroDivision} (h : Code.Unmarked first) :
    (equivalence first first).Satisfiable z ↔ (verification first).Satisfiable z := by
  constructor
  · rintro ⟨m, hm⟩
    exact ⟨m, (holds_equivalence_iff.mp hm).1⟩
  · rintro ⟨m₀, hm₀⟩
    -- both programs take the same values
    obtain ⟨m, hparts⟩ := Valuation.exists_of_parts m₀ m₀
    refine ⟨m, (holds_equivalence_parts h h hparts).mpr ⟨hm₀, hm₀, ?_⟩⟩
    exact List.forall₂_same.mpr fun _ _ => rfl

/-- The texts of unmarked versions and of versions with the marker of the second program are all
different, so no constant of an equivalence script belongs to both programs. If the numbers of
outputs are the same, the valuations of the script are the pairs of valuations of the two programs
in which the outputs have the same values in pairs; otherwise it has none. -/
theorem equivalence_separate (z : ZeroDivision) {first second : Code}
    (h₁ : Code.Unmarked first) (h₂ : Code.Unmarked second) :
    (∀ v w : Version, (v.marker = none ∨ v.marker = some secondMarker) →
        (w.marker = none ∨ w.marker = some secondMarker) → v.text = w.text → v = w) ∧
      ((equivalence first second).declarations =
          (verification first).declarations ++
            (verification (Code.mark secondMarker second)).declarations ∧
        ∀ x ∈ (verification first).declarations.map Prod.fst,
          x ∉ (verification (Code.mark secondMarker second)).declarations.map Prod.fst) ∧
      (∀ m : Valuation, ∃ m₁ m₂, m.Parts m₁ m₂) ∧
      (∀ m₁ m₂ : Valuation, ∃ m : Valuation, m.Parts m₁ m₂) ∧
      ((Code.outputs first).length = (Code.outputs second).length →
        ∀ m m₁ m₂ : Valuation, m.Parts m₁ m₂ →
          ((equivalence first second).Holds z m ↔
            (verification first).Holds z m₁ ∧ (verification second).Holds z m₂ ∧
              ∀ p ∈ (Code.outputs first).zip (Code.outputs second),
                m₁.ints p.1.text = m₂.ints p.2.text)) ∧
      ((Code.outputs first).length ≠ (Code.outputs second).length →
        ¬ (equivalence first second).Satisfiable z) ∧
      ((equivalence first first).Satisfiable z ↔ (verification first).Satisfiable z) := by
  refine ⟨fun v w => Version.eq_of_text_eq_of_marker, declarations_equivalence h₁ h₂,
    Valuation.exists_parts, Valuation.exists_of_parts, ?_, ?_, satisfiable_equivalence_self h₁⟩
  · intro hlen m m₁ m₂ hparts
    rw [holds_equivalence_parts h₁ h₂ hparts, List.forall₂_iff_zip]
    simp only [hlen, true_and, Prod.forall]
  · rintro hlen ⟨m, hm⟩
    obtain ⟨m₁, m₂, hparts⟩ := m.exists_parts
    exact hlen ((holds_equivalence_parts h₁ h₂ hparts).mp hm).2.2.length_eq

end Script

/-- Names that look like versions, one of them like a marked one. -/
def markerLookalikes : Code :=
  [.define ⟨"x_0_p2", 0, none⟩ (.lit 1),
    .define ⟨"x", 0, none⟩ (.binary (.arith .add) (.var ⟨"x_0_p2", 0, none⟩) (.lit 1))]

/-- All constants of two copies of `markerLookalikes` are different, and the copies can agree. With
the empty program it cannot, since that has no outputs. -/
theorem markerLookalikes_separate :
    Code.Unmarked markerLookalikes ∧
      (Script.equivalence markerLookalikes markerLookalikes).declarations =
        [("x_0_p2_0", .int), ("x_0", .int), ("x_0_p2_0_p2", .int), ("x_0_p2", .int)] ∧
      (Script.equivalence markerLookalikes markerLookalikes).Satisfiable
        ⟨fun _ => 0, fun _ => 0⟩ ∧
      ¬ (Script.equivalence markerLookalikes []).Satisfiable ⟨fun _ => 0, fun _ => 0⟩ := by
  have hunmarked : Code.Unmarked markerLookalikes := by decide
  have hempty : Code.Unmarked [] := by decide
  obtain ⟨-, ⟨hdeclared, -⟩, -, -, -, -, hself⟩ :=
    Script.equivalence_separate ⟨fun _ => 0, fun _ => 0⟩ hunmarked hunmarked
  obtain ⟨-, -, -, -, -, hdiffer, -⟩ :=
    Script.equivalence_separate ⟨fun _ => 0, fun _ => 0⟩ hunmarked hempty
  refine ⟨hunmarked, hdeclared.trans (by decide +kernel), hself.mpr ?_, hdiffer (by decide)⟩
  refine ⟨⟨fun x => if x = "x_0" then 2 else 1, fun _ _ => 0⟩, ?_⟩
  have hlook : Version.text ⟨"x_0_p2", 0, none⟩ = "x_0_p2_0" := by decide +kernel
  have hx : Version.text ⟨"x", 0, none⟩ = "x_0" := by decide +kernel
  rw [Script.holds_verification_iff]
  simp [markerLookalikes, Code.Satisfied, Code.Solved, Code.Passed, Instr.Solved, Instr.Passed,
    Expr.eval, Meaning.integers, BinOp.value, Arith.value, hlook, hx]

end WhileSmt
