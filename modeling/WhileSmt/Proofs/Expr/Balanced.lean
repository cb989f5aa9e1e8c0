import WhileSmt.Expr.Parser
import WhileSmt.Proofs.Text

/-!
Texts with their brackets in pairs. A scan for a closing bracket or, inside brackets, for an
operator passes over such a text as a whole.

Main statements: `Balanced.splitClosing` and `Balanced.splitOutside`.
-/

namespace WhileSmt

/-! ## Characters -/

theorem toNat_of_isNameChar {c : Char} (h : isNameChar c = true) :
    97 ≤ c.toNat ∧ c.toNat ≤ 122 ∨ 65 ≤ c.toNat ∧ c.toNat ≤ 90 ∨
      48 ≤ c.toNat ∧ c.toNat ≤ 57 ∨ c.toNat = 95 := by
  simp only [isNameChar, isLetter, Text.isDigit, Char.le_def, UInt32.le_iff_toNat_le,
    Bool.or_eq_true, Bool.and_eq_true, decide_eq_true_eq] at h
  rcases h with ((h | h) | h) | rfl
  · exact .inl h
  · exact .inr (.inl h)
  · exact .inr (.inr (.inl h))
  · exact .inr (.inr (.inr rfl))

theorem isBlank_of_isNameChar {c : Char} (h : isNameChar c = true) : Text.isBlank c = false := by
  have hc := toNat_of_isNameChar h
  simp only [Text.isBlank, Text.blankRanges, List.any_cons, List.any_nil, Bool.or_false,
    Bool.or_eq_false_iff, Bool.and_eq_false_iff, decide_eq_false_iff_not]
  omega

theorem isNameChar_of_isDigit {c : Char} (h : Text.isDigit c = true) : isNameChar c = true := by
  simp [isNameChar, h]

theorem isIdentifier_cons {c : Char} {rest : List Char} (h : isIdentifier (c :: rest) = true) :
    (isLetter c = true ∨ c = '_') ∧ ∀ d ∈ c :: rest, isNameChar d = true := by
  simp only [isIdentifier, Bool.and_eq_true, Bool.or_eq_true, decide_eq_true_eq,
    List.all_eq_true] at h
  refine ⟨h.1, ?_⟩
  intro d hd
  rcases List.mem_cons.mp hd with rfl | hd
  · rcases h.1 with hc | rfl
    · simp [isNameChar, hc]
    · decide
  · exact h.2 d hd

theorem isNameChar_of_isIdentifier {x : List Char} (h : isIdentifier x = true) :
    ∀ c ∈ x, isNameChar c = true := by
  cases x with
  | nil => simp
  | cons c rest => exact (isIdentifier_cons h).2

theorem isDigit_of_head {c : Char} (h : isLetter c = true ∨ c = '_') : Text.isDigit c = false := by
  rcases h with h | rfl
  · simp only [isLetter, Char.le_def, UInt32.le_iff_toNat_le, Bool.or_eq_true, Bool.and_eq_true,
      decide_eq_true_eq] at h
    simp only [Text.isDigit, Char.le_def, UInt32.le_iff_toNat_le, Bool.and_eq_false_iff,
      decide_eq_false_iff_not]
    change 97 ≤ c.toNat ∧ c.toNat ≤ 122 ∨ 65 ≤ c.toNat ∧ c.toNat ≤ 90 at h
    change ¬48 ≤ c.toNat ∨ ¬c.toNat ≤ 57
    omega
  · decide

theorem solid_of_isIdentifier {x : List Char} (h : isIdentifier x = true) : Text.Solid x :=
  Text.solid_of_forall fun c hc => isBlank_of_isNameChar (isNameChar_of_isIdentifier h c hc)

theorem ne_nil_of_isIdentifier {x : List Char} (h : isIdentifier x = true) : x ≠ [] := by
  rintro rfl
  cases h

/-- A text with a character that is not part of a name is no name. -/
theorem isIdentifier_eq_false {x : List Char} {c : Char} (hmem : c ∈ x)
    (hc : isNameChar c = false) : isIdentifier x = false := by
  cases h : isIdentifier x with
  | false => rfl
  | true => exact absurd (isNameChar_of_isIdentifier h c hmem) (by simp [hc])

/-! ## Balanced texts -/

/-- The characters of an expression that neither open nor close anything, but for the slash. -/
def isPlain (c : Char) : Bool :=
  isNameChar c || [' ', '=', '!', '<', '>', '+', '-', '*', '%'].contains c

/-- Texts with their brackets in pairs. A slash has a blank after it, so no comment starts. -/
inductive Balanced : List Char → Prop where
  | nil : Balanced []
  | char {c : Char} {w : List Char} : isPlain c = true → Balanced w → Balanced (c :: w)
  | slash {w : List Char} : Balanced w → Balanced ('/' :: ' ' :: w)
  | group {u w : List Char} : Balanced u → Balanced w → Balanced ('(' :: (u ++ ')' :: w))
  | index {u w : List Char} : Balanced u → Balanced w → Balanced ('[' :: (u ++ ']' :: w))

theorem isPlain_of_isNameChar {c : Char} (h : isNameChar c = true) : isPlain c = true := by
  simp [isPlain, h]

/-- What a character that is not plain differs from. -/
theorem ne_of_isPlain {c d : Char} (h : isPlain c = true) (hd : isPlain d = false) : c ≠ d := by
  rintro rfl
  simp [h] at hd

namespace Balanced

theorem append {u v : List Char} (hu : Balanced u) (hv : Balanced v) : Balanced (u ++ v) := by
  induction hu with
  | nil => exact hv
  | char hc _ ih => exact .char hc ih
  | slash _ ih => exact .slash ih
  | @group u w hu _ _ ih =>
    have h := Balanced.group hu ih
    simpa using h
  | @index u w hu _ _ ih =>
    have h := Balanced.index hu ih
    simpa using h

theorem word {w : List Char} (h : ∀ c ∈ w, isPlain c = true) : Balanced w := by
  induction w with
  | nil => exact .nil
  | cons c w ih =>
    rw [List.forall_mem_cons] at h
    exact .char h.1 (ih h.2)

/-- The characters of a balanced text. -/
theorem mem {w : List Char} (h : Balanced w) {c : Char} (hc : c ∈ w) :
    isPlain c = true ∨ c ∈ ['/', '(', ')', '[', ']'] := by
  induction h with
  | nil => cases hc
  | char hplain _ ih =>
    rcases List.mem_cons.mp hc with rfl | hc
    · exact .inl hplain
    · exact ih hc
  | slash _ ih =>
    simp only [List.mem_cons] at hc
    rcases hc with rfl | rfl | hc
    · exact .inr (by decide)
    · exact .inl (by decide)
    · exact ih hc
  | group _ _ ihu ihw =>
    simp only [List.mem_cons, List.mem_append] at hc
    rcases hc with rfl | hc | rfl | hc
    · exact .inr (by decide)
    · exact ihu hc
    · exact .inr (by decide)
    · exact ihw hc
  | index _ _ ihu ihw =>
    simp only [List.mem_cons, List.mem_append] at hc
    rcases hc with rfl | hc | rfl | hc
    · exact .inr (by decide)
    · exact ihu hc
    · exact .inr (by decide)
    · exact ihw hc

theorem not_mem {w : List Char} (h : Balanced w) {c : Char} (hplain : isPlain c = false)
    (hother : c ∉ ['/', '(', ')', '[', ']']) : c ∉ w := by
  intro hc
  rcases h.mem hc with h | h
  · simp [hplain] at h
  · exact hother h

end Balanced

/-! ## Scanning balanced texts -/

theorem splitClosing_opening {c : Char} (hc : isOpening c = true) (d : Nat) (v : List Char) :
    splitClosing d (c :: v) = (splitClosing (d + 1) v).map fun p => (c :: p.1, p.2) := by
  rw [splitClosing.eq_def]
  simp only [hc, if_true]

theorem splitClosing_closing {c : Char} (hopen : isOpening c = false) (hc : isClosing c = true)
    (d : Nat) (v : List Char) :
    splitClosing (d + 1) (c :: v) = (splitClosing d v).map fun p => (c :: p.1, p.2) := by
  rw [splitClosing, if_neg (by simp [hopen]), if_pos hc]

theorem splitClosing_end {c : Char} (hopen : isOpening c = false) (hc : isClosing c = true)
    (v : List Char) : splitClosing 0 (c :: v) = some ([], c, v) := by
  rw [splitClosing, if_neg (by simp [hopen]), if_pos hc]

theorem splitClosing_other {c : Char} (hopen : isOpening c = false) (hclose : isClosing c = false)
    (d : Nat) (v : List Char) :
    splitClosing d (c :: v) = (splitClosing d v).map fun p => (c :: p.1, p.2) := by
  rw [splitClosing.eq_def]
  simp only [hopen, hclose, Bool.false_eq_true, if_false]

theorem isOpening_of_isPlain {c : Char} (h : isPlain c = true) : isOpening c = false := by
  simp [isOpening, ne_of_isPlain h (d := '(') rfl, ne_of_isPlain h (d := '[') rfl]

theorem isClosing_of_isPlain {c : Char} (h : isPlain c = true) : isClosing c = false := by
  simp [isClosing, ne_of_isPlain h (d := ')') rfl, ne_of_isPlain h (d := ']') rfl]

/-- The search for a closing bracket passes over a balanced text. -/
theorem Balanced.splitClosing {w : List Char} (h : Balanced w) (d : Nat) (v : List Char) :
    splitClosing d (w ++ v) = (splitClosing d v).map fun p => (w ++ p.1, p.2) := by
  induction h generalizing d v with
  | nil => simp
  | char hc _ ih =>
    rw [List.cons_append, splitClosing_other (isOpening_of_isPlain hc) (isClosing_of_isPlain hc),
      ih]
    simp [Function.comp_def]
  | slash _ ih =>
    rw [List.cons_append, List.cons_append, splitClosing_other rfl rfl, splitClosing_other rfl rfl,
      ih]
    simp [Function.comp_def]
  | group _ _ ihu ihw =>
    rw [List.cons_append, List.append_assoc, List.cons_append, splitClosing_opening rfl, ihu,
      splitClosing_closing rfl rfl, ihw]
    simp [Function.comp_def]
  | index _ _ ihu ihw =>
    rw [List.cons_append, List.append_assoc, List.cons_append, splitClosing_opening rfl, ihu,
      splitClosing_closing rfl rfl, ihw]
    simp [Function.comp_def]

/-- A balanced text ends at the bracket after it. -/
theorem Balanced.splitClosing_end {w : List Char} (h : Balanced w) {c : Char}
    (hopen : isOpening c = false) (hc : isClosing c = true) (v : List Char) :
    WhileSmt.splitClosing 0 (w ++ c :: v) = some (w, c, v) := by
  rw [h.splitClosing, WhileSmt.splitClosing_end hopen hc]
  simp

theorem splitOutside_opening {c : Char} (hc : isOpening c = true) (symbol : List Char) (d : Int)
    (v : List Char) :
    splitOutside symbol d (c :: v) =
      (splitOutside symbol (d + 1) v).map fun p => (c :: p.1, p.2) := by
  rw [splitOutside, if_pos hc]

theorem splitOutside_closing {c : Char} (hopen : isOpening c = false) (hc : isClosing c = true)
    (symbol : List Char) (d : Int) (v : List Char) :
    splitOutside symbol d (c :: v) =
      (splitOutside symbol (d - 1) v).map fun p => (c :: p.1, p.2) := by
  rw [splitOutside, if_neg (by simp [hopen]), if_pos hc]

/-- The search for a symbol passes over a character inside brackets, and over one at which the
symbol does not stand. -/
theorem splitOutside_other {c : Char} (hopen : isOpening c = false) (hclose : isClosing c = false)
    {symbol : List Char} {d : Int} {v : List Char}
    (h : d ≠ 0 ∨ symbol.isPrefixOf (c :: v) = false) :
    splitOutside symbol d (c :: v) =
      (splitOutside symbol d v).map fun p => (c :: p.1, p.2) := by
  rw [splitOutside, if_neg (by simp [hopen]), if_neg (by simp [hclose]), if_neg]
  rcases h with h | h
  · simp [h]
  · simp [h]

/-- The search for an operator passes over a balanced text inside brackets. -/
theorem Balanced.splitOutside {w : List Char} (h : Balanced w) (symbol : List Char) {d : Int}
    (hd : 0 < d) (v : List Char) :
    splitOutside symbol d (w ++ v) = (splitOutside symbol d v).map fun p => (w ++ p.1, p.2) := by
  have hne : ∀ {d : Int}, 0 < d → d ≠ 0 := fun h => by omega
  induction h generalizing d v with
  | nil => simp
  | char hc _ ih =>
    rw [List.cons_append, splitOutside_other (isOpening_of_isPlain hc) (isClosing_of_isPlain hc)
      (.inl (hne hd)), ih hd]
    simp [Function.comp_def]
  | slash _ ih =>
    rw [List.cons_append, List.cons_append, splitOutside_other rfl rfl (.inl (hne hd)),
      splitOutside_other rfl rfl (.inl (hne hd)), ih hd]
    simp [Function.comp_def]
  | group _ _ ihu ihw =>
    rw [List.cons_append, List.append_assoc, List.cons_append, splitOutside_opening rfl,
      ihu (by omega), splitOutside_closing rfl rfl, Int.add_sub_cancel, ihw hd]
    simp [Function.comp_def]
  | index _ _ ihu ihw =>
    rw [List.cons_append, List.append_assoc, List.cons_append, splitOutside_opening rfl,
      ihu (by omega), splitOutside_closing rfl rfl, Int.add_sub_cancel, ihw hd]
    simp [Function.comp_def]

end WhileSmt
