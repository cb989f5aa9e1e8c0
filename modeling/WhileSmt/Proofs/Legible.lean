/-!
Texts that can be read from left to right: where the text of an item ends, and of which item it is
the text, is decided by what stands there.

Main statements: words are read up to the first character that is not part of one
(`Text.legible_word`), and items with a text between them one after another
(`Text.Legible.intercalate`).
-/

namespace WhileSmt

namespace Text

/-- A text that starts with the text of an item and goes on with one of `ends` does so in one way
only. -/
def Legible {α : Type} (p : α → Prop) (text : α → List Char) (ends : List Char → Prop) : Prop :=
  ∀ ⦃a b : α⦄ ⦃u v : List Char⦄, p a → p b → ends u → ends v → text a ++ u = text b ++ v →
    a = b ∧ u = v

/-- A text that does not start with one of the characters. -/
def Ends (chars : Char → Bool) (u : List Char) : Prop :=
  ∀ c ∈ u.head?, chars c = false

theorem ends_cons {chars : Char → Bool} {c : Char} (h : chars c = false) (u : List Char) :
    Ends chars (c :: u) := by
  rintro d ⟨⟩
  exact h

/-- A word is read up to the first character that is not part of one. -/
theorem legible_word (chars : Char → Bool) :
    Legible (fun w => ∀ c ∈ w, chars c = true) id (Ends chars) := by
  have htake : ∀ {w u : List Char}, (∀ c ∈ w, chars c = true) → Ends chars u →
      (w ++ u).takeWhile chars = w := by
    intro w u hw hu
    rw [List.takeWhile_append_of_pos hw]
    cases u with
    | nil => simp
    | cons c u => simp [hu c rfl]
  intro w w' u v hw hw' hu hv h
  have hword := congrArg (List.takeWhile chars) h
  rw [id, id, htake hw hu, htake hw' hv] at hword
  subst hword
  exact ⟨rfl, List.append_cancel_left h⟩

theorem intercalate_map_cons {α : Type} (sep : List Char) (text : α → List Char) (a : α)
    (rest : List α) :
    sep.intercalate ((a :: rest).map text) = text a ++ rest.flatMap fun b => sep ++ text b := by
  induction rest generalizing a with
  | nil => simp
  | cons b rest ih =>
    have h := ih b
    rw [List.map_cons] at h
    rw [List.map_cons, List.map_cons, List.intercalate_cons_cons, h, List.flatMap_cons,
      List.append_assoc, List.append_assoc]

section

variable {α : Type} {p : α → Prop} {text : α → List Char} {ends stop : List Char → Prop}
  {sep : List Char}

theorem ends_flatMap (hsep : ∀ u, ends (sep ++ u)) (hstop : ∀ u, stop u → ends u)
    (items : List α) {u : List Char} (hu : stop u) :
    ends (items.flatMap (fun a => sep ++ text a) ++ u) := by
  cases items with
  | nil => exact hstop u hu
  | cons a rest =>
    rw [List.flatMap_cons, List.append_assoc, List.append_assoc]
    exact hsep _

/-- Items with the same text in front of each are read one after another, if what stops the
sequence does not start with that text. -/
theorem Legible.flatMap (h : Legible p text ends) (hsep : ∀ u, ends (sep ++ u))
    (hstop : ∀ u, stop u → ends u) (hnext : ∀ u, ¬ stop (sep ++ u)) :
    Legible (fun items : List α => ∀ a ∈ items, p a)
      (fun items => items.flatMap fun a => sep ++ text a) stop := by
  intro items items' u v hitems hitems' hu hv heq
  induction items generalizing items' with
  | nil =>
    cases items' with
    | nil => exact ⟨rfl, heq⟩
    | cons b rest' =>
      simp only [List.flatMap_nil, List.nil_append, List.flatMap_cons, List.append_assoc] at heq
      exact absurd (heq ▸ hu) (hnext _)
  | cons a rest ih =>
    cases items' with
    | nil =>
      simp only [List.flatMap_nil, List.nil_append, List.flatMap_cons, List.append_assoc] at heq
      exact absurd (heq ▸ hv) (hnext _)
    | cons b rest' =>
      rw [List.forall_mem_cons] at hitems hitems'
      simp only [List.flatMap_cons, List.append_assoc, List.append_cancel_left_eq] at heq
      obtain ⟨rfl, hrest⟩ := h hitems.1 hitems'.1 (ends_flatMap hsep hstop rest hu)
        (ends_flatMap hsep hstop rest' hv) heq
      obtain ⟨rfl, huv⟩ := ih hitems.2 hitems'.2 hrest
      exact ⟨rfl, huv⟩

/-- Items with a text between them, if what stops the sequence starts neither with that text nor
with an item. -/
theorem Legible.intercalate (h : Legible p text ends) (hsep : ∀ u, ends (sep ++ u))
    (hstop : ∀ u, stop u → ends u) (hnext : ∀ u, ¬ stop (sep ++ u))
    (hfirst : ∀ a u, p a → ¬ stop (text a ++ u)) :
    Legible (fun items : List α => ∀ a ∈ items, p a)
      (fun items => sep.intercalate (items.map text)) stop := by
  intro items items' u v hitems hitems' hu hv heq
  cases items with
  | nil =>
    cases items' with
    | nil => exact ⟨rfl, heq⟩
    | cons b rest' =>
      simp only [List.map_nil, List.intercalate_nil, List.nil_append, intercalate_map_cons,
        List.append_assoc] at heq
      exact absurd (heq ▸ hu) (hfirst b _ (hitems' b List.mem_cons_self))
  | cons a rest =>
    cases items' with
    | nil =>
      simp only [List.map_nil, List.intercalate_nil, List.nil_append, intercalate_map_cons,
        List.append_assoc] at heq
      exact absurd (heq ▸ hv) (hfirst a _ (hitems a List.mem_cons_self))
    | cons b rest' =>
      rw [List.forall_mem_cons] at hitems hitems'
      simp only [intercalate_map_cons, List.append_assoc] at heq
      obtain ⟨rfl, hrest⟩ := h hitems.1 hitems'.1 (ends_flatMap hsep hstop rest hu)
        (ends_flatMap hsep hstop rest' hv) heq
      obtain ⟨rfl, huv⟩ := h.flatMap hsep hstop hnext hitems.2 hitems'.2 hu hv hrest
      exact ⟨rfl, huv⟩

end

end Text

end WhileSmt
