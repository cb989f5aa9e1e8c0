import Mathlib.Data.List.Induction
import WhileSmt.FlowGraph.Printer

/-!
Labels in the drawing of a flow graph. A label is escaped by five replacements one after another;
this is the same as escaping its characters one by one, because backslashes are replaced first, and
those that the other replacements put in stay single.

Main statement (`FlowGraph.escapeLabel_lossless`): escaping can be undone, and in an escaped label
the number of backslashes before a character says whether it is escaped. So no quotation mark of a
label ends it, and the mark that does is not escaped by the end of the label.
-/

namespace WhileSmt

namespace FlowGraph

/-- The characters that mean something in a drawing. -/
def marks : List Char :=
  ['"', '\x7b', '\x7d']

/-- The escaped form of one character. -/
def escapeChar (c : Char) : List Char :=
  if c = '\n' then ['\\', 'n']
  else if c = '\\' ∨ c ∈ marks then ['\\', c]
  else [c]

/-- Takes the character after a backslash as it is, except that the letter `n` is a newline. -/
def unescapeLabel : List Char → List Char
  | '\\' :: c :: rest => (if c = 'n' then '\n' else c) :: unescapeLabel rest
  | c :: rest => c :: unescapeLabel rest
  | [] => []

/-- The number of backslashes at the end of a text. -/
def backslashes (text : List Char) : Nat :=
  (text.reverse.takeWhile (· = '\\')).length

/-! ## One character after another -/

theorem replaceChar_append (c : Char) (replacement s t : List Char) :
    replaceChar c replacement (s ++ t) =
      replaceChar c replacement s ++ replaceChar c replacement t :=
  List.flatMap_append

theorem escapeLabel_append (s t : List Char) :
    escapeLabel (s ++ t) = escapeLabel s ++ escapeLabel t := by
  simp only [escapeLabel, replaceChar_append]

/-- Of the five replacements, at most one changes a character or what has become of it. -/
theorem escapeLabel_singleton (c : Char) : escapeLabel [c] = escapeChar c := by
  by_cases hspecial : c ∈ '\n' :: '\\' :: marks
  · simp only [marks, List.mem_cons, List.not_mem_nil, or_false] at hspecial
    rcases hspecial with rfl | rfl | rfl | rfl | rfl <;> rfl
  · simp only [marks, List.mem_cons, List.not_mem_nil, or_false, not_or] at hspecial
    simp [escapeLabel, replaceChar, escapeChar, marks, hspecial]

theorem escapeLabel_eq_flatMap (text : List Char) : escapeLabel text = text.flatMap escapeChar := by
  induction text with
  | nil => rfl
  | cons c text ih =>
    rw [← List.singleton_append, escapeLabel_append, escapeLabel_singleton, ih]
    rfl

theorem escapeChar_cases (c : Char) :
    (c = '\n' ∧ escapeChar c = ['\\', 'n']) ∨
      ((c = '\\' ∨ c ∈ marks) ∧ escapeChar c = ['\\', c]) ∨
      (c ∉ '\n' :: '\\' :: marks ∧ escapeChar c = [c]) := by
  unfold escapeChar
  split
  · next hnewline => exact .inl ⟨hnewline, rfl⟩
  · next hnewline =>
    split
    · next hmark => exact .inr (.inl ⟨hmark, rfl⟩)
    · next hmark =>
      refine .inr (.inr ⟨?_, rfl⟩)
      simp only [List.mem_cons, not_or]
      exact ⟨hnewline, not_or.mp hmark⟩

/-! ## Undoing -/

theorem unescapeLabel_cons {c : Char} (hc : c ≠ '\\') (rest : List Char) :
    unescapeLabel (c :: rest) = c :: unescapeLabel rest := by
  conv_lhs => unfold unescapeLabel
  split
  · next h => exact absurd (List.cons.inj h).1 hc
  · next h => rw [(List.cons.inj h).1, (List.cons.inj h).2]
  · next h => cases h

theorem unescapeLabel_escapeChar_append (c : Char) (rest : List Char) :
    unescapeLabel (escapeChar c ++ rest) = c :: unescapeLabel rest := by
  rcases escapeChar_cases c with ⟨rfl, hescape⟩ | ⟨hmark, hescape⟩ | ⟨hplain, hescape⟩
  · rw [hescape]
    rfl
  · have hletter : c ≠ 'n' := by
      rintro rfl
      exact absurd hmark (by decide)
    rw [hescape]
    simp [unescapeLabel, hletter]
  · rw [hescape, List.singleton_append, unescapeLabel_cons]
    rintro rfl
    simp at hplain

theorem unescapeLabel_flatMap (text : List Char) :
    unescapeLabel (text.flatMap escapeChar) = text := by
  induction text with
  | nil => rfl
  | cons c text ih => rw [List.flatMap_cons, unescapeLabel_escapeChar_append, ih]

/-! ## Runs of backslashes -/

/-- A text in which every backslash escapes a character, and every newline and mark is escaped. -/
inductive Escaped : List Char → Prop where
  | nil : Escaped []
  | plain {c : Char} {rest : List Char} (hc : c ∉ '\n' :: '\\' :: marks) (hrest : Escaped rest) :
      Escaped (c :: rest)
  | pair {c : Char} {rest : List Char} (hc : c ∈ '\\' :: 'n' :: marks) (hrest : Escaped rest) :
      Escaped ('\\' :: c :: rest)

namespace Escaped

theorem escapeChar_append {rest : List Char} (c : Char) (hrest : Escaped rest) :
    Escaped (escapeChar c ++ rest) := by
  rcases escapeChar_cases c with ⟨rfl, hescape⟩ | ⟨hmark, hescape⟩ | ⟨hplain, hescape⟩
  · rw [hescape]
    exact .pair (by decide) hrest
  · rw [hescape]
    refine .pair ?_ hrest
    rcases hmark with rfl | hmark
    · exact List.mem_cons_self
    · exact List.mem_cons_of_mem _ (List.mem_cons_of_mem _ hmark)
  · rw [hescape]
    exact .plain hplain hrest

theorem flatMap (text : List Char) : Escaped (text.flatMap escapeChar) := by
  induction text with
  | nil => exact .nil
  | cons c text ih =>
    rw [List.flatMap_cons]
    exact ih.escapeChar_append c

theorem of_cons {c : Char} {rest : List Char} (h : Escaped (c :: rest)) (hc : c ≠ '\\') :
    c ∉ '\n' :: marks ∧ Escaped rest := by
  cases h with
  | plain hplain hrest =>
    simp only [List.mem_cons, not_or] at hplain ⊢
    exact ⟨⟨hplain.1, hplain.2.2⟩, hrest⟩
  | pair => exact absurd rfl hc

theorem of_backslash {c : Char} {rest : List Char} (h : Escaped ('\\' :: c :: rest)) :
    c ∈ '\\' :: 'n' :: marks ∧ Escaped rest := by
  cases h with
  | plain hplain => exact absurd hplain (by decide)
  | pair hc hrest => exact ⟨hc, hrest⟩

theorem not_backslash : ¬Escaped ['\\'] := by
  intro h
  cases h with
  | plain hplain => exact absurd hplain (by decide)

end Escaped

theorem backslashes_concat (text : List Char) (c : Char) :
    backslashes (text ++ [c]) = if c = '\\' then backslashes text + 1 else 0 := by
  by_cases hc : c = '\\' <;> simp [backslashes, hc]

namespace Escaped

variable {before after text : List Char} {c : Char}

/-- What comes after a part of an escaped text is escaped too, together with the last backslash of
the part if an odd number of them ends it. -/
theorem of_append (h : Escaped (before ++ after)) :
    if backslashes before % 2 = 0 then Escaped after else Escaped ('\\' :: after) := by
  -- the induction reads the part from left to right, so its last character comes off first
  induction before using List.reverseRecOn generalizing after with
  | nil => exact h
  | append_singleton before c ih =>
    rw [List.append_assoc, List.singleton_append] at h
    have hnext := ih h
    rw [backslashes_concat]
    by_cases heven : backslashes before % 2 = 0
    · rw [if_pos heven] at hnext
      by_cases hc : c = '\\'
      · subst hc
        rw [if_pos rfl, if_neg (by omega)]
        exact hnext
      · rw [if_neg hc, if_pos rfl]
        exact (hnext.of_cons hc).2
    · -- the character is escaped, so nothing is left open after it, even if it is a backslash
      rw [if_neg heven] at hnext
      rw [if_pos (by split <;> omega)]
      exact hnext.of_backslash.2

/-- The number of backslashes before a character tells whether it is escaped. -/
theorem char_cases (h : Escaped (before ++ c :: after)) (hc : c ≠ '\\') :
    backslashes before % 2 = 0 ∧ c ∉ '\n' :: marks ∨
      backslashes before % 2 = 1 ∧ c ∈ 'n' :: marks := by
  have hnext := h.of_append
  split at hnext
  · next heven => exact .inl ⟨heven, (hnext.of_cons hc).1⟩
  · next hodd =>
    exact .inr ⟨by omega, (List.mem_cons.mp hnext.of_backslash.1).resolve_left hc⟩

theorem newline_not_mem (h : Escaped text) : '\n' ∉ text := by
  intro hmem
  obtain ⟨before, after, rfl⟩ := List.append_of_mem hmem
  rcases h.char_cases (by decide) with ⟨-, hplain⟩ | ⟨-, hescaped⟩
  · exact hplain List.mem_cons_self
  · exact absurd hescaped (by decide)

theorem even_backslashes (h : Escaped text) : backslashes text % 2 = 0 := by
  rw [← List.append_nil text] at h
  have hend := h.of_append
  split at hend
  · next heven => exact heven
  · exact absurd hend not_backslash

end Escaped

/-- Escaping a label escapes its characters one by one and can be undone. Newlines do not occur in
the outcome, marks come after an odd number of backslashes, and other characters after an even
number of them, except that an escaped `n` stands for a newline. The outcome ends with an even
number of backslashes. -/
theorem escapeLabel_lossless (text : List Char) :
    escapeLabel text = text.flatMap escapeChar ∧ unescapeLabel (escapeLabel text) = text ∧
      '\n' ∉ escapeLabel text ∧
      (∀ before c after, escapeLabel text = before ++ c :: after →
        (c ∈ marks → backslashes before % 2 = 1) ∧
          (c ∉ '\\' :: 'n' :: marks → backslashes before % 2 = 0)) ∧
      backslashes (escapeLabel text) % 2 = 0 := by
  have hescaped : Escaped (escapeLabel text) := by
    rw [escapeLabel_eq_flatMap]
    exact .flatMap text
  refine ⟨escapeLabel_eq_flatMap text, ?_, hescaped.newline_not_mem, ?_,
    hescaped.even_backslashes⟩
  · rw [escapeLabel_eq_flatMap, unescapeLabel_flatMap]
  · intro before c after hsplit
    rw [hsplit] at hescaped
    constructor
    · intro hmark
      have hc : c ≠ '\\' := by
        rintro rfl
        exact absurd hmark (by decide)
      rcases hescaped.char_cases hc with ⟨-, hplain⟩ | ⟨hodd, -⟩
      · exact absurd (List.mem_cons_of_mem _ hmark) hplain
      · exact hodd
    · intro hordinary
      obtain ⟨hc, hordinary⟩ := not_or.mp (mt List.mem_cons.mpr hordinary)
      rcases hescaped.char_cases hc with ⟨heven, -⟩ | ⟨-, hmark⟩
      · exact heven
      · exact absurd hmark hordinary

/-- A backslash before a quotation mark gives three of them, and one before a letter two. -/
theorem escapeLabel_mark_after_backslash :
    escapeLabel ['\\', '"', '\\', 'a'] = ['\\', '\\', '\\', '"', '\\', '\\', 'a'] ∧
      backslashes ['\\', '\\', '\\'] % 2 = 1 ∧
      backslashes ['\\', '\\', '\\', '"', '\\', '\\'] % 2 = 0 := by
  have hruns := (escapeLabel_lossless ['\\', '"', '\\', 'a']).2.2.2.1
  exact ⟨rfl, (hruns _ '"' ['\\', '\\', 'a'] rfl).1 (by decide),
    (hruns _ 'a' [] rfl).2 (by decide)⟩

end FlowGraph

end WhileSmt
