import WhileSmt.Proofs.Text
import WhileSmt.Smt.Sexp

/-!
Reading S-expressions back. The scanner cuts a text into tokens that stand in it with blanks between
them, and the tokens of an S-expression are built up to the same S-expression again, provided that
every atom is one for the scanner.

Main statements: `Sexp.spells_iff`, `Sexp.parse_of_spells` and `Sexp.parse_text`.
-/

namespace WhileSmt

namespace Sexp

/-- The characters that do not end an atom. -/
def isAtomChar (c : Char) : Bool :=
  c ≠ '(' && c ≠ ')' && !Text.isBlank c

/-- Texts without blanks and parentheses that do not start with a delimiter. -/
def isPlain : List Char → Bool
  | [] => false
  | c :: rest => c ≠ '"' && c ≠ '|' && (c :: rest).all isAtomChar

/-- The texts that are read as one atom: the plain ones, and those between two delimiters. -/
inductive IsAtom : List Char → Prop where
  | plain {word : List Char} : isPlain word = true → IsAtom word
  | delimited {d : Char} {inner : List Char} : d = '"' ∨ d = '|' → d ∉ inner →
      IsAtom (d :: (inner ++ [d]))

mutual

/-- Every atom of an S-expression is read as one atom. -/
def Readable : Sexp → Prop
  | .atom text => IsAtom text.toList
  | .list items => AllReadable items

/-- All items of a list can be read back. -/
def AllReadable : List Sexp → Prop
  | [] => True
  | item :: rest => item.Readable ∧ AllReadable rest

end

mutual

/-- The tokens of the text of an S-expression. -/
def tokens : Sexp → List Token
  | .atom text => [.atom text.toList]
  | .list items => .opening :: (allTokens items ++ [.closing])

/-- The tokens of the items of a list. -/
def allTokens : List Sexp → List Token
  | [] => []
  | item :: rest => item.tokens ++ allTokens rest

end

/-! ## Scanning -/

theorem isAtomChar_iff {c : Char} :
    isAtomChar c = true ↔ c ≠ '(' ∧ c ≠ ')' ∧ Text.isBlank c = false := by
  simp [isAtomChar, and_assoc]

/-- A text before which an atom ends. -/
def EndsAtom (rest : List Char) : Prop :=
  ∀ c ∈ rest.head?, isAtomChar c = false

theorem endsAtom_nil : EndsAtom [] := by
  intro c hc
  cases hc

theorem endsAtom_cons {c : Char} {rest : List Char} (h : isAtomChar c = false) :
    EndsAtom (c :: rest) := by
  intro d hd
  cases hd
  exact h

theorem scan_plain {word rest : List Char} (hword : ∀ c ∈ word, isAtomChar c = true)
    (hrest : EndsAtom rest) (read : List Char) :
    scan (.plain read) (word ++ rest) = .atom (read.reverse ++ word) :: scan .between rest := by
  induction word generalizing read with
  | nil =>
    rw [List.nil_append, List.append_nil]
    cases rest with
    | nil => rfl
    | cons c rest =>
      have hc : ¬ (isAtomChar c = true) := by simp [hrest c rfl]
      rw [isAtomChar_iff] at hc
      by_cases hopen : c = '('
      · subst hopen
        rfl
      · by_cases hclose : c = ')'
        · subst hclose
          rfl
        · have hblank : Text.isBlank c = true := by simpa [hopen, hclose] using hc
          simp [scan, hopen, hclose, hblank]
  | cons c word ih =>
    obtain ⟨hc, hword⟩ := List.forall_mem_cons.mp hword
    obtain ⟨hopen, hclose, hblank⟩ := isAtomChar_iff.mp hc
    rw [List.cons_append, scan, if_neg hopen, if_neg hclose, if_neg (by simp [hblank]), ih hword]
    simp

theorem scan_delimited {d : Char} {inner : List Char} (h : d ∉ inner) (rest read : List Char) :
    scan (.quoted d read) (inner ++ d :: rest) =
      .atom (read.reverse ++ inner ++ [d]) :: scan .between rest := by
  induction inner generalizing read with
  | nil => simp [scan]
  | cons c inner ih =>
    rw [List.mem_cons, not_or] at h
    obtain ⟨hc, hinner⟩ := h
    rw [List.cons_append, scan, if_neg (Ne.symm hc), ih hinner]
    simp

/-- An atom is cut off as one token. -/
theorem IsAtom.scan {word rest : List Char} (h : IsAtom word)
    (hrest : isPlain word = true → EndsAtom rest) :
    Sexp.scan .between (word ++ rest) = .atom word :: Sexp.scan .between rest := by
  cases h with
  | plain hplain =>
    cases word with
    | nil => cases hplain
    | cons c word =>
      have hends := hrest hplain
      simp only [isPlain, ne_eq, decide_not, Bool.and_eq_true, Bool.not_eq_true',
        decide_eq_false_iff_not, List.all_eq_true] at hplain
      obtain ⟨⟨hquote, hbar⟩, hall⟩ := hplain
      obtain ⟨hc, hword⟩ := List.forall_mem_cons.mp hall
      obtain ⟨hopen, hclose, hblank⟩ := isAtomChar_iff.mp hc
      rw [List.cons_append, Sexp.scan, if_neg hopen, if_neg hclose, if_neg (by simp [hblank]),
        if_neg (by simp [hquote, hbar]), scan_plain hword hends]
      rfl
  | @delimited d inner hd hinner =>
    have hstep : Sexp.scan .between (d :: (inner ++ [d]) ++ rest) =
        Sexp.scan (.quoted d [d]) (inner ++ d :: rest) := by
      rcases hd with rfl | rfl <;> simp [Sexp.scan, Text.isBlank, Text.blankRanges]
    rw [hstep, scan_delimited hinner]
    rfl

theorem scan_blank {c : Char} (h : Text.isBlank c = true) (rest : List Char) :
    scan .between (c :: rest) = scan .between rest := by
  have hopen : c ≠ '(' := by
    rintro rfl
    exact absurd h (by decide)
  have hclose : c ≠ ')' := by
    rintro rfl
    exact absurd h (by decide)
  rw [scan, if_neg hopen, if_neg hclose, if_pos h]

/-! ## Layout -/

/-- A text consists of the given tokens, with any blanks before and after each of them. A plain atom
reaches up to a blank, a parenthesis or the end of the text. -/
inductive Spells : List Token → List Char → Prop where
  | nil : Spells [] []
  | blank {c : Char} {ts : List Token} {rest : List Char} :
      Text.isBlank c = true → Spells ts rest → Spells ts (c :: rest)
  | opening {ts : List Token} {rest : List Char} :
      Spells ts rest → Spells (.opening :: ts) ('(' :: rest)
  | closing {ts : List Token} {rest : List Char} :
      Spells ts rest → Spells (.closing :: ts) (')' :: rest)
  | atom {word : List Char} {ts : List Token} {rest : List Char} :
      IsAtom word → (isPlain word = true → EndsAtom rest) → Spells ts rest →
      Spells (.atom word :: ts) (word ++ rest)

namespace Spells

variable {ts ts' : List Token} {u v text : List Char}

/-- The scanner finds the tokens of a text. -/
theorem scan (h : Spells ts text) : Sexp.scan .between text = ts := by
  induction h with
  | nil => rfl
  | blank hc _ ih => rw [scan_blank hc, ih]
  | opening _ ih => exact congrArg _ ih
  | closing _ ih => exact congrArg _ ih
  | atom hword hrest _ ih => rw [hword.scan hrest, ih]

theorem blanks {w : List Char} (hw : Text.Blank w) (h : Spells ts text) :
    Spells ts (w ++ text) := by
  induction w with
  | nil => exact h
  | cons c w ih =>
    obtain ⟨hc, hw⟩ := List.forall_mem_cons.mp hw
    exact .blank hc (ih hw)

/-- Tokens may follow where an atom would end. -/
theorem append (hu : Spells ts u) (hv : Spells ts' v) (hends : EndsAtom v) :
    Spells (ts ++ ts') (u ++ v) := by
  induction hu with
  | nil => exact hv
  | blank hc _ ih => exact .blank hc ih
  | opening _ ih => exact .opening ih
  | closing _ ih => exact .closing ih
  | @atom word ts rest hword hrest _ ih =>
    rw [List.append_assoc]
    refine .atom hword ?_ ih
    cases rest with
    | nil => exact fun _ => hends
    | cons c rest => exact hrest

/-- Between any two tokens of a text it can be cut. -/
theorem exists_cut (h : Spells (ts ++ ts') text) :
    ∃ u v, text = u ++ v ∧ Spells ts u ∧ Spells ts' v := by
  generalize hall : ts ++ ts' = all at h
  induction h generalizing ts with
  | nil =>
    obtain ⟨rfl, rfl⟩ := List.append_eq_nil_iff.mp hall
    exact ⟨[], [], rfl, .nil, .nil⟩
  | @blank c _ _ hc _ ih =>
    obtain ⟨u, v, rfl, hu, hv⟩ := ih hall
    exact ⟨c :: u, v, rfl, .blank hc hu, hv⟩
  | @opening all rest h ih =>
    cases ts with
    | nil =>
      obtain rfl : ts' = _ := hall
      exact ⟨[], _, rfl, .nil, .opening h⟩
    | cons t ts =>
      obtain ⟨rfl, htail⟩ := List.cons.inj hall
      obtain ⟨u, v, rfl, hu, hv⟩ := ih htail
      exact ⟨'(' :: u, v, rfl, .opening hu, hv⟩
  | @closing all rest h ih =>
    cases ts with
    | nil =>
      obtain rfl : ts' = _ := hall
      exact ⟨[], _, rfl, .nil, .closing h⟩
    | cons t ts =>
      obtain ⟨rfl, htail⟩ := List.cons.inj hall
      obtain ⟨u, v, rfl, hu, hv⟩ := ih htail
      exact ⟨')' :: u, v, rfl, .closing hu, hv⟩
  | @atom word all rest hword hrest h ih =>
    cases ts with
    | nil =>
      obtain rfl : ts' = _ := hall
      exact ⟨[], _, rfl, .nil, .atom hword hrest h⟩
    | cons t ts =>
      obtain ⟨rfl, htail⟩ := List.cons.inj hall
      obtain ⟨u, v, rfl, hu, hv⟩ := ih htail
      refine ⟨word ++ u, v, (List.append_assoc ..).symm, .atom hword ?_ hu, hv⟩
      -- nothing but the end of the first part can follow the atom that did not before
      cases u with
      | nil => exact fun _ => endsAtom_nil
      | cons c u => exact hrest

theorem unterminated_not_mem (h : Spells ts text) : .unterminated ∉ ts := by
  induction h with
  | nil => exact List.not_mem_nil
  | blank _ _ ih => exact ih
  | opening _ ih => simpa using ih
  | closing _ ih => simpa using ih
  | atom _ _ _ ih => simpa using ih

end Spells

/-- What has been read so far of a token. -/
def Mode.text : Mode → List Char
  | .between => []
  | .plain read => read.reverse
  | .quoted _ read => read.reverse

/-- What has been read so far is the start of an atom of its kind. -/
def Mode.Proper : Mode → Prop
  | .between => True
  | .plain read => isPlain read.reverse = true
  | .quoted d read => (d = '"' ∨ d = '|') ∧ ∃ inner, read.reverse = d :: inner ∧ d ∉ inner

theorem isPlain_concat {word : List Char} {c : Char} (h : isPlain word = true)
    (hc : isAtomChar c = true) : isPlain (word ++ [c]) = true := by
  cases word with
  | nil => cases h
  | cons d word =>
    simp only [isPlain, List.all_cons, Bool.and_eq_true] at h
    simp [isPlain, List.all_append, -List.all_eq_true, h, hc]

/-- The tokens that the scanner finds are those of the text, if every atom is terminated. -/
theorem spells_scan {mode : Mode} {text : List Char} (hmode : mode.Proper)
    (h : .unterminated ∉ scan mode text) : Spells (scan mode text) (mode.text ++ text) := by
  fun_induction scan mode text with
  | case1 => exact .nil
  | case2 read => exact .atom (.plain hmode) (fun _ => endsAtom_nil) .nil
  | case3 d read => exact absurd List.mem_cons_self h
  | case4 rest ih => exact .opening (ih trivial (by simpa using h))
  | case5 rest _ ih => exact .closing (ih trivial (by simpa using h))
  | case6 c rest _ _ hblank ih => exact .blank hblank (ih trivial h)
  | case7 c rest _ _ _ hquote ih =>
    exact ih ⟨by simpa using hquote, [], rfl, List.not_mem_nil⟩ h
  | case8 c rest hopen hclose hblank hquote ih =>
    refine ih ?_ h
    simp only [Bool.or_eq_true, decide_eq_true_eq, not_or] at hquote
    simp [Mode.Proper, isPlain, isAtomChar, hopen, hclose, hblank, hquote]
  | case9 read rest ih =>
    refine .atom (.plain hmode) (fun _ => endsAtom_cons (by decide)) (.opening ?_)
    exact ih trivial (by simpa using h)
  | case10 read rest _ ih =>
    refine .atom (.plain hmode) (fun _ => endsAtom_cons (by decide)) (.closing ?_)
    exact ih trivial (by simpa using h)
  | case11 read c rest _ _ hblank ih =>
    refine .atom (.plain hmode) (fun _ => endsAtom_cons (by simp [isAtomChar, hblank])) ?_
    exact .blank hblank (ih trivial (by simpa using h))
  | case12 read c rest hopen hclose hblank ih =>
    have hproper : (Mode.plain (c :: read)).Proper := by
      rw [Mode.Proper, List.reverse_cons]
      exact isPlain_concat hmode (by simp [isAtomChar, hopen, hclose, hblank])
    simpa [Mode.text] using ih hproper h
  | case13 read d rest ih =>
    obtain ⟨hquote, inner, hread, hinner⟩ := hmode
    have hrest := ih trivial (by simpa using h)
    simpa [Mode.text, hread] using
      Spells.atom (.delimited hquote hinner) (by rcases hquote with rfl | rfl <;> simp [isPlain]) hrest
  | case14 d read c rest hne ih =>
    obtain ⟨hquote, inner, hread, hinner⟩ := hmode
    have hproper : (Mode.quoted d (c :: read)).Proper :=
      ⟨hquote, inner ++ [c], by simp [hread], by simp [hinner, Ne.symm hne]⟩
    simpa [Mode.text] using ih hproper h

/-- A text consists of tokens if and only if the scanner finds them and every atom is terminated. -/
theorem spells_iff {ts : List Token} {text : List Char} :
    Spells ts text ↔ scan .between text = ts ∧ .unterminated ∉ ts := by
  constructor
  · intro h
    exact ⟨h.scan, h.unterminated_not_mem⟩
  · rintro ⟨rfl, h⟩
    exact @spells_scan .between text trivial h

theorem toList_text_list (items : List Sexp) :
    (list items).text.toList = '(' :: ((itemsText items).toList ++ [')']) := by
  simp [text]

theorem toList_itemsText_cons (item next : Sexp) (more : List Sexp) :
    (itemsText (item :: next :: more)).toList =
      item.text.toList ++ ' ' :: (itemsText (next :: more)).toList := by
  simp [itemsText]

mutual

/-- The text of an S-expression consists of its tokens, whatever follows. -/
theorem spells_text : ∀ (s : Sexp), s.Readable → ∀ {ts : List Token} {rest : List Char},
    EndsAtom rest → Spells ts rest → Spells (s.tokens ++ ts) (s.text.toList ++ rest)
  | .atom text, h, ts, rest, hends, hrest => .atom h (fun _ => hends) hrest
  | .list items, h, ts, rest, hends, hrest => by
    have hitems := spells_itemsText items h hrest
    rw [toList_text_list, tokens]
    simpa using Spells.opening hitems

theorem spells_itemsText : ∀ (items : List Sexp), AllReadable items →
    ∀ {ts : List Token} {rest : List Char}, Spells ts rest →
    Spells (allTokens items ++ .closing :: ts) ((itemsText items).toList ++ ')' :: rest)
  | [], _, ts, rest, hrest => .closing hrest
  | [item], h, ts, rest, hrest => by
    have hitem := spells_text item h.1 (endsAtom_cons (by decide)) (Spells.closing hrest)
    rwa [itemsText, allTokens, allTokens, List.append_nil]
  | item :: next :: more, h, ts, rest, hrest => by
    have hmore := Spells.blank (c := ' ') (by decide) (spells_itemsText (next :: more) h.2 hrest)
    have hitem := spells_text item h.1 (endsAtom_cons (by decide)) hmore
    rw [toList_itemsText_cons, allTokens, List.append_assoc, List.append_assoc]
    exact hitem

end

/-! ## Building -/

mutual

/-- The tokens of an S-expression add it to the list that is open. -/
theorem build_tokens : ∀ (s : Sexp) (current : List Sexp) (outer : List (List Sexp))
    (rest : List Token), build current outer (s.tokens ++ rest) = build (s :: current) outer rest
  | .atom text, current, outer, rest => by
    simp [tokens, build]
  | .list items, current, outer, rest => by
    have hitems := build_allTokens items [] (current :: outer) (.closing :: rest)
    simp only [tokens, List.cons_append, List.append_assoc, List.nil_append, build]
    rw [hitems, build, List.append_nil, List.reverse_reverse]

theorem build_allTokens : ∀ (items current : List Sexp) (outer : List (List Sexp))
    (rest : List Token),
    build current outer (allTokens items ++ rest) = build (items.reverse ++ current) outer rest
  | [], current, outer, rest => rfl
  | item :: more, current, outer, rest => by
    rw [allTokens, List.append_assoc, build_tokens item, build_allTokens more, List.reverse_cons,
      List.append_assoc, List.singleton_append]

end

/-- S-expressions are read back from every text that consists of their tokens. -/
theorem parse_of_spells {items : List Sexp} {text : List Char}
    (h : Spells (allTokens items) text) : parse text = .ok items := by
  have hbuild := build_allTokens items [] [] []
  rw [List.append_nil, List.append_nil] at hbuild
  rw [parse, h.scan, hbuild, build, List.reverse_reverse]
  rfl

/-- The text of an S-expression is read back as that S-expression. -/
theorem parse_text {s : Sexp} (h : s.Readable) : parse s.text.toList = .ok [s] := by
  have hspells := spells_text s h endsAtom_nil Spells.nil
  rw [List.append_nil (s.text.toList)] at hspells
  exact parse_of_spells hspells

end Sexp

end WhileSmt
