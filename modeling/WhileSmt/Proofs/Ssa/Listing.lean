import WhileSmt.Proofs.Legible
import WhileSmt.Proofs.Optimize.Frame
import WhileSmt.Proofs.Program.Parsed
import WhileSmt.Proofs.Smt.SortsApart
import WhileSmt.Proofs.Ssa.VersionText
import WhileSmt.Ssa.Printer

/-!
Listings determine the code that they list. A text is read from left to right: what starts an
expression shows of which kind it is, words end where no character of a word follows, and operators
stand between blanks. Only a negation of a literal would be written like a negative literal.

Main statement: `Code.text_determines`.
-/

namespace WhileSmt

open Text

/-! ## Versions and literals -/

/-- The characters of versions and of literals. -/
def isWordChar (c : Char) : Bool :=
  isNameChar c || c = '-'

/-- An unmarked version of an identifier. -/
structure Version.Plain (v : Version) : Prop where
  marker : v.marker = none
  base : isIdentifier v.base.toList = true

theorem Version.Plain.isNameChar_text {v : Version} (h : v.Plain) :
    ∀ c ∈ v.text.toList, isNameChar c = true := by
  rw [toList_text h.marker]
  intro c hc
  rcases List.mem_append.mp hc with hc | hc
  · exact isNameChar_of_isIdentifier h.base c hc
  · rcases List.mem_cons.mp hc with rfl | hc
    · rfl
    · exact isNameChar_of_isDigit (isDigit_of_mem_digits hc)

theorem Version.Plain.isWordChar_text {v : Version} (h : v.Plain) :
    ∀ c ∈ v.text.toList, isWordChar c = true := by
  intro c hc
  simp [isWordChar, h.isNameChar_text c hc]

theorem Version.legible_text :
    Legible Version.Plain (fun v => v.text.toList) (Ends isWordChar) := by
  intro v w u u' hv hw hu hu' h
  obtain ⟨htext, hrest⟩ :=
    legible_word isWordChar hv.isWordChar_text hw.isWordChar_text hu hu' h
  exact ⟨eq_of_text_eq hv.marker hw.marker (String.toList_injective htext), hrest⟩

theorem Text.isWordChar_int64 (n : Int64) : ∀ c ∈ (int64 n).toList, isWordChar c = true := by
  have hdigits : ∀ m, ∀ c ∈ digits m, isWordChar c = true := by
    intro m c hc
    simp [isWordChar, isNameChar_of_isDigit (isDigit_of_mem_digits hc)]
  rw [int64]
  cases n.toInt with
  | ofNat m =>
    rw [toList_integer_ofNat]
    exact hdigits m
  | negSucc m =>
    rw [toList_integer_negSucc]
    exact List.forall_mem_cons.mpr ⟨rfl, hdigits (m + 1)⟩

theorem Text.legible_int64 :
    Legible (fun _ => True) (fun n => (int64 n).toList) (Ends isWordChar) := by
  intro m n u v _ _ hu hv h
  obtain ⟨htext, hrest⟩ :=
    legible_word isWordChar (isWordChar_int64 m) (isWordChar_int64 n) hu hv h
  have hread := congrArg readInt64? htext
  rw [readInt64?_int64, readInt64?_int64] at hread
  exact ⟨Option.some.inj hread, hrest⟩

/-! ## Expressions -/

namespace Expr

/-- No operation is a negation. -/
def negationFree {ν : Type} : Expr ν → Bool
  | lit _ => true
  | var _ => true
  | index _ i => i.negationFree
  | unary op e => op ≠ .neg && e.negationFree
  | binary _ l r => l.negationFree && r.negationFree

/-- An expression without negations over unmarked versions of identifiers. -/
structure Listable (e : Expr Version) : Prop where
  names : ∀ v ∈ e.names, v.Plain
  negationFree : e.negationFree = true

/-- What an expression starts with. -/
inductive Start where
  | number | name | exclamation | parenthesis | other
deriving DecidableEq

/-- What a character is the start of. -/
def startOf (c : Char) : Start :=
  if Text.isDigit c || c = '-' then .number
  else if isLetter c || c = '_' then .name
  else if c = '!' then .exclamation
  else if c = '(' then .parenthesis
  else .other

/-- How the listing of an expression starts. -/
def start {ν : Type} : Expr ν → Start
  | lit _ => .number
  | var _ | index _ _ => .name
  | unary _ _ => .exclamation
  | binary _ _ _ => .parenthesis

theorem startOf_of_isDigit {c : Char} (h : Text.isDigit c = true) : startOf c = .number := by
  simp [startOf, h]

theorem startOf_of_head {c : Char} (h : isLetter c = true ∨ c = '_') : startOf c = .name := by
  have hminus : c ≠ '-' := by
    rintro rfl
    exact absurd h (by decide)
  have hname : (isLetter c || decide (c = '_')) = true := by
    simpa using h
  rw [startOf, isDigit_of_head h, if_neg (by simpa using hminus), if_pos hname]

theorem exists_start_text {v : Version} (h : v.Plain) :
    ∃ c rest, v.text.toList = c :: rest ∧ startOf c = .name := by
  have hbase := h.base
  rw [Version.toList_text h.marker]
  cases hlist : v.base.toList with
  | nil =>
    rw [hlist] at hbase
    cases hbase
  | cons c rest =>
    rw [hlist] at hbase
    exact ⟨c, _, rfl, startOf_of_head (isIdentifier_cons hbase).1⟩

theorem exists_start_int64 (n : Int64) :
    ∃ c rest, (Text.int64 n).toList = c :: rest ∧ startOf c = .number := by
  rw [Text.int64]
  cases n.toInt with
  | ofNat m =>
    obtain ⟨c, rest, hdigits, hc⟩ := Text.digits_head m
    exact ⟨c, rest, by rw [Text.toList_integer_ofNat, hdigits], startOf_of_isDigit hc⟩
  | negSucc m => exact ⟨'-', _, Text.toList_integer_negSucc m, rfl⟩

/-- The text of an expression in a listing. -/
def listing (e : Expr Version) : List Char :=
  (e.render Version.text).toList

theorem listing_index (a : Version) (i : Expr Version) :
    listing (.index a i) = a.text.toList ++ '[' :: (i.listing ++ [']']) := by
  simp [listing, render]

theorem listing_not (e : Expr Version) : listing (.unary .not e) = '!' :: e.listing := by
  simp [listing, render, UnOp.symbol]

theorem listing_binary (op : BinOp) (l r : Expr Version) :
    listing (.binary op l r) =
      '(' :: (l.listing ++ ' ' :: (op.symbol.toList ++ ' ' :: (r.listing ++ [')']))) := by
  simp [listing, render]

theorem Listable.exists_start {e : Expr Version} (h : e.Listable) :
    ∃ c rest, e.listing = c :: rest ∧ startOf c = e.start := by
  cases e with
  | lit n => exact exists_start_int64 n
  | var v => exact exists_start_text (h.names v List.mem_cons_self)
  | index a i =>
    obtain ⟨c, rest, htext, hc⟩ := exists_start_text (h.names a List.mem_cons_self)
    exact ⟨c, _, by rw [listing_index, htext, List.cons_append], hc⟩
  | unary op e =>
    cases op with
    | not => exact ⟨'!', _, listing_not e, rfl⟩
    | neg => cases h.negationFree
  | binary op l r => exact ⟨'(', _, listing_binary op l r, rfl⟩

theorem start_eq {e e' : Expr Version} (h : e.Listable) (h' : e'.Listable) {u v : List Char}
    (heq : e.listing ++ u = e'.listing ++ v) :
    e.start = e'.start := by
  obtain ⟨c, rest, htext, hc⟩ := h.exists_start
  obtain ⟨c', rest', htext', hc'⟩ := h'.exists_start
  rw [htext, htext', List.cons_append, List.cons_append, List.cons.injEq] at heq
  rw [← hc, ← hc', heq.1]

/-- The characters that do not end an expression: those of words, and the bracket after the name of
an array. -/
def isExprChar (c : Char) : Bool :=
  isWordChar c || c = '['

theorem ends_word {u : List Char} (h : Ends isExprChar u) : Ends isWordChar u := by
  intro c hc
  have hnot := h c hc
  rw [isExprChar, Bool.or_eq_false_iff] at hnot
  exact hnot.1

namespace Listable

variable {a : Version} {e i l r : Expr Version} {op : BinOp}

theorem array (h : (Expr.index a i).Listable) : a.Plain :=
  h.names a List.mem_cons_self

theorem inner (h : (Expr.index a i).Listable) : i.Listable where
  names := fun v hv => h.names v (List.mem_cons_of_mem a hv)
  negationFree := h.negationFree

theorem op_eq {op : UnOp} (h : (Expr.unary op e).Listable) : op = .not := by
  cases op with
  | not => rfl
  | neg => cases h.negationFree

theorem operand (h : (Expr.unary .not e).Listable) : e.Listable where
  names := h.names
  negationFree := h.negationFree

theorem left (h : (Expr.binary op l r).Listable) : l.Listable where
  names := fun v hv => h.names v (List.mem_append_left _ hv)
  negationFree := (Bool.and_eq_true_iff.mp h.negationFree).1

theorem right (h : (Expr.binary op l r).Listable) : r.Listable where
  names := fun v hv => h.names v (List.mem_append_right _ hv)
  negationFree := (Bool.and_eq_true_iff.mp h.negationFree).2

end Listable

theorem legible_symbol :
    Legible (fun _ => True) (fun op : BinOp => op.symbol.toList) (Ends fun c => c ≠ ' ') := by
  have hchars : ∀ op : BinOp, ∀ c ∈ op.symbol.toList, decide (c ≠ ' ') = true := by
    intro op c hc
    refine decide_eq_true ?_
    rintro rfl
    exact absurd (op.symbol_chars ' ' hc).2.1 (by decide)
  have hinjective : ∀ op ∈ BinOp.priority, ∀ op' ∈ BinOp.priority,
      op.symbol.toList = op'.symbol.toList → op = op' := by decide
  intro op op' u v _ _ hu hv h
  obtain ⟨hsymbol, hrest⟩ := legible_word _ (hchars op) (hchars op') hu hv h
  exact ⟨hinjective op op.mem_priority op' op'.mem_priority hsymbol, hrest⟩

/-- An expression is read up to its end, whatever follows it. -/
theorem legible_listing : Legible Listable listing (Ends isExprChar) := by
  intro e e' u v he he' hu hv h
  -- the first character leaves only expressions of the same kind, and names alone or with an index
  induction e generalizing e' u v with
  | lit n =>
    have hstart := start_eq he he' h
    cases e' with
    | lit m =>
      obtain ⟨rfl, hrest⟩ := legible_int64 trivial trivial (ends_word hu) (ends_word hv) h
      exact ⟨rfl, hrest⟩
    | _ => cases hstart
  | var w =>
    have hstart := start_eq he he' h
    have hw := he.names w List.mem_cons_self
    cases e' with
    | var w' =>
      obtain ⟨rfl, hrest⟩ := Version.legible_text hw (he'.names w' List.mem_cons_self)
        (ends_word hu) (ends_word hv) h
      exact ⟨rfl, hrest⟩
    | index b j =>
      rw [listing_index, List.append_assoc, List.cons_append] at h
      obtain ⟨rfl, hrest⟩ :=
        Version.legible_text hw he'.array (ends_word hu) (ends_cons rfl _) h
      -- a bracket after the name would be part of the expression
      exact absurd (hu '[' (by rw [hrest]; rfl)) (by decide)
    | _ => cases hstart
  | index a i ih =>
    have hstart := start_eq he he' h
    simp only [listing_index, List.append_assoc, List.cons_append, List.nil_append] at h
    cases e' with
    | var w' =>
      obtain ⟨rfl, hrest⟩ := Version.legible_text he.array (he'.names w' List.mem_cons_self)
        (ends_cons rfl _) (ends_word hv) h
      exact absurd (hv '[' (by rw [← hrest]; rfl)) (by decide)
    | index b j =>
      simp only [listing_index, List.append_assoc, List.cons_append, List.nil_append] at h
      obtain ⟨rfl, hinner⟩ :=
        Version.legible_text he.array he'.array (ends_cons rfl _) (ends_cons rfl _) h
      obtain ⟨rfl, hrest⟩ := ih he.inner he'.inner (ends_cons rfl _) (ends_cons rfl _)
        (List.cons.inj hinner).2
      exact ⟨rfl, (List.cons.inj hrest).2⟩
    | _ => cases hstart
  | unary op e ih =>
    have hstart := start_eq he he' h
    cases e' with
    | unary op' e' =>
      obtain rfl : op = .not := he.op_eq
      obtain rfl : op' = .not := he'.op_eq
      rw [listing_not, listing_not] at h
      obtain ⟨rfl, hrest⟩ := ih he.operand he'.operand hu hv (List.cons.inj h).2
      exact ⟨rfl, hrest⟩
    | _ => cases hstart
  | binary op l r ihl ihr =>
    have hstart := start_eq he he' h
    cases e' with
    | binary op' l' r' =>
      simp only [listing_binary, List.append_assoc, List.cons_append, List.nil_append,
        List.cons.injEq, true_and] at h
      obtain ⟨rfl, hop⟩ := ihl he.left he'.left (ends_cons rfl _) (ends_cons rfl _) h
      obtain ⟨rfl, hright⟩ := legible_symbol trivial trivial (ends_cons rfl _) (ends_cons rfl _)
        (List.cons.inj hop).2
      obtain ⟨rfl, hrest⟩ := ihr he.right he'.right (ends_cons rfl _) (ends_cons rfl _)
        (List.cons.inj hright).2
      exact ⟨rfl, (List.cons.inj hrest).2⟩
    | _ => cases hstart

/-- No expression starts like a join. -/
theorem Listable.listing_ne {e : Expr Version} (h : e.Listable) (u v : List Char) :
    e.listing ++ u ≠ 'φ' :: v := by
  obtain ⟨c, rest, htext, hc⟩ := h.exists_start
  rw [htext, List.cons_append]
  intro heq
  rw [(List.cons.inj heq).1] at hc
  cases e <;> cases hc

end Expr

/-! ## Instructions -/

/-- An instruction over unmarked versions of identifiers, without negations. -/
structure Instr.Listable (instr : Instr) : Prop where
  versions : ∀ v, instr.defined? = some v ∨ v ∈ instr.uses → v.Plain
  negationFree : ∀ e, instr.expr? = some e → e.negationFree = true

namespace Instr

theorem Listable.expr {instr : Instr} (h : instr.Listable) {e : Expr Version}
    (he : instr.expr? = some e) : e.Listable where
  names := fun v hv => h.versions v (.inr (uses_of_expr? he hv))
  negationFree := h.negationFree e he

/-- The operands of a join, with commas between them. -/
def operandsText (operands : List Version) : List Char :=
  [',', ' '].intercalate (operands.map fun v => v.text.toList)

/-- The guard of a join in its listing. -/
def guardText : Option (Expr Version) → List Char
  | some guard => ' ' :: '[' :: (guard.listing ++ [']'])
  | none => []

/-- What stands after the equals sign. -/
def rightSide : Instr → List Char
  | define _ value => value.listing
  | join _ operands guard => 'φ' :: '(' :: (operandsText operands ++ ')' :: guardText guard)
  | check _ => []

theorem toList_text_of_defined {instr : Instr} {v : Version} (h : instr.defined? = some v) :
    instr.text.toList = v.text.toList ++ ' ' :: '=' :: ' ' :: instr.rightSide := by
  cases instr with
  | define target value =>
    cases h
    simp [text, rightSide, Expr.listing]
  | join result operands guard =>
    cases h
    cases guard with
    | none => simp [text, rightSide, guardText, operandsText, Function.comp_def]
    | some guard =>
      simp [text, rightSide, guardText, operandsText, Expr.listing, Function.comp_def]
  | check cond => cases h

theorem toList_text_check (cond : Expr Version) :
    (check cond).text.toList = "assert".toList ++ '(' :: (cond.listing ++ [')']) := by
  simp [text, Expr.listing]

theorem legible_operandsText :
    Legible (fun operands : List Version => ∀ v ∈ operands, v.Plain) operandsText
      (fun u => u.head? = some ')') := by
  refine Version.legible_text.intercalate (fun u => ends_cons rfl _) ?_ ?_ ?_
  · intro u hu c hc
    rw [hu] at hc
    cases hc
    rfl
  · intro u hu
    cases hu
  · intro v u hv hstop
    obtain ⟨c, rest, htext, hc⟩ := Expr.exists_start_text hv
    rw [htext] at hstop
    cases hstop
    cases hc

/-- A text that goes on with the next line, if it goes on. -/
def EndsLine (u : List Char) : Prop :=
  ∀ c ∈ u.head?, c = '\n'

theorem EndsLine.ends {u : List Char} (h : EndsLine u) : Ends Expr.isExprChar u := by
  intro c hc
  rw [h c hc]
  rfl

theorem legible_guardText :
    Legible (fun guard : Option (Expr Version) => ∀ e, guard = some e → e.Listable) guardText
      EndsLine := by
  have hblank : ∀ {u v : List Char}, EndsLine u → u ≠ ' ' :: v := by
    rintro u v hu rfl
    exact absurd (hu ' ' rfl) (by decide)
  intro guard guard' u v hguard hguard' hu hv h
  cases guard with
  | none =>
    cases guard' with
    | none => exact ⟨rfl, h⟩
    | some guard' => exact absurd h (hblank hu)
  | some guard =>
    cases guard' with
    | none => exact absurd h.symm (hblank hv)
    | some guard' =>
      simp only [guardText, List.cons_append, List.append_assoc, List.nil_append, List.cons.injEq,
        true_and] at h
      obtain ⟨rfl, hrest⟩ := Expr.legible_listing (hguard guard rfl) (hguard' guard' rfl)
        (ends_cons rfl _) (ends_cons rfl _) h
      exact ⟨rfl, (List.cons.inj hrest).2⟩

/-- An instruction that defines a version does not start like an assertion. -/
theorem text_ne_assert {v : Version} (hv : v.Plain) (u w : List Char) :
    v.text.toList ++ ' ' :: u ≠ "assert".toList ++ '(' :: w := by
  intro h
  have hassert : ∀ c ∈ "assert".toList, isWordChar c = true := List.all_eq_true.mp (by decide)
  obtain ⟨-, hrest⟩ := legible_word isWordChar hv.isWordChar_text hassert
    (ends_cons rfl _) (ends_cons rfl _) h
  cases hrest

theorem exists_check {instr : Instr} (h : instr.defined? = none) : ∃ cond, instr = .check cond := by
  cases instr with
  | define target value => cases h
  | join result operands guard => cases h
  | check cond => exact ⟨cond, rfl⟩

theorem text_ne_nil (instr : Instr) : instr.text.toList ≠ [] := by
  cases hdef : instr.defined? with
  | some v => simp [toList_text_of_defined hdef]
  | none =>
    obtain ⟨cond, rfl⟩ := exists_check hdef
    simp [toList_text_check]

/-- Of two instructions that define the same version, what they define it as is read up to the end
of the line. -/
theorem legible_rightSide (w : Version) :
    Legible (fun instr => instr.Listable ∧ instr.defined? = some w) rightSide EndsLine := by
  rintro instr instr' u v ⟨h, hdef⟩ ⟨h', hdef'⟩ hu hv heq
  cases instr with
  | check cond => cases hdef
  | define target value =>
    cases hdef
    cases instr' with
    | check cond' => cases hdef'
    | join result' operands' guard' => exact absurd heq ((h.expr rfl).listing_ne _ _)
    | define target' value' =>
      cases hdef'
      obtain ⟨rfl, hrest⟩ := Expr.legible_listing (h.expr rfl) (h'.expr rfl) hu.ends hv.ends heq
      exact ⟨rfl, hrest⟩
  | join result operands guard =>
    cases hdef
    cases instr' with
    | check cond' => cases hdef'
    | define target' value' => exact absurd heq.symm ((h'.expr rfl).listing_ne _ _)
    | join result' operands' guard' =>
      cases hdef'
      simp only [rightSide, List.cons_append, List.append_assoc, List.cons.injEq, true_and] at heq
      have hoperands : ∀ x ∈ operands, x.Plain := fun x hx =>
        h.versions x (.inr (List.mem_append_left _ hx))
      have hoperands' : ∀ x ∈ operands', x.Plain := fun x hx =>
        h'.versions x (.inr (List.mem_append_left _ hx))
      obtain ⟨rfl, hguard⟩ := legible_operandsText hoperands hoperands' rfl rfl heq
      obtain ⟨rfl, hrest⟩ := legible_guardText (fun e he => h.expr he) (fun e he => h'.expr he)
        hu hv (List.cons.inj hguard).2
      exact ⟨rfl, hrest⟩

/-- An instruction is read up to the end of its line. -/
theorem legible_text : Legible Listable (fun instr => instr.text.toList) EndsLine := by
  intro instr instr' u v h h' hu hv heq
  cases hdef : instr.defined? with
  | some w =>
    have hw := h.versions w (.inl hdef)
    cases hdef' : instr'.defined? with
    | some w' =>
      simp only [toList_text_of_defined hdef, toList_text_of_defined hdef', List.append_assoc,
        List.cons_append] at heq
      obtain ⟨rfl, hside⟩ := Version.legible_text hw (h'.versions w' (.inl hdef'))
        (ends_cons rfl _) (ends_cons rfl _) heq
      simp only [List.cons.injEq, true_and] at hside
      exact legible_rightSide w ⟨h, hdef⟩ ⟨h', hdef'⟩ hu hv hside
    | none =>
      obtain ⟨cond', rfl⟩ := exists_check hdef'
      simp only [toList_text_of_defined hdef, toList_text_check, List.append_assoc,
        List.cons_append] at heq
      exact absurd heq (text_ne_assert hw _ _)
  | none =>
    obtain ⟨cond, rfl⟩ := exists_check hdef
    cases hdef' : instr'.defined? with
    | some w' =>
      simp only [toList_text_of_defined hdef', toList_text_check, List.append_assoc,
        List.cons_append] at heq
      exact absurd heq.symm (text_ne_assert (h'.versions w' (.inl hdef')) _ _)
    | none =>
      obtain ⟨cond', rfl⟩ := exists_check hdef'
      simp only [toList_text_check, List.append_assoc, List.cons_append, List.nil_append,
        List.append_cancel_left_eq, List.cons.injEq, true_and] at heq
      obtain ⟨rfl, hrest⟩ := Expr.legible_listing (h.expr rfl) (h'.expr rfl)
        (ends_cons rfl _) (ends_cons rfl _) heq
      exact ⟨rfl, (List.cons.inj hrest).2⟩

end Instr

/-! ## Listings -/

/-- A list of instructions over unmarked versions of identifiers, without negations. -/
def Code.Listable (code : Code) : Prop :=
  ∀ instr ∈ code, instr.Listable

namespace Code

/-- A listing is that of one list of instructions. -/
theorem Listable.eq_of_text_eq {first second : Code} (hfirst : Listable first)
    (hsecond : Listable second) (h : text first = text second) : first = second := by
  have hlines : Legible Listable
      (fun code => ['\n'].intercalate (code.map fun instr => instr.text.toList)) (· = []) := by
    refine Instr.legible_text.intercalate ?_ ?_ ?_ ?_
    · rintro u c ⟨⟩
      rfl
    · rintro u rfl c ⟨⟩
    · intro u hu
      cases hu
    · intro instr u _ hempty
      exact instr.text_ne_nil (List.append_eq_nil_iff.mp hempty).1
  have hlist := congrArg String.toList h
  simp only [text, String.toList_intercalate, List.map_map] at hlist
  exact (hlines hfirst hsecond rfl rfl (congrArg (· ++ []) hlist)).1

end Code

/-! ## Programs -/

namespace Expr

theorem Shrinks.negationFree {ν : Type} {e e' : Expr ν} (h : Shrinks e e')
    (he : e.negationFree = true) : e'.negationFree = true := by
  induction h with
  | refl e => exact he
  | lit e n => rfl
  | index _ ih => exact ih he
  | unary _ ih =>
    simp only [Expr.negationFree, Bool.and_eq_true] at he ⊢
    exact ⟨he.1, ih he.2⟩
  | binary _ _ ihl ihr =>
    simp only [Expr.negationFree, Bool.and_eq_true] at he ⊢
    exact ⟨ihl he.1, ihr he.2⟩

theorem negationFree_map {ν μ : Type} (f : ν → μ) (e : Expr ν) :
    (e.map f).negationFree = e.negationFree := by
  induction e with
  | lit n => rfl
  | var x => rfl
  | index a i ih => exact ih
  | unary op e ih => simp only [map, negationFree, ih]
  | binary op l r ihl ihr => simp only [map, negationFree, ihl, ihr]

theorem negationFree_of_proper {e : Expr String} (h : e.proper = true) :
    e.negationFree = true := by
  induction e with
  | lit n => rfl
  | var x => rfl
  | index a i ih => exact ih (Bool.and_eq_true_iff.mp h).2
  | unary op e => cases h
  | binary op l r ihl ihr =>
    rw [proper, Bool.and_eq_true] at h
    rw [negationFree, ihl h.1, ihr h.2]
    rfl

theorem isIdentifier_of_proper {e : Expr String} (h : e.proper = true) :
    ∀ x ∈ e.names, isIdentifier x.toList = true := by
  induction e with
  | lit n => simp [names]
  | var x => exact List.forall_mem_singleton.mpr h
  | index a i ih =>
    rw [proper, Bool.and_eq_true] at h
    exact List.forall_mem_cons.mpr ⟨h.1, ih h.2⟩
  | unary op e => cases h
  | binary op l r ihl ihr =>
    rw [proper, Bool.and_eq_true] at h
    exact List.forall_mem_append.mpr ⟨ihl h.1, ihr h.2⟩

theorem isIdentifier_of_resolve (s : Scope) {e : Expr String} (h : e.proper = true) :
    ∀ v ∈ (s.resolve e).names, isIdentifier v.base.toList = true := by
  rw [Scope.resolve, names_map]
  exact List.forall_mem_map.mpr (isIdentifier_of_proper h)

end Expr

namespace Code

/-- Definitions may be dropped and expressions shrunk. -/
theorem Trims.listable {code left : Code} (h : Trims code left) (hcode : Listable code) :
    Listable left := by
  intro instr' hmem
  obtain ⟨instr, hinstr, hshrinks⟩ := h.exists_of_mem hmem
  have hlistable := hcode instr hinstr
  constructor
  · rintro v (hv | hv)
    · exact hlistable.versions v (.inl (hshrinks.defined?_eq ▸ hv))
    · exact hlistable.versions v (.inr (hshrinks.uses hv))
  · intro e' he'
    obtain ⟨e, he, hexpr⟩ := hshrinks.exists_expr he'
    exact hexpr.negationFree (hlistable.negationFree e he)

end Code

theorem Expr.From.listed {es : List (Expr String)} {e : Expr Version} (h : e.From es)
    (hes : ∀ e ∈ es, e.proper = true) :
    (∀ v ∈ e.names, isIdentifier v.base.toList = true) ∧ e.negationFree = true := by
  have hresolve : ∀ (s : Scope) {e : Expr String}, e ∈ es → (s.resolve e).negationFree = true := by
    intro s e he
    rw [Scope.resolve, negationFree_map]
    exact negationFree_of_proper (hes e he)
  cases h with
  | resolve s he => exact ⟨isIdentifier_of_resolve s (hes _ he), hresolve s he⟩
  | negated s he => exact ⟨isIdentifier_of_resolve s (hes _ he), hresolve s he⟩

/-- A version is defined or joined by an instruction, or its expression reads it. -/
theorem Instr.heads_or_expr {instr : Instr} {v : Version}
    (h : instr.defined? = some v ∨ v ∈ instr.uses) :
    v ∈ instr.heads ∨ ∃ e, instr.expr? = some e ∧ v ∈ e.names := by
  cases instr with
  | define target value =>
    rcases h with h | h
    · cases h
      exact .inl List.mem_cons_self
    · exact .inr ⟨value, rfl, h⟩
  | check cond =>
    rcases h with h | h
    · cases h
    · exact .inr ⟨cond, rfl, h⟩
  | join result operands guard =>
    rcases h with h | h
    · cases h
      exact .inl List.mem_cons_self
    · rcases List.mem_append.mp h with h | h
      · exact .inl (List.mem_cons_of_mem result h)
      · cases guard with
        | none => cases h
        | some guard => exact .inr ⟨guard, rfl, h⟩

/-- The code of a program with proper names and expressions. -/
theorem Program.listable_of_numbers {p : Program} {code : Code} {s : Scope}
    (hnum : Block.Numbers p.statements {} code s) (hproper : Block.Proper p.statements) :
    Code.Listable code := by
  have hunmarked : Code.Unmarked code := (hnum.step Scope.valid_empty).within.unmarked
  intro instr hmem
  have hover := hnum.over Scope.valid_empty instr hmem
  have hexpr : ∀ {e}, instr.expr? = some e →
      (∀ v ∈ e.names, isIdentifier v.base.toList = true) ∧ e.negationFree = true := fun he =>
    (from_of_mem_exprs hnum (Code.mem_exprs.mpr ⟨instr, hmem, he⟩)).listed hproper.exprs
  refine ⟨?_, fun e he => (hexpr he).2⟩
  intro v hv
  refine ⟨hunmarked v (List.mem_append.mpr ?_), ?_⟩
  · rcases hv with hv | hv
    · exact .inl (Code.mem_defined.mpr ⟨instr, hmem, hv⟩)
    · exact .inr (Code.mem_uses.mpr ⟨instr, hmem, hv⟩)
  · rcases Instr.heads_or_expr hv with hv | ⟨e, he, hv⟩
    · exact hproper.names _ (hover.heads v hv)
    · exact (hexpr he).1 v hv

/-- If two lists of instructions have the same listing, they are the same, provided that their
versions are unmarked versions of identifiers and no expression has a negation. That is the case for
the code of every program that has been read, and for what any optimization leaves of it. -/
theorem Code.text_determines :
    (∀ first second : Code, Listable first → Listable second →
      text first = text second → first = second) ∧
    ∀ (source : String) (p : Program), Program.parse source = .ok p →
      ∃ f, p.toSsa = .ok f ∧ Listable f.code ∧
        ∀ passes limit, Listable (optimizeWith passes limit f.code).code := by
  refine ⟨fun _ _ hfirst hsecond => hfirst.eq_of_text_eq hsecond, ?_⟩
  intro source p hparse
  obtain ⟨code, s, hnum, hssa⟩ := p.exists_toSsa
  have hlistable := Program.listable_of_numbers hnum (Program.proper_of_parse hparse)
  refine ⟨_, hssa, hlistable, ?_⟩
  intro passes limit
  exact (frames_optimizeWith passes limit code).trims.listable hlistable

-- with negations it is not so
example : Code.text [.check (.unary .neg (.lit 1))] = Code.text [.check (.lit (-1))] := by
  decide +kernel

end WhileSmt
