import WhileSmt.Proofs.Program.Conservation
import WhileSmt.Proofs.Smt.Provenance

/-!
The names and the expressions of programs that have been read. Every name is an identifier, and no
operation has only one operand, since reading knows no sign but that of a literal.

Main statement: `Program.proper_of_parse`.
-/

namespace WhileSmt

theorem Expr.proper_of_parse {text : List Char} {e : Expr String} (h : Expr.parse text = .ok e) :
    e.proper = true := by
  have hspells := Phrase.of_spells text
  rw [parse_eq] at h
  cases hphrase : Phrase.of text with
  | empty =>
    rw [hphrase] at h
    cases h
  | group inside =>
    rw [hphrase] at h
    have hlt : inside.length < text.length := Phrase.of_parts (by rw [hphrase]; simp [Phrase.parts])
    exact proper_of_parse h
  | read a inside =>
    rw [hphrase] at h hspells
    obtain ⟨i, hi, h⟩ := bind_eq_ok h
    cases h
    have hlt : inside.length < text.length := Phrase.of_parts (by rw [hphrase]; simp [Phrase.parts])
    rw [proper, String.toList_ofList, hspells.1, proper_of_parse hi]
    rfl
  | number n =>
    rw [hphrase] at h
    cases h
    rfl
  | operation op l r =>
    rw [hphrase] at h
    obtain ⟨left, hl, h⟩ := bind_eq_ok h
    obtain ⟨right, hr, h⟩ := bind_eq_ok h
    cases h
    have hltl : l.length < text.length := Phrase.of_parts (by rw [hphrase]; simp [Phrase.parts])
    have hltr : r.length < text.length := Phrase.of_parts (by rw [hphrase]; simp [Phrase.parts])
    rw [proper, proper_of_parse hl, proper_of_parse hr]
    rfl
  | name x =>
    rw [hphrase] at h hspells
    cases h
    rw [proper, String.toList_ofList]
    exact hspells.2
  | unknown t =>
    rw [hphrase] at h
    cases h
termination_by text.length

/-- An assignment to an identifier of an expression with proper names. -/
structure Assignment.Proper (a : Assignment) : Prop where
  target : isIdentifier a.target.toList = true
  value : a.value.proper = true

namespace Segment

variable {s : Segment} {text : List Char}

theorem proper_of_expression {e : Expr String} (h : s.expression text = .ok e) :
    e.proper = true := by
  unfold expression at h
  split at h
  · next hparse =>
    cases h
    exact Expr.proper_of_parse hparse
  · cases h

theorem proper_of_assignment {a : Assignment} (h : s.assignment text = .ok a) : a.Proper := by
  obtain ⟨before, after, -, hname, htarget, hvalue⟩ := assignment_eq h
  refine ⟨?_, proper_of_expression hvalue⟩
  rw [htarget, String.toList_ofList]
  exact hname

end Segment

/-- A block assigns to identifiers only, and its expressions are proper. -/
structure Block.Proper (b : Block) : Prop where
  names : ∀ x ∈ Block.assigned b, isIdentifier x.toList = true
  exprs : ∀ e ∈ Block.exprs b, e.proper = true

namespace Block

variable {stmt : Stmt} {b t e body rest : Block} {cond : Expr String} {span : Span}

theorem proper_nil : Proper [] where
  names := fun _ h => nomatch h
  exprs := fun _ h => nomatch h

theorem proper_cons_iff : Proper (stmt :: rest) ↔ Proper [stmt] ∧ Proper rest := by
  constructor
  · rintro ⟨hnames, hexprs⟩
    simp only [assigned, exprs, List.forall_mem_append] at hnames hexprs
    exact ⟨⟨by simpa [assigned] using hnames.1, by simpa [exprs] using hexprs.1⟩, hnames.2, hexprs.2⟩
  · rintro ⟨⟨hnames, hexprs⟩, hrest⟩
    simp only [assigned, exprs, List.append_nil] at hnames hexprs
    exact ⟨List.forall_mem_append.mpr ⟨hnames, hrest.names⟩,
      List.forall_mem_append.mpr ⟨hexprs, hrest.exprs⟩⟩

theorem proper_assign {a : Assignment} (h : a.Proper) : Proper [.assign span a] where
  names := by simpa [assigned, Stmt.assigned] using h.target
  exprs := by simpa [exprs, Stmt.exprs] using h.value

theorem proper_check (h : cond.proper = true) : Proper [.check span cond] where
  names := fun _ h => nomatch h
  exprs := by simpa [exprs, Stmt.exprs] using h

theorem proper_ifElse (hcond : cond.proper = true) (ht : Proper t) (he : Proper e) :
    Proper [.ifElse span cond t e] where
  names := by
    simp only [assigned, Stmt.assigned, List.append_nil, List.forall_mem_append]
    exact ⟨ht.names, he.names⟩
  exprs := by
    simp only [exprs, Stmt.exprs, List.append_nil, List.forall_mem_cons, List.forall_mem_append]
    exact ⟨hcond, ht.exprs, he.exprs⟩

theorem proper_whileDo (hcond : cond.proper = true) (hbody : Proper body) :
    Proper [.whileDo span cond body] where
  names := by
    simp only [assigned, Stmt.assigned, List.append_nil]
    exact hbody.names
  exprs := by
    simp only [exprs, Stmt.exprs, List.append_nil, List.forall_mem_cons]
    exact ⟨hcond, hbody.exprs⟩

theorem proper_forDo {init update : Assignment} (hinit : init.Proper) (hcond : cond.proper = true)
    (hupdate : update.Proper) (hbody : Proper body) :
    Proper [.forDo span init cond update body] where
  names := by
    simp only [assigned, Stmt.assigned, List.append_nil, List.forall_mem_cons]
    exact ⟨hinit.target, hupdate.target, hbody.names⟩
  exprs := by
    simp only [exprs, Stmt.exprs, List.append_nil, List.forall_mem_cons]
    exact ⟨hinit.value, hcond, hupdate.value, hbody.exprs⟩

theorem Proper.split (h : Proper b) (n : Nat) : Proper (b.take n) ∧ Proper (b.drop n) := by
  induction n generalizing b with
  | zero => exact ⟨proper_nil, h⟩
  | succ n ih =>
    cases b with
    | nil => exact ⟨proper_nil, proper_nil⟩
    | cons stmt rest =>
      obtain ⟨hstmt, hrest⟩ := proper_cons_iff.mp h
      exact ⟨proper_cons_iff.mpr ⟨hstmt, (ih hrest).1⟩, (ih hrest).2⟩

theorem proper_of_simple {s : Segment} (h : s.opening = .ok (.simple stmt)) : Proper [stmt] := by
  cases Segment.opens_of_opening h with
  | check _ hassertion =>
    obtain ⟨_, _, _, _, _, cond, -, -, -, -, hcond, rfl⟩ := Segment.assertion_eq hassertion
    exact proper_check (Segment.proper_of_expression hcond)
  | assign hassignment => exact proper_assign (Segment.proper_of_assignment hassignment)

theorem proper_of_branch {s : Segment} {inner : List Char}
    (h : s.opening = .ok (.block (.branch cond) inner)) : cond.proper = true := by
  cases Segment.opens_of_opening h with
  | branch _ _ hcond => exact Segment.proper_of_expression hcond

/-- What is read from a queue is proper. -/
theorem Reading.proper {queue : List Segment} (h : Reading queue b) : Proper b := by
  induction h with
  | nil => exact proper_nil
  | simple hopen _ ih => exact proper_cons_iff.mpr ⟨proper_of_simple hopen, ih⟩
  | loop hopen _ _ _ ihbody ihrest =>
    refine proper_cons_iff.mpr ⟨?_, ihrest⟩
    cases Segment.opens_of_opening hopen with
    | loop _ _ hcond => exact proper_whileDo (Segment.proper_of_expression hcond) ihbody
  | count hopen _ _ _ ihbody ihrest =>
    refine proper_cons_iff.mpr ⟨?_, ihrest⟩
    cases Segment.opens_of_opening hopen with
    | count _ _ _ hinit hcond hupdate =>
      exact proper_forDo (Segment.proper_of_assignment hinit) (Segment.proper_of_expression hcond)
        (Segment.proper_of_assignment hupdate) ihbody
  | branch hopen _ _ _ _ ihbody ihrest =>
    exact proper_cons_iff.mpr ⟨proper_ifElse (proper_of_branch hopen) ihbody proper_nil, ihrest⟩
  | chain hopen _ _ _ _ ihbody ihchain =>
    -- the first statement of the chain is the second arm
    obtain ⟨harm, hmore⟩ := ihchain.split 1
    exact proper_cons_iff.mpr ⟨proper_ifElse (proper_of_branch hopen) ihbody harm, hmore⟩
  | alternative hopen _ _ _ _ _ ihbody ihother ihrest =>
    exact proper_cons_iff.mpr ⟨proper_ifElse (proper_of_branch hopen) ihbody ihother, ihrest⟩

end Block

theorem Program.proper_of_parse {source : String} {p : Program}
    (h : Program.parse source = .ok p) : Block.Proper p.statements := by
  obtain ⟨statements, hblock, h⟩ := bind_eq_ok h
  cases h
  exact (Block.parse_eq_ok_iff.mp hblock).proper

end WhileSmt
