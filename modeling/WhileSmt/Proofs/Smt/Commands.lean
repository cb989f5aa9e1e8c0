import WhileSmt.Cli.Verifier
import WhileSmt.Proofs.Cli.Calendar
import WhileSmt.Proofs.Smt.Declarations
import WhileSmt.Proofs.Smt.Logic
import WhileSmt.Proofs.Ssa.Listing

/-!
The text of a script as a solver reads it. A reader drops the comments, finds S-expressions in what
is left, and takes every one of them for a command.

Main statements: the text of a script is read back as its logic, its declarations with their sorts,
its assertions and the two questions at its end (`Script.read?_text`), also from the file that it is
saved in (`Cli.read?_savedScript`), and so it is for all scripts of programs that have been read
(`Program.read?_scripts`).
-/

namespace WhileSmt

/-! ## Comments -/

namespace Sexp

/-- Drops comments, which reach from a semicolon to the end of a line. The flag tells whether a
comment has begun. -/
def skipComments (inside : Bool) : List Char → List Char
  | [] => []
  | c :: rest =>
    if c = '\n' then c :: skipComments false rest
    else if inside || c = ';' then skipComments true rest
    else c :: skipComments false rest

theorem skipComments_append {u : List Char} (h : ';' ∉ u) (v : List Char) :
    skipComments false (u ++ v) = u ++ skipComments false v := by
  induction u with
  | nil => rfl
  | cons c u ih =>
    rw [List.mem_cons, not_or] at h
    have hc : c ≠ ';' := Ne.symm h.1
    rw [List.cons_append, skipComments, ih h.2]
    split
    · rfl
    · rw [if_neg (by simp [hc])]
      rfl

theorem skipComments_inside {u : List Char} (h : '\n' ∉ u) (v : List Char) :
    skipComments true (u ++ '\n' :: v) = '\n' :: skipComments false v := by
  induction u with
  | nil => rfl
  | cons c u ih =>
    rw [List.mem_cons, not_or] at h
    rw [List.cons_append, skipComments, if_neg (Ne.symm h.1), if_pos (by simp), ih h.2]

/-- A comment leaves the end of its line. -/
theorem skipComments_comment {u : List Char} (h : '\n' ∉ u) (v : List Char) :
    skipComments false (';' :: (u ++ '\n' :: v)) = '\n' :: skipComments false v := by
  rw [skipComments, if_neg (by decide), if_pos (by simp), skipComments_inside h]

/-! ## Characters -/

mutual

/-- The atoms of an S-expression. -/
def atoms : Sexp → List String
  | .atom text => [text]
  | .list items => allAtoms items

/-- The atoms of some S-expressions. -/
def allAtoms : List Sexp → List String
  | [] => []
  | item :: rest => item.atoms ++ allAtoms rest

end

mutual

/-- Between the atoms there are parentheses and blanks only. -/
theorem not_mem_text {c : Char} (hc : c ∉ ['(', ')', ' ']) : ∀ s : Sexp,
    (∀ a ∈ s.atoms, c ∉ a.toList) → c ∉ s.text.toList
  | .atom text, h => h text List.mem_cons_self
  | .list items, h => by
    have hitems := not_mem_itemsText hc items h
    rw [toList_text_list]
    simp only [List.mem_cons, List.not_mem_nil, or_false, not_or] at hc
    simp [hc, hitems]

theorem not_mem_itemsText {c : Char} (hc : c ∉ ['(', ')', ' ']) : ∀ items : List Sexp,
    (∀ a ∈ allAtoms items, c ∉ a.toList) → c ∉ (itemsText items).toList
  | [], _ => List.not_mem_nil
  | [item], h => by
    rw [allAtoms, List.forall_mem_append] at h
    rw [itemsText]
    exact not_mem_text hc item h.1
  | item :: next :: more, h => by
    rw [allAtoms, List.forall_mem_append] at h
    have hitem := not_mem_text hc item h.1
    have hmore := not_mem_itemsText hc (next :: more) h.2
    rw [toList_itemsText_cons]
    simp only [List.mem_cons, List.not_mem_nil, or_false, not_or] at hc
    simp [hc, hitem, hmore]

end

end Sexp

/-! ## Names -/

/-- A name that a reader takes for one symbol: an atom that starts no comment and is no numeral. -/
structure IsSymbol (name : String) : Prop where
  atom : Sexp.IsAtom name.toList
  bare : ';' ∉ name.toList
  word : Text.readNatural? name.toList = none

/-- The operators of terms and their numerals start no comment. -/
theorem Term.bare_toSexp {s : Srt} (t : Term s) (h : ∀ p ∈ t.symbols, ';' ∉ p.1.toList) :
    ∀ a ∈ t.toSexp.atoms, ';' ∉ a.toList := by
  induction t with
  | numeral n =>
    refine List.forall_mem_singleton.mpr ?_
    intro hmem
    rw [Text.natural, String.toList_ofList] at hmem
    exact absurd (Text.isDigit_of_mem_digits hmem) (by decide)
  | const name => exact List.forall_mem_singleton.mpr (h (name, .int) List.mem_cons_self)
  | array name => exact List.forall_mem_singleton.mpr (h (name, .array) List.mem_cons_self)
  | select a i iha ihi =>
    simp only [symbols, List.forall_mem_append] at h
    simp only [toSexp, Sexp.atoms, Sexp.allAtoms, List.forall_mem_append, List.forall_mem_singleton]
    exact ⟨by decide, iha h.1, ihi h.2, List.forall_mem_nil _⟩
  | neg t ih =>
    simp only [toSexp, Sexp.atoms, Sexp.allAtoms, List.forall_mem_append, List.forall_mem_singleton]
    exact ⟨by decide, ih h, List.forall_mem_nil _⟩
  | arith op l r ihl ihr =>
    simp only [symbols, List.forall_mem_append] at h
    simp only [toSexp, Sexp.atoms, Sexp.allAtoms, List.forall_mem_append, List.forall_mem_singleton]
    exact ⟨by cases op <;> decide, ihl h.1, ihr h.2, List.forall_mem_nil _⟩
  | ite c t e ihc iht ihe =>
    simp only [symbols, List.forall_mem_append] at h
    simp only [toSexp, Sexp.atoms, Sexp.allAtoms, List.forall_mem_append, List.forall_mem_singleton]
    exact ⟨by decide, ihc h.1.1, iht h.1.2, ihe h.2, List.forall_mem_nil _⟩
  | rel op l r ihl ihr =>
    simp only [symbols, List.forall_mem_append] at h
    simp only [toSexp, Sexp.atoms, Sexp.allAtoms, List.forall_mem_append, List.forall_mem_singleton]
    exact ⟨by cases op <;> decide, ihl h.1, ihr h.2, List.forall_mem_nil _⟩
  | not t ih =>
    simp only [toSexp, Sexp.atoms, Sexp.allAtoms, List.forall_mem_append, List.forall_mem_singleton]
    exact ⟨by decide, ih h, List.forall_mem_nil _⟩
  | falsity => exact List.forall_mem_singleton.mpr (by decide)

/-! ## Commands -/

/-- The sort that an S-expression names. -/
def Srt.ofSexp? : Sexp → Option Srt
  | .atom "Int" => some int
  | .atom "Bool" => some bool
  | .list [.atom "Array", .atom "Int", .atom "Int"] => some array
  | _ => none

theorem Srt.ofSexp?_toSexp (s : Srt) : ofSexp? s.toSexp = some s := by
  cases s <;> rfl

/-- What a solver can be told and asked. -/
inductive Command where
  | setLogic (logic : Logic)
  | declare (name : String) (sort : Srt)
  | assert (t : Term .bool)
  | checkSat
  | getModel

namespace Command

/-- A command as it is written. -/
def toSexp : Command → Sexp
  | setLogic logic => .list [.atom "set-logic", .atom logic.name]
  | declare name sort => .list [.atom "declare-const", .atom name, sort.toSexp]
  | assert t => t.assertion
  | checkSat => .list [.atom "check-sat"]
  | getModel => .list [.atom "get-model"]

/-- The command that an S-expression is. -/
def ofSexp? : Sexp → Option Command
  | .list [.atom "set-logic", .atom name] => (Logic.ofName? name).map setLogic
  | .list [.atom "declare-const", .atom name, sort] => (Srt.ofSexp? sort).map (declare name)
  | .list [.atom "assert", body] => (Term.ofSexp? .bool body).map assert
  | .list [.atom "check-sat"] => some checkSat
  | .list [.atom "get-model"] => some getModel
  | _ => none

/-- Reads the commands in a text. -/
def read? (text : List Char) : Option (List Command) :=
  match Sexp.parse (Sexp.skipComments false text) with
  | .ok items => items.mapM ofSexp?
  | .error _ => none

/-- The names that a command speaks of are symbols. -/
def Symbolic : Command → Prop
  | declare name _ => IsSymbol name
  | assert t => ∀ p ∈ t.symbols, IsSymbol p.1
  | _ => True

namespace Symbolic

variable {c : Command}

theorem ofSexp?_toSexp (h : c.Symbolic) : ofSexp? c.toSexp = some c := by
  cases c with
  | setLogic logic => exact congrArg (Option.map setLogic) logic.ofName?_name
  | declare name sort => exact congrArg (Option.map (declare name)) sort.ofSexp?_toSexp
  | assert t =>
    have hterm := t.ofSexp?_toSexp fun p hp => (h p hp).word
    exact congrArg (Option.map assert) hterm
  | checkSat => rfl
  | getModel => rfl

theorem readable (h : c.Symbolic) : c.toSexp.Readable := by
  cases c with
  | setLogic logic => exact ⟨.plain (by decide), .plain (by cases logic <;> decide), trivial⟩
  | declare name sort =>
    refine ⟨.plain (by decide), h.atom, ?_, trivial⟩
    cases sort with
    | int => exact .plain (by decide)
    | bool => exact .plain (by decide)
    | array => exact ⟨.plain (by decide), .plain (by decide), .plain (by decide), trivial⟩
  | assert t =>
    exact ⟨.plain (by decide), t.readable_toSexp fun p hp => (h p hp).atom, trivial⟩
  | checkSat => exact ⟨.plain (by decide), trivial⟩
  | getModel => exact ⟨.plain (by decide), trivial⟩

theorem bare (h : c.Symbolic) : ';' ∉ c.toSexp.text.toList := by
  refine Sexp.not_mem_text (by decide) _ ?_
  cases c with
  | setLogic logic => cases logic <;> decide
  | declare name sort =>
    simp only [toSexp, Sexp.atoms, Sexp.allAtoms, List.forall_mem_append, List.forall_mem_singleton]
    exact ⟨by decide, h.bare, by cases sort <;> decide, List.forall_mem_nil _⟩
  | assert t =>
    have hterm := t.bare_toSexp fun p hp => (h p hp).bare
    simp only [toSexp, Term.assertion, Sexp.atoms, Sexp.allAtoms, List.forall_mem_append,
      List.forall_mem_singleton]
    exact ⟨by decide, hterm, List.forall_mem_nil _⟩
  | checkSat => decide
  | getModel => decide

end Symbolic

/-! ## Lines -/

/-- What may follow a command on its line: nothing, or a comment. -/
def IsRemark (text : List Char) : Prop :=
  text = [] ∨ ∃ words, text = ' ' :: ';' :: words ∧ '\n' ∉ words

/-- A text without its comments consists of commands. -/
def Spelled (cs : List Command) (text : List Char) : Prop :=
  Sexp.Spells (Sexp.allTokens (cs.map toSexp)) (Sexp.skipComments false text)

/-- A line with a command before other commands. -/
theorem Spelled.line {c : Command} {cs : List Command} {text remark : List Char} (hc : c.Symbolic)
    (hremark : IsRemark remark) (h : Spelled cs text) :
    Spelled (c :: cs) (c.toSexp.text.toList ++ (remark ++ '\n' :: text)) := by
  have hnewline : Sexp.Spells (Sexp.allTokens (cs.map toSexp))
      ('\n' :: Sexp.skipComments false text) := .blank (by decide) h
  rw [Spelled, List.map_cons, Sexp.allTokens, Sexp.skipComments_append hc.bare]
  rcases hremark with rfl | ⟨words, rfl, hwords⟩
  · exact Sexp.spells_text _ hc.readable (Sexp.endsAtom_cons (by decide)) hnewline
  · have hskip : Sexp.skipComments false (' ' :: ';' :: words ++ '\n' :: text) =
        ' ' :: '\n' :: Sexp.skipComments false text :=
      congrArg (List.cons ' ') (Sexp.skipComments_comment hwords text)
    rw [hskip]
    exact Sexp.spells_text _ hc.readable (Sexp.endsAtom_cons (by decide))
      (.blank (by decide) hnewline)

/-- Lines with commands, all with the same remark, before other commands. -/
theorem Spelled.lines {first cs : List Command} {text remark : List Char}
    (hfirst : ∀ c ∈ first, c.Symbolic) (hremark : IsRemark remark) (h : Spelled cs text) :
    Spelled (first ++ cs)
      (first.flatMap (fun c => c.toSexp.text.toList ++ (remark ++ ['\n'])) ++ text) := by
  induction first with
  | nil => exact h
  | cons c first ih =>
    obtain ⟨hc, hfirst⟩ := List.forall_mem_cons.mp hfirst
    have hline := Spelled.line hc hremark (ih hfirst)
    simpa using hline

theorem mapM_ofSexp?_toSexp {cs : List Command} (h : ∀ c ∈ cs, c.Symbolic) :
    (cs.map toSexp).mapM ofSexp? = some cs := by
  induction cs with
  | nil => rfl
  | cons c cs ih =>
    obtain ⟨hc, hcs⟩ := List.forall_mem_cons.mp h
    simp [hc.ofSexp?_toSexp, ih hcs]

/-- Commands are read back from a text that consists of them. -/
theorem Spelled.read? {cs : List Command} {text : List Char} (hcs : ∀ c ∈ cs, c.Symbolic)
    (h : Spelled cs text) : read? text = some cs := by
  rw [Command.read?, Sexp.parse_of_spells h]
  exact mapM_ofSexp?_toSexp hcs

end Command

/-! ## Scripts -/

/-- The constants of a list of instructions are the texts of the versions that it mentions. -/
theorem Code.isSymbol_of_mentions {code : Code} (h : ∀ v ∈ mentions code, IsSymbol v.text) :
    ∀ p ∈ symbols code, IsSymbol p.1 := by
  intro p hp
  have hmem : p.1 ∈ (mentions code).map Version.text :=
    map_fst_symbols code ▸ List.mem_map_of_mem hp
  obtain ⟨v, hv, htext⟩ := List.mem_map.mp hmem
  exact htext ▸ h v hv

namespace Script

/-- The commands before the property in question: the logic, the declarations, and the assertions of
what is given. -/
def given (s : Script) : List Command :=
  .setLogic s.logic :: (s.declarations.map fun p => Command.declare p.1 p.2) ++
    s.constraints.map Command.assert

/-- The commands of a script: what is given, the property in question, and whether and how all of it
can be satisfied. -/
def commands (s : Script) : List Command :=
  s.given ++ (s.goals.map Command.assert ++ [.checkSat, .getModel])

/-- The remark on the property in question. -/
def remark (s : Script) : String :=
  if s.mismatch.isSome then " ; output count mismatch" else ""

theorem isRemark_remark (s : Script) : Command.IsRemark s.remark.toList := by
  unfold remark
  split
  · exact .inr ⟨" output count mismatch".toList, by decide, by decide⟩
  · exact .inl rfl

/-- The lines of a script are its commands. -/
theorem lines_eq (s : Script) :
    s.lines = s.given.map (fun c => c.toSexp.text) ++
      ((s.goals.map Command.assert).map (fun c => c.toSexp.text ++ s.remark) ++
        [Command.checkSat, .getModel].map fun c => c.toSexp.text) := by
  have hcheck : Command.checkSat.toSexp.text = "(check-sat)" := by decide +kernel
  have hmodel : Command.getModel.toSexp.text = "(get-model)" := by decide +kernel
  simp only [lines, given, declarationLines, constraintLines, goalLines, List.map_append,
    List.map_cons, List.map_map, List.map_nil, hcheck, hmodel, List.append_assoc]
  rfl

/-- The text of a script consists of its commands, one on each line. -/
theorem toList_text (s : Script) :
    s.text.toList =
      s.given.flatMap (fun c => c.toSexp.text.toList ++ ([] ++ ['\n'])) ++
        ((s.goals.map Command.assert).flatMap
            (fun c => c.toSexp.text.toList ++ (s.remark.toList ++ ['\n'])) ++
          ([Command.checkSat, .getModel].flatMap
            (fun c => c.toSexp.text.toList ++ ([] ++ ['\n'])) ++ [])) := by
  have hjoin : ∀ ls : List String, (String.join (ls.map (· ++ "\n"))).toList =
      ls.flatMap fun l => l.toList ++ ['\n'] := by
    intro ls
    induction ls with
    | nil => rfl
    | cons l ls ih => simp_all
  rw [text, hjoin, lines_eq]
  simp only [List.flatMap_append, List.flatMap_map, String.toList_append, List.append_assoc,
    List.nil_append, List.append_nil]

/-- All names in the commands of a script are symbols if those in its declarations and terms are. -/
theorem symbolic_commands {s : Script} (hdeclared : ∀ p ∈ s.declarations, IsSymbol p.1)
    (hterms : ∀ t ∈ s.constraints ++ s.goals, ∀ p ∈ t.symbols, IsSymbol p.1) :
    ∀ c ∈ s.commands, c.Symbolic := by
  rw [List.forall_mem_append] at hterms
  simp only [commands, given, List.cons_append, List.forall_mem_cons, List.forall_mem_append,
    List.forall_mem_map]
  exact ⟨trivial, ⟨hdeclared, hterms.1⟩, hterms.2, trivial, trivial, List.forall_mem_nil _⟩

/-- The text of a script without its remarks consists of its commands. -/
theorem spelled_text {s : Script} (h : ∀ c ∈ s.commands, c.Symbolic) :
    Command.Spelled s.commands s.text.toList := by
  rw [commands, List.forall_mem_append, List.forall_mem_append] at h
  rw [toList_text, commands]
  refine .lines h.1 (.inl rfl) (.lines h.2.1 s.isRemark_remark ?_)
  exact .lines h.2.2 (.inl rfl) Sexp.Spells.nil

/-- The text of a script is read back as its commands. -/
theorem read?_text {s : Script} (h : ∀ c ∈ s.commands, c.Symbolic) :
    Command.read? s.text.toList = some s.commands :=
  (spelled_text h).read? h

/-- All names of a verification script are texts of versions that the instructions mention. -/
theorem symbolic_verification {code : Code} (h : ∀ v ∈ Code.mentions code, IsSymbol v.text) :
    ∀ c ∈ (verification code).commands, c.Symbolic := by
  have hsymbol := Code.isSymbol_of_mentions h
  refine symbolic_commands (fun p hp => hsymbol p (mem_of_mem_keepFirst hp)) ?_
  exact fun t ht p hp => hsymbol p (Code.mem_symbols_of_constraint ht p hp)

/-- All names of an equivalence script are texts of versions that the instructions mention, marked
for the second program. -/
theorem symbolic_equivalence {first second : Code}
    (hfirst : ∀ v ∈ Code.mentions first, IsSymbol v.text)
    (hsecond : ∀ v ∈ Code.mentions second, IsSymbol (v.mark secondMarker).text) :
    ∀ c ∈ (equivalence first second).commands, c.Symbolic := by
  have hmarked : ∀ v ∈ Code.mentions (Code.mark secondMarker second), IsSymbol v.text := by
    rw [Code.mentions_mark]
    exact List.forall_mem_map.mpr hsecond
  have hsymbol : ∀ p ∈ Code.symbols first ++ Code.symbols (Code.mark secondMarker second),
      IsSymbol p.1 :=
    List.forall_mem_append.mpr ⟨Code.isSymbol_of_mentions hfirst, Code.isSymbol_of_mentions hmarked⟩
  refine symbolic_commands (fun p hp => hsymbol p (mem_of_mem_keepFirst hp)) ?_
  exact fun t ht p hp => hsymbol p (mem_symbols_of_equivalence ht p hp)

end Script

/-! ## Programs -/

/-- A version that is written with letters, digits and underscores is a symbol. -/
theorem Version.isSymbol_text {v : Version} (h : ∀ c ∈ v.text.toList, isNameChar c = true) :
    IsSymbol v.text where
  atom := Sexp.isAtom_of_isNameChar (by simp [text]) h
  bare := fun hmem => absurd (h ';' hmem) (by decide)
  word := v.readNatural?_text

namespace Version.Plain

variable {v : Version}

theorem isSymbol (h : v.Plain) : IsSymbol v.text :=
  isSymbol_text h.isNameChar_text

theorem isSymbol_mark (h : v.Plain) : IsSymbol (v.mark Script.secondMarker).text := by
  refine isSymbol_text ?_
  rw [toList_text_mark h.marker, List.forall_mem_append]
  exact ⟨h.isNameChar_text, by simp [Script.secondMarker]; decide⟩

end Version.Plain

theorem Instr.defined_or_uses_of_mentions {instr : Instr} {v : Version} (h : v ∈ instr.mentions) :
    instr.defined? = some v ∨ v ∈ instr.uses := by
  have hjoin : ∀ {result : Version} {operands : List Version} {guard : Option (Expr Version)},
      v ∈ result :: operands ++ (guard.map Expr.names).getD [] →
        (join result operands guard).defined? = some v ∨ v ∈ (join result operands guard).uses :=
    fun h => (List.mem_cons.mp h).imp (fun heq => congrArg some heq.symm) id
  unfold mentions at h
  split at h
  · exact (List.mem_cons.mp h).imp (fun heq => congrArg some heq.symm) id
  · exact hjoin h
  · exact hjoin (List.mem_append_left _ h)
  · exact .inr h

/-- The versions of code that can be listed are symbols, with the marker of a second program or
without it. -/
theorem Code.Listable.isSymbol {code : Code} (h : Listable code) :
    ∀ v ∈ mentions code, IsSymbol v.text ∧ IsSymbol (v.mark Script.secondMarker).text := by
  intro v hv
  obtain ⟨instr, hmem, hv⟩ := List.mem_flatMap.mp hv
  have hplain := (h instr hmem).versions v (Instr.defined_or_uses_of_mentions hv)
  exact ⟨hplain.isSymbol, hplain.isSymbol_mark⟩

namespace Question

/-- A question about code that can be listed. -/
def Listable : Question → Prop
  | assertions code => code.Listable
  | equivalence first second => first.Listable ∧ second.Listable

theorem Listable.symbolic {q : Question} (h : q.Listable) :
    ∀ c ∈ q.script.commands, c.Symbolic := by
  cases q with
  | assertions code => exact Script.symbolic_verification fun v hv => (h.isSymbol v hv).1
  | equivalence first second =>
    exact Script.symbolic_equivalence (fun v hv => (h.1.isSymbol v hv).1)
      fun v hv => (h.2.isSymbol v hv).2

end Question

/-! ## Saved scripts -/

namespace Cli

/-- The comment in front of a saved script leaves the ends of its lines. -/
theorem skipComments_savedScript (q : Question) {stamp : Stamp} (h : '\n' ∉ stamp.text.toList) :
    Sexp.skipComments false (savedScript q stamp).toList =
      List.replicate 6 '\n' ++ Sexp.skipComments false q.script.text.toList := by
  have hnatural : ∀ n, '\n' ∉ (Text.natural n).toList := by
    intro n hmem
    rw [Text.natural, String.toList_ofList] at hmem
    exact absurd (Text.isDigit_of_mem_digits hmem) (by decide)
  have htitle : '\n' ∉ " ".toList ++ (Question.title q).toList := by
    cases q with
    | assertions code => exact (by decide : '\n' ∉ " ".toList ++ "assertion check".toList)
    | equivalence first second =>
      exact (by decide : '\n' ∉ " ".toList ++ "equivalence check".toList)
  have hlogic : '\n' ∉ " Logic: ".toList ++ q.script.logic.name.toList := by
    cases q.script.logic <;> decide
  have hcounts : '\n' ∉ " Declarations: ".toList ++
      (Text.natural q.script.declarations.length).toList ++ ", assertions: ".toList ++
        (Text.natural q.script.assertionCount).toList := by
    simp only [List.mem_append, not_or]
    exact ⟨⟨⟨by decide, hnatural _⟩, by decide⟩, hnatural _⟩
  have hstamp : '\n' ∉ " Generated at: ".toList ++ stamp.text.toList := by
    rw [List.mem_append, not_or]
    exact ⟨by decide, h⟩
  have hlist : (savedScript q stamp).toList =
      ';' :: ((" ".toList ++ (Question.title q).toList) ++ '\n' ::
        ';' :: ((" Logic: ".toList ++ q.script.logic.name.toList) ++ '\n' ::
          ';' :: ((" Declarations: ".toList ++
            (Text.natural q.script.declarations.length).toList ++ ", assertions: ".toList ++
              (Text.natural q.script.assertionCount).toList) ++ '\n' ::
            ';' :: ((" Generated at: ".toList ++ stamp.text.toList) ++ '\n' ::
              ';' :: ([] ++ '\n' :: '\n' :: q.script.text.toList))))) := by
    unfold savedScript
    simp only [String.toList_append, List.append_assoc]
    rfl
  rw [hlist, Sexp.skipComments_comment htitle, Sexp.skipComments_comment hlogic,
    Sexp.skipComments_comment hcounts, Sexp.skipComments_comment hstamp,
    Sexp.skipComments_comment List.not_mem_nil]
  rfl

/-- The script of a question is read back from the file that it is saved in. -/
theorem read?_savedScript {q : Question} (hq : q.Listable) {stamp : Stamp}
    (hstamp : '\n' ∉ stamp.text.toList) :
    Command.read? (savedScript q stamp).toList = some q.script.commands := by
  have hblank : Text.Blank (List.replicate 6 '\n') := by
    intro c hc
    rw [List.eq_of_mem_replicate hc]
    decide
  have hspelled : Command.Spelled q.script.commands (savedScript q stamp).toList := by
    rw [Command.Spelled, skipComments_savedScript q hstamp]
    exact (Script.spelled_text hq.symbolic).blanks hblank
  exact hspelled.read? hq.symbolic

end Cli

/-- The code of a program that has been read can be listed, as it is and optimized. -/
theorem Program.listable_of_parse {source : String} {p : Program} {f : SsaForm}
    (hparse : Program.parse source = .ok p) (hssa : p.toSsa = .ok f) :
    f.code.Listable ∧ (Code.optimize f.code).Listable := by
  obtain ⟨code, s, hnum, hssa'⟩ := p.exists_toSsa
  cases hssa.symm.trans hssa'
  have hcode := listable_of_numbers hnum (proper_of_parse hparse)
  exact ⟨hcode, (Code.frames_optimizeWith Pass.all roundLimit code).trims.listable hcode⟩

/-- The code of programs that have been read, as it is and optimized, leads to scripts that a solver
reads as they are meant, from their texts and from the files they are saved in at any time. -/
theorem Program.read?_scripts {source source' : String} {p q : Program}
    (hp : Program.parse source = .ok p) (hq : Program.parse source' = .ok q) :
    ∃ f g, p.toSsa = .ok f ∧ q.toSsa = .ok g ∧
      ∀ question ∈ [Question.assertions f.code, .assertions (Code.optimize f.code),
          .equivalence f.code g.code, .equivalence (Code.optimize f.code) (Code.optimize g.code)],
        Command.read? question.script.text.toList = some question.script.commands ∧
          ∀ ms, Command.read? (Cli.savedScript question (.ofMilliseconds ms)).toList =
            some question.script.commands := by
  obtain ⟨firstCode, s, -, hf⟩ := p.exists_toSsa
  obtain ⟨secondCode, t, -, hg⟩ := q.exists_toSsa
  obtain ⟨hfirst, hfirst'⟩ := listable_of_parse hp hf
  obtain ⟨hsecond, hsecond'⟩ := listable_of_parse hq hg
  have hread : ∀ question : Question, question.Listable →
      Command.read? question.script.text.toList = some question.script.commands ∧
        ∀ ms, Command.read? (Cli.savedScript question (.ofMilliseconds ms)).toList =
          some question.script.commands := fun _ h =>
    ⟨Script.read?_text h.symbolic, fun ms => Cli.read?_savedScript h (Cli.Stamp.text_one_line ms)⟩
  refine ⟨_, _, hf, hg, ?_⟩
  simp only [List.forall_mem_cons, List.not_mem_nil, false_implies, implies_true, and_true]
  exact ⟨hread _ hfirst, hread _ hfirst', hread _ ⟨hfirst, hsecond⟩, hread _ ⟨hfirst', hsecond'⟩⟩

end WhileSmt
