import WhileSmt.Proofs.Cli.Memory
import WhileSmt.Proofs.Smt.Commands

/-!
Whole runs over a memory. Up to its last stage a run only prints. The last stage prints its product
or writes it to one file; or it saves a script, asks the solver about it, and gives a verdict.

Main statements: `Session.run_inMemory` and, on what a run leaves alone, `Session.run_frame`.
-/

namespace WhileSmt

namespace Question

variable (q : Question)

theorem isPositive_verdict (sat : Bool) : (q.verdict sat).isPositive = sat := by
  cases q <;> cases sat <;> rfl

theorem isPositive_conclude (answer : Except SolverError Answer) :
    (q.conclude answer).verdict.isPositive = true ↔ ∃ model, answer = .ok (.sat model) := by
  cases answer with
  | error e => simp [conclude, isPositive_verdict]
  | ok answer => cases answer <;> simp [conclude, isPositive_verdict]

end Question

namespace Cli

/-! ## What a run is asked for -/

namespace Options

variable (o : Options) (memory : Memory)

/-- The instructions that the file under a path comes to. -/
def Encodes (path : String) (code : Code) : Prop :=
  ∃ text p f, memory.readText path = .ok text ∧ Program.parse text = .ok p ∧ p.toSsa = .ok f ∧
    code = if o.encodeOptimized then Code.optimize f.code else f.code

/-- The question about the files that the options name. -/
def Poses (q : Question) : Prop :=
  ∃ codes, List.Forall₂ (o.Encodes memory) (o.input :: o.against.toList) codes ∧
    q = Session.question codes

/-- The product of a run that asks no solver. -/
def Yields (product : String) : Prop :=
  ∃ text p f, memory.readText o.input = .ok text ∧ Program.parse text = .ok p ∧ p.toSsa = .ok f ∧
    match o.mode with
    | .ast => product = if o.quiet then p.summary else p.outline o.showSpans
    | .ssa => product = f.listing o.verbose
    | .optimize =>
      product = Code.listing o.verbose (if o.noOptimize then f.code else Code.optimize f.code)
    | .cfg => product = p.flowGraph.render o.verbose o.format
    | .smt => ∃ q, o.Poses memory q ∧ product = q.script.text
    | .verify | .equiv => False

/-- The arguments of the solver. -/
def solverArguments : List String :=
  ["-in", "-smt2", "-T:" ++ Text.natural o.timeout]

/-- The script of a question has been saved if the options name a directory for it. -/
def Saved (stamp : Stamp) (q : Question) (after : Memory) : Prop :=
  match o.outputDir with
  | none => after = memory
  | some directory => ∃ made, memory.makeDirs directory = .ok made ∧
      made.writeText (joinPath directory (Question.tag q ++ "_" ++ stamp.tag ++ ".smt2"))
        (savedScript q stamp) = .ok after

end Options

/-- What a run may do besides printing. -/
inductive Effect (o : Options) (stamp : Stamp) (memory : Memory) : Memory → Prop where
  | nothing : Effect o stamp memory memory
  | product {path product : String} {after : Memory} (mode : o.mode.asksSolver = false)
      (output : o.output = some path) (written : memory.writeText path product = .ok after) :
      Effect o stamp memory after
  | directory {path : String} {after : Memory} (mode : o.mode.asksSolver = true)
      (output : o.outputDir = some path) (made : memory.makeDirs path = .ok after) :
      Effect o stamp memory after
  | script {q : Question} {after : Memory} (mode : o.mode.asksSolver = true)
      (poses : o.Poses memory q) (saved : o.Saved memory stamp q after) :
      Effect o stamp memory after
  | solver {q : Question} {after : Memory} (mode : o.mode.asksSolver = true)
      (poses : o.Poses memory q) (saved : o.Saved memory stamp q after) :
      Effect o stamp memory { after with started := some (o.solverArguments, q.script.text) }

/-- A run without a solver has printed its product last, or has written it to a file. -/
def Produces (o : Options) (memory after : Memory) (out : String) : Prop :=
  ∃ product, o.Yields memory product ∧
    match o.output with
    | none => after = memory ∧ ∃ front, out = front ++ product
    | some path => memory.writeText path product = .ok after

theorem Produces.after {o : Options} {memory after : Memory} {out : String} (front : String)
    (h : Produces o memory after out) : Produces o memory after (front ++ out) := by
  obtain ⟨product, hyields, hproduct⟩ := h
  refine ⟨product, hyields, ?_⟩
  cases houtput : o.output with
  | none =>
    rw [houtput] at hproduct
    obtain ⟨rfl, before, rfl⟩ := hproduct
    exact ⟨rfl, front ++ before, by rw [String.append_assoc]⟩
  | some path =>
    rw [houtput] at hproduct
    exact hproduct

/-- The verdict is positive if the lists of instructions have equally many outputs and the solver,
started on the script, says that it is satisfiable. -/
def Judges (o : Options) (stamp : Stamp) (memory after : Memory) (positive : Prop) : Prop :=
  ∃ q saved, o.Poses memory q ∧ o.Saved memory stamp q saved ∧
    (positive ↔ q.script.mismatch = none ∧ ∃ output model,
      saved.runProgram o.solver o.solverArguments q.script.text = .ok (output, after) ∧
        Answer.parse output.out.toList output.err.toList o.timeout = .ok (.sat model))

/-- A run ends with one exactly if it has complained on the error channel. Otherwise it has done what
it was asked for: it ends with zero and has printed or written its product, or it has asked for a
verdict and ends with zero if that is positive and with two if it is not. -/
structure Outcome (o : Options) (stamp : Stamp) (memory : Memory) (code : Nat) (after : Memory)
    (out err : String) : Prop where
  effect : Effect o stamp memory after
  complaint : code = 1 ↔ err ≠ ""
  product : o.mode.asksSolver = false → code ≠ 1 → code = 0 ∧ Produces o memory after out
  verdict : o.mode.asksSolver = true → code ≠ 1 →
    (code = 0 ∨ code = 2) ∧ Judges o stamp memory after (code = 0)

/-! ## The stages -/

namespace Session

open Memory

/-- A run over a memory; the clock always shows `stamp`. -/
def inMemory (colors : Bool) (stamp : Stamp) (o : Options) : Session (StateM Memory) where
  host := Memory.host colors stamp
  options := o

variable {colors : Bool} {stamp : Stamp} {o : Options} {memory : Memory}

theorem leads_out (text : String) :
    Leads memory ((Memory.host colors stamp).out text) fun _ after out err =>
      after = memory ∧ out = text ∧ err = "" := by
  intro out err
  refine ⟨(), memory, text, "", ?_, rfl, rfl, rfl⟩
  have hout : (memory.printing out err).printing text "" =
      { memory.printing out err with out := (memory.printing out err).out ++ text } := by
    simp only [printing, String.append_empty]
  rw [← printing_printing, hout]
  rfl

theorem leads_err (text : String) :
    Leads memory ((Memory.host colors stamp).err text) fun _ after out err =>
      after = memory ∧ out = "" ∧ err = text := by
  intro out err
  refine ⟨(), memory, "", text, ?_, rfl, rfl, rfl⟩
  have herr : (memory.printing out err).printing "" text =
      { memory.printing out err with err := (memory.printing out err).err ++ text } := by
    simp only [printing, String.append_empty]
  rw [← printing_printing, herr]
  rfl

theorem run_get_bind {α : Type} (f : Memory → StateM Memory α) (state : Memory) :
    (get >>= f).run state = (f state).run state := rfl

/-- A change that the channels do not decide. -/
theorem leads_apply {change : Memory → Except FileError Memory}
    (h : ∀ out err, change (memory.printing out err) = (change memory).map (·.printing out err)) :
    Leads memory (Memory.apply change) fun result after out err =>
      out = "" ∧ err = "" ∧ match result with
        | .ok _ => change memory = .ok after
        | .error _ => after = memory := by
  cases hchange : change memory with
  | ok after =>
    refine Leads.of_run (.ok ()) after (fun out err => ?_) ⟨rfl, rfl, rfl⟩
    unfold Memory.apply
    rw [run_get_bind, h, hchange]
    rfl
  | error e =>
    refine Leads.of_run (.error e) memory (fun out err => ?_) ⟨rfl, rfl, rfl⟩
    unfold Memory.apply
    rw [run_get_bind, h, hchange]
    rfl

theorem leads_writeText (path text : String) :
    Leads memory (Memory.apply (·.writeText path text)) fun result after out err =>
      out = "" ∧ err = "" ∧ match result with
        | .ok _ => memory.writeText path text = .ok after
        | .error _ => after = memory :=
  leads_apply fun out err => memory.writeText_printing out err path text

theorem leads_makeDirs (path : String) :
    Leads memory (Memory.apply (·.makeDirs path)) fun result after out err =>
      out = "" ∧ err = "" ∧ match result with
        | .ok _ => memory.makeDirs path = .ok after
        | .error _ => after = memory :=
  leads_apply fun out err => memory.makeDirs_printing out err path

/-- A program is started, or there is a reason why not. -/
theorem leads_runProgram (name : String) (arguments : List String) (input : String) :
    Leads memory ((Memory.host colors stamp).runProgram name arguments input)
      fun result after out err => out = "" ∧ err = "" ∧ match result with
        | .ok output => memory.runProgram name arguments input = .ok (output, after)
        | .error e => after = memory ∧ memory.runProgram name arguments input = .error e := by
  have hrun : ∀ out err, ((Memory.host colors stamp).runProgram name arguments input).run
      (memory.printing out err) = StateT.run _ (memory.printing out err) :=
    fun out err => run_get_bind _ (memory.printing out err)
  unfold Memory.runProgram at hrun ⊢
  cases houtput : memory.programOutput name with
  | ok output =>
    refine Leads.of_run (.ok output) { memory with started := some (arguments, input) }
      (fun out err => ?_) ⟨rfl, rfl, rfl⟩
    rw [hrun, programOutput_printing, houtput]
    rfl
  | error e =>
    refine Leads.of_run (.error e) memory (fun out err => ?_) ⟨rfl, rfl, rfl, rfl⟩
    rw [hrun, programOutput_printing, houtput]
    rfl

theorem prints_out (text : String) :
    Prints memory ((Memory.host colors stamp).out text) fun _ => True :=
  (leads_out text).mono fun _ _ _ _ ⟨hafter, _, herr⟩ => ⟨hafter, herr, trivial⟩

theorem prints_say (level : Level) (text : String) :
    Prints memory ((inMemory colors stamp o).say level text) fun _ => True :=
  Prints.ite (prints_out text) (Prints.pure trivial)

theorem prints_detailItems (sources : List Source) (values : List String) :
    Prints memory ((inMemory colors stamp o).detailItems sources values) fun _ => True :=
  Prints.forM fun _ => prints_say _ _

/-- A complaint goes to the error channel before a stage fails. -/
theorem complain_err {α : Type} {p : α → Prop} {text : String}
    {f : Unit → ExceptT RunError (StateM Memory) α}
    (hf : ∀ u, Proceeds memory (f u) fun _ => False) :
    Proceeds memory
      ((liftM ((inMemory colors stamp o).host.err text) : ExceptT RunError (StateM Memory) Unit) >>= f)
      p :=
  Proceeds.complain ((leads_err text).mono fun _ _ _ _ h => h.1) hf

theorem prints_readText (path : String) :
    Prints memory ((Memory.host colors stamp).readText path) fun result =>
      result = memory.readText path :=
  Leads.of_run _ memory (fun _ _ => rfl) ⟨rfl, rfl, rfl⟩

theorem proceeds_readSource (path : String) :
    Proceeds memory ((inMemory colors stamp o).readSource path) fun source =>
      memory.readText path = .ok source.text := by
  refine (Proceeds.lift (prints_readText path)).bind ?_
  rintro _ rfl
  cases memory.readText path with
  | ok text => exact Proceeds.pure rfl
  | error e => exact Proceeds.throw _

theorem proceeds_sources {first : Source} (h : memory.readText o.input = .ok first.text) :
    Proceeds memory ((inMemory colors stamp o).sources first)
      (List.Forall₂ (fun path source => memory.readText path = .ok source.text)
        (o.input :: o.against.toList)) := by
  unfold sources
  show Proceeds memory (match o.against with | none => _ | some path => _) _
  cases o.against with
  | none => exact Proceeds.pure (.cons h .nil)
  | some path =>
    exact (proceeds_readSource path).bind fun second hsecond =>
      Proceeds.pure (.cons h (.cons hsecond .nil))

theorem proceeds_parse (source : Source) :
    Proceeds memory ((inMemory colors stamp o).parse source) fun p =>
      Program.parse source.text = .ok p := by
  unfold parse
  cases hparse : Program.parse source.text with
  | ok p => exact Proceeds.pure rfl
  | error e =>
    refine (Proceeds.lift (prints_say _ _)).bind fun _ _ => ?_
    refine complain_err fun _ => complain_err fun _ => ?_
    exact (Proceeds.lift (prints_say _ _)).bind fun _ _ => Proceeds.throw _

theorem proceeds_number (source : Source) (p : Program) :
    Proceeds memory ((inMemory colors stamp o).number source p) fun f => p.toSsa = .ok f := by
  unfold number
  cases hssa : p.toSsa with
  | ok f => exact Proceeds.pure rfl
  | error e =>
    refine (Proceeds.lift (prints_say _ _)).bind fun _ _ => ?_
    refine complain_err fun _ => ?_
    exact (Proceeds.lift (prints_say _ _)).bind fun _ _ => Proceeds.throw _

theorem proceeds_parseAll (sources : List Source) :
    Proceeds memory ((inMemory colors stamp o).parseAll sources)
      (List.Forall₂ (fun source p => Program.parse source.text = .ok p) sources) := by
  refine (Proceeds.lift (prints_say _ _)).bind fun _ _ => ?_
  refine (Proceeds.mapM proceeds_parse sources).bind fun programs hprograms => ?_
  refine (Proceeds.lift (prints_say _ _)).bind fun _ _ => ?_
  exact (Proceeds.lift (prints_detailItems _ _)).bind fun _ _ => Proceeds.pure hprograms

theorem proceeds_numberAll {sources : List Source} {programs : List Program}
    (h : sources.length = programs.length) :
    Proceeds memory ((inMemory colors stamp o).numberAll sources programs)
      (List.Forall₂ (fun p f => p.toSsa = .ok f) programs) := by
  unfold numberAll
  refine (Proceeds.lift (prints_say _ _)).bind fun _ _ => ?_
  refine (Proceeds.mapM (fun x => proceeds_number x.1 x.2) (sources.zip programs)).bind
    fun forms hforms => ?_
  refine (Proceeds.lift (prints_say _ _)).bind fun _ _ => ?_
  refine (Proceeds.lift (prints_detailItems _ _)).bind fun _ _ => Proceeds.pure ?_
  rw [← List.map_snd_zip (Nat.le_of_eq h.symm), List.forall₂_map_left_iff]
  exact hforms

theorem prints_optimizeAll (sources : List Source) (forms : List SsaForm) :
    Prints memory ((inMemory colors stamp o).optimizeAll sources forms) fun results =>
      results = forms.map fun form => (inMemory colors stamp o).optimized form.code := by
  refine (prints_say _ _).bind fun _ _ => ?_
  refine Prints.ite ?_ ?_
  · exact (prints_say _ _).bind fun _ _ => Prints.pure rfl
  · refine (prints_say _ _).bind fun _ _ => ?_
    exact (prints_detailItems _ _).bind fun _ _ => Prints.pure rfl

theorem prints_drawAll (sources : List Source) (programs : List Program) :
    Prints memory ((inMemory colors stamp o).drawAll sources programs) fun graphs =>
      graphs = programs.map Program.flowGraph := by
  refine (prints_say _ _).bind fun _ _ => ?_
  refine (prints_say _ _).bind fun _ _ => ?_
  exact (prints_detailItems _ _).bind fun _ _ => Prints.pure rfl

theorem prints_encode (codes : List Code) :
    Prints memory ((inMemory colors stamp o).encode codes) fun q => q = question codes := by
  refine (prints_say _ _).bind fun _ _ => ?_
  refine (prints_say _ _).bind fun _ _ => ?_
  refine (prints_say _ _).bind fun _ _ => ?_
  refine Prints.ite ?_ (Prints.pure rfl)
  exact (prints_say _ _).bind fun _ _ => Prints.pure rfl

/-! ## The last stage -/

/-- What the last stage of a run comes to. -/
def Ends (o : Options) (stamp : Stamp) (memory : Memory)
    (x : ExceptT RunError (StateM Memory) (Option Verdict)) : Prop :=
  Leads memory x.run fun result after out err =>
    Effect o stamp memory after ∧ ∀ verdict?, result = .ok verdict? → err = "" ∧
      match verdict? with
      | none => o.mode.asksSolver = false ∧ Produces o memory after out
      | some verdict =>
        o.mode.asksSolver = true ∧ Judges o stamp memory after (verdict.isPositive = true)

theorem Ends.after {α : Type} {x : ExceptT RunError (StateM Memory) α} {p : α → Prop}
    {f : α → ExceptT RunError (StateM Memory) (Option Verdict)} (hx : Proceeds memory x p)
    (hf : ∀ a, p a → Ends o stamp memory (f a)) : Ends o stamp memory (x >>= f) := by
  unfold Ends
  rw [ExceptT.run_bind]
  refine Leads.bind hx ?_
  rintro result _ out err ⟨rfl, hresult⟩
  cases result with
  | error e => exact Leads.pure ⟨.nothing, nofun⟩
  | ok a =>
    obtain ⟨rfl, ha⟩ := hresult a rfl
    refine (hf a ha).mono ?_
    rintro result' after out' err' ⟨heffect, hresult'⟩
    refine ⟨heffect, fun verdict? hverdict => ?_⟩
    obtain ⟨rfl, hverdict⟩ := hresult' verdict? hverdict
    refine ⟨String.empty_append, ?_⟩
    cases verdict? with
    | none => exact ⟨hverdict.1, hverdict.2.after out⟩
    | some verdict => exact hverdict

theorem ends_finish {product : String} (hmode : o.mode.asksSolver = false)
    (h : o.Yields memory product) :
    Ends o stamp memory ((inMemory colors stamp o).finish product) := by
  unfold finish
  cases houtput : (inMemory colors stamp o).options.output with
  | none =>
    unfold Ends
    dsimp only
    rw [run_lift_bind]
    refine (leads_out product).bind ?_
    rintro _ _ _ _ ⟨rfl, rfl, rfl⟩
    refine Leads.pure ⟨.nothing, ?_⟩
    rintro _ ⟨⟩
    refine ⟨rfl, hmode, _, h, ?_⟩
    rw [show o.output = none from houtput]
    exact ⟨rfl, "", by rw [String.append_empty, String.empty_append]⟩
  | some path =>
    refine Ends.after (Proceeds.lift (prints_say _ _)) fun _ _ => ?_
    unfold Ends
    rw [run_lift_bind]
    refine (leads_writeText path product).bind ?_
    rintro result after _ _ ⟨rfl, rfl, hresult⟩
    cases result with
    | error e =>
      obtain rfl := hresult
      exact Leads.pure ⟨.nothing, nofun⟩
    | ok _ =>
      refine Leads.pure ⟨.product hmode houtput hresult, ?_⟩
      rintro _ ⟨⟩
      refine ⟨rfl, hmode, _, h, ?_⟩
      rw [show o.output = some path from houtput]
      exact hresult

/-- The directory is made first, and then the script is written into it. -/
theorem leads_archive (directory : String) (q : Question) :
    Leads memory
      (({ directory := directory, makeDirs := (Memory.host colors stamp).makeDirs,
          writeText := (Memory.host colors stamp).writeText,
          now := (Memory.host colors stamp).now } : Archive (StateM Memory)).save q)
      fun result after _ err => err = "" ∧ match result with
        | .ok _ => ∃ made, memory.makeDirs directory = .ok made ∧
            made.writeText (joinPath directory (Question.tag q ++ "_" ++ stamp.tag ++ ".smt2"))
              (savedScript q stamp) = .ok after
        | .error _ => after = memory ∨ memory.makeDirs directory = .ok after := by
  unfold Archive.save
  refine (leads_makeDirs directory).bind ?_
  rintro made after _ _ ⟨rfl, rfl, hmade⟩
  cases made with
  | error e => exact Leads.pure ⟨rfl, .inl hmade⟩
  | ok _ =>
    have hnow : Prints after (Memory.host colors stamp).now fun now => now = stamp :=
      Prints.pure rfl
    refine Leads.bind hnow ?_
    rintro _ made _ _ ⟨rfl, rfl, rfl⟩
    refine (leads_writeText _ _).bind ?_
    rintro written last _ _ ⟨rfl, rfl, hwritten⟩
    cases written with
    | error e =>
      obtain rfl := hwritten
      exact Leads.pure ⟨rfl, .inr hmade⟩
    | ok _ => exact Leads.pure ⟨rfl, made, hmade, hwritten⟩

theorem leads_save (q : Question) :
    Leads memory ((inMemory colors stamp o).verifier.save q) fun result after _ err =>
      err = "" ∧ match result with
        | .ok _ => o.Saved memory stamp q after
        | .error _ => after = memory ∨ ∃ directory, o.outputDir = some directory ∧
            memory.makeDirs directory = .ok after := by
  unfold Verifier.save verifier Options.Saved
  cases houtput : (inMemory colors stamp o).options.outputDir with
  | none =>
    rw [show o.outputDir = none from houtput]
    exact Leads.pure ⟨rfl, rfl⟩
  | some directory =>
    rw [show o.outputDir = some directory from houtput]
    refine (leads_archive directory q).bind ?_
    rintro result after _ _ ⟨rfl, hresult⟩
    cases result with
    | error e =>
      refine Leads.pure ⟨rfl, hresult.imp_right fun hmade => ⟨directory, rfl, hmade⟩⟩
    | ok path => exact Leads.pure ⟨rfl, hresult⟩

theorem leads_ask (script : String) :
    Leads memory ((inMemory colors stamp o).ask script) fun answer after _ err =>
      err = "" ∧ (after = memory ∨
        after = { memory with started := some (o.solverArguments, script) }) ∧
        ∀ model, answer = .ok (.sat model) ↔ ∃ output,
          memory.runProgram o.solver o.solverArguments script = .ok (output, after) ∧
            Answer.parse output.out.toList output.err.toList o.timeout = .ok (.sat model) := by
  unfold ask
  refine (leads_runProgram o.solver o.solverArguments script).bind ?_
  rintro result after _ _ ⟨rfl, rfl, hresult⟩
  cases result with
  | error e =>
    obtain ⟨rfl, herror⟩ := hresult
    refine Leads.pure ⟨rfl, .inl rfl, fun model => ⟨nofun, ?_⟩⟩
    rintro ⟨output, hrun, -⟩
    rw [herror] at hrun
    cases hrun
  | ok output =>
    refine Leads.pure ⟨rfl, .inr (eq_of_runProgram hresult), fun model =>
      ⟨fun h => ⟨output, hresult, h⟩, ?_⟩⟩
    rintro ⟨output', hrun, hparse⟩
    rw [hresult] at hrun
    cases hrun
    exact hparse

theorem leads_check {q : Question} (hmode : o.mode.asksSolver = true) (hq : o.Poses memory q) :
    Leads memory ((inMemory colors stamp o).verifier.check q) fun result after _ err =>
      err = "" ∧ Effect o stamp memory after ∧ ∀ report, result = .ok report →
        Judges o stamp memory after (report.verdict.isPositive = true) := by
  unfold Verifier.check
  refine (leads_save q).bind ?_
  rintro result saved _ _ ⟨rfl, hresult⟩
  cases result with
  | error e =>
    refine Leads.pure ⟨rfl, ?_, ?_⟩
    · obtain rfl | ⟨directory, houtput, hmade⟩ := hresult
      · exact .nothing
      · exact .directory hmode houtput hmade
    · rintro report ⟨⟩
  | ok path =>
    dsimp only
    cases hmismatch : q.script.mismatch with
    | some counts =>
      refine Leads.pure ⟨rfl, .script hmode hq hresult, ?_⟩
      rintro _ ⟨⟩
      refine ⟨q, saved, hq, hresult, ?_⟩
      simp [Question.differing, Question.isPositive_verdict, hmismatch]
    | none =>
      refine (leads_ask q.script.text).bind ?_
      rintro answer after _ _ ⟨rfl, hafter, hanswer⟩
      refine Leads.pure ⟨rfl, ?_, ?_⟩
      · obtain rfl | rfl := hafter
        · exact .script hmode hq hresult
        · exact .solver hmode hq hresult
      · rintro _ ⟨⟩
        refine ⟨q, saved, hq, hresult, ?_⟩
        rw [exists_comm]
        simp only [q.isPositive_conclude, hanswer, hmismatch, true_and]

theorem prints_present (report : Report) :
    Prints memory ((inMemory colors stamp o).present report) fun _ => True := by
  refine (prints_say _ _).bind fun _ _ => ?_
  have hwriting : Prints memory (report.savedTo.forM fun path =>
      (inMemory colors stamp o).say .normal ((inMemory colors stamp o).console.writing path))
      fun _ => True := by
    cases report.savedTo with
    | none => exact Prints.pure trivial
    | some path => exact prints_say _ _
  exact hwriting.bind fun _ _ => prints_out _

theorem ends_solve {q : Question} (hmode : o.mode.asksSolver = true) (hq : o.Poses memory q) :
    Ends o stamp memory ((inMemory colors stamp o).solve q) := by
  unfold solve
  refine Ends.after (Proceeds.lift (prints_say _ _)) fun _ _ => ?_
  refine Ends.after (Proceeds.lift (prints_say _ _)) fun _ _ => ?_
  unfold Ends
  rw [run_lift_bind]
  refine (leads_check hmode hq).bind ?_
  rintro result after _ _ ⟨rfl, heffect, hresult⟩
  cases result with
  | error e =>
    have hfail : Proceeds after (do
        liftM (inMemory colors stamp o).fail
        liftM (inMemory colors stamp o).abort
        throw (.saving e) : ExceptT RunError (StateM Memory) (Option Verdict)) fun _ => False := by
      refine (Proceeds.lift (prints_say _ _)).bind fun _ _ => ?_
      exact (Proceeds.lift (prints_say _ _)).bind fun _ _ => Proceeds.throw _
    refine hfail.mono ?_
    rintro result _ _ _ ⟨rfl, hresult'⟩
    exact ⟨heffect, fun verdict? h => (hresult' verdict? h).2.elim⟩
  | ok report =>
    have hshow : Proceeds after (do
        liftM ((inMemory colors stamp o).present report)
        return some report.verdict : ExceptT RunError (StateM Memory) (Option Verdict))
        fun verdict? => verdict? = some report.verdict :=
      (Proceeds.lift (prints_present report)).bind fun _ _ => Proceeds.pure rfl
    refine hshow.mono ?_
    rintro result _ _ _ ⟨rfl, hresult'⟩
    refine ⟨heffect, fun verdict? h => ?_⟩
    obtain ⟨rfl, rfl⟩ := hresult' verdict? h
    exact ⟨rfl, hmode, hresult report rfl⟩

/-! ## All stages -/

theorem join_take_one {α : Type} (f : α → String) (a : α) (rest : List α) :
    String.join (((a :: rest).take 1).map f) = f a := by
  simp [String.join]

theorem forall₂_encodes {paths : List String} {sources : List Source} {programs : List Program}
    {forms : List SsaForm}
    (hsources : List.Forall₂ (fun path source => memory.readText path = .ok source.text) paths sources)
    (hprograms : List.Forall₂ (fun source p => Program.parse source.text = .ok p) sources programs)
    (hforms : List.Forall₂ (fun p f => p.toSsa = .ok f) programs forms) :
    List.Forall₂ (o.Encodes memory) paths
      (forms.map fun f => if o.encodeOptimized then Code.optimize f.code else f.code) := by
  induction hsources generalizing programs forms with
  | nil =>
    cases hprograms
    cases hforms
    exact .nil
  | cons hread _ ih =>
    cases hprograms with
    | cons hparse hprograms =>
      cases hforms with
      | cons hssa hforms => exact .cons ⟨_, _, _, hread, hparse, hssa, rfl⟩ (ih hprograms hforms)

theorem code_optimized (code : Code) :
    ((inMemory colors stamp o).optimized code).code =
      if o.noOptimize then code else Code.optimize code := by
  unfold optimized
  show Optimized.code (if o.noOptimize then _ else _) = _
  split <;> rfl

/-- The optimizer has done its work if its results are to be encoded. -/
theorem encoded_codes (forms : List SsaForm)
    (h : o.encodeOptimized = true → o.noOptimize = false) :
    (if o.encodeOptimized then
        (forms.map fun form => (inMemory colors stamp o).optimized form.code).map Optimized.code
      else forms.map SsaForm.code) =
      forms.map fun f => if o.encodeOptimized then Code.optimize f.code else f.code := by
  rw [List.map_map]
  split
  · next hencode =>
    refine List.map_congr_left fun form _ => ?_
    rw [Function.comp_apply, code_optimized, h hencode]
    rfl
  · rfl

theorem ends_stages {first : Source} (hfirst : memory.readText o.input = .ok first.text)
    (hoptimized : o.encodeOptimized = true → o.noOptimize = false) :
    Ends o stamp memory ((inMemory colors stamp o).stages first) := by
  unfold stages
  refine Ends.after (proceeds_sources hfirst) fun sources hsources => ?_
  refine Ends.after (proceeds_parseAll sources) fun programs hprograms => ?_
  obtain ⟨text, p, rest, rfl, hread, hparse⟩ : ∃ text p rest, programs = p :: rest ∧
      memory.readText o.input = .ok text ∧ Program.parse text = .ok p := by
    cases hsources with
    | cons hread _ =>
      cases hprograms with
      | cons hparse _ => exact ⟨_, _, _, rfl, hread, hparse⟩
  split
  · next hmode =>
    replace hmode : o.mode = .ast := hmode
    obtain ⟨code, finals, -, hssa⟩ := p.exists_toSsa
    refine ends_finish (by rw [hmode]; rfl) ⟨text, p, _, hread, hparse, hssa, ?_⟩
    rw [hmode]
    exact join_take_one _ p rest
  next hast =>
  refine Ends.after (proceeds_numberAll hprograms.length_eq) fun forms hforms => ?_
  have hencodes := @forall₂_encodes o _ _ _ _ _ hsources hprograms hforms
  obtain ⟨f, rest', rfl, hssa⟩ : ∃ f rest', forms = f :: rest' ∧ p.toSsa = .ok f := by
    cases hforms with
    | cons hssa _ => exact ⟨_, _, rfl, hssa⟩
  split
  · next hmode =>
    replace hmode : o.mode = .ssa := hmode
    refine ends_finish (by rw [hmode]; rfl) ⟨text, p, f, hread, hparse, hssa, ?_⟩
    rw [hmode]
    exact join_take_one _ f rest'
  next hssa' =>
  refine Ends.after (Proceeds.lift (prints_optimizeAll sources _)) ?_
  rintro _ rfl
  split
  · next hmode =>
    replace hmode : o.mode = .optimize := hmode
    refine ends_finish (by rw [hmode]; rfl) ⟨text, p, f, hread, hparse, hssa, ?_⟩
    rw [hmode, ← code_optimized]
    exact join_take_one _ ((inMemory colors stamp o).optimized f.code) _
  next hoptimize =>
  refine Ends.after (Proceeds.lift (prints_drawAll sources _)) ?_
  rintro _ rfl
  split
  · next hmode =>
    replace hmode : o.mode = .cfg := hmode
    refine ends_finish (by rw [hmode]; rfl) ⟨text, p, f, hread, hparse, hssa, ?_⟩
    rw [hmode]
    exact join_take_one _ p.flowGraph (rest.map Program.flowGraph)
  next hcfg =>
  refine Ends.after (Proceeds.lift (prints_encode _)) ?_
  rintro _ rfl
  have hposes : o.Poses memory (question _) := ⟨_, hencodes, rfl⟩
  rw [← @encoded_codes colors stamp o _ hoptimized] at hposes
  split
  · next hmode =>
    replace hmode : o.mode = .smt := hmode
    refine ends_finish (by rw [hmode]; rfl) ⟨text, p, f, hread, hparse, hssa, ?_⟩
    rw [hmode]
    exact ⟨_, hposes, rfl⟩
  next hsmt =>
  refine ends_solve ?_ hposes
  cases hmode : o.mode
  case verify => rfl
  case equiv => rfl
  case ast => exact absurd hmode hast
  case ssa => exact absurd hmode hssa'
  case optimize => exact absurd hmode hoptimize
  case cfg => exact absurd hmode hcfg
  case smt => exact absurd hmode hsmt

/-! ## The whole run -/

theorem append_error_ne_empty (err : String) (c : Console) (context message : String) :
    err ++ c.error context message ≠ "" := by
  intro h
  have hlength := congrArg (fun s => s.toList.length) h
  simp [Console.error] at hlength

/-- A complaint ends the run. -/
theorem leads_complaint {after : Memory} {out err context message : String}
    (h : Effect o stamp memory after) :
    Leads after
      (do
        (inMemory colors stamp o).host.err ((inMemory colors stamp o).console.error context message)
        return 1 : StateM Memory Nat)
      fun code last out' err' => Outcome o stamp memory code last (out ++ out') (err ++ err') := by
  refine (leads_err _).bind ?_
  rintro _ _ _ _ ⟨rfl, rfl, rfl⟩
  refine Leads.pure ⟨h, ?_, fun _ => absurd rfl, fun _ => absurd rfl⟩
  rw [String.append_empty]
  exact iff_of_true rfl (append_error_ne_empty _ _ _ _)

theorem not_encodeUnoptimized (h : o.misuse? = none) :
    o.encodeOptimized = true → o.noOptimize = false := by
  intro hencode
  have hfault := List.find?_eq_none.mp h .encodeUnoptimized (by decide)
  simpa [Options.has, hencode] using hfault

theorem leads_run :
    Leads memory (inMemory colors stamp o).run (Outcome o stamp memory) := by
  unfold run
  cases hmisuse : (inMemory colors stamp o).options.misuse? with
  | some misuse =>
    refine (@leads_complaint colors stamp o memory memory "" "" _ _ .nothing).mono ?_
    intro code last out err h
    rw [String.empty_append, String.empty_append] at h
    exact h
  | none =>
    refine Leads.bind (proceeds_readSource o.input) ?_
    rintro result memory out err ⟨rfl, hresult⟩
    cases result with
    | error e => exact leads_complaint .nothing
    | ok source =>
      obtain ⟨rfl, hread⟩ := hresult source rfl
      refine Leads.bind (ends_stages hread (not_encodeUnoptimized hmisuse)) ?_
      rintro result after out' err' ⟨heffect, hresult⟩
      cases result with
      | error e =>
        refine (@leads_complaint colors stamp o memory after (out ++ out') err' _ _ heffect).mono ?_
        intro code last out'' err'' h
        rw [String.append_assoc] at h
        rw [String.empty_append]
        exact h
      | ok verdict? =>
        obtain ⟨rfl, hend⟩ := hresult verdict? rfl
        cases verdict? with
        | none =>
          obtain ⟨hmode, hproduct⟩ := hend
          refine Leads.pure ⟨heffect, by simp, fun _ _ => ⟨rfl, ?_⟩, by simp [hmode]⟩
          rw [String.append_empty]
          exact hproduct.after out
        | some verdict =>
          obtain ⟨hmode, hjudges⟩ := hend
          have hcode : Judges o stamp memory after
              ((if verdict.isPositive = true then 0 else 2) = 0) := by simpa using hjudges
          refine Leads.pure ⟨heffect, ?_, by simp [hmode], fun _ _ => ⟨?_, hcode⟩⟩
          · split <;> simp
          · split <;> simp

/-- Every run over a memory has its outcome, and prints what comes to that. -/
theorem run_inMemory (colors : Bool) (stamp : Stamp) (o : Options) (before : Memory) :
    ∃ code after out err,
      (inMemory colors stamp o).run.run before = (code, after.printing out err) ∧
        Outcome o stamp before code after out err := by
  obtain ⟨code, after, out, err, hrun, houtcome⟩ :=
    @leads_run colors stamp o before "" ""
  rw [printing_empty, String.empty_append, String.empty_append] at hrun
  exact ⟨code, after, out, err, hrun, houtcome⟩

end Session

/-! ## What a run leaves alone -/

/-- The script of a question that has been saved is in one file, in a directory that was made. -/
theorem Options.Saved.exists_file {o : Options} {stamp : Stamp} {q : Question} {memory after : Memory}
    (h : o.Saved memory stamp q after) :
    ∃ made, after = { memory with made := made ++ memory.made } ∨ ∃ file bytes,
      after = { memory with made := made ++ memory.made,
                            files := memory.files.insert file bytes } := by
  unfold Saved at h
  split at h
  · exact ⟨[], .inl h⟩
  · obtain ⟨between, hmade, hwritten⟩ := h
    obtain ⟨made, rfl⟩ := Memory.eq_of_makeDirs hmade
    obtain ⟨file, rfl⟩ := Memory.eq_of_writeText hwritten
    exact ⟨made, .inr ⟨file, _, rfl⟩⟩

/-- What a run does besides printing: it makes directories, writes at most one file, and starts the
solver at most once, on the script of its question. -/
theorem Effect.eq_update {o : Options} {stamp : Stamp} {memory after : Memory}
    (h : Effect o stamp memory after) :
    ∃ made files started, after = { memory with made := made ++ memory.made, files, started } ∧
      (files = memory.files ∨ ∃ file bytes, files = memory.files.insert file bytes) ∧
      (started = memory.started ∨ ∃ q, o.mode.asksSolver = true ∧ o.Poses memory q ∧
        started = some (o.solverArguments, q.script.text)) := by
  cases h with
  | nothing => exact ⟨[], _, _, rfl, .inl rfl, .inl rfl⟩
  | product mode output written =>
    obtain ⟨file, rfl⟩ := Memory.eq_of_writeText written
    exact ⟨[], _, _, rfl, .inr ⟨file, _, rfl⟩, .inl rfl⟩
  | directory mode output hmade =>
    obtain ⟨made, rfl⟩ := Memory.eq_of_makeDirs hmade
    exact ⟨made, _, _, rfl, .inl rfl, .inl rfl⟩
  | script mode poses saved =>
    obtain ⟨made, rfl | ⟨file, bytes, rfl⟩⟩ := saved.exists_file
    · exact ⟨made, _, _, rfl, .inl rfl, .inl rfl⟩
    · exact ⟨made, _, _, rfl, .inr ⟨file, bytes, rfl⟩, .inl rfl⟩
  | @solver q _ mode poses saved =>
    obtain ⟨made, rfl | ⟨file, bytes, rfl⟩⟩ := saved.exists_file
    · exact ⟨made, _, _, rfl, .inl rfl, .inr ⟨q, mode, poses, rfl⟩⟩
    · exact ⟨made, _, _, rfl, .inr ⟨file, bytes, rfl⟩, .inr ⟨q, mode, poses, rfl⟩⟩

theorem Session.listable_question {codes : List Code} (h : ∀ code ∈ codes, code.Listable) :
    (question codes).Listable := by
  unfold question
  split
  · exact ⟨h _ (by simp), h _ (by simp)⟩
  · exact h _ (by simp)
  · exact fun _ hmem => absurd hmem List.not_mem_nil

theorem Options.Poses.listable {o : Options} {memory : Memory} {q : Question}
    (h : o.Poses memory q) : q.Listable := by
  obtain ⟨codes, hcodes, rfl⟩ := h
  have hlistable : ∀ {path code}, o.Encodes memory path code → code.Listable := by
    rintro path _ ⟨text, p, f, -, hparse, hssa, rfl⟩
    obtain ⟨hplain, hoptimized⟩ := Program.listable_of_parse hparse hssa
    split
    · exact hoptimized
    · exact hplain
  refine Session.listable_question ?_
  generalize o.input :: o.against.toList = paths at hcodes
  induction hcodes with
  | nil => exact List.forall_mem_nil _
  | cons hencodes _ ih => exact List.forall_mem_cons.mpr ⟨hlistable hencodes, ih⟩

/-- Whatever its options, a run keeps what was printed and the program, and changes at most one file.
If it starts the solver, then on a text that is read as the commands of a question about the files
that the options name. -/
theorem Session.run_frame (colors : Bool) (stamp : Stamp) (o : Options) (before : Memory) :
    ∃ code after, (inMemory colors stamp o).run.run before = (code, after) ∧
      after.program = before.program ∧
      (∃ out, after.out = before.out ++ out) ∧ (∃ err, after.err = before.err ++ err) ∧
      (∃ made, after.made = made ++ before.made) ∧
      (after.files = before.files ∨ ∃ file bytes, after.files = before.files.insert file bytes) ∧
      (after.started = before.started ∨ ∃ q, o.mode.asksSolver = true ∧ o.Poses before q ∧
        after.started = some (o.solverArguments, q.script.text) ∧
        Command.read? q.script.text.toList = some q.script.commands) := by
  obtain ⟨code, after, out, err, hrun, houtcome⟩ := run_inMemory colors stamp o before
  obtain ⟨made, files, started, rfl, hfiles, hstarted⟩ := houtcome.effect.eq_update
  refine ⟨code, _, hrun, rfl, ⟨out, rfl⟩, ⟨err, rfl⟩, ⟨made, rfl⟩, hfiles, hstarted.imp_right ?_⟩
  rintro ⟨q, hmode, hposes, hscript⟩
  exact ⟨q, hmode, hposes, hscript, Script.read?_text hposes.listable.symbolic⟩

end Cli

end WhileSmt
