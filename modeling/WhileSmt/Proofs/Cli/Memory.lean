import Mathlib.Data.List.Forall2
import WhileSmt.Cli.Memory
import WhileSmt.Cli.Run

/-!
Computations over a memory. What has been printed on the channels decides nothing, so a computation
is described by the memory that it starts from, whatever has been printed there: `Memory.Leads`. Two
kinds of it make up the stages of a run: those that only print and those that may also fail.
-/

namespace WhileSmt.Cli

namespace Memory

/-! ## Printing

The texts on the two channels decide nothing: a memory on which more has been printed answers as it
did before.
-/

/-- The memory after more has been printed. -/
def printing (memory : Memory) (out err : String) : Memory :=
  { memory with out := memory.out ++ out, err := memory.err ++ err }

section Channels

variable (memory : Memory) (out err : String)

theorem printing_empty : memory.printing "" "" = memory := by
  simp only [printing, String.append_empty]

theorem printing_printing (out' err' : String) :
    (memory.printing out err).printing out' err' = memory.printing (out ++ out') (err ++ err') := by
  simp only [printing, String.append_assoc]

theorem writeText_printing (path text : String) :
    (memory.printing out err).writeText path text =
      (memory.writeText path text).map (·.printing out err) := by
  have hfile : (memory.printing out err).fileAt path = memory.fileAt path := rfl
  unfold writeText
  rw [hfile]
  cases memory.fileAt path <;> rfl

theorem ensureDir_printing (path : String) :
    (memory.printing out err).ensureDir path =
      (memory.ensureDir path).map (·.printing out err) := by
  have hdirectory : (memory.printing out err).directoryAt path = memory.directoryAt path := rfl
  have hlocate : (memory.printing out err).locate path = memory.locate path := rfl
  have hexists : ∀ place, (memory.printing out err).isDirectory place = memory.isDirectory place :=
    fun _ => rfl
  unfold ensureDir makeDir
  rw [hdirectory, hlocate]
  cases memory.directoryAt path with
  | ok directory => rfl
  | error e =>
    cases e
    case alreadyExists =>
      cases memory.locate path with
      | error e => rfl
      | ok place =>
        simp only [Except.map, hexists]
        split <;> rfl
    all_goals rfl

theorem makeDirs_printing (path : String) :
    (memory.printing out err).makeDirs path = (memory.makeDirs path).map (·.printing out err) := by
  unfold makeDirs
  induction pathsUp path with
  | nil => rfl
  | cons path rest ih =>
    unfold ensureFirst
    rw [ensureDir_printing, ih]
    cases memory.ensureDir path with
    | ok after => rfl
    | error e =>
      cases e
      case notFound =>
        cases memory.ensureFirst rest with
        | error e => rfl
        | ok after => exact after.ensureDir_printing out err path
      all_goals rfl

theorem programOutput_printing (name : String) :
    (memory.printing out err).programOutput name = memory.programOutput name := rfl

end Channels

/-! ## What the operations change -/

theorem eq_of_writeText {memory after : Memory} {path text : String}
    (h : memory.writeText path text = .ok after) :
    ∃ file, after = { memory with files := memory.files.insert file text.toUTF8 } := by
  unfold writeText at h
  cases hfile : memory.fileAt path with
  | error e =>
    rw [hfile] at h
    cases h
  | ok file =>
    rw [hfile] at h
    cases h
    exact ⟨file, rfl⟩

theorem eq_of_ensureDir {memory after : Memory} {path : String}
    (h : memory.ensureDir path = .ok after) :
    ∃ made, after = { memory with made := made ++ memory.made } := by
  unfold ensureDir makeDir at h
  cases hdirectory : memory.directoryAt path with
  | ok directory =>
    rw [hdirectory] at h
    cases h
    exact ⟨[directory], rfl⟩
  | error e =>
    rw [hdirectory] at h
    -- only a directory that is there already lets the rest go on
    split at h
    · split at h
      · split at h
        · cases h
          exact ⟨[], rfl⟩
        · cases h
      · cases h
    · cases h

theorem eq_of_ensureFirst {memory after : Memory} {paths : List String}
    (h : memory.ensureFirst paths = .ok after) :
    ∃ made, after = { memory with made := made ++ memory.made } := by
  induction paths generalizing after with
  | nil =>
    cases h
    exact ⟨[], rfl⟩
  | cons path rest ih =>
    unfold ensureFirst at h
    split at h
    · cases hrest : memory.ensureFirst rest with
      | error e =>
        rw [hrest] at h
        cases h
      | ok around =>
        rw [hrest] at h
        obtain ⟨made, rfl⟩ := ih hrest
        obtain ⟨more, rfl⟩ := eq_of_ensureDir h
        exact ⟨more ++ made, by rw [List.append_assoc]⟩
    · exact eq_of_ensureDir h

theorem eq_of_makeDirs {memory after : Memory} {path : String}
    (h : memory.makeDirs path = .ok after) :
    ∃ made, after = { memory with made := made ++ memory.made } :=
  eq_of_ensureFirst h

theorem eq_of_runProgram {memory after : Memory} {name input : String} {arguments : List String}
    {output : ProgramOutput} (h : memory.runProgram name arguments input = .ok (output, after)) :
    after = { memory with started := some (arguments, input) } := by
  unfold runProgram at h
  cases houtput : memory.programOutput name with
  | error e =>
    rw [houtput] at h
    cases h
  | ok output =>
    rw [houtput] at h
    cases h
    rfl


/-! ## Computations

`Leads` speaks of every computation over memories, `Prints` of those that print and return, and
`Proceeds` of those that may also fail, which are the stages of a run.
-/

variable {α β : Type} {memory : Memory}

/-- Whatever has been printed on a memory, the computation leads from it to a result and a memory on
which more has been printed. -/
def Leads (memory : Memory) (x : StateM Memory α) (Q : α → Memory → String → String → Prop) : Prop :=
  ∀ out err, ∃ a after out' err',
    x.run (memory.printing out err) = (a, after.printing (out ++ out') (err ++ err')) ∧
      Q a after out' err'

namespace Leads

variable {x : StateM Memory α} {Q R : α → Memory → String → String → Prop}

/-- A computation that prints nothing. -/
theorem of_run (a : α) (after : Memory)
    (hrun : ∀ out err, x.run (memory.printing out err) = (a, after.printing out err))
    (h : Q a after "" "") : Leads memory x Q := by
  intro out err
  refine ⟨a, after, "", "", ?_, h⟩
  rw [String.append_empty, String.append_empty]
  exact hrun out err

theorem pure {a : α} (h : Q a memory "" "") : Leads memory (Pure.pure a) Q :=
  of_run a memory (fun _ _ => rfl) h

theorem bind {f : α → StateM Memory β} {S : β → Memory → String → String → Prop}
    (hx : Leads memory x Q)
    (hf : ∀ a after out err, Q a after out err →
      Leads after (f a) fun b last out' err' => S b last (out ++ out') (err ++ err')) :
    Leads memory (x >>= f) S := by
  intro out err
  obtain ⟨a, after, out', err', hrun, hQ⟩ := hx out err
  obtain ⟨b, last, out'', err'', hrun', hS⟩ := hf a after out' err' hQ (out ++ out') (err ++ err')
  refine ⟨b, last, out' ++ out'', err' ++ err'', ?_, hS⟩
  rw [StateT.run_bind, hrun, ← String.append_assoc, ← String.append_assoc]
  exact hrun'

theorem mono (h : Leads memory x Q) (himp : ∀ a after out err, Q a after out err → R a after out err) :
    Leads memory x R := by
  intro out err
  obtain ⟨a, after, out', err', hrun, hQ⟩ := h out err
  exact ⟨a, after, out', err', hrun, himp _ _ _ _ hQ⟩

end Leads

/-- The computation only prints, and nothing on the error channel. -/
def Prints (memory : Memory) (x : StateM Memory α) (p : α → Prop) : Prop :=
  Leads memory x fun a after _ err => after = memory ∧ err = "" ∧ p a

namespace Prints

variable {x : StateM Memory α} {p : α → Prop}

theorem pure {a : α} (h : p a) : Prints memory (Pure.pure a) p :=
  Leads.pure ⟨rfl, rfl, h⟩

theorem bind {f : α → StateM Memory β} {q : β → Prop} (hx : Prints memory x p)
    (hf : ∀ a, p a → Prints memory (f a) q) : Prints memory (x >>= f) q := by
  refine Leads.bind hx ?_
  rintro a _ out _ ⟨rfl, rfl, ha⟩
  refine (hf a ha).mono ?_
  rintro b _ out' _ ⟨rfl, rfl, hb⟩
  exact ⟨rfl, rfl, hb⟩

theorem ite {c : Prop} [Decidable c] {y : StateM Memory α} (hx : Prints memory x p)
    (hy : Prints memory y p) : Prints memory (if c then x else y) p := by
  split
  · exact hx
  · exact hy

theorem forM {l : List β} {f : β → StateM Memory Unit} (h : ∀ b, Prints memory (f b) fun _ => True) :
    Prints memory (l.forM f) fun _ => True := by
  induction l with
  | nil => exact pure trivial
  | cons b l ih => exact (h b).bind fun _ _ => ih

end Prints

/-- The computation only prints, and on the error channel only if it fails. -/
def Proceeds (memory : Memory) (x : ExceptT RunError (StateM Memory) α) (p : α → Prop) : Prop :=
  Leads memory x.run fun result after _ err => after = memory ∧ ∀ a, result = .ok a → err = "" ∧ p a

/-- A computation that cannot fail, and what follows it. -/
theorem run_lift_bind (y : StateM Memory β) (f : β → ExceptT RunError (StateM Memory) α) :
    ((liftM y : ExceptT RunError (StateM Memory) β) >>= f).run = y >>= fun b => (f b).run := rfl

namespace Proceeds

variable {x : ExceptT RunError (StateM Memory) α} {p : α → Prop}

theorem pure {a : α} (h : p a) : Proceeds memory (Pure.pure a) p := by
  refine Leads.pure ⟨rfl, ?_⟩
  rintro _ ⟨⟩
  exact ⟨rfl, h⟩

theorem throw (e : RunError) : Proceeds memory (throwThe RunError e) p :=
  Leads.pure ⟨rfl, nofun⟩

theorem bind {f : α → ExceptT RunError (StateM Memory) β} {q : β → Prop} (hx : Proceeds memory x p)
    (hf : ∀ a, p a → Proceeds memory (f a) q) : Proceeds memory (x >>= f) q := by
  unfold Proceeds
  rw [ExceptT.run_bind]
  refine Leads.bind hx ?_
  rintro result _ out err ⟨rfl, hresult⟩
  cases result with
  | error e => exact Leads.pure ⟨rfl, nofun⟩
  | ok a =>
    obtain ⟨rfl, ha⟩ := hresult a rfl
    refine (hf a ha).mono ?_
    rintro result' _ out' err' ⟨rfl, hresult'⟩
    refine ⟨rfl, fun b hb => ?_⟩
    rw [String.empty_append]
    exact hresult' b hb

theorem lift {x : StateM Memory α} (hx : Prints memory x p) :
    Proceeds memory (liftM x : ExceptT RunError (StateM Memory) α) p := by
  show Leads memory (x >>= fun a => Pure.pure (Except.ok a)) _
  refine Leads.bind hx ?_
  rintro a _ out _ ⟨rfl, rfl, ha⟩
  refine Leads.pure ⟨rfl, ?_⟩
  rintro _ ⟨⟩
  exact ⟨rfl, ha⟩

/-- What is printed before a failure may go to both channels. -/
theorem complain {y : StateM Memory β} {f : β → ExceptT RunError (StateM Memory) α}
    (hy : Leads memory y fun _ after _ _ => after = memory)
    (hf : ∀ b, Proceeds memory (f b) fun _ => False) :
    Proceeds memory ((liftM y : ExceptT RunError (StateM Memory) β) >>= f) p := by
  unfold Proceeds
  rw [run_lift_bind]
  refine hy.bind ?_
  rintro b _ out err rfl
  refine (hf b).mono ?_
  rintro result _ out' err' ⟨rfl, hresult⟩
  exact ⟨rfl, fun a ha => (hresult a ha).2.elim⟩

theorem ite {c : Prop} [Decidable c] {y : ExceptT RunError (StateM Memory) α}
    (hx : Proceeds memory x p) (hy : Proceeds memory y p) :
    Proceeds memory (if c then x else y) p := by
  split
  · exact hx
  · exact hy

theorem mapM {f : β → ExceptT RunError (StateM Memory) α} {R : β → α → Prop}
    (h : ∀ b, Proceeds memory (f b) (R b)) (l : List β) :
    Proceeds memory (l.mapM f) (List.Forall₂ R l) := by
  induction l with
  | nil => exact pure .nil
  | cons b l ih =>
    rw [List.mapM_cons]
    refine (h b).bind fun a ha => ?_
    exact ih.bind fun as has => pure (.cons ha has)

end Proceeds

end Memory

end WhileSmt.Cli
