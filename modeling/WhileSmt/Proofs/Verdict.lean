import WhileSmt.Cli.Verifier
import WhileSmt.Proofs.Smt.Outputs

/-!
Verdicts on equivalence. If the script of a question cannot be saved, there is no verdict and no
solver is asked. If it can, or need not be, lists with different numbers of assigned names are told
apart before any solver is asked. Otherwise the solver is asked once, and its answer is the verdict.

Main statement: `Cli.Verifier.consult_equivalence`. What happens to a question whose script has no
place to be saved in is `Cli.Verifier.consult_without_place`.
-/

namespace WhileSmt

namespace Code

/-- The names that are assigned, in the order of their first assignments. -/
def targetNames (code : Code) : List String :=
  ((targets code).map Version.base).eraseDups

theorem map_base_outputs (code : Code) :
    (outputs code).map Version.base = targetNames code :=
  (latest_outputs code).order

theorem length_outputs (code : Code) : (outputs code).length = (targetNames code).length := by
  rw [← map_base_outputs, List.length_map]

/-- The outputs are the targets of the last assignments, name by name. -/
theorem map_some_outputs (code : Code) :
    (outputs code).map some = (targetNames code).map (lastTarget? · code) := by
  rw [← map_base_outputs, List.map_map]
  refine List.map_congr_left ?_
  intro v hv
  exact (mem_outputs_iff.mp hv).symm

end Code

/-- Whether an answer says that a script is satisfiable. A failure does not. -/
def saysSat : Except SolverError Answer → Bool
  | .ok answer => answer.isSat
  | .error _ => false

theorem Question.verdict_conclude (q : Question) (answer : Except SolverError Answer) :
    (q.conclude answer).verdict = q.verdict (saysSat answer) := by
  cases answer with
  | error e => rfl
  | ok answer => cases answer <;> rfl

namespace Cli

variable {σ : Type}

/-! ## The scripts that a solver is given -/

/-- A computation on a state, beside which scripts are kept. -/
def beside {α : Type} (x : StateM σ α) : StateM (σ × List String) α :=
  fun state => ((x.run state.1).1, (x.run state.1).2, state.2)

theorem beside_bind {α β : Type} (x : StateM σ α) (f : α → StateM σ β) :
    beside (x >>= f) = beside x >>= fun a => beside (f a) := rfl

/-- An archive, beside which scripts are kept. -/
def Archive.beside (archive : Archive (StateM σ)) : Archive (StateM (σ × List String)) where
  directory := archive.directory
  makeDirs path := Cli.beside (archive.makeDirs path)
  writeText path text := Cli.beside (archive.writeText path text)
  now := Cli.beside archive.now

/-- Saving a script asks no solver. -/
theorem Archive.save_beside (archive : Archive (StateM σ)) (q : Question) :
    archive.beside.save q = Cli.beside (archive.save q) := by
  unfold save
  rw [beside_bind]
  refine bind_congr fun made => ?_
  cases made with
  | error e => rfl
  | ok _ =>
    rw [beside_bind]
    refine bind_congr fun stamp => ?_
    dsimp only
    rw [beside_bind]
    refine bind_congr fun written => ?_
    cases written with
    | error e => rfl
    | ok _ => rfl

namespace Verifier

/-- The verifier that keeps the scripts that its solver is given. -/
def recording (v : Verifier (StateM σ)) : Verifier (StateM (σ × List String)) where
  archive := v.archive.map Archive.beside
  ask script state :=
    ((v.ask script state.1).1, (v.ask script state.1).2, state.2 ++ [script])

/-- What a check comes to, and the scripts that the solver is given for it. -/
def consult (v : Verifier (StateM σ)) (q : Question) (state : σ) :
    Except SaveError Report × List String :=
  let (result, final) := (v.recording.check q).run (state, [])
  (result, final.2)

theorem save_recording (v : Verifier (StateM σ)) (q : Question) :
    v.recording.save q = beside (v.save q) := by
  unfold save recording
  cases v.archive with
  | none => rfl
  | some archive =>
    show (archive.beside.save q >>= fun saved => pure (saved.map some)) = _
    rw [archive.save_beside q, beside_bind]
    rfl

/-- A script is saved first. If that fails, the check ends; otherwise the numbers of outputs are
compared, and only then the solver is asked. -/
theorem consult_eq (v : Verifier (StateM σ)) (q : Question) (state : σ) :
    v.consult q state =
      match (v.save q).run state with
      | (.error e, _) => (.error e, [])
      | (.ok saved, after) =>
        match q.script.mismatch with
        | some (first, second) => (.ok { q.differing first second with savedTo := saved }, [])
        | none =>
          (.ok { q.conclude ((v.ask q.script.text).run after).1 with savedTo := saved },
            [q.script.text]) := by
  rw [consult, check, save_recording]
  -- the state after saving is that of the verifier, with no script beside it
  simp only [bind, StateT.bind, StateT.run, beside]
  cases hsave : v.save q state with
  | mk saved after =>
    cases saved with
    | error e => rfl
    | ok file =>
      dsimp only
      cases q.script.mismatch with
      | none => rfl
      | some counts => rfl

/-- With no directory for scripts, nothing is saved. -/
theorem save_of_no_archive {v : Verifier (StateM σ)} (h : v.archive = none) (q : Question)
    (state : σ) : (v.save q).run state = (.ok none, state) := by
  rw [save, h]
  rfl

section Saved

variable {v : Verifier (StateM σ)} {q : Question} {state after : σ} {file : Option String}

theorem consult_of_mismatch (hsave : (v.save q).run state = (.ok file, after))
    {first second : Nat} (h : q.script.mismatch = some (first, second)) :
    v.consult q state = (.ok { q.differing first second with savedTo := file }, []) := by
  rw [consult_eq, hsave, h]

theorem consult_of_no_mismatch (hsave : (v.save q).run state = (.ok file, after))
    (h : q.script.mismatch = none) :
    v.consult q state =
      (.ok { q.conclude ((v.ask q.script.text).run after).1 with savedTo := file },
        [q.script.text]) := by
  rw [consult_eq, hsave, h]

end Saved

/-- Every assigned name has one output, the target of its last assignment, in the order of the first
assignments. A script that cannot be saved ends the check, without a verdict and without asking the
solver. If it is saved, or no directory for it is given, two lists with different numbers of assigned
names are not equivalent for that reason, then and only then, and without asking the solver.
Otherwise it is given the script, once, and the lists are equivalent if and only if it says that the
script is satisfiable. -/
theorem consult_equivalence :
    (∀ code : Code,
      (Code.outputs code).map Version.base = Code.targetNames code ∧
        (Code.outputs code).map some = (Code.targetNames code).map (Code.lastTarget? · code)) ∧
    ∀ (first second : Code) (σ : Type) (v : Verifier (StateM σ)) (state : σ),
      (v.archive = none → (v.save (.equivalence first second)).run state = (.ok none, state)) ∧
      (∀ e after, (v.save (.equivalence first second)).run state = (.error e, after) →
        v.consult (.equivalence first second) state = (.error e, [])) ∧
      ∀ file after, (v.save (.equivalence first second)).run state = (.ok file, after) →
        ((∃ report,
            v.consult (.equivalence first second) state = (.ok report, []) ∧
              report.verdict = .notEquivalent ∧
              report.reason = some (.outputCounts (Code.targetNames first).length
                (Code.targetNames second).length)) ↔
          (Code.targetNames first).length ≠ (Code.targetNames second).length) ∧
        ((Code.targetNames first).length = (Code.targetNames second).length →
          ∃ report,
            v.consult (.equivalence first second) state =
              (.ok report, [(Script.equivalence first second).text]) ∧
            report.savedTo = file ∧
            (report.verdict = .equivalent ↔
              saysSat ((v.ask (Script.equivalence first second).text).run after).1 = true)) := by
  refine ⟨fun code => ⟨Code.map_base_outputs code, Code.map_some_outputs code⟩, ?_⟩
  intro first second σ v state
  refine ⟨fun hnone => save_of_no_archive hnone _ state, ?_, ?_⟩
  · intro e after hsave
    rw [consult_eq, hsave]
  intro file after hsave
  have hmismatch := Script.mismatch_equivalence first second
  rw [Code.length_outputs, Code.length_outputs] at hmismatch
  by_cases hlen : (Code.targetNames first).length = (Code.targetNames second).length
  · rw [if_pos hlen] at hmismatch
    have hconsult := consult_of_no_mismatch hsave hmismatch
    refine ⟨⟨?_, fun hne => absurd hlen hne⟩, fun _ => ⟨_, hconsult, rfl, ?_⟩⟩
    · rintro ⟨report, hreport, -⟩
      rw [hconsult] at hreport
      cases hreport
    · show (Question.conclude _ _).verdict = _ ↔ _
      rw [Question.verdict_conclude]
      show Question.verdict (.equivalence first second)
        (saysSat ((v.ask (Script.equivalence first second).text).run after).1) = _ ↔ _
      cases saysSat ((v.ask (Script.equivalence first second).text).run after).1 <;>
        simp [Question.verdict]
  · rw [if_neg hlen] at hmismatch
    have hconsult := consult_of_mismatch hsave hmismatch
    exact ⟨⟨fun _ => hlen, fun _ => ⟨_, hconsult, rfl, rfl⟩⟩, fun heq => absurd heq hlen⟩

end Verifier

/-! ## Instances -/

/-- The list that assigns one name. -/
def oneOutput : Code :=
  [.define ⟨"x", 0, none⟩ (.lit 1)]

/-- A verifier that counts its saved scripts, and whose solver finds every script satisfiable. -/
def countingVerifier (made : Except FileError Unit) : Verifier (StateM Nat) where
  archive := some
    { directory := "scripts", makeDirs := fun _ => pure made,
      writeText := fun _ _ => do modify (· + 1); return .ok (),
      now := return ⟨"noon", "noon"⟩ }
  ask _ := return .ok (.sat none)

/-- A list is equivalent to itself for a solver that says so, after one script is saved. -/
theorem Verifier.consult_equivalence_saved :
    ∃ report, (countingVerifier (.ok ())).consult (.equivalence oneOutput oneOutput) 0 =
        (.ok report, [(Script.equivalence oneOutput oneOutput).text]) ∧
      report.savedTo = some "scripts/equiv_noon.smt2" ∧ report.verdict = .equivalent := by
  have hpath : joinPath "scripts" "equiv_noon.smt2" = "scripts/equiv_noon.smt2" := by
    decide +kernel
  have hsave : ((countingVerifier (.ok ())).save (.equivalence oneOutput oneOutput)).run 0 =
      (.ok (some "scripts/equiv_noon.smt2"), 1) := by
    rw [← hpath]
    rfl
  obtain ⟨-, hask⟩ := (Verifier.consult_equivalence.2 oneOutput oneOutput Nat
    (countingVerifier (.ok ())) 0).2.2 _ _ hsave
  obtain ⟨report, hconsult, hfile, hverdict⟩ := hask rfl
  exact ⟨report, hconsult, hfile, hverdict.mpr rfl⟩

/-- Lists with one output and none get no verdict if the directory for scripts cannot be made. -/
theorem Verifier.consult_without_place :
    (Code.targetNames oneOutput).length ≠ (Code.targetNames []).length ∧
      (countingVerifier (.error .alreadyExists)).consult (.equivalence oneOutput []) 0 =
        (.error (.directory .alreadyExists), []) := by
  refine ⟨by decide +kernel, ?_⟩
  rw [consult_eq]
  rfl

end Cli

end WhileSmt
