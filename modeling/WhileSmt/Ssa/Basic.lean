import WhileSmt.Expr.Basic
import WhileSmt.Names

/-!
Single-assignment form: lists of instructions over numbered versions of names, in which every
version is defined at most once. Where paths of a program meet, a join defines one version from
the versions that arrive; its guard, if it has one, says which of them is taken.

The number of a version has no greatest value here. Numbers are taken to stay below 2³², as a counter
of 32 bits needs it: none of them exceeds the number of instructions (`Program.number_le_length`).
-/

namespace WhileSmt

/-- A version of a name. The marker keeps the versions of two programs apart. -/
structure Version where
  base : String
  number : Nat
  marker : Option String := none
deriving DecidableEq, Inhabited

/-- A version as listings and scripts write it. -/
def Version.text (v : Version) : String :=
  v.base ++ "_" ++ Text.natural v.number ++
    match v.marker with
    | some marker => "_" ++ marker
    | none => ""

/-- A version of another program, with a marker after its number. -/
def Version.mark (marker : String) (v : Version) : Version :=
  { v with marker := some marker }

/-- Instructions: a definition, a join of several versions, and an assertion. -/
inductive Instr where
  | define (target : Version) (value : Expr Version)
  | join (result : Version) (operands : List Version) (guard : Option (Expr Version))
  | check (cond : Expr Version)
deriving DecidableEq, Inhabited

namespace Instr

/-- The version that an instruction defines. -/
def defined? : Instr → Option Version
  | define target _ => some target
  | join result _ _ => some result
  | check _ => none

/-- The versions that an instruction reads, in order and with repetitions. -/
def uses : Instr → List Version
  | define _ value => value.names
  | join _ operands guard => operands ++ (guard.map Expr.names).getD []
  | check cond => cond.names

/-- Replaces every version, defined or read. -/
def map (f : Version → Version) : Instr → Instr
  | define target value => define (f target) (value.map f)
  | join result operands guard => join (f result) (operands.map f) (guard.map (Expr.map f))
  | check cond => check (cond.map f)

/-- An instruction as listings write it. -/
def text : Instr → String
  | define target value => target.text ++ " = " ++ value.render Version.text
  | join result operands guard =>
    result.text ++ " = φ(" ++ ", ".intercalate (operands.map Version.text) ++ ")" ++
      match guard with
      | some guard => " [" ++ guard.render Version.text ++ "]"
      | none => ""
  | check cond => "assert(" ++ cond.render Version.text ++ ")"

end Instr

/-- A program after its names were numbered. -/
abbrev Code := List Instr

namespace Code

/-- The versions that a list of instructions defines, in order. -/
def defined (code : Code) : List Version :=
  code.filterMap Instr.defined?

/-- The versions that a list of instructions reads, in order and with repetitions. -/
def uses (code : Code) : List Version :=
  code.flatMap Instr.uses

/-- Puts a marker on every version. -/
def mark (marker : String) (code : Code) : Code :=
  code.map (Instr.map (Version.mark marker))

end Code

/-- The first element of a list that has occurred before, in the list or among `seen`. -/
def firstRepeat? {α : Type} [DecidableEq α] (seen : List α) : List α → Option α
  | [] => none
  | x :: rest => if x ∈ seen then some x else firstRepeat? (x :: seen) rest

/-- The first version that is defined a second time. -/
def Code.redefined? (code : Code) : Option Version :=
  firstRepeat? [] (Code.defined code)

/-- A program in single-assignment form, with the version of every name at its end. -/
structure SsaForm where
  code : Code
  finals : NameMap Version

end WhileSmt
