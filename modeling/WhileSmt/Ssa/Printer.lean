import WhileSmt.Ssa.Basic

/-! Listings of instructions, one per line. -/

namespace WhileSmt

namespace Code

/-- One instruction per line, without a line end after the last. -/
def text (code : Code) : String :=
  "\n".intercalate (code.map Instr.text)

/-- The number of digits of the greatest number that a numbered listing could reach. -/
def numberWidth (code : Code) : Nat :=
  (Text.digits code.length).length

/-- Fills a number with blanks on the left. -/
def alignRight (width n : Nat) : String :=
  let digits := Text.digits n
  String.ofList (List.replicate (width - digits.length) ' ' ++ digits)

/-- The instructions with their positions in front, counted from `first`. -/
def numberedLines (width : Nat) (first : Nat) : Code → String
  | [] => ""
  | instr :: rest =>
    alignRight width first ++ ": " ++ instr.text ++ "\n" ++ numberedLines width (first + 1) rest

/-- A listing, with the position in front of every instruction if `numbered` is set. -/
def listing (numbered : Bool) (code : Code) : String :=
  if numbered then numberedLines (numberWidth code) 0 code
  else if code.isEmpty then ""
  else text code ++ "\n"

/-- How many instructions of each kind there are. -/
def summary (code : Code) : String :=
  let defines := code.countP fun | .define .. => true | _ => false
  let joins := code.countP fun | .join .. => true | _ => false
  let checks := code.countP fun | .check .. => true | _ => false
  "Defines: " ++ Text.natural defines ++ ", Phis: " ++ Text.natural joins ++
    ", Asserts: " ++ Text.natural checks

end Code

/-- The versions at the end of a program, if there are any. -/
def SsaForm.finalListing (form : SsaForm) : String :=
  if form.finals.toList.isEmpty then ""
  else
    "\n; final versions\n" ++
      String.join (form.finals.toList.map fun (base, version) =>
        ";   " ++ base ++ " -> " ++ version.text ++ "\n")

/-- A listing of a program; `detailed` adds positions and the versions at the end. -/
def SsaForm.listing (detailed : Bool) (form : SsaForm) : String :=
  Code.listing detailed form.code ++ if detailed then form.finalListing else ""

end WhileSmt
