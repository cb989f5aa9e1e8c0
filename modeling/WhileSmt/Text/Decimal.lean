/-!
Decimal integers: writing them, and reading the ones that fit in 64 bits.
-/

namespace WhileSmt.Text

/-- The character for a digit. -/
def digitChar (d : Nat) : Char :=
  Char.ofNat ('0'.toNat + d)

/-- The decimal digits. -/
def isDigit (c : Char) : Bool :=
  '0' ≤ c && c ≤ '9'

/-- The digit that a character stands for. -/
def digitValue (c : Char) : Nat :=
  c.toNat - '0'.toNat

/-- The decimal digits of a natural number, without leading zeros. -/
def digits (n : Nat) : List Char :=
  if n < 10 then [digitChar n] else digits (n / 10) ++ [digitChar (n % 10)]

/-- The decimal text of a natural number. -/
def natural (n : Nat) : String :=
  String.ofList (digits n)

/-- The decimal text of an integer: a minus sign for a negative number, then the digits. -/
def integer : Int → String
  | .ofNat n => natural n
  | .negSucc n => "-" ++ natural (n + 1)

/-- The value of a text of digits; there must be at least one, and nothing else. -/
def readNatural? (text : List Char) : Option Nat :=
  if text.isEmpty || !text.all isDigit then none
  else some (text.foldl (fun n c => 10 * n + digitValue c) 0)

/-- The value of an optional sign and digits. -/
def readInteger? : List Char → Option Int
  | '-' :: rest => (readNatural? rest).map fun n => -(n : Int)
  | '+' :: rest => (readNatural? rest).map Int.ofNat
  | text => (readNatural? text).map Int.ofNat

/-- The 64-bit integer equal to `n`, if there is one. -/
def narrow? (n : Int) : Option Int64 :=
  if h : Int64.minValue.toInt ≤ n ∧ n ≤ Int64.maxValue.toInt then
    some (Int64.ofIntLE n h.1 h.2)
  else
    none

/-- Reads a signed 64-bit integer; a value out of range is no integer. -/
def readInt64? (text : List Char) : Option Int64 :=
  (readInteger? text).bind narrow?

/-- The decimal text of a 64-bit integer. -/
def int64 (n : Int64) : String :=
  integer n.toInt

theorem narrow?_eq_some_iff {n : Int} {w : Int64} : narrow? n = some w ↔ w.toInt = n := by
  unfold narrow?
  split
  · next h =>
    simp only [Option.some.injEq]
    constructor
    · rintro rfl
      exact Int64.toInt_ofIntLE
    · intro hw
      exact Int64.toInt_inj.mp (by rw [Int64.toInt_ofIntLE, hw])
  · next h =>
    constructor
    · intro hn
      cases hn
    · intro hw
      subst hw
      exact absurd ⟨Int64.minValue_le_toInt w, Int64.toInt_le w⟩ h

end WhileSmt.Text
