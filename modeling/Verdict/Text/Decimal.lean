/-! # Decimal integers in text

A decimal integer is an optional sign followed by at least one digit. A reader for a word size
accepts it only if its value fits. -/

namespace Verdict.Text

def digit? (c : Char) : Option Nat := if c.isDigit then some (c.toNat - '0'.toNat) else none

/-- The number whose digits are `cs`, continued from the value `n` of the digits before. -/
def digitsFrom (n : Nat) : List Char → Option Nat
  | [] => some n
  | c :: cs => (digit? c).bind fun d => digitsFrom (10 * n + d) cs

/-- An unsigned decimal number: one digit or more. -/
def readNat? : List Char → Option Nat
  | [] => none
  | cs => digitsFrom 0 cs

/-- A decimal integer with an optional sign. -/
def readInt? (s : String) : Option Int :=
  match s.toList with
  | '+' :: cs => (readNat? cs).map Int.ofNat
  | '-' :: cs => (readNat? cs).map fun n => -Int.ofNat n
  | cs => (readNat? cs).map Int.ofNat

/-- The number of values of a word of `bits` bits. -/
def wordSize (bits : Nat) : Nat := Nat.pow 2 bits

/-- Whether a signed word of `bits` bits can hold an integer. -/
def fitsSigned (bits : Nat) (n : Int) : Bool :=
  -Int.ofNat (wordSize (bits - 1)) ≤ n && n < Int.ofNat (wordSize (bits - 1))

theorem fitsSigned_iff {n : Int} : fitsSigned 64 n ↔ -9223372036854775808 ≤ n ∧ n < 9223372036854775808 := by
  have size : wordSize (64 - 1) = 9223372036854775808 := by decide
  simp [fitsSigned, size]

/-- An integer that fits a word is not changed by its reduction to one. -/
theorem toInt_ofInt_of_fitsSigned {n : Int} (h : fitsSigned 64 n) : (Int64.ofInt n).toInt = n :=
  Int64.toInt_ofInt_of_le (fitsSigned_iff.mp h).1 (fitsSigned_iff.mp h).2

/-- A decimal integer that fits a signed word of `bits` bits. -/
def readSigned? (bits : Nat) (s : String) : Option Int := (readInt? s).filter (fitsSigned bits)

end Verdict.Text
