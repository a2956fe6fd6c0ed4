import Verdict.Text.Decimal

/-! # Numerals with a base

A numeral is decimal unless it starts with a mark for its base: `0b` for binary, `0o` or a mere `0` for
octal, `0x` for hexadecimal. Single underscores may stand between digits and after the mark. -/

namespace Verdict.Text

/-- The value of a digit or of a letter that serves as one. -/
def letterDigit? (c : Char) : Option Nat :=
  if c.isDigit then some (c.toNat - '0'.toNat)
  else if c.isLower then some (c.toNat - 'a'.toNat + 10)
  else if c.isUpper then some (c.toNat - 'A'.toNat + 10)
  else none

/-- The value of digits to a base, underscores left out, continued from the value `n` of the digits
before. -/
def baseDigitsFrom (base n : Nat) : List Char → Option Nat
  | [] => some n
  | '_' :: cs => baseDigitsFrom base n cs
  | c :: cs =>
    match letterDigit? c with
    | some d => if d < base then baseDigitsFrom base (base * n + d) cs else none
    | none => none

/-- The base that a letter after a zero stands for. -/
def baseOfLetter? (c : Char) : Option Nat :=
  match c.toLower with
  | 'b' => some 2
  | 'o' => some 8
  | 'x' => some 16
  | _ => none

/-- Whether every underscore stands between two digits. The flag says whether a digit, or the mark for
the base, stands before. -/
def separated (afterDigit : Bool) : List Char → Bool
  | [] => afterDigit
  | '_' :: cs => afterDigit && separated false cs
  | _ :: cs => separated true cs

/-- The number that a numeral stands for. -/
def readNumeral? : List Char → Option Nat
  | [] => none
  | '0' :: cs =>
    match cs with
    | m :: d :: ds =>
      match baseOfLetter? m with
      | some base => if separated true (d :: ds) then baseDigitsFrom base 0 (d :: ds) else none
      | none => if separated true cs then baseDigitsFrom 8 0 cs else none
    | _ => if separated true cs then baseDigitsFrom 8 0 cs else none
  | cs => if separated false cs then baseDigitsFrom 10 0 cs else none

/-- The number that a numeral stands for, if it fits an unsigned word of `bits` bits. -/
def readUnsignedNumeral? (bits : Nat) (s : String) : Option Nat :=
  (readNumeral? s.toList).filter fun n => n < wordSize bits

/-- The integer that a numeral with an optional sign stands for, if it fits a signed word of `bits`
bits. -/
def readSignedNumeral? (bits : Nat) (s : String) : Option Int :=
  let n := match s.toList with
    | '+' :: cs => (readNumeral? cs).map Int.ofNat
    | '-' :: cs => (readNumeral? cs).map fun n => -Int.ofNat n
    | cs => (readNumeral? cs).map Int.ofNat
  n.filter (fitsSigned bits)

end Verdict.Text
