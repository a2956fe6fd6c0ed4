import Verdict.Text.Decimal

/-! # Durations in text

A duration is a sequence of decimal numbers, each with a unit, such as `1h30m` or `1.5s`. A sign may
stand before the first number. A lone zero needs no unit. Durations are counted in nanoseconds and fit a
signed word of 64 bits. -/

namespace Verdict.Text

/-- The number of nanoseconds in a unit. -/
def timeUnit? : String → Option Nat
  | "ns" => some 1
  | "us" | "µs" | "μs" => some 1000
  | "ms" => some 1000000
  | "s" => some 1000000000
  | "m" => some (60 * 1000000000)
  | "h" => some (3600 * 1000000000)
  | _ => none

/-- Whether a character belongs to a number rather than to a unit. -/
def inNumber (c : Char) : Bool := c.isDigit || c == '.'

/-- The greatest number of nanoseconds that is counted on the way. -/
def durationLimit : Nat := wordSize 63

/-- The number of nanoseconds in a number of units. What is less than a nanosecond is dropped. -/
def measure? (number : List Char) (nanoseconds : Nat) : Option Nat := do
  let whole := number.takeWhile Char.isDigit
  let rest := number.dropWhile Char.isDigit
  let fraction := rest.drop 1
  if whole.isEmpty && fraction.isEmpty then none
  let w ← digitsFrom 0 whole
  let f ← digitsFrom 0 fraction
  let n := w * nanoseconds + f * nanoseconds / Nat.pow 10 fraction.length
  if w ≤ durationLimit && n ≤ durationLimit then some n else none

/-- The number of nanoseconds in a sequence of runs of characters, in which numbers and units take
turns. -/
def sumRuns : List (List Char) → Option Nat
  | [] => some 0
  | [_] => none
  | number :: unit :: rest => do
    let n ← measure? number (← timeUnit? (String.ofList unit))
    let m ← sumRuns rest
    if n + m ≤ durationLimit then some (n + m) else none

/-- The number of nanoseconds in a duration without a sign. -/
def readUnsignedDuration? (cs : List Char) : Option Nat :=
  if cs = ['0'] then some 0
  else if cs.isEmpty then none
  else sumRuns (cs.splitBy fun a b => inNumber a == inNumber b)

/-- The number of nanoseconds in a duration. -/
def readDuration? (s : String) : Option Int :=
  match s.toList with
  | '-' :: cs => (readUnsignedDuration? cs).map fun n => -Int.ofNat n
  | '+' :: cs => ((readUnsignedDuration? cs).filter (· < durationLimit)).map Int.ofNat
  | cs => ((readUnsignedDuration? cs).filter (· < durationLimit)).map Int.ofNat

end Verdict.Text
