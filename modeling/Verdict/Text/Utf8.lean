/-! # Text from bytes

Bytes are read as UTF-8. A byte that does not start a valid encoding stands for the replacement
character, and reading goes on with the byte after it. -/

namespace Verdict.Text

/-- The character that stands for a byte outside every valid encoding. -/
def replacement : Char := Char.ofNat 0xFFFD

/-- A byte that continues an encoding. -/
def isContinuation (b : Nat) : Bool := 0x80 ≤ b && b ≤ 0xBF

/-- The second bytes allowed after the first byte of a three-byte encoding: overlong forms and
surrogates are left out. -/
def secondOfThree (lead b : Nat) : Bool :=
  (if lead == 0xE0 then 0xA0 else 0x80) ≤ b && b ≤ (if lead == 0xED then 0x9F else 0xBF)

/-- The second bytes allowed after the first byte of a four-byte encoding: overlong forms and
numbers above the last code point are left out. -/
def secondOfFour (lead b : Nat) : Bool :=
  (if lead == 0xF0 then 0x90 else 0x80) ≤ b && b ≤ (if lead == 0xF4 then 0x8F else 0xBF)

/-- The first character of a sequence of bytes, with the number of bytes it takes after the
first. -/
def firstChar (b : Nat) (rest : List Nat) : Char × Nat :=
  if b < 0x80 then (Char.ofNat b, 0)
  else if 0xC2 ≤ b && b ≤ 0xDF then
    match rest with
    | c :: _ =>
      if isContinuation c then (Char.ofNat ((b - 0xC0) * 64 + (c - 0x80)), 1) else (replacement, 0)
    | _ => (replacement, 0)
  else if 0xE0 ≤ b && b ≤ 0xEF then
    match rest with
    | c :: d :: _ =>
      if secondOfThree b c && isContinuation d then
        (Char.ofNat (((b - 0xE0) * 64 + (c - 0x80)) * 64 + (d - 0x80)), 2)
      else (replacement, 0)
    | _ => (replacement, 0)
  else if 0xF0 ≤ b && b ≤ 0xF4 then
    match rest with
    | c :: d :: e :: _ =>
      if secondOfFour b c && isContinuation d && isContinuation e then
        (Char.ofNat ((((b - 0xF0) * 64 + (c - 0x80)) * 64 + (d - 0x80)) * 64 + (e - 0x80)), 3)
      else (replacement, 0)
    | _ => (replacement, 0)
  else (replacement, 0)

/-- The characters of a sequence of bytes. -/
def decodeUtf8 : List Nat → List Char
  | [] => []
  | b :: rest => (firstChar b rest).1 :: decodeUtf8 (rest.drop (firstChar b rest).2)
termination_by bytes => bytes.length
decreasing_by simp only [List.length_drop, List.length_cons]; omega

end Verdict.Text
