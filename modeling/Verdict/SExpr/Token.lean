import Verdict.Text.Blank

/-! # Tokens of S-expressions

A text is a sequence of brackets and symbols, with blanks and comments between them. A comment goes
from a semicolon to the end of its line. A symbol is either enclosed in bars, or a longest run of
characters that are neither blank nor one of `( ) | ;`. -/

namespace Verdict

inductive Token.Kind where
  | opening
  | closing
  | symbol (value : String)
  /-- A bar without a second one. -/
  | unterminated
deriving DecidableEq, Repr

/-- A token, with the position of its first character and its length. -/
structure Token where
  kind : Token.Kind
  start : Nat
  length : Nat
deriving DecidableEq, Repr

namespace Token

/-- The characters that end a symbol. -/
def isDelimiter (c : Char) : Bool :=
  c == '(' || c == ')' || c == '|' || c == ';' || Text.isBlank c

/-- The characters of a symbol at the front of a text. -/
def symbolChars (cs : List Char) : List Char := cs.takeWhile fun c => !isDelimiter c

/-- The rest of a text after the symbol at its front. -/
def afterSymbol (cs : List Char) : List Char := cs.dropWhile fun c => !isDelimiter c

/-- The rest of a text after the comment at its front. -/
def afterComment (cs : List Char) : List Char := cs.dropWhile (· != '\n')

theorem length_dropWhile_le (p : Char → Bool) (cs : List Char) :
    (cs.dropWhile p).length ≤ cs.length :=
  (List.dropWhile_sublist p).length_le

/-- The text between a bar and the next one, and what follows that. -/
def barred : List Char → Option (List Char × List Char)
  | [] => none
  | c :: cs =>
    if c = '|' then some ([], cs)
    else (barred cs).map fun (inner, rest) => (c :: inner, rest)

theorem barred_length {cs inner rest : List Char} (h : barred cs = some (inner, rest)) :
    cs.length = inner.length + 1 + rest.length := by
  induction cs generalizing inner with
  | nil => simp [barred] at h
  | cons c cs ih =>
    simp only [barred] at h
    split at h
    · simp only [Option.some.injEq, Prod.mk.injEq] at h
      obtain ⟨rfl, rfl⟩ := h
      simp; omega
    · simp only [Option.map_eq_some_iff, Prod.mk.injEq, Prod.exists] at h
      obtain ⟨i, r, hr, rfl, rfl⟩ := h
      have := ih hr
      simp only [List.length_cons]; omega

/-- The tokens of a text whose first character has position `pos`. -/
def scanFrom (pos : Nat) : List Char → List Token
  | [] => []
  | c :: cs =>
    if Text.isBlank c then scanFrom (pos + 1) cs
    else if c = ';' then
      let rest := afterComment cs
      have := length_dropWhile_le (· != '\n') cs
      scanFrom (pos + 1 + (cs.length - rest.length)) rest
    else if c = '(' then ⟨.opening, pos, 1⟩ :: scanFrom (pos + 1) cs
    else if c = ')' then ⟨.closing, pos, 1⟩ :: scanFrom (pos + 1) cs
    else if c = '|' then
      match h : barred cs with
      | none => [⟨.unterminated, pos, cs.length + 1⟩]
      | some (inner, rest) =>
        have := barred_length h
        ⟨.symbol (String.ofList inner), pos, inner.length + 2⟩ ::
          scanFrom (pos + (inner.length + 2)) rest
    else
      let chars := c :: symbolChars cs
      have := length_dropWhile_le (fun c => !isDelimiter c) cs
      ⟨.symbol (String.ofList chars), pos, chars.length⟩ ::
        scanFrom (pos + chars.length) (afterSymbol cs)
termination_by cs => cs.length
decreasing_by all_goals simp_all [afterComment, afterSymbol]; try omega

def scan (cs : List Char) : List Token := scanFrom 0 cs

end Token

end Verdict
