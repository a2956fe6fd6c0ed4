import Verdict.Source.File
import Verdict.SExpr.Basic
import Verdict.SExpr.Token

/-! # Reading S-expressions

Tokens are read into trees that carry the span of every symbol and list. Reading keeps the lists
that are still open on a stack, so it follows the sequence of tokens. -/

namespace Verdict

/-- An S-expression together with where it and its parts stand in a text. -/
inductive STree where
  | symbol (span : Span) (value : String)
  | list (span : Span) (elements : List STree)
deriving Repr

/-- Why a text cannot be read. -/
inductive ReadError where
  /-- A closing bracket without an opening one. -/
  | unexpectedClosing
  /-- The text ends where a term is expected or inside a list. -/
  | unexpectedEnd
  /-- A bar without a second one. -/
  | unterminatedSymbol
  /-- Something follows the only term that is expected. -/
  | unexpectedRemainder
deriving DecidableEq, Repr

def ReadError.message : ReadError → String
  | unexpectedClosing => "unexpected end-of-list"
  | unexpectedEnd => "unexpected end-of-file"
  | unterminatedSymbol => "unterminated quoted symbol"
  | unexpectedRemainder => "unexpected remainder"

namespace STree

/-- Where a tree stands. -/
def span : STree → Span
  | symbol s _ => s
  | list s _ => s

mutual

/-- The S-expression of a tree. -/
def erase : STree → SExp
  | symbol _ value => .symbol value
  | list _ elements => .list (eraseAll elements)

/-- The S-expressions of several trees. -/
def eraseAll : List STree → List SExp
  | [] => []
  | t :: ts => t.erase :: eraseAll ts

end

/-- A list that is not closed yet: where it opens, and its elements so far (in reverse). -/
structure Pending where
  start : Nat
  elements : List STree

/-- The pending list with one more element. -/
def Pending.push (p : Pending) (t : STree) : Pending := ⟨p.start, t :: p.elements⟩

/-- The list that a closing bracket at position `pos` completes. -/
def Pending.close (p : Pending) (pos : Nat) : STree :=
  .list (Span.ofLength p.start (pos + 1 - p.start)) p.elements.reverse

/-- The failure of reading at a token, or at the end of the text: its cause and the position. -/
abbrev Failure := ReadError × Option Nat

/-- The next tree of a sequence of tokens, with the tokens after it; there is none if there are no
tokens left. The stack holds the open lists, the innermost first. -/
def next (stack : List Pending) : List Token → Except Failure (Option (STree × List Token))
  | [] => if stack.isEmpty then .ok none else .error (.unexpectedEnd, none)
  | t :: ts =>
    match t.kind, stack with
    | .opening, _ => next (⟨t.start, []⟩ :: stack) ts
    | .closing, [] => .error (.unexpectedClosing, some t.start)
    | .closing, [p] => .ok (some (p.close t.start, ts))
    | .closing, p :: q :: stack => next (q.push (p.close t.start) :: stack) ts
    | .symbol value, [] => .ok (some (.symbol (Span.ofLength t.start t.length) value, ts))
    | .symbol value, p :: stack =>
      next (p.push (.symbol (Span.ofLength t.start t.length) value) :: stack) ts
    | .unterminated, _ => .error (.unterminatedSymbol, none)

theorem next_length {stack : List Pending} {ts rest : List Token} {t : STree}
    (h : next stack ts = .ok (some (t, rest))) : rest.length < ts.length := by
  fun_induction next stack ts <;> simp_all <;> omega

/-- The trees of a sequence of tokens, up to the first failure. -/
def readTokens (ts : List Token) : List STree × Option Failure :=
  match h : next [] ts with
  | .error e => ([], some e)
  | .ok none => ([], none)
  | .ok (some (t, rest)) =>
    have := next_length h
    let (trees, e) := readTokens rest
    (t :: trees, e)
termination_by ts.length

/-- A failure as an error at the character where it arises. -/
def syntaxError (f : SourceFile) : Failure → SyntaxError
  | (cause, some pos) => ⟨Span.ofLength pos 1, cause.message⟩
  | (cause, none) => ⟨Span.ofLength f.text.length 0, cause.message⟩

/-- All trees of a file, up to the first failure. -/
def readAll (f : SourceFile) : List STree × Option SyntaxError :=
  let (trees, e) := readTokens (Token.scan f.text)
  (trees, e.map (syntaxError f))

/-- The only tree of a file. -/
def read (f : SourceFile) : Except SyntaxError STree :=
  match next [] (Token.scan f.text) with
  | .error e => .error (syntaxError f e)
  | .ok (some (t, [])) => .ok t
  | .ok (some (_, t :: _)) => .error (syntaxError f (.unexpectedRemainder, some t.start))
  | .ok none => .error (syntaxError f (.unexpectedEnd, none))

end STree

namespace SExp

/-- The only S-expression of a text. -/
def read (text : String) : Except SyntaxError SExp :=
  (STree.read (.ofString "<string>" text)).map STree.erase

end SExp

end Verdict
