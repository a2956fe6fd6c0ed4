import Verdict.Source.Span

/-! # Source files

A source file is a named text. Errors are reported at a span of it, and are shown with the line on
which the span starts. Lines and columns count from one, positions from zero. -/

namespace Verdict

/-- A named text. -/
structure SourceFile where
  name : String
  text : List Char
deriving DecidableEq, Repr

/-- One line of a text, without its newline: its number, the position at which it starts and its
characters. -/
structure SourceLine where
  number : Nat
  start : Nat
  chars : List Char
deriving DecidableEq, Repr

/-- A message about a span of a source file. -/
structure SyntaxError where
  span : Span
  message : String
deriving DecidableEq, Repr

namespace SourceLine

/-- The number of characters on a line. -/
def length (l : SourceLine) : Nat := l.chars.length

def text (l : SourceLine) : String := String.ofList l.chars

end SourceLine

namespace SourceFile

/-- A source file from its name and contents. -/
def ofString (name text : String) : SourceFile := ⟨name, text.toList⟩

/-- The characters of a list before the first newline. -/
def untilNewline (cs : List Char) : List Char := cs.takeWhile (· != '\n')

/-- The line that holds position `index`, searched from position `pos` on: `number` and `start` are
those of the line that holds `pos`, `line` is that line up to `pos` (in reverse), and the
list is the text from `pos` on. If the position is not met, it is the last line. -/
def lineFrom (index : Int) (pos number start : Nat) (line : List Char) : List Char → SourceLine
  | [] => ⟨number, start, line.reverse⟩
  | c :: cs =>
    if (pos : Int) = index then ⟨number, start, line.reverse ++ untilNewline (c :: cs)⟩
    else if c = '\n' then lineFrom index (pos + 1) (number + 1) (pos + 1) [] cs
    else lineFrom index (pos + 1) number start (c :: line) cs

/-- The line on which a span starts. A span that starts outside the text is put on the last
line. -/
def lineOf (f : SourceFile) (span : Span) : SourceLine := lineFrom span.start 0 1 0 [] f.text

/-- The text of a span, cut off at the end of the file. There is none if the span starts before
the file or after its end. -/
def textOf? (f : SourceFile) (span : Span) : Option String :=
  let stop := min span.stop f.text.length
  if 0 ≤ span.start ∧ span.start ≤ stop then
    some (String.ofList ((f.text.take stop.toNat).drop span.start.toNat))
  else none

end SourceFile

namespace SyntaxError

/-- The column at which an error starts, counted on its line and reduced to a word. -/
def column (e : SyntaxError) (f : SourceFile) : Int64 :=
  Int64.ofInt (1 + e.span.start - (f.lineOf e.span).start)

/-- A column that fits a word is not changed. -/
theorem toInt_column (e : SyntaxError) (f : SourceFile)
    (h : Text.fitsSigned 64 (1 + e.span.start - (f.lineOf e.span).start)) :
    (e.column f).toInt = 1 + e.span.start - (f.lineOf e.span).start :=
  Text.toInt_ofInt_of_fitsSigned h

/-- An error as one line of text, with the name of the file, the line and the column. -/
def render (e : SyntaxError) (f : SourceFile) : String :=
  s!"{f.name}:{(f.lineOf e.span).number}:{(e.column f).toInt}: {e.message}"

end SyntaxError

end Verdict
