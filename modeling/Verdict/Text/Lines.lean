/-! # Lines of text -/

namespace Verdict.Text

/-- Splits characters at newlines: the first line, and the lines after it. -/
def splitLines : List Char → List Char × List (List Char)
  | [] => ([], [])
  | c :: cs =>
    let (line, rest) := splitLines cs
    if c = '\n' then ([], line :: rest) else (c :: line, rest)

/-- The lines of a text. A newline stands between two lines, so there is one line more than there
are newlines. -/
def lines (s : String) : List String :=
  let (line, rest) := splitLines s.toList
  (line :: rest).map String.ofList

end Verdict.Text
