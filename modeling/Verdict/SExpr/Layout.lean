import Verdict.SExpr.Basic

/-! # Laying out S-expressions

A layout writes an S-expression within a width. What fits on the rest of the current line is written
flat; any other list is broken, with each argument on a line of its own, indented by its depth.
Widths count bytes of UTF-8. -/

namespace Verdict

/-- How S-expressions are laid out. -/
structure Layout where
  /-- The width a line should not pass. -/
  width : Nat
  /-- The heads that keep their first argument beside them when their list is broken. -/
  sticky : List String
deriving Repr

namespace Layout

/-- The blanks in front of a line at a depth: three for each level. -/
def indent (depth : Nat) : String := String.ofList (List.replicate (3 * depth) ' ')

/-- A piece of text, and the width of the current line after it. -/
structure Piece where
  text : String
  width : Nat

/-- The piece that writes `s` on a line of which `width` is taken. -/
def Piece.flat (width : Nat) (s : String) : Piece := ⟨s, width + s.utf8ByteSize⟩

mutual

/-- Writes an S-expression at a depth, on a line of which `width` is taken. -/
def piece (style : Layout) (depth width : Nat) : SExp → Piece
  | .symbol value => .flat width (SExp.quote value)
  | .list [] => .flat width "()"
  | .list [t] => .flat width ("(" ++ t.print ++ ")")
  | .list (head :: args) =>
    let flat := SExp.print (.list (head :: args))
    if width + flat.utf8ByteSize ≤ style.width then .flat width flat
    else
      let first := style.piece (depth + 1) (width + 1) head
      let keep := style.sticky.contains ((SExp.headOf [head]).getD "")
      let rest := style.arguments (depth + 1) first.width keep args
      ⟨"(" ++ first.text ++ rest.text ++ ")", rest.width + 1⟩

/-- Writes the arguments of a broken list, the first one on the current line if it is kept
there. -/
def arguments (style : Layout) (depth width : Nat) (keep : Bool) : List SExp → Piece
  | [] => ⟨"", width⟩
  | t :: ts =>
    let gap := if keep then " " else "\n" ++ indent depth
    let start := if keep then width + 1 else 3 * depth
    let first := style.piece depth start t
    let rest := style.arguments depth first.width false ts
    ⟨gap ++ first.text ++ rest.text, rest.width⟩

end

/-- The laid-out text of an S-expression. -/
def format (style : Layout) (t : SExp) : String := (style.piece 0 0 t).text

end Layout

end Verdict
