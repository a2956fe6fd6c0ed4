import Verdict.SExpr.Reader
import Verdict.Text.Blank

/-! # Responses of a solver

A solver writes one S-expression after another. A response is made of whole lines: it ends with the
first line on which something has been written and no bracket is left open. Brackets inside quotation
marks or bars do not count, and a quotation ends with its line at the latest. -/

namespace Verdict

/-- Why a response cannot be used. -/
inductive ResponseError where
  /-- The output ends within a response or before it. -/
  | endOfOutput
  /-- The lines are not one S-expression. -/
  | malformed (message : String)
  /-- The solver reports an error. -/
  | reported (text : String)
  /-- The response is not a decision. -/
  | unexpected (text : String)
deriving DecidableEq, Repr

def ResponseError.message : ResponseError → String
  | endOfOutput => "unexpected end of solver output"
  | malformed m => "malformed solver response: " ++ m
  | reported text => "solver error: " ++ text
  | unexpected text => "unexpected solver response " ++ text

/-- How deep brackets are nested at a point of the output, and the mark that ends the quotation there,
if any. -/
structure Nesting where
  depth : Int
  quote : Option Char
deriving DecidableEq, Repr

namespace Nesting

/-- Outside all brackets. -/
def outside : Nesting := ⟨0, none⟩

/-- The nesting after one more character of a line. -/
def step (n : Nesting) (c : Char) : Nesting :=
  match n.quote with
  | some q => if c = q then ⟨n.depth, none⟩ else n
  | none =>
    if c = '|' ∨ c = '"' then ⟨n.depth, some c⟩
    else if c = '(' then ⟨n.depth + 1, none⟩
    else if c = ')' then ⟨n.depth - 1, none⟩
    else n

/-- The number of brackets that a line opens, less those that it closes. -/
def ofLine (line : List Char) : Int := (line.foldl step outside).depth

end Nesting

namespace Response

/-- Whether some lines are a response: `seen` holds their characters (in reverse) and `depth` counts the
brackets left open. -/
def isComplete (seen : List Char) (depth : Int) : Bool :=
  depth ≤ 0 && seen.any fun c => !Text.isBlank c

/-- The lines of the first response in some output, with the output after them. The lines so far are
`seen` (in reverse), and `n` is the nesting at their end. -/
def splitFrom (seen : List Char) (n : Nesting) : List Char → Option (List Char × List Char)
  | [] => if isComplete seen n.depth then some (seen.reverse, []) else none
  | c :: cs =>
    if c = '\n' then
      if isComplete seen n.depth then some ((c :: seen).reverse, cs)
      else splitFrom (c :: seen) ⟨n.depth, none⟩ cs
    else splitFrom (c :: seen) (n.step c) cs

/-- The lines of the first response in some output, with the output after them. -/
def split (output : List Char) : Option (List Char × List Char) := splitFrom [] .outside output

/-- The S-expression on the lines of a response, unless it reports an error. -/
def ofLines (text : String) : Except ResponseError SExp :=
  match SExp.read text with
  | .error e => .error (.malformed e.message)
  | .ok (.list (.symbol "error" :: _)) => .error (.reported (Text.trim text))
  | .ok t => .ok t

/-- Reads the first response in some output, and gives the output after it. -/
def read (output : List Char) : Except ResponseError (SExp × List Char) :=
  match split output with
  | none => .error .endOfOutput
  | some (lines, rest) => (ofLines (String.ofList lines)).map fun t => (t, rest)

end Response

/-- What a solver says of a query. -/
inductive Decision where
  | sat
  | unsat
  | unknown
deriving DecidableEq, Repr

namespace Decision

def print : Decision → String
  | sat => "sat"
  | unsat => "unsat"
  | unknown => "unknown"

/-- The decision that a response gives. A solver that runs out of time has not decided. -/
def ofSExp : SExp → Except ResponseError Decision
  | .symbol "sat" => .ok .sat
  | .symbol "unsat" => .ok .unsat
  | .symbol "unknown" => .ok .unknown
  | .symbol "timeout" => .ok .unknown
  | other => .error (.unexpected other.printPlain)

end Decision

end Verdict
