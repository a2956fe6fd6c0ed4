import Verdict.Smt.Encoding
import Verdict.Text.Lines

/-! # Queries

A query asks a solver whether some assertions can hold together. Its script declares the constants and
functions that occur, makes the assertions and asks for a decision. -/

namespace Verdict

/-- What a solver is asked. -/
structure Query where
  /-- A description of the query. -/
  comment : String
  declarations : Declarations
  assertions : List Term

namespace Query

def declareConst (x : String) (s : SmtSort) : SExp := .app "declare-const" [.symbol x, s.toSExp]

def declareFun (f : String) (sig : FunctionSort) : SExp :=
  .app "declare-fun" [.symbol f, .list (sig.args.map SmtSort.toSExp), sig.result.toSExp]

/-- The declarations of a query: constants first, both kinds in the order of their names. -/
def declarationCommands (q : Query) : List SExp :=
  q.declarations.consts.entries.map (fun e => declareConst e.1 e.2) ++
    q.declarations.funs.entries.map fun e => declareFun e.1 e.2

/-- The declarations and assertions of a query, unless a part of an assertion is absent. -/
def commands? (q : Query) : Option (List SExp) := do
  let asserted ← q.assertions.mapM Term.toSExp
  return q.declarationCommands ++ asserted.map fun t => .app "assert" [t]

/-- The commands of a query, from its options to the question. -/
def script? (q : Query) : Option (List SExp) := do
  let commands ← q.commands?
  return .app "set-option" [.symbol ":produce-models", .symbol "true"] ::
    (commands ++ [.app "check-sat" []])

/-- A comment, one line for each line of its text. -/
def printComment (comment : String) : String :=
  if comment = "" then ""
  else String.join ((Text.lines comment).map fun line => "; " ++ line ++ "\n")

/-- A command on one line, or laid out. -/
def printCommand (layout : Option Layout) (t : SExp) : String :=
  match layout with
  | some style => style.format t
  | none => t.print

/-- The text of a query, unless a part of an assertion is absent. -/
def print? (q : Query) (layout : Option Layout) : Option String := do
  let script ← q.script?
  return printComment q.comment ++
    String.join (script.map fun t => printCommand layout t ++ "\n")

end Query

end Verdict
