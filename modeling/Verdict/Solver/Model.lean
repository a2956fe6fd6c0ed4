import Verdict.NameMap
import Verdict.Smt.Term

/-! # Models

A solver that finds a counterexample describes it by a model: a value for every constant. The
interpretations of functions and the constants that a solver makes up for itself are left out. -/

namespace Verdict

/-- The values of the constants. -/
abbrev Model := NameMap Term

/-- Why an answer is not a model. -/
inductive ModelError where
  /-- The answer is not a list. -/
  | notList (text : String)
  /-- A part of the answer is not a definition. -/
  | notDefinition (text : String)
  /-- A value is not a term. -/
  | value (e : Term.ReadError)

def ModelError.message : ModelError → String
  | notList text => "invalid model " ++ text
  | notDefinition text => "invalid definition " ++ text
  | value e => e.message

namespace Model

/-- Whether a name is one of the solver's own. -/
def isInternal (name : String) : Bool := name.toList.contains '!'

/-- Adds a definition to a model, if it gives the value of a constant of the query. -/
def define (m : Model) (definition : SExp) : Except ModelError Model :=
  match definition with
  | .list [.symbol "define-fun", .symbol name, .list [], _, value] =>
    if isInternal name then .ok m
    else
      match Term.ofSExp value with
      | .ok t => .ok (m.insert name t)
      | .error e => .error (.value e)
  | .list [.symbol "define-fun", .symbol _, _, _, _] => .ok m
  | other => .error (.notDefinition other.printPlain)

/-- The definitions in the answer of a solver. Some solvers put the word `model` before them. -/
def definitions : List SExp → List SExp
  | .symbol "model" :: rest => rest
  | elements => elements

def ofSExp : SExp → Except ModelError Model
  | .list elements => (definitions elements).foldlM define ∅
  | other => .error (.notList other.printPlain)

/-- The text of a value: an integer as in programs, any other term as in queries. -/
def printValue : Term → String
  | .int n => toString n.toInt
  | t => t.print?.getD ""

/-- A model on one line, in the order of names. -/
def print (m : Model) : String :=
  ", ".intercalate (m.entries.map fun e => e.1 ++ " = " ++ printValue e.2)

end Model

end Verdict
