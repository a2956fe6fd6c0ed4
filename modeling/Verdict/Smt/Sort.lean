import Verdict.SExpr.Basic
import Verdict.Lang.Fault

/-! # Solver sorts

The sorts of solver terms: integers, logical values and arrays that are indexed by integers. -/

namespace Verdict

/-- The sort of a solver term. -/
inductive SmtSort where
  | int
  | bool
  | array (element : SmtSort)
deriving DecidableEq, Repr

namespace SmtSort

/-- A sort as the solver reads it. -/
def toSExp : SmtSort → SExp
  | int => .symbol "Int"
  | bool => .symbol "Bool"
  | array s => .app "Array" [.symbol "Int", s.toSExp]

def print (s : SmtSort) : String := s.toSExp.printPlain

/-- A name for a sort that can be part of another name. -/
def tag : SmtSort → String
  | int => "Int"
  | bool => "Bool"
  | array s => "Array_" ++ s.tag

/-- Why an S-expression is not a sort. -/
inductive ReadError where
  | unknown (text : String)
  | index (text : String)

def ReadError.message : ReadError → String
  | unknown text => "unknown sort " ++ text
  | index text => "unsupported array index sort " ++ text

/-- Reads a sort. Arrays have to be indexed by integers. -/
def ofSExp : SExp → Except ReadError SmtSort
  | .symbol "Int" => .ok int
  | .symbol "Bool" => .ok bool
  | .list [.symbol "Array", i, e] =>
    match ofSExp i with
    | .ok int => (ofSExp e).map array
    | _ => .error (.index i.printPlain)
  | t => .error (.unknown t.printPlain)

end SmtSort

/-- The sort that represents the values of a type. Tuples have none, nor do arrays of them. -/
def Ty.sortOf : Ty → Except Cause SmtSort
  | .bool => .ok .bool
  | .i32 => .ok .int
  | .array e _ => e.sortOf.map .array
  | .ref t m =>
    match t.underlying with
    | .bool | .i32 | .array _ _ => t.sortOf
    | _ => .error (.noSort (.ref t m))
  | t => .error (.noSort t)

end Verdict
