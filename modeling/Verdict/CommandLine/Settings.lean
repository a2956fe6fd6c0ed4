import Verdict.Report.Basic

/-! # Settings of a verification -/

namespace Verdict

/-- How a program is verified. -/
structure Settings where
  /-- The program that is run as a solver. -/
  solver : String
  /-- The arguments that it is given. -/
  arguments : List String
  /-- The time that it has for a query, in nanoseconds. There is no limit unless this is positive. -/
  timeout : Int
  /-- The number of queries that are run at the same time, or none for one per processor. -/
  workers : Option Nat
  /-- Whether to stop at the first obligation that is not verified. -/
  failFast : Bool
deriving DecidableEq, Repr

namespace Settings

/-- The number of nanoseconds in a millisecond. -/
def millisecond : Int := 1000000

/-- What holds unless something else is asked for. -/
def standard : Settings := ⟨"z3", ["-in", "-smt2"], 10000 * millisecond, none, false⟩

/-- The order in which obligations are checked. -/
def plan (s : Settings) : CheckPlan := .inTurn (s.workers.getD 1) s.failFast

end Settings

end Verdict
