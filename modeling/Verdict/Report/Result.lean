import Verdict.Obligation.Basic
import Verdict.Solver.Session

/-! # Results

The result of an obligation says what a solver found out about it. The query of an obligation asks for
a counterexample, so that the obligation holds if there is none. -/

namespace Verdict

/-- Why an obligation cannot be checked. -/
inductive CheckError where
  /-- Its query cannot be written. -/
  | query (e : Fault)
  /-- The solver gives no answer. -/
  | solver (e : SolverError)

def CheckError.message : CheckError → String
  | query e => e.render
  | solver e => e.message

/-- What is found out about an obligation. -/
inductive Finding where
  /-- It holds. -/
  | verified
  /-- It does not hold, as in a model. -/
  | failed (model : Model)
  /-- It is not decided, for some reason. -/
  | inconclusive (reason : String)
  /-- It cannot be checked. -/
  | errored (e : CheckError)

namespace Finding

/-- Whether an obligation is found to hold. -/
def isVerified : Finding → Bool
  | verified => true
  | _ => false

/-- What the reply of a solver says about an obligation. -/
def ofReply : Reply → Finding
  | .ok .unsat => verified
  | .ok (.sat m) => failed m
  | .ok (.unknown reason) => inconclusive reason
  | .error e => errored (.solver e)

def print : Finding → String
  | verified => "verified"
  | failed _ => "failed"
  | inconclusive _ => "inconclusive"
  | errored _ => "error"

/-- What is known beyond the word for a finding: a counterexample, or a message. -/
inductive Detail where
  | counterexample (model : Model)
  | message (text : String)

/-- What is known beyond the word for a finding, if anything. -/
def detail? : Finding → Option Detail
  | verified => none
  | failed m => if m.isEmpty then none else some (.counterexample m)
  | inconclusive reason => if reason = "" then none else some (.message reason)
  | errored e => if e.message = "" then none else some (.message e.message)

end Finding

/-- What a solver finds out about an obligation. -/
def Obligation.check (solver : Solver) (o : Obligation) : Finding :=
  match o.query with
  | .ok q => .ofReply (solver q)
  | .error e => .errored (.query e)

/-- An obligation with what is found out about it. -/
structure Result where
  obligation : Obligation
  finding : Finding

namespace Result

def print (r : Result) : String :=
  r.obligation.print ++ " " ++ r.finding.print ++
    match r.finding.detail? with
    | none => ""
    | some (.counterexample m) => " [" ++ m.print ++ "]"
    | some (.message text) => " (" ++ text ++ ")"

end Result

end Verdict
