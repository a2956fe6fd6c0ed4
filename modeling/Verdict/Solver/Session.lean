import Verdict.Smt.Query
import Verdict.Solver.Model
import Verdict.Solver.Response
import Verdict.Source.Directory
import Verdict.Text.Quoted

/-! # Sessions with a solver

A solver is sent the script of a query and answers with a decision. If the query can be satisfied, it is
asked for a model. A session with a program that runs as a solver may also fail because the program
cannot be started, or end because it takes too long. -/

namespace Verdict

/-- What a solver finds out about a query. -/
inductive Answer where
  /-- The assertions can hold together, as in a model. -/
  | sat (model : Model)
  /-- The assertions cannot hold together. -/
  | unsat
  /-- The solver gives up, for some reason. -/
  | unknown (reason : String)

namespace Answer

def decision : Answer → Decision
  | sat _ => .sat
  | unsat => .unsat
  | unknown _ => .unknown

/-- The model in an answer, which is empty if there is none. -/
def model : Answer → Model
  | sat m => m
  | _ => ∅

/-- The reason in an answer, which is empty if there is none. -/
def reason : Answer → String
  | unknown r => r
  | _ => ""

end Answer

/-- Why a program cannot be started. -/
inductive LaunchError where
  /-- No program is named. -/
  | noProgram
  /-- A name without a directory is not found on the search path. -/
  | notOnPath (name : String)
  /-- What is named by the root of all paths is a directory. -/
  | root
  /-- A path leads nowhere. -/
  | noFile (path : String) (e : PathError)
  /-- What a path leads to cannot be run. -/
  | denied (path : String)
  /-- The time is over before the program is started. -/
  | timeOver
deriving DecidableEq, Repr

namespace LaunchError

def message : LaunchError → String
  | noProgram => "exec: no command"
  | notOnPath name => "exec: " ++ Text.quoted name ++ ": executable file not found in $PATH"
  | root => "exec: " ++ Text.quoted "/" ++ ": is a directory"
  | noFile path e => "fork/exec " ++ path ++ ": " ++ e.message
  | denied path => "fork/exec " ++ path ++ ": permission denied"
  | timeOver => "context deadline exceeded"

/-- Why no program with a name can be started from a directory in which no file can be run. -/
def ofName (d : Directory) (program : String) : LaunchError :=
  if program = "" then noProgram
  else if program = "/" then root
  else if program.toList.contains '/' then
    match d.find program with
    | .error e => noFile program e
    | .ok _ => denied program
  else notOnPath program

/-- Whether a failure shows before the program is started. -/
def isEarly : LaunchError → Bool
  | noProgram | notOnPath _ | root => true
  | noFile _ _ | denied _ | timeOver => false

end LaunchError

/-- Why a solver gives no answer. -/
inductive SolverError where
  | response (e : ResponseError)
  | model (e : ModelError)
  | launch (e : LaunchError)
  /-- A failure of a program that has also written a warning. -/
  | withWarning (e : SolverError) (warning : String)
  /-- A failure that the solver words itself. -/
  | other (message : String)

def SolverError.message : SolverError → String
  | response e => e.message
  | model e => e.message
  | launch e => "cannot start solver: " ++ e.message
  | withWarning e warning => e.message ++ " (" ++ warning ++ ")"
  | other m => m

/-- What a solver makes of a query. -/
abbrev Reply := Except SolverError Answer

/-- A solver, as a function of queries. -/
abbrev Solver := Query → Reply

namespace Session

/-- What is sent to a solver in order to get a model. -/
def askModel : String := "(get-model)\n"

/-- What is sent to a solver at the end. -/
def farewell : String := "(exit)\n"

/-- Reads a model from the output of a solver, and says what is sent for it. -/
def readModel (output : List Char) : String × Reply :=
  match Response.read output with
  | .error e => (askModel, .error (.response e))
  | .ok (t, _) =>
    match Model.ofSExp t with
    | .error e => (askModel, .error (.model e))
    | .ok m => (askModel ++ farewell, .ok (.sat m))

/-- What a solver says that has been sent a script, and what it is sent after that. -/
def afterScript (output : List Char) : String × Reply :=
  match Response.read output with
  | .error e => ("", .error (.response e))
  | .ok (t, rest) =>
    match Decision.ofSExp t with
    | .error e => ("", .error (.response e))
    | .ok .unsat => ("", .ok .unsat)
    | .ok .unknown => ("", .ok (.unknown "unknown"))
    | .ok .sat => readModel rest

/-- A session with a solver of the given output: all that is sent to it, and its reply. -/
def converse (script : String) (output : List Char) : String × Reply :=
  let (sent, reply) := afterScript output
  (script ++ sent, reply)

end Session

/-- How a program behaves that is run as a solver. -/
inductive SolverProgram where
  | cannotStart (e : LaunchError)
  /-- It writes to its two outputs, whatever it is sent. -/
  | writes (output warnings : String)
  /-- It never answers. -/
  | silent
deriving DecidableEq, Repr

namespace SolverProgram

def canStart : SolverProgram → Bool
  | cannotStart _ => false
  | _ => true

/-- A number of nanoseconds within which no program is started. -/
def startTime : Int := 50

/-- How a program behaves that has some nanoseconds for a query. Unless the number is positive, there
is no limit. Other than that, programs are taken to answer in time if they answer at all. -/
def within (limit : Int) (p : SolverProgram) : SolverProgram :=
  if 0 < limit ∧ limit ≤ startTime then
    match p with
    | cannotStart e => if e.isEarly then cannotStart e else cannotStart .timeOver
    | _ => cannotStart .timeOver
  else p

/-- The reply of a program that is run as a solver. The warnings of a program that fails are kept. -/
def reply : SolverProgram → Reply
  | cannotStart e => .error (.launch e)
  | silent => .ok (.unknown "timeout")
  | writes output warnings =>
    match (Session.afterScript output.toList).2 with
    | .ok a => .ok a
    | .error e =>
      if warnings = "" then .error e else .error (.withWarning e (Text.trim warnings))

end SolverProgram

end Verdict
