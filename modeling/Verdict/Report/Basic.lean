import Verdict.Obligation.Generation
import Verdict.Report.Pool
import Verdict.Report.Result

/-! # Reports

A report tells for each function of a program which of its obligations hold. A function is verified if
its obligations can be generated and all of them are found to hold. -/

namespace Verdict

/-- How obligations are checked. -/
structure CheckPlan where
  /-- The number of obligations that are checked at the same time. -/
  workers : Nat
  /-- Whether to stop at the first obligation that is not found to hold. -/
  failFast : Bool
  /-- What happens in which order. -/
  schedule : (n : Nat) → List (Pool.Event n)

namespace CheckPlan

/-- Checks one obligation after another. -/
def inTurn (workers : Nat) (failFast : Bool) : CheckPlan := ⟨workers, failFast, Pool.inTurn⟩

/-- The plan that is stopped before anything is checked. -/
def cancelled (plan : CheckPlan) : CheckPlan :=
  { plan with schedule := fun n => .cancel :: plan.schedule n }

end CheckPlan

/-- What a pool is told that checks obligations. -/
def CheckPlan.rules (plan : CheckPlan) (solver : Solver) (os : List Obligation) :
    Pool.Rules os.length Result where
  workers := plan.workers
  stopAtBad := plan.failFast
  outcome i := ⟨os[i], os[i].check solver⟩
  isBad r := !r.finding.isVerified

/-- Checks obligations, and gives the results of those that are checked. -/
def discharge (plan : CheckPlan) (solver : Solver) (os : List Obligation) : List Result :=
  ((Pool.initial os.length Result).run (plan.rules solver os) (plan.schedule os.length)).results

/-- What is found out about a function. -/
structure FunctionReport where
  name : String
  /-- The results of its obligations, in their order. -/
  results : List Result
  /-- Why it has no obligations. -/
  error : Option GenerationError

namespace FunctionReport

/-- The results of obligations that are not found to hold. -/
def failures (f : FunctionReport) : List Result :=
  f.results.filter fun r => !r.finding.isVerified

def verified (f : FunctionReport) : Bool :=
  f.error.isNone && f.results.all fun r => r.finding.isVerified

end FunctionReport

/-- What is found out about the functions of a program. -/
structure Report where
  functions : List FunctionReport

namespace Report

def results (r : Report) : List Result := r.functions.flatMap FunctionReport.results

def verified (r : Report) : Bool := r.functions.all FunctionReport.verified

def failures (r : Report) : List Result := r.functions.flatMap FunctionReport.failures

/-- The first result of an obligation that is not found to hold. -/
def firstFailure? (r : Report) : Option Result := r.failures.head?

/-- The number of results with a property. -/
def count (r : Report) (p : Finding → Bool) : Nat := r.results.countP fun x => p x.finding

/-- The numbers of results that are verified, failed, inconclusive and errored. -/
def counts (r : Report) : Nat × Nat × Nat × Nat :=
  (r.count (· matches .verified), r.count (· matches .failed _),
    r.count (· matches .inconclusive _), r.count (· matches .errored _))

/-- Reports on functions, of which the first has the obligations from `first` on. -/
def assemble (results : List Result) (first : Nat) :
    List (String × Except GenerationError (List Obligation)) → List FunctionReport
  | [] => []
  | (name, .error e) :: rest => ⟨name, [], some e⟩ :: assemble results first rest
  | (name, .ok os) :: rest =>
    let next := first + os.length
    let own := results.filter fun r => first ≤ r.obligation.index && r.obligation.index < next
    ⟨name, own, none⟩ :: assemble results next rest

end Report

/-- Checks the obligations of a program. -/
def Program.verify (p : Program) (modes : Modes) (plan : CheckPlan) (solver : Solver) : Report :=
  let generated := p.functions.map fun f => (f.name, f.obligations modes p.functions)
  let results := discharge plan solver (p.obligations modes).1
  ⟨Report.assemble results 0 generated⟩

end Verdict
