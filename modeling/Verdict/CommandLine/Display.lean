import Verdict.Lang.Frame
import Verdict.Report.Basic

/-! # What is shown to the user

Errors are shown with the line of the program that they are about. Everything is shown as a list of
lines. -/

namespace Verdict

namespace SyntaxError

/-- The number of characters before an error on the line on which it starts. -/
def offset (e : SyntaxError) (f : SourceFile) : Int := e.span.start - (f.lineOf e.span).start

/-- The number of characters at fault on that line. -/
def width (e : SyntaxError) (f : SourceFile) : Int :=
  min ((f.lineOf e.span).length - e.offset f) (e.span.stop - e.span.start)

/-- An error with the line on which it starts, the part at fault underlined as far as it is on that
line. -/
def display (e : SyntaxError) (f : SourceFile) : List String :=
  let line := f.lineOf e.span
  let first := 1 + e.offset f
  [s!"{f.name}:{line.number}:{first}-{first + e.width f} {e.message}", "", line.text,
    String.ofList (List.replicate (e.offset f).toNat ' ' ++ List.replicate (e.width f).toNat '^')]

end SyntaxError

/-- A fault, with the line of the node at fault if it is known where that was read. -/
def Fault.display (e : Fault) (f : SourceFile) : List String :=
  match e.origin.span? with
  | some span => SyntaxError.display ⟨span, e.render⟩ f
  | none => [e.render]

/-- The name of a file and the number of a line in it. -/
def SourceFile.locate (f : SourceFile) (span : Span) : String :=
  s!"{f.name}:{(f.lineOf span).number}"

namespace Obligation

/-- The first line about an obligation. -/
def headline (o : Obligation) (f : SourceFile) : String :=
  match o.origin.span? with
  | some span => o.print ++ " [" ++ f.locate span ++ "]"
  | none => o.print

/-- An obligation, with its formula or with its assumptions and its goal. -/
def display (o : Obligation) (f : SourceFile) (asFormula : Bool) : List String :=
  o.headline f ::
    if asFormula then ["   " ++ o.formula.print]
    else o.assumptions.map (fun a => "   assume " ++ a.print) ++ ["   prove " ++ o.goal.print]

end Obligation

namespace Frame

/-- A frame, with the values that have been met if asked for. -/
def display (f : Frame) (withValues : Bool) : List String :=
  let shown := (Text.lines f.print).filter fun line => line ≠ ""
  let values := f.met.map fun m => m.value.print ++ " : " ++ m.type.print
  (shown ++ if withValues then values else []).map ("      " ++ ·)

/-- The frames of a function: the first on entry, each other one after a command. -/
def displayAll (withValues : Bool) (frames : List Frame) (body : List Command) : List String :=
  let titles := "   (entry)" :: body.map fun c => "   " ++ c.print
  (titles.zip frames).flatMap fun (title, frame) => title :: frame.display withValues

end Frame

namespace Result

/-- What is said about an obligation that is not found to hold. -/
def display (r : Result) (f : SourceFile) : List String :=
  let o := r.obligation
  let place := match o.origin.span? with
    | some span => f.locate span ++ ": "
    | none => ""
  let headline := "   " ++ place ++ o.kind.reason ++ " " ++ r.finding.print ++ ": " ++ o.text
  headline ::
    match r.finding.detail? with
    | none => []
    | some (.counterexample m) => ["      counterexample: " ++ m.print]
    | some (.message text) => ["      " ++ text]

end Result

/-- What is said about a function. -/
def FunctionReport.display (r : FunctionReport) (f : SourceFile) : List String :=
  match r.error with
  | some (.fault e) => ["✗ " ++ r.name, "   " ++ e.render]
  | some (.missing need) => ["✗ " ++ r.name, "   " ++ (Cause.missing need).message]
  | none =>
    if r.verified then ["✓ " ++ r.name]
    else ("✗ " ++ r.name) :: r.failures.flatMap fun x => x.display f

/-- A report, with the number of results of each kind at its end. -/
def Report.display (r : Report) (f : SourceFile) : List String :=
  let (verified, failed, inconclusive, errored) := r.counts
  r.functions.flatMap (fun x => x.display f) ++
    [s!"{verified} verified, {failed} failed, {inconclusive} inconclusive, {errored} errors"]

end Verdict
