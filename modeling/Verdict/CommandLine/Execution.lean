import Verdict.CommandLine.Display
import Verdict.CommandLine.Invocation
import Verdict.Lang.Inference
import Verdict.Lang.Scoping
import Verdict.Reading.Programs
import Verdict.Source.Directory

/-! # Execution of a command line

A command reads a program, generates what it is asked for and shows it. Its status is zero if nothing
went wrong, one if a program is not verified or the command is not used properly, and two if there is
something wrong with the program or with the modes. -/

namespace Verdict

/-- What a command writes, and its status. -/
structure Outcome where
  lines : List String
  status : Nat
deriving DecidableEq, Repr

/-- The text that a command writes. -/
def Outcome.text (o : Outcome) : String := String.join (o.lines.map (· ++ "\n"))

/-- What a command finds around it: files, and programs that run as solvers. -/
structure Surroundings where
  /-- The characters of a file. -/
  file : String → Except FileError (List Char)
  /-- How the program with a name behaves when it is sent a query. -/
  solver : String → Query → SolverProgram

namespace Execution

/-- How the program is used. -/
def usage : List String :=
  ["Usage: verdict COMMAND [FLAGS] FILE",
    "",
    "Commands:",
    "  vcs      show the obligations of a program (--formula)",
    "  smt      show the queries for a program (--flat, --index N)",
    "  trace    show what is known at each step of a program (--values)",
    "  verify   verify a program (--solver S, --solver-args A, --timeout D, --workers N, --fail-fast)",
    "",
    "Flags of all commands: --termination M, --calls M, -v, -h"]

/-- The width of a line of output. -/
def width : Nat := 120

/-- The status of a command that met errors or not. -/
def statusOf (failed : Bool) : Nat := if failed then 2 else 0

/-- Reads a program, infers types that are left out and checks it. -/
def program (f : SourceFile) : Except (List String) Program :=
  let r := Program.read f
  match r.errors, r.program with
  | [], some p =>
    let (q, faults) := p.infer
    let faults := if faults.isEmpty then q.validate else faults
    if faults.isEmpty then .ok q else .error (faults.flatMap fun e => e.display f)
  | errors, _ => .error (errors.flatMap fun e => e.display f)

/-- The modes with the given names. -/
def modes (i : Invocation) : Except ModeError Modes := do
  return ⟨← Termination.ofName i.termination, ← CallMode.ofName i.calls⟩

/-- The faults that errors of generation are, unless one is about a missing value. -/
def faults? (es : List GenerationError) : Option (List Fault) :=
  es.mapM fun e =>
    match e with
    | .fault f => some f
    | .missing _ => none

/-- What is shown instead of anything else when generation breaks down. -/
def breakdown : Outcome := ⟨[], 2⟩

/-- Generates the obligations of a program, and goes on with them and with the faults. -/
def withObligations (p : Program) (modes : Modes)
    (next : List Obligation → List Fault → Outcome) : Outcome :=
  let (os, es) := p.obligations modes
  match faults? es with
  | some faults => next os faults
  | none => breakdown

def obligations (f : SourceFile) (p : Program) (modes : Modes) (asFormula : Bool) : Outcome :=
  withObligations p modes fun os faults =>
    ⟨faults.flatMap (fun e => e.display f) ++ os.flatMap (fun o => o.display f asFormula),
      statusOf !faults.isEmpty⟩

/-- The queries of obligations. The first that cannot be written is the end. -/
def queryLines (f : SourceFile) (layout : Option Layout) : List Obligation → List String × Bool
  | [] => ([], false)
  | o :: os =>
    match o.query with
    | .error e => (e.display f, true)
    | .ok q =>
      match q.print? layout with
      | none => ([], true)
      | some text =>
        let (lines, failed) := queryLines f layout os
        (text :: lines, failed)

def queries (f : SourceFile) (p : Program) (modes : Modes) (flat : Bool) (index : Int) : Outcome :=
  withObligations p modes fun os faults =>
    let wanted := os.filter fun o => index < 0 || (o.index : Int) == index
    let layout := if flat then none else some (queryLayout width)
    let (lines, failed) := queryLines f layout wanted
    ⟨faults.flatMap (fun e => e.display f) ++ lines, statusOf (failed || !faults.isEmpty)⟩

/-- Shows the frames of a function, and the fault that ends them. -/
def functionFrames (f : SourceFile) (p : Program) (withValues : Bool) (g : Function) :
    List String × Bool :=
  let (frames, fault) := Frame.trace p.functions g
  (g.signature :: (Frame.displayAll withValues frames g.body ++
    (fault.map fun e => e.display f).getD []), fault.isSome)

/-- Shows the frames of all functions. -/
def frames (f : SourceFile) (p : Program) (withValues : Bool) : Outcome :=
  let shown := p.functions.map (functionFrames f p withValues)
  ⟨shown.flatMap Prod.fst, statusOf (shown.any Prod.snd)⟩

/-- Whether a program that runs as a solver cannot be sent the query of an obligation. -/
def cannotSend (solver : Query → SolverProgram) (o : Obligation) : Bool :=
  match o.query with
  | .ok q => (q.print? none).isNone && (solver q).canStart
  | .error _ => false

/-- Verifies a program and shows the report. -/
def verify (world : Surroundings) (f : SourceFile) (p : Program) (modes : Modes)
    (settings : Settings) : Outcome :=
  withObligations p modes fun os _ =>
    let solver q := (world.solver settings.solver q).within settings.timeout
    if os.any (cannotSend solver) then breakdown
    else
      let report := p.verify modes settings.plan fun q => (solver q).reply
      ⟨report.display f, if report.verified then 0 else 1⟩

/-- Goes on with the modes that an invocation names, if they exist. -/
def withModes (i : Invocation) (next : Modes → Outcome) : Outcome :=
  match modes i with
  | .ok modes => next modes
  | .error e => ⟨[e.message], 2⟩

/-- Performs a task on a program that has been read. -/
def perform (world : Surroundings) (i : Invocation) (f : SourceFile) (p : Program) :
    Task → Outcome
  | .frames withValues => frames f p withValues
  | .obligations asFormula => withModes i fun modes => obligations f p modes asFormula
  | .queries flat index => withModes i fun modes => queries f p modes flat index
  | .verify settings => withModes i fun modes => verify world f p modes settings

/-- Performs a task on the file that is its only operand. -/
def onFile (world : Surroundings) (i : Invocation) (t : Task) : Outcome :=
  match i.operands with
  | [name] =>
    match world.file name with
    | .error e => ⟨[e.message name], 2⟩
    | .ok text =>
      match program ⟨name, text⟩ with
      | .error lines => ⟨lines, 2⟩
      | .ok p => perform world i ⟨name, text⟩ p t
  | _ => ⟨usage, 1⟩

end Execution

/-- Carries out an invocation. -/
def Invocation.execute (world : Surroundings) (i : Invocation) : Outcome :=
  match i.demand with
  | .help => ⟨Execution.usage, 0⟩
  | .version => ⟨["verdict (unknown version)"], 0⟩
  | .task t => Execution.onFile world i t

/-- Carries out a command line. -/
def execute (world : Surroundings) (args : List String) : Outcome :=
  match Invocation.read args with
  | .ok i => i.execute world
  | .error _ => ⟨[], 1⟩

end Verdict
