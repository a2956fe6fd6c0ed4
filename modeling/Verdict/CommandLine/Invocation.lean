import Verdict.CommandLine.Arguments
import Verdict.CommandLine.Settings

/-! # Invocations

What the program is asked to do. A command is named by the first word on the command line; its flags
may stand on both sides of the name. -/

namespace Verdict

/-- What there is to do with a program. -/
inductive Task where
  /-- Show its obligations, each as one formula or as assumptions and a goal. -/
  | obligations (asFormula : Bool)
  /-- Show its queries, or the one with an index unless that is negative. -/
  | queries (flat : Bool) (index : Int)
  /-- Show the frames of its functions, with the values met so far if asked for. -/
  | frames (withValues : Bool)
  /-- Verify it. -/
  | verify (settings : Settings)
deriving DecidableEq, Repr

/-- What is asked for on the command line. -/
inductive Demand where
  /-- To explain how commands are used. -/
  | help
  /-- To tell the version. -/
  | version
  /-- To do something with a program. -/
  | task (t : Task)
deriving DecidableEq, Repr

/-- The commands of the program. -/
inductive CommandName where
  | help
  | vcs
  | smt
  | trace
  | verify
deriving DecidableEq, Repr

namespace CommandName

def ofWord? : String → Option CommandName
  | "help" => some help
  | "vcs" => some vcs
  | "smt" => some smt
  | "trace" => some trace
  | "verify" => some verify
  | _ => none

/-- The flags of a command that no other command has. -/
def ownFlags : CommandName → List Flag
  | help => []
  | vcs => [⟨"formula", none, .switch⟩]
  | smt => [⟨"index", none, .integer⟩, ⟨"flat", none, .switch⟩]
  | trace => [⟨"values", none, .switch⟩]
  | verify => [⟨"solver", none, .text⟩, ⟨"solver-args", none, .text⟩, ⟨"timeout", none, .duration⟩,
      ⟨"workers", none, .count⟩, ⟨"fail-fast", none, .switch⟩]

end CommandName

/-- What is asked for, how obligations are generated, and the operands. -/
structure Invocation where
  demand : Demand
  /-- The name of the termination mode. -/
  termination : String
  /-- The name of the call mode. -/
  calls : String
  operands : List String
deriving DecidableEq, Repr

namespace Invocation

/-- The flags of all commands. -/
def sharedFlags : List Flag :=
  [⟨"verbose", some 'v', .switch⟩, ⟨"termination", none, .text⟩, ⟨"calls", none, .text⟩]

/-- The flags that count when a command is searched for. -/
def topFlags : List Flag := ⟨"version", none, .switch⟩ :: sharedFlags

/-- The flag that asks for help. -/
def helpFlag : Flag := ⟨"help", some 'h', .switch⟩

/-- The settings that arguments ask for. -/
def settings (a : Arguments) : Settings :=
  let s := Settings.standard
  { solver := a.textD "solver" s.solver
    arguments :=
      match a.get? "solver-args" with
      | some (.text args) => Text.fields args
      | _ => s.arguments
    timeout :=
      match a.get? "timeout" with
      | some (.duration t) => t
      | _ => s.timeout
    workers :=
      match a.get? "workers" with
      | some (.count n) => if n = 0 then s.workers else some n
      | _ => s.workers
    failFast := a.isOn "fail-fast" }

/-- The index of the query that arguments ask for. -/
def index (a : Arguments) : Int :=
  match a.get? "index" with
  | some (.integer n) => n
  | _ => -1

/-- What a command with some arguments asks for. -/
def demandOf (a : Arguments) : CommandName → Demand
  | .help => .help
  | .vcs => .task (.obligations (a.isOn "formula"))
  | .smt => .task (.queries (a.isOn "flat") (index a))
  | .trace => .task (.frames (a.isOn "values"))
  | .verify => .task (.verify (settings a))

/-- The invocation with some arguments. Whoever asks for help gets nothing else. -/
def ofArguments (a : Arguments) (d : Demand) : Invocation :=
  { demand := if a.isOn "help" then .help else d
    termination := a.textD "termination" Modes.standard.termination.print
    calls := a.textD "calls" Modes.standard.calls.print
    operands := a.operands }

/-- The invocation without a command. -/
def ofTop (args : List String) : Except UsageError Invocation :=
  match Arguments.words topFlags args with
  | [] => do
    let a ← Arguments.read (helpFlag :: topFlags) args
    return ofArguments a (if a.isOn "version" then .version else .help)
  | word :: _ => .error (.unknownCommand word)

def ofCommand (c : CommandName) (args : List String) : Except UsageError Invocation := do
  let a ← Arguments.read (helpFlag :: (c.ownFlags ++ sharedFlags)) args
  return ofArguments a (demandOf a c)

/-- Reads a command line. -/
def read (args : List String) : Except UsageError Invocation :=
  match Arguments.words topFlags args with
  | [] => ofTop args
  | word :: _ =>
    match CommandName.ofWord? word with
    | some c => ofCommand c (Arguments.eraseWord topFlags word args)
    | none => ofTop args

end Invocation

end Verdict
