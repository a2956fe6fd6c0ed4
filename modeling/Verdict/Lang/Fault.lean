import Verdict.Lang.Missing
import Verdict.Lang.Print

/-! # Faults of programs

A fault says what is wrong with a program: its cause, where the node at fault was read, and the function
it is in. -/

namespace Verdict

/-- What is wrong with a program. Texts stand for parts of it as they are printed. -/
inductive Cause where
  | unknownVariable (x : String)
  | unknownFunction (f : String)
  | unknownType (x : String)
  | unknownResultType
  | wildcardRead
  | reservedName (x : String)
  | shadowing (x : String)
  | duplicateFunction (f : String)
  | wrongArity (f : String) (expected found : Nat)
  | assignToEntryValue (x : String)
  | assignToImmutable (x : String)
  | indexNotConstant
  | indexOutOfBounds (index : Nat) (type : Ty)
  | invalidTupleIndex (index : String)
  | notTuple (found : String)
  | notArray (found : String)
  | notDestructible (type : Ty)
  | wrongPattern (targets : Nat) (type : Ty)
  | cannotDestructure (type : Ty) (targets : Nat)
  | noSort (type : Ty)
  | wrongSort (expected found text : String)
  | notScalar (text : String)
  | variableNotScalar (x : String) (type : Ty)
  | resultNotScalar (f : String) (type : Ty)
  | tupleNotScalar
  | emptyArray
  | mixedArray
  | mixedBranches
  | nestedTuple
  | incomparable (left right : String)
  | unordered (sort : String)
  /-- Something is asked of a value that is missing. -/
  | missing (need : Need)
  /-- A message chosen by the caller. -/
  | other (message : String)

def Cause.message : Cause → String
  | unknownVariable x => "unknown variable " ++ x
  | unknownFunction f => "unknown function " ++ f
  | unknownType x => "unknown type for " ++ x
  | unknownResultType => "unknown return type"
  | wildcardRead => "wildcard used as value"
  | reservedName x => "reserved name " ++ x
  | shadowing x => "variable " ++ x ++ " shadows existing variable"
  | duplicateFunction f => "duplicate function " ++ f
  | wrongArity f n m => s!"function {f} expects {n} arguments, found {m}"
  | assignToEntryValue x => "cannot assign to " ++ x
  | assignToImmutable x => "cannot assign to immutable variable " ++ x
  | indexNotConstant => "tuple index must be a constant"
  | indexOutOfBounds i t => s!"tuple index {i} out of bounds for {t.print}"
  | invalidTupleIndex i => "invalid tuple index " ++ i
  | notTuple t => "expected tuple, found " ++ t
  | notArray t => "expected array, found " ++ t
  | notDestructible t => "cannot destructure " ++ t.print
  | wrongPattern n t => s!"expected {n}-tuple, found {t.print}"
  | cannotDestructure t n => s!"cannot destructure {t.print} into {n} variables"
  | noSort t => s!"type {t.print} has no sort"
  | wrongSort e s v => s!"expected {e}, found {s} ({v})"
  | notScalar v => v ++ " used where scalar or array expected"
  | variableNotScalar x t => s!"{x} of type {t.print} used where scalar or array expected"
  | resultNotScalar f t => s!"{f} returns {t.print}, used where scalar or array expected"
  | tupleNotScalar => "tuple used where scalar or array expected"
  | emptyArray => "cannot encode empty array"
  | mixedArray => "inconsistent array elements"
  | mixedBranches => "conditional branches have different sorts"
  | nestedTuple => "nested tuples are not supported"
  | incomparable l r => s!"cannot compare {l} with {r}"
  | unordered s => "cannot order values of sort " ++ s
  | missing _ => "missing value"
  | other m => m

/-- The cause that shows the text of a value, or that the text is not to be had. -/
def Cause.showing (v : Value) (cause : String → Cause) : Cause :=
  if v.isWhole then cause v.print else .missing .text

/-- A fault: its cause, where the node at fault was read, and the function it is in. The name of
the function is empty as long as it is not known. -/
structure Fault where
  function : String
  origin : Origin
  cause : Cause

namespace Fault

/-- A fault at a node, in a function that is not known yet. -/
def of (origin : Origin) (cause : Cause) : Fault := ⟨"", origin, cause⟩

/-- The fault with its function, which is kept if it is known already. -/
def within (e : Fault) (function : String) : Fault :=
  if e.function == "" then { e with function } else e

def render (e : Fault) : String :=
  if e.function == "" then e.cause.message else e.function ++ ": " ++ e.cause.message

end Fault

end Verdict
