import Verdict.Source.File

/-! # What is wrong with a source text

The reasons why an S-expression is not a program, with their wording. -/

namespace Verdict.Reading

/-- Why an S-expression cannot be read as part of a program. -/
inductive Problem where
  | expectedFunction
  | incompleteFunction
  | functionName
  | expectedInputs
  | duplicateClause
  | unknownClause
  | declaration
  | variableName
  | unknownType
  | arrayLength
  | value
  | insufficientArguments
  | comparisonArguments
  | quantifier
  | target
  | expectedName
  | indexNotConstant
  | expectedCommand
  | unknownCommand
  /-- A command of a known kind with the wrong parts. -/
  | invalidCommand (head : String)
  | assignment
  | emptyAssignments
  | branch
  | noCondition
  | variantOfRange
deriving DecidableEq, Repr

def Problem.message : Problem → String
  | expectedFunction => "expected function definition"
  | incompleteFunction => "incomplete function definition"
  | functionName => "invalid function name"
  | expectedInputs => "expected list of inputs"
  | duplicateClause => "invalid or duplicate clause"
  | unknownClause => "unknown clause"
  | declaration => "invalid declaration"
  | variableName => "invalid variable name"
  | unknownType => "unknown type"
  | arrayLength => "invalid array length"
  | value => "invalid value"
  | insufficientArguments => "insufficient arguments"
  | comparisonArguments => "comparison requires two arguments"
  | quantifier => "invalid quantifier"
  | target => "invalid assignment target"
  | expectedName => "expected variable name"
  | indexNotConstant => "tuple index must be a constant"
  | expectedCommand => "expected command"
  | unknownCommand => "unknown command"
  | invalidCommand head => "invalid " ++ head
  | assignment => "invalid assignment"
  | emptyAssignments => "empty set-tuple"
  | branch => "invalid branch"
  | noCondition => "conditional requires at least one condition"
  | variantOfRange => "for loops cannot have a variant"

/-- A problem and where it is. -/
structure Failure where
  span : Span
  problem : Problem
deriving DecidableEq, Repr

/-- A problem as an error in its source file. -/
def Failure.toSyntaxError (e : Failure) : SyntaxError := ⟨e.span, e.problem.message⟩

/-- The result of reading, or the first problem. -/
abbrev Read := Except Failure

def fail {α : Type} (span : Span) (problem : Problem) : Read α := .error ⟨span, problem⟩

end Verdict.Reading
