import Verdict.Smt.Query

/-! # Obligations

An obligation is a formula that has to hold for a function to be correct: a goal that follows from
some assumptions. A solver decides it by looking for a counterexample. -/

namespace Verdict

/-- Why an obligation has to hold. -/
inductive ObligationKind where
  | assertion
  | invariant
  | precondition
  | postcondition
  | invariantEntry
  | invariantPreserved
  | variantNonnegative
  | variantDecreases
  /-- A loop that has to end is without a variant. -/
  | variantMissing
  /-- A part of a command has to be well-defined. -/
  | sideCondition (check : CheckKind)
deriving DecidableEq, Repr

namespace ObligationKind

def print : ObligationKind → String
  | assertion => "assertion"
  | invariant => "invariant"
  | precondition => "precondition"
  | postcondition => "postcondition"
  | invariantEntry => "invariant on entry"
  | invariantPreserved => "invariant preserved"
  | variantNonnegative => "variant non-negative"
  | variantDecreases => "variant decreases"
  | variantMissing => "variant missing"
  | sideCondition _ => "side condition"

/-- What an obligation of a kind is about: for a side condition, what it rules out. -/
def reason : ObligationKind → String
  | sideCondition c => c.print
  | k => k.print

def isSideCondition : ObligationKind → Bool
  | sideCondition _ => true
  | _ => false

end ObligationKind

/-- A goal that has to follow from some assumptions. -/
structure Obligation where
  /-- The position among all obligations. -/
  index : Nat
  function : String
  kind : ObligationKind
  /-- Where the command at issue was read. -/
  origin : Origin
  /-- The text of the command at issue. -/
  text : String
  assumptions : List Formula
  goal : Formula
  /-- The types of the symbolic constants. -/
  scope : Scope

namespace Obligation

def print (o : Obligation) : String :=
  s!"#{o.index} {o.function}: {o.kind.reason} ({o.text})"

/-- Whether nothing is missing in an obligation. -/
def isWhole (o : Obligation) : Bool := o.assumptions.all Formula.isWhole && o.goal.isWhole

/-- The formula that an obligation asks for. -/
def formula (o : Obligation) : Formula := (Formula.conj o.assumptions).implies o.goal

def encodeAll (env : Encoding.Env) : List Formula → Encoding.EncodeM (List Term)
  | [] => return []
  | f :: fs => do
    let r ← Encoding.formula env f
    return r.term :: (← encodeAll env fs)

/-- Encodes the assumptions and the negation of the goal. -/
def encode (o : Obligation) : Encoding.EncodeM (List Term) := do
  let env := Encoding.Env.ofScope o.scope
  let assumptions ← encodeAll env o.assumptions
  let goal ← Encoding.formula env o.goal
  return assumptions ++ [goal.term.not]

/-- The query for a counterexample. -/
def query (o : Obligation) : Except Fault Query :=
  match o.encode.run.run default with
  | (.ok terms, declarations) => .ok ⟨o.print, declarations, terms⟩
  | (.error e, _) => .error e

end Obligation

end Verdict
