import Verdict.Lang.Alike
import Verdict.Lang.Equality
import Verdict.Lang.Frame
import Verdict.Lang.Need
import Verdict.Obligation.Basic
import Verdict.Obligation.Mode

/-! # Symbolic states

A symbolic state describes all ways of reaching a point of a body at once: the value of each variable
in terms of symbolic constants, and the facts that are known about these constants. Values and facts
may have missing parts, as long as nothing is asked of them. -/

namespace Verdict

/-- A symbolic state. -/
structure SymState where
  frame : Frame
  /-- The value of each variable. -/
  values : Substitution
  /-- The facts that are known to hold. -/
  facts : List Formula
deriving Inhabited

namespace SymState

/-- The state in which a further fact is known. -/
def assume (s : SymState) (fact : Formula) : SymState :=
  if fact.isTrue then s else { s with facts := s.facts ++ [fact] }

def set (s : SymState) (x : String) (v : Value) : SymState :=
  { s with values := s.values.insert x v }

/-- The value of a name, which is missing if the name is no variable. -/
def valueOf (s : SymState) (x : String) : Value := (s.values.get? x).getD .missing

/-- The state in which a name is no longer a variable. -/
def forget (s : SymState) (x : String) : SymState :=
  { s with values := s.values.erase x }

def isVariable (s : SymState) (x : String) : Bool := s.values.contains x

/-- Whether one of some names is no variable of a state. -/
def lacks (s : SymState) (xs : List String) : Bool := xs.any fun x => !s.isVariable x

end SymState

/-- An array or tuple after the replacement of one element. -/
def Value.update (shape : Shape) (base index element : Value) : Value :=
  match shape, base, index.constantIndex? with
  | .tuple, .tuple vs _, some i =>
    if i < vs.length then .tuple (vs.set i element) none
    else .store shape base index element none
  | .array, .array vs _, some i =>
    if i < vs.length then .array (vs.set i element) none
    else .store shape base index element none
  | _, _, _ => .store shape base index element none

/-- Why no obligations are generated. -/
inductive GenerationError where
  | fault (e : Fault)
  /-- Something is asked of a value that is missing. -/
  | missing (need : Need)

namespace GenerationError

def ofFault (e : Fault) : GenerationError :=
  match e.cause with
  | .missing need => .missing need
  | _ => .fault e

def within (function : String) : GenerationError → GenerationError
  | .fault e => .fault (e.within function)
  | e => e

end GenerationError

/-- Where generation stops: at an error, or where a command does not fit the scope that it stands in. -/
inductive Stop where
  | error (e : GenerationError)
  /-- A frame does not allow a command, or what is assigned to has no value. -/
  | outOfScope (e : Fault)

def Stop.toError : Stop → GenerationError
  | .error e => e
  | .outOfScope e => .ofFault e

/-- What is kept while the obligations of a function are generated. -/
structure Generator where
  /-- The types of the symbolic constants. -/
  symbols : NameMap Ty
  /-- The number of primed constants that have been tried for each variable. -/
  counters : NameMap Nat
  /-- Whether the value of a variable has been lost. As long as none has, no value is missing. -/
  lossy : Bool
  /-- The number of values with missing parts that have been made. -/
  made : Nat
  /-- The pairs of values that have been taken for one another. The obligations rely on it that both
  mean the same. -/
  alikes : List Alike
  obligations : List Obligation
deriving Inhabited

/-- Generation keeps symbolic constants and obligations, and may fail. -/
abbrev GenM := StateT Generator (Except Stop)

/-- What is fixed while the obligations of a function are generated. -/
structure GenContext where
  modes : Modes
  functions : List Function
  function : String
  /-- The types of the values on entry and of the result. -/
  ghosts : NameMap Ty

/-- The node that obligations are about: where it was read, and its text. -/
structure Subject where
  origin : Origin
  text : String

namespace Generation

def fault {α : Type} (e : Fault) : GenM α := throw (.error (.fault e))

def ofFault {α : Type} : Except Fault α → GenM α
  | .ok a => return a
  | .error e => throw (.error (.ofFault e))

/-- The frame that a command leads to. -/
def inScope : Except Fault Frame → GenM Frame
  | .ok f => return f
  | .error e => throw (.outOfScope e)

/-- A new symbolic constant for a variable. It has the name of the variable if that is free and no
primed name is asked for. -/
def constant (x : String) (t : Ty) (isPrimed : Bool) : GenM Value := do
  let g ← get
  if isPrimed || g.symbols.contains x then
    let first := (g.counters.get? x).getD 0 + 1
    let i := freeIndex x g.symbols.contains first g.symbols.entries.length
    set { g with symbols := g.symbols.insert (primed x i) t, counters := g.counters.insert x i }
    return .var (primed x i)
  else
    set { g with symbols := g.symbols.insert x t }
    return .var x

/-- Adds an obligation, unless its goal is literally true. -/
def emit (ctx : GenContext) (s : SymState) (kind : ObligationKind) (subject : Subject)
    (goal : Formula) : GenM Unit :=
  if goal.isTrue then return ()
  else modify fun g =>
    let o : Obligation := ⟨g.obligations.length, ctx.function, kind, subject.origin, subject.text,
      s.facts, goal, ⟨g.symbols, ctx.functions⟩⟩
    { g with obligations := g.obligations ++ [o] }

/-- Takes note of a loss. -/
def noteLoss (isLoss : Bool) : GenM Unit := modify fun g => { g with lossy := g.lossy || isLoss }

/-- Takes note of values that are taken for one another. They mention symbolic constants. -/
def noteAlikes (alikes : NameMap Ty → List Alike) : GenM Unit :=
  modify fun g => { g with alikes := g.alikes ++ alikes g.symbols }

/-- Fails if something is needed of a missing value. -/
def require (need : Unit → Option Need) : GenM Unit := do
  if (← get).lossy then
    match need () with
    | none => return ()
    | some n => throw (.error (.missing n))

/-- Tells a value apart from all others if it has missing parts. -/
def keep (v : Value) : GenM Value :=
  modifyGet fun g =>
    if !g.lossy || v.isWhole then (v, g)
    else
      let (w, n) := v.number.run g.made
      (w, { g with made := n })

/-- A step whose values are not looked at after it: their numbers are given again. -/
def aside {α : Type} (m : GenM α) : GenM α := do
  let n := (← get).made
  let a ← m
  modify fun g => { g with made := n }
  return a

/-- The meaning of a value under a substitution. -/
def substValue (m : Substitution) (v : Value) : GenM Value := do
  require fun _ => v.need m
  noteAlikes fun vars => v.alikes vars m
  keep (v.subst m)

def substFormula (m : Substitution) (f : Formula) : GenM Formula := do
  require fun _ => f.need m
  noteAlikes fun vars => f.alikes vars m
  return f.subst m

def substExpr (m : Substitution) (e : Expr) : GenM Expr := do
  require fun _ => e.need m
  noteAlikes fun vars => e.alikes vars m
  return e.subst m

end Generation

end Verdict
