import Verdict.Source.Span
import Verdict.Lang.Ty

/-! # The syntax of programs

A program is a list of functions, each with a contract: a precondition on its inputs and a
postcondition on its result. Bodies are lists of commands over places and values. Values, integer
expressions and formulas refer to one another: a formula can be used as a value and a value as a
formula.

Some nodes carry an origin: the span of the source text they were read from. It takes no part in what
a node means. Nodes that are made later have none, or a number that tells them apart. -/

namespace Verdict

/-- Where a node comes from. -/
inductive Provenance where
  /-- It was read from a span of the text. -/
  | read (span : Span)
  /-- It was the `n`-th to be made of those that are told apart. -/
  | made (n : Nat)
deriving DecidableEq, Repr

/-- Where a node comes from, if that is known. -/
abbrev Origin := Option Provenance

/-- Where a node was read, if it was. -/
def Origin.span? : Origin → Option Span
  | some (.read s) => some s
  | _ => none

/-- The origin of what was read from a span. -/
def Span.origin (s : Span) : Origin := some (.read s)

/-- What an element is part of. -/
inductive Shape where
  | array
  | tuple
deriving DecidableEq, Repr

/-- The operators of integer arithmetic. Division and remainder are Euclidean. -/
inductive Operator where
  | add
  | sub
  | mul
  | div
  | rem
deriving DecidableEq, Repr

/-- The order comparisons of integers. -/
inductive Comparison where
  | ge
  | le
  | gt
  | lt
deriving DecidableEq, Repr

/-- The quantifiers of formulas. -/
inductive Quantifier where
  | all
  | some
deriving DecidableEq, Repr

mutual

/-- What a value is read from or written to. -/
inductive Place where
  | name (x : String) (origin : Origin)
  /-- The place that takes any value and cannot be read. -/
  | wildcard (origin : Origin)
  /-- An element of the array or tuple that `base` names. -/
  | elem (shape : Shape) (base : String) (index : Value) (origin : Origin)

/-- The values of the language. -/
inductive Value where
  | expr (e : Expr) (origin : Origin)
  | formula (f : Formula) (origin : Origin)
  | place (p : Place) (origin : Origin)
  | tuple (elements : List Value) (origin : Origin)
  | array (elements : List Value) (origin : Origin)
  | call (function : String) (args : List Value) (origin : Origin)
  | ref (inner : Value) (mutable : Bool) (origin : Origin)
  | deref (inner : Value) (origin : Origin)
  | unit (origin : Origin)
  | ite (cond : Formula) (thenValue elseValue : Value) (origin : Origin)
  /-- An element of an array or tuple. -/
  | select (shape : Shape) (base index : Value) (origin : Origin)
  /-- An array or tuple with one element replaced. -/
  | store (shape : Shape) (base index element : Value) (origin : Origin)
  /-- What is left of a value that was lost. No program is written with it. -/
  | missing

/-- Integer expressions. -/
inductive Expr where
  | num (n : Int32)
  | value (v : Value)
  | op (o : Operator) (left right : Expr)

/-- Formulas. -/
inductive Formula where
  | lit (b : Bool)
  | and (left right : Formula)
  | or (left right : Formula)
  | not (inner : Formula)
  | value (v : Value)
  | equal (left right : Expr)
  | compare (c : Comparison) (left right : Expr)
  | quant (q : Quantifier) (x : String) (type : Ty) (body : Formula)

end

instance : Inhabited Value := ⟨.unit none⟩

instance : Inhabited Formula := ⟨.lit true⟩

/-- A variable with its type. -/
structure Declaration where
  name : String
  type : Ty
  mutable : Bool
  origin : Origin

/-- The assignment of one value to one place. -/
structure Assignment where
  target : Place
  value : Value
  origin : Origin

mutual

/-- The commands of a body. -/
inductive Command where
  /-- A variable that starts with any value. -/
  | declare (d : Declaration)
  /-- A variable that starts with a given value. -/
  | bind (d : Declaration) (value : Value)
  /-- Variables that start with the elements of a tuple. -/
  | bindTuple (targets : List Declaration) (value : Value) (origin : Origin)
  | assign (a : Assignment)
  /-- Assignments that take place at the same time. -/
  | assignAll (as : List Assignment) (origin : Origin)
  | assert (cond : Formula) (origin : Origin)
  | assume (cond : Formula) (origin : Origin)
  | invariant (cond : Formula) (origin : Origin)
  | cond (branches : Branches) (origin : Origin)
  /-- A loop in which `iter` runs from `lo` up to, but not including, `hi`. -/
  | forRange (iter : String) (lo hi : Value) (invariant : Formula) (body : List Command)
      (origin : Origin)
  | whileLoop (cond invariant : Formula) (variant : Option Expr) (body : List Command)
      (origin : Origin)
  | noop (origin : Origin)

/-- Blocks of which the first with a true condition is run, or else the last one. -/
inductive Branches where
  | otherwise (block : List Command)
  | branch (cond : Formula) (block : List Command) (rest : Branches)

end

instance : Inhabited Command := ⟨.noop none⟩

instance : Inhabited Branches := ⟨.otherwise []⟩

/-- A function with its contract. -/
structure Function where
  name : String
  inputs : List Declaration
  output : Ty
  precondition : Formula
  postcondition : Formula
  result : Value
  body : List Command
  origin : Origin
deriving Inhabited

/-- A program. -/
structure Program where
  functions : List Function
deriving Inhabited

namespace Place

/-- Where a place comes from. -/
def origin : Place → Origin
  | name _ o | wildcard o | elem _ _ _ o => o

/-- The variable that a place belongs to, and the empty name for the wildcard. -/
def base : Place → String
  | name x _ => x
  | wildcard _ => ""
  | elem _ x _ _ => x

end Place

namespace Value

def origin : Value → Origin
  | expr _ o | formula _ o | place _ o | tuple _ o | array _ o | call _ _ o | ref _ _ o | deref _ o
  | unit o | ite _ _ _ o | select _ _ _ o | store _ _ _ _ o => o
  | missing => none

/-- The value of the variable `x`. -/
def var (x : String) : Value := .place (.name x none) none

def int (n : Int32) : Value := .expr (.num n) none

def toExpr : Value → Expr
  | expr e _ => e
  | v => .value v

def toFormula : Value → Formula
  | formula f _ => f
  | v => .value v

/-- The value behind all references to it and reads through them. -/
def stripRefs : Value → Value
  | ref v _ _ => v.stripRefs
  | deref v _ => v.stripRefs
  | v => v

/-- The index that a value stands for, if it is a literal that is not negative. -/
def constantIndex? (v : Value) : Option Nat :=
  match v.stripRefs with
  | expr (.num n) _ => if 0 ≤ n then some n.toInt.toNat else none
  | _ => none

end Value

def Expr.toValue : Expr → Value
  | .value v => v
  | e => .expr e none

namespace Formula

def toValue : Formula → Value
  | value v => v
  | f => .formula f none

/-- Whether a formula is the literal truth. -/
def isTrue : Formula → Bool
  | lit b => b
  | _ => false

/-- Whether a formula is the literal falsehood. -/
def isFalse : Formula → Bool
  | lit b => !b
  | _ => false

/-- One more conjunct after the conjunction of those before it. -/
def addConjunct : Option Formula → Formula → Option Formula
  | none, f => if f.isTrue then none else some f
  | some g, f => if f.isTrue then some g else some (.and g f)

/-- The conjunction of some formulas, literal truths left out. -/
def conj (fs : List Formula) : Formula := (fs.foldl addConjunct none).getD (.lit true)

/-- One more disjunct after the disjunction of those before it. -/
def addDisjunct : Option Formula → Formula → Option Formula
  | none, f => if f.isFalse then none else some f
  | some g, f => if f.isFalse then some g else some (.or g f)

/-- The disjunction of some formulas, literal falsehoods left out. -/
def disj (fs : List Formula) : Formula := (fs.foldl addDisjunct none).getD (.lit false)

/-- The negation of a formula; a literal or a negation is simplified. -/
def negate : Formula → Formula
  | lit b => lit (!b)
  | not f => f
  | f => not f

/-- The implication between two formulas, as a disjunction. -/
def implies (f g : Formula) : Formula := if f.isTrue then g else disj [f.negate, g]

/-- The formula that two integers differ. -/
def notEqual (a b : Expr) : Formula := not (equal a b)

end Formula

namespace Command

def origin : Command → Origin
  | declare d | bind d _ => d.origin
  | assign a => a.origin
  | bindTuple _ _ o | assignAll _ o | assert _ o | assume _ o | invariant _ o | cond _ o
  | forRange _ _ _ _ _ o | whileLoop _ _ _ _ o | noop o => o

end Command

/-- The name under which a postcondition refers to the result. -/
def resultName : String := "return_value"

/-- The name of the value that an input has on entry. -/
def oldName (x : String) : String := x ++ "'old"

namespace Program

/-- The first function with a given name. -/
def function? (p : Program) (name : String) : Option Function :=
  p.functions.find? fun f => f.name == name

end Program

end Verdict
