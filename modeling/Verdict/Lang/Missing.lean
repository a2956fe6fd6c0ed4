import Verdict.Lang.Syntax

/-! # Missing values

A loop may use the name of a variable for its iterator, and the value of the variable is lost with the
iterator. If this happens in a branch of a conditional, the variable has a missing value after it. A
missing value can be passed on and become part of other values, which are then not whole. What cannot
be done is to look at it: it has no text, no variables and no type. -/

namespace Verdict

/-- What a missing value is asked for. -/
inductive Need where
  | text
  | variables
  | type
deriving DecidableEq, Repr

mutual

/-- Whether nothing is missing in a place. -/
def Place.isWhole : Place → Bool
  | .name _ _ | .wildcard _ => true
  | .elem _ _ i _ => i.isWhole

def Value.isWhole : Value → Bool
  | .expr e _ => e.isWhole
  | .formula f _ => f.isWhole
  | .place p _ => p.isWhole
  | .tuple vs _ => Value.areWhole vs
  | .array vs _ => Value.areWhole vs
  | .call _ vs _ => Value.areWhole vs
  | .ref v _ _ => v.isWhole
  | .deref v _ => v.isWhole
  | .unit _ => true
  | .ite c t e _ => c.isWhole && t.isWhole && e.isWhole
  | .select _ b i _ => b.isWhole && i.isWhole
  | .store _ b i e _ => b.isWhole && i.isWhole && e.isWhole
  | .missing => false

def Value.areWhole : List Value → Bool
  | [] => true
  | v :: vs => v.isWhole && Value.areWhole vs

def Expr.isWhole : Expr → Bool
  | .num _ => true
  | .value v => v.isWhole
  | .op _ a b => a.isWhole && b.isWhole

def Formula.isWhole : Formula → Bool
  | .lit _ => true
  | .and f g => f.isWhole && g.isWhole
  | .or f g => f.isWhole && g.isWhole
  | .not f => f.isWhole
  | .value v => v.isWhole
  | .equal a b => a.isWhole && b.isWhole
  | .compare _ a b => a.isWhole && b.isWhole
  | .quant _ _ _ f => f.isWhole

end

namespace Value

/-- Whether two values are known to be one and the same without a look at their texts: both are
missing, or they were made as one. -/
def isSame : Value → Value → Bool
  | .missing, .missing => true
  | v, w =>
    match v.origin, w.origin with
    | some (.made n), some (.made m) => n == m
    | _, _ => false

/-- The origin of the next value that is made. -/
def nextOrigin : StateM Nat Origin := modifyGet fun n => (some (.made n), n + 1)

mutual

/-- Numbers a value that was made, together with those of its parts that can be taken out of it
again. What has an origin already keeps it. -/
def number : Value → StateM Nat Value
  | .expr e none => do return .expr e (← nextOrigin)
  | .formula f none => do return .formula f (← nextOrigin)
  | .place p none => do return .place p (← nextOrigin)
  | .tuple vs none => do return .tuple (← numberAll vs) (← nextOrigin)
  | .array vs none => do return .array (← numberAll vs) (← nextOrigin)
  | .call f vs none => do return .call f vs (← nextOrigin)
  | .ref v mutable none => do return .ref (← number v) mutable (← nextOrigin)
  | .deref v none => do return .deref (← number v) (← nextOrigin)
  | .ite c t e none => do return .ite c t e (← nextOrigin)
  | .select shape b i none => do return .select shape b i (← nextOrigin)
  | .store shape b i e none => do
    return .store shape (← number b) i (← number e) (← nextOrigin)
  | v => return v

def numberAll : List Value → StateM Nat (List Value)
  | [] => return []
  | v :: vs => do return (← number v) :: (← numberAll vs)

end

end Value

end Verdict
