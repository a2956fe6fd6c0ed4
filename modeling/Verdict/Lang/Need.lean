import Verdict.Lang.Missing
import Verdict.Lang.Subst

/-! # What substitution needs of missing values

A substitution may put values that are not whole into a node. That is no harm as long as nothing is
asked of what is missing. Two things are: the texts of the two sides of a conditional value, unless the
condition is a literal or the sides are one and the same, and the variables of a replacement below a
binder. A value that is missing altogether has no variables.

Each function here gives the first such need on the way of the substitution, from left to right. -/

namespace Verdict

namespace Value

/-- What is needed to make a conditional value. -/
def ternaryNeed (c : Formula) (t e : Value) : Option Need :=
  if c.isTrue || c.isFalse || t.isSame e || (t.isWhole && e.isWhole) then none else some .text

/-- What is needed to take an element out of a value. -/
def elementNeed (shape : Shape) (index : Value) : Value → Option Need
  | .ref v _ _ => elementNeed shape index v
  | .deref v _ => elementNeed shape index v
  | .store _ b i _ _ =>
    match index.constantIndex?, i.constantIndex? with
    | some n, some m => if n = m then none else elementNeed shape index b
    | _, _ => none
  | .ite c t e _ =>
    match shape with
    | .tuple =>
      (elementNeed .tuple index t).or ((elementNeed .tuple index e).or
        (ternaryNeed c (t.element .tuple index) (e.element .tuple index)))
    | .array => none
  | _ => none

end Value

namespace Substitution

/-- Whether the replacements of some variables are whole. -/
def isWholeOn (s : Substitution) (xs : Names) : Bool :=
  xs.members.all fun x => (s.get? x).all Value.isWhole

/-- Whether the variables of all replacements can be found. -/
def hasVariables (s : Substitution) : Bool :=
  s.entries.all fun e => e.2.isSame .missing || e.2.isWhole

end Substitution

mutual

/-- What is needed to replace variables in the value that is read from a place. -/
def Place.substNeed (s : Substitution) : Place → Option Need
  | .name _ _ | .wildcard _ => none
  | .elem shape x i _ =>
    (i.substNeed s).or
      (Value.elementNeed shape (i.substNonempty s) ((s.get? x).getD (.var x)))

/-- What is needed to replace variables in a value. -/
def Value.substNeed (s : Substitution) : Value → Option Need
  | .expr e _ => e.substNeed s
  | .formula f _ => f.substNeed s
  | .place p _ => p.substNeed s
  | .tuple vs _ => Value.substNeedAll s vs
  | .array vs _ => Value.substNeedAll s vs
  | .call _ vs _ => Value.substNeedAll s vs
  | .ref v _ _ => v.substNeed s
  | .deref v _ => v.substNeed s
  | .unit _ | .missing => none
  | .ite c t e _ =>
    (c.substNeed s).or ((t.substNeed s).or ((e.substNeed s).or
      (Value.ternaryNeed (c.substNonempty s) (t.substNonempty s) (e.substNonempty s))))
  | .select shape b i _ =>
    (b.substNeed s).or ((i.substNeed s).or
      (Value.elementNeed shape (i.substNonempty s) (b.substNonempty s)))
  | .store _ b i e _ => (b.substNeed s).or ((i.substNeed s).or (e.substNeed s))

def Value.substNeedAll (s : Substitution) : List Value → Option Need
  | [] => none
  | v :: vs => (v.substNeed s).or (Value.substNeedAll s vs)

def Expr.substNeed (s : Substitution) : Expr → Option Need
  | .num _ => none
  | .value v => v.substNeed s
  | .op _ a b => (a.substNeed s).or (b.substNeed s)

def Formula.substNeed (s : Substitution) : Formula → Option Need
  | .lit _ => none
  | .and f g => (f.substNeed s).or (g.substNeed s)
  | .or f g => (f.substNeed s).or (g.substNeed s)
  | .not f => f.substNeed s
  | .value v => v.substNeed s
  | .equal a b => (a.substNeed s).or (b.substNeed s)
  | .compare _ a b => (a.substNeed s).or (b.substNeed s)
  | .quant _ x _ f =>
    let inner := s.below x f.freeVars
    if inner.isEmpty then none
    else if inner.hasVariables then f.substNeed (s.enter x f.freeVars).2
    else some .variables

end

/-- What is needed to replace variables in a value. Nothing is if the replacements are whole. -/
def Value.need (s : Substitution) (v : Value) : Option Need :=
  if s.isWholeOn v.freeVars then none else v.substNeed s

def Expr.need (s : Substitution) (e : Expr) : Option Need :=
  if s.isWholeOn e.freeVars then none else e.substNeed s

def Formula.need (s : Substitution) (f : Formula) : Option Need :=
  if s.isWholeOn f.freeVars then none else f.substNeed s

end Verdict
