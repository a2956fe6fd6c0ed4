import Verdict.Lang.Subst

/-! # Values that print alike

A conditional value whose sides print alike is replaced by its first side, whatever the condition. This
is right only if the two sides mean the same. Each function here lists the pairs of values that are taken
for one another in this way, in the order in which a substitution comes to them. -/

namespace Verdict

/-- Two values that are taken for one another because they print alike, with the types of the variables
that are known where they stand. -/
structure Alike where
  vars : NameMap Ty
  left : Value
  right : Value

namespace Value

/-- What is taken for one another to make a conditional value. -/
def ternaryAlikes (vars : NameMap Ty) (c : Formula) (t e : Value) : List Alike :=
  if c.isTrue || c.isFalse then []
  else if t.print = e.print then [⟨vars, t, e⟩]
  else []

/-- What is taken for one another to take an element out of a value. -/
def elementAlikes (vars : NameMap Ty) (shape : Shape) (index : Value) : Value → List Alike
  | .ref v _ _ => elementAlikes vars shape index v
  | .deref v _ => elementAlikes vars shape index v
  | .store _ b i _ _ =>
    match index.constantIndex?, i.constantIndex? with
    | some n, some m => if n = m then [] else elementAlikes vars shape index b
    | _, _ => []
  | .ite c t e _ =>
    match shape with
    | .tuple =>
      elementAlikes vars .tuple index t ++ elementAlikes vars .tuple index e ++
        ternaryAlikes vars c (t.element .tuple index) (e.element .tuple index)
    | .array => []
  | _ => []

end Value

mutual

/-- What is taken for one another to replace variables in the value that is read from a place. -/
def Place.substAlikes (vars : NameMap Ty) (s : Substitution) : Place → List Alike
  | .name _ _ | .wildcard _ => []
  | .elem shape x i _ =>
    i.substAlikes vars s ++
      Value.elementAlikes vars shape (i.substNonempty s) ((s.get? x).getD (.var x))

/-- What is taken for one another to replace variables in a value. -/
def Value.substAlikes (vars : NameMap Ty) (s : Substitution) : Value → List Alike
  | .expr e _ => e.substAlikes vars s
  | .formula f _ => f.substAlikes vars s
  | .place p _ => p.substAlikes vars s
  | .tuple vs _ => Value.substAlikesAll vars s vs
  | .array vs _ => Value.substAlikesAll vars s vs
  | .call _ vs _ => Value.substAlikesAll vars s vs
  | .ref v _ _ => v.substAlikes vars s
  | .deref v _ => v.substAlikes vars s
  | .unit _ | .missing => []
  | .ite c t e _ =>
    c.substAlikes vars s ++ t.substAlikes vars s ++ e.substAlikes vars s ++
      Value.ternaryAlikes vars (c.substNonempty s) (t.substNonempty s) (e.substNonempty s)
  | .select shape b i _ =>
    b.substAlikes vars s ++ i.substAlikes vars s ++
      Value.elementAlikes vars shape (i.substNonempty s) (b.substNonempty s)
  | .store _ b i e _ => b.substAlikes vars s ++ i.substAlikes vars s ++ e.substAlikes vars s

def Value.substAlikesAll (vars : NameMap Ty) (s : Substitution) : List Value → List Alike
  | [] => []
  | v :: vs => v.substAlikes vars s ++ Value.substAlikesAll vars s vs

def Expr.substAlikes (vars : NameMap Ty) (s : Substitution) : Expr → List Alike
  | .num _ => []
  | .value v => v.substAlikes vars s
  | .op _ a b => a.substAlikes vars s ++ b.substAlikes vars s

/-- What is taken for one another to replace variables in a formula. Below a binder its variable is
known, too. -/
def Formula.substAlikes (vars : NameMap Ty) (s : Substitution) : Formula → List Alike
  | .lit _ => []
  | .and f g => f.substAlikes vars s ++ g.substAlikes vars s
  | .or f g => f.substAlikes vars s ++ g.substAlikes vars s
  | .not f => f.substAlikes vars s
  | .value v => v.substAlikes vars s
  | .equal a b => a.substAlikes vars s ++ b.substAlikes vars s
  | .compare _ a b => a.substAlikes vars s ++ b.substAlikes vars s
  | .quant _ x t f =>
    if (s.below x f.freeVars).isEmpty then []
    else
      let (y, inner) := s.enter x f.freeVars
      f.substAlikes (vars.insert y t) inner

end

/-- What is taken for one another by a substitution in a value. -/
def Value.alikes (vars : NameMap Ty) (s : Substitution) (v : Value) : List Alike :=
  if s.isEmpty then [] else v.substAlikes vars s

def Expr.alikes (vars : NameMap Ty) (s : Substitution) (e : Expr) : List Alike :=
  if s.isEmpty then [] else e.substAlikes vars s

def Formula.alikes (vars : NameMap Ty) (s : Substitution) (f : Formula) : List Alike :=
  if s.isEmpty then [] else f.substAlikes vars s

def Place.indexAlikes (vars : NameMap Ty) (s : Substitution) : Place → List Alike
  | .elem _ _ i _ => i.substAlikes vars s
  | _ => []

end Verdict
