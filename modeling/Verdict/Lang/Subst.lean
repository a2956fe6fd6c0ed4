import Verdict.NameMap
import Verdict.Lang.FreeVars
import Verdict.Lang.Print

/-! # Substitution

A substitution replaces variables by values, all at once. Binders whose variable would capture a
variable of a replacement are renamed. Reading an element of a replacement is simplified where the
element is known. -/

namespace Verdict

/-- Simultaneous replacements for variables. -/
abbrev Substitution := NameMap Value

namespace Value

/-- The value that is `t` if the condition holds and `e` otherwise. A literal condition decides, and
values that print alike need no decision. -/
def ternary (c : Formula) (t e : Value) : Value :=
  if c.isTrue then t
  else if c.isFalse then e
  else if t.print = e.print then t
  else .ite c t e none

/-- An element of a literal, if its index is known. -/
def literalElement? (elements : List Value) (index : Value) : Option Value :=
  index.constantIndex?.bind fun i => elements[i]?

/-- The element of `whole` at an index. The last argument is `whole` without some references in
front. -/
def elementOf (shape : Shape) (index whole : Value) : Value → Value
  | .ref v _ _ => elementOf shape index whole v
  | .deref v _ => elementOf shape index whole v
  | .place (.name x _) _ => .place (.elem shape x index none) none
  | .tuple vs _ => (literalElement? vs index).getD (.select shape whole index none)
  | .array vs _ => (literalElement? vs index).getD (.select shape whole index none)
  | .store _ b i e _ =>
    match index.constantIndex?, i.constantIndex? with
    | some n, some m => if n = m then e else elementOf shape index b b
    | _, _ => .select shape whole index none
  | .ite c t e _ =>
    match shape with
    | .tuple => ternary c (elementOf .tuple index t t) (elementOf .tuple index e e)
    | .array => .select .array whole index none
  | _ => .select shape whole index none

/-- The element of a value at an index. It is looked up in a literal, in a store at a known index
and in both branches of a conditional tuple. -/
def element (shape : Shape) (base index : Value) : Value := elementOf shape index base base

end Value

/-- The name `x'i`. -/
def primed (x : String) (i : Nat) : String := x ++ "'" ++ toString i

/-- The first number from `i` on for which the primed name is not taken, among `n` and the one after
them. -/
def freeIndex (x : String) (taken : String → Bool) : Nat → Nat → Nat
  | i, 0 => i
  | i, n + 1 => if taken (primed x i) then freeIndex x taken (i + 1) n else i

/-- The first of the names `x'1`, `x'2`, … that is not taken. Among one more than there are taken
names, one is not. -/
def freshName (x : String) (taken : Names) : String :=
  primed x (freeIndex x taken.contains 1 taken.size)

namespace Substitution

/-- The replacements that matter below a binder of `x`: those of the other variables that are free in
its body. -/
def below (s : Substitution) (x : String) (free : Names) : Substitution :=
  s.filter fun y _ => y ≠ x && free.contains y

/-- Whether a replacement mentions `x`. -/
def mentions (s : Substitution) (x : String) : Bool :=
  s.entries.any fun e => e.2.freeVars.contains x

def freeVars (s : Substitution) : Names := .unions (s.entries.map fun e => e.2.freeVars)

/-- The bound variable, and the replacements in the body, after substitution below a binder of `x`
whose body has the given free variables. -/
def enter (s : Substitution) (x : String) (free : Names) : String × Substitution :=
  let inner := s.below x free
  if inner.mentions x then
    let y := freshName x (free.union inner.freeVars)
    (y, inner.insert x (.var y))
  else (x, inner)

end Substitution

mutual

/-- Replaces variables in the value that is read from a place; `origin` is that of the value. -/
def Place.substRead (s : Substitution) (origin : Origin) : Place → Value
  | .name x o => (s.get? x).getD (.place (.name x o) origin)
  | .wildcard o => .place (.wildcard o) origin
  | .elem shape x i _ => .element shape ((s.get? x).getD (.var x)) (i.substNonempty s)

/-- Replaces variables in a value. -/
def Value.substNonempty (s : Substitution) : Value → Value
  | .expr e _ => (e.substNonempty s).toValue
  | .formula f _ => (f.substNonempty s).toValue
  | .place p o => p.substRead s o
  | .tuple vs _ => .tuple (Value.substAll s vs) none
  | .array vs _ => .array (Value.substAll s vs) none
  | .call f vs _ => .call f (Value.substAll s vs) none
  | .ref v mutable _ => .ref (v.substNonempty s) mutable none
  | .deref v _ => .deref (v.substNonempty s) none
  | .unit o => .unit o
  | .ite c t e _ => .ternary (c.substNonempty s) (t.substNonempty s) (e.substNonempty s)
  | .select shape b i _ => .element shape (b.substNonempty s) (i.substNonempty s)
  | .store shape b i e _ =>
    .store shape (b.substNonempty s) (i.substNonempty s) (e.substNonempty s) none
  | .missing => .missing

def Value.substAll (s : Substitution) : List Value → List Value
  | [] => []
  | v :: vs => v.substNonempty s :: Value.substAll s vs

def Expr.substNonempty (s : Substitution) : Expr → Expr
  | .num n => .num n
  | .value v => (v.substNonempty s).toExpr
  | .op o a b => .op o (a.substNonempty s) (b.substNonempty s)

def Formula.substNonempty (s : Substitution) : Formula → Formula
  | .lit b => .lit b
  | .and f g => .and (f.substNonempty s) (g.substNonempty s)
  | .or f g => .or (f.substNonempty s) (g.substNonempty s)
  | .not f => .not (f.substNonempty s)
  | .value v => (v.substNonempty s).toFormula
  | .equal a b => .equal (a.substNonempty s) (b.substNonempty s)
  | .compare c a b => .compare c (a.substNonempty s) (b.substNonempty s)
  | .quant q x t f =>
    if (s.below x f.freeVars).isEmpty then .quant q x t f
    else
      let (y, inner) := s.enter x f.freeVars
      .quant q y t (f.substNonempty inner)

end

/-- Replaces variables in a value. Without replacements it stays as it is. -/
def Value.subst (s : Substitution) (v : Value) : Value :=
  if s.isEmpty then v else v.substNonempty s

def Expr.subst (s : Substitution) (e : Expr) : Expr :=
  if s.isEmpty then e else e.substNonempty s

def Formula.subst (s : Substitution) (f : Formula) : Formula :=
  if s.isEmpty then f else f.substNonempty s

/-- Replaces variables in the index of an element; other places stay as they are. -/
def Place.substIndex (s : Substitution) : Place → Place
  | .elem shape x i _ => .elem shape x (i.substNonempty s) none
  | p => p

end Verdict
