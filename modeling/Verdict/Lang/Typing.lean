import Verdict.NameMap
import Verdict.Lang.Fault

/-! # The types of values

The type of a value in a scope, which gives the types of variables and the functions that can be
called. Only what is needed to tell the type is looked at: the operands of an expression, for
instance, are not. -/

namespace Verdict

/-- The variables and functions that a value can refer to. -/
structure Scope where
  vars : NameMap Ty
  functions : List Function
deriving Inhabited

namespace Scope

/-- The type of a variable. -/
def type? (s : Scope) (x : String) : Option Ty := s.vars.get? x

/-- The first function with a given name. -/
def function? (s : Scope) (name : String) : Option Function :=
  s.functions.find? fun f => f.name == name

/-- The scope in which `x` has a type. -/
def declare (s : Scope) (x : String) (t : Ty) : Scope := { s with vars := s.vars.insert x t }

end Scope

namespace Ty

/-- The type of an element of an array or tuple. -/
def elementType (t : Ty) (shape : Shape) (index : Value) : Except Cause Ty :=
  match shape, t.underlying with
  | .array, array e _ => .ok e
  | .tuple, tuple ts =>
    match index.constantIndex? with
    | none => .error .indexNotConstant
    | some i =>
      match ts[i]? with
      | some e => .ok e
      | none => .error (.indexOutOfBounds i (.tuple ts))
  | .tuple, _ => .error (.notTuple t.print)
  | .array, _ => .error (.notArray t.print)

end Ty

def Place.typeOf (scope : Scope) : Place → Except Fault Ty
  | .name x o =>
    match scope.type? x with
    | some t => .ok t
    | none => .error (.of o (.unknownVariable x))
  | .wildcard o => .error (.of o .wildcardRead)
  | .elem shape x i o =>
    match scope.type? x with
    | some t => (t.elementType shape i).mapError (.of o)
    | none => .error (.of o (.unknownVariable x))

mutual

def Value.typeOf (scope : Scope) : Value → Except Fault Ty
  | .expr _ _ => .ok .i32
  | .formula _ _ => .ok .bool
  | .place p _ => p.typeOf scope
  | .tuple vs _ => (Value.typesOf scope vs).map .tuple
  | .array [] _ => .ok (.array .unknown 0)
  | .array (v :: vs) _ => (v.typeOf scope).map fun t => .array t (vs.length + 1)
  | .call f _ o =>
    match scope.function? f with
    | some g => .ok g.output
    | none => .error (.of o (.unknownFunction f))
  | .ref v mutable _ => (v.typeOf scope).map fun t => .ref t mutable
  | .deref v _ => (v.typeOf scope).map Ty.deref
  | .unit _ => .ok .unit
  | .ite _ v _ _ => v.typeOf scope
  | .select shape b i o => do
    let t ← b.typeOf scope
    (t.elementType shape i).mapError (.of o)
  | .store _ b _ _ _ => b.typeOf scope
  | .missing => .error (.of none (.missing .type))

def Value.typesOf (scope : Scope) : List Value → Except Fault (List Ty)
  | [] => .ok []
  | v :: vs => do
    let t ← v.typeOf scope
    let ts ← Value.typesOf scope vs
    return t :: ts

end

end Verdict
