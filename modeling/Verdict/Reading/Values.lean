import Verdict.Reading.Types

/-! # Reading values

Values, integer expressions and formulas have one notation: operators and constructors are the heads of
lists. Unit literals are all one node, and where that stands is given by a parameter. -/

namespace Verdict.Reading

/-- The operator that a symbol stands for. -/
def operator? : String → Option Operator
  | "+" => some .add
  | "-" => some .sub
  | "*" => some .mul
  | "/" => some .div
  | "%" => some .rem
  | _ => none

/-- The relation between integers that a symbol stands for. -/
def relation? : String → Option (Expr → Expr → Formula)
  | ">=" => some (.compare .ge)
  | "<=" => some (.compare .le)
  | ">" => some (.compare .gt)
  | "<" => some (.compare .lt)
  | "==" => some .equal
  | "!=" => some .notEqual
  | _ => none

def symbolValue (s : Span) (x : String) : Read Value :=
  if x = "true" then return .formula (.lit true) s.origin
  else if x = "false" then return .formula (.lit false) s.origin
  else
    match Text.readSigned? 32 x with
    | some n => return .expr (.num (Int32.ofInt n)) s.origin
    | none => if isName x then return .place (.name x none) s.origin else fail s .value

/-- What is wrong with applying a head to `n` values, if anything. -/
def misuse? (head : String) (n : Nat) : Option Problem :=
  match operator? head, relation? head with
  | some o, _ =>
    if 2 ≤ n ∨ (n = 1 ∧ (o = .sub ∨ o = .mul)) then none else some .insufficientArguments
  | _, some _ => if n = 2 then none else some .comparisonArguments
  | none, none =>
    match head with
    | "and" | "or" | "tuple" | "array" => none
    | "not" | "&" | "&mut" => if n = 1 then none else some .value
    | "=>" => if n = 2 then none else some .value
    | "ite" => if n = 3 then none else some .value
    | _ => some .value

/-- The value of an operator applied to values, from left to right. A single value is negated or read
through. -/
def arithmetic (o : Operator) (s : Span) : List Value → Value
  | [] => .expr (.num 0) s.origin
  | [v] =>
    match o with
    | .mul => .deref v s.origin
    | _ => .expr (.op o (.num 0) v.toExpr) s.origin
  | v :: vs => .expr (vs.foldl (fun e w => .op o e w.toExpr) v.toExpr) s.origin

/-- The formula that joins values from left to right. A single value stays as it is. -/
def logical (join : Formula → Formula → Formula) (neutral : Bool) (s : Span) :
    List Value → Value
  | [] => .formula (.lit neutral) s.origin
  | v :: vs =>
    match vs.foldl (fun f w => join f w.toFormula) v.toFormula with
    | .value w => w
    | f => .formula f s.origin

/-- The value of a head applied to values that it can be applied to. -/
def apply (s : Span) (head : String) (vs : List Value) : Value :=
  match operator? head, relation? head, vs with
  | some o, _, vs => arithmetic o s vs
  | none, some r, [v, w] => .formula (r v.toExpr w.toExpr) s.origin
  | none, _, vs =>
    match head, vs with
    | "and", vs => logical .and true s vs
    | "or", vs => logical .or false s vs
    | "tuple", vs => .tuple vs s.origin
    | "not", [v] => .formula (.not v.toFormula) s.origin
    | "=>", [v, w] => .formula (v.toFormula.implies w.toFormula) s.origin
    | "&", [v] => .ref v false s.origin
    | "&mut", [v] => .ref v true s.origin
    | "ite", [c, v, w] => .ite c.toFormula v w s.origin
    | _, vs => .array vs s.origin

/-- The name of the array or tuple that an element is part of. -/
def baseName : STree → Read String
  | .symbol s x => if isName x then return x else fail s .expectedName
  | .list s _ => fail s .expectedName

/-- The element of a named array or tuple. The index of a tuple has to be a literal. -/
def element (head base : String) (index : Value) (indexSpan : Span) (origin : Origin) :
    Read Place :=
  if head = "at" then return .elem .array base index origin
  else if index.constantIndex?.isSome then return .elem .tuple base index origin
  else fail indexSpan .indexNotConstant

/-- The quantifier that a symbol stands for. -/
def quantifier : String → Quantifier
  | "forall" => .all
  | _ => .some

mutual

def value (unitAt : Span → Origin) : STree → Read Value
  | .symbol s x => symbolValue s x
  | .list s [] => return .unit (unitAt s)
  | .list s (.list _ _ :: _) => fail s .value
  | .list s (.symbol _ head :: args) =>
    if head = "call" then
      match args with
      | .symbol _ f :: rest => return .call f (← values unitAt rest) s.origin
      | _ => fail s .value
    else if head = "forall" ∨ head = "exists" then
      match args with
      | [.symbol _ x, a] =>
        if isName x then do
          let f ← value unitAt a
          return .formula (.quant (quantifier head) x .i32 f.toFormula) s.origin
        else fail s .quantifier
      | [.symbol _ x, t, a] =>
        if isName x then do
          let t ← type t
          let f ← value unitAt a
          return .formula (.quant (quantifier head) x t f.toFormula) s.origin
        else fail s .quantifier
      | _ => fail s .quantifier
    else if head = "at" ∨ head = "dot" then
      match args with
      | [b, i] => do
        let x ← baseName b
        let v ← value unitAt i
        return .place (← element head x v i.span none) s.origin
      | _ => fail s .value
    else
      match misuse? head args.length with
      | some p => fail s p
      | none => return apply s head (← values unitAt args)

def values (unitAt : Span → Origin) : List STree → Read (List Value)
  | [] => return []
  | t :: ts => return (← value unitAt t) :: (← values unitAt ts)

end

def formula (unitAt : Span → Origin) (t : STree) : Read Formula :=
  return (← value unitAt t).toFormula

def place (unitAt : Span → Origin) : STree → Read Place
  | .symbol s x =>
    if x = "_" then return .wildcard s.origin
    else if isName x then return .name x s.origin
    else fail s .target
  | .list s [.symbol _ head, b, i] =>
    if head = "at" ∨ head = "dot" then do
      let x ← baseName b
      let v ← value unitAt i
      element head x v i.span s.origin
    else fail s .target
  | t => fail t.span .target

end Verdict.Reading
