import Verdict.Lang.Typing
import Verdict.Smt.Check

/-! # Encoding formulas for a solver

Formulas, integer expressions and values become solver terms, together with the side conditions under
which they are well-defined. The constants and functions that occur are recorded, so that they can be
declared to the solver.

A tuple becomes one array for each sort of its elements: the tuple `t` of type `(i32, bool, i32)`
becomes the arrays `t'Int` and `t'Bool`, and its element `t.1` is that of `t'Bool` at index 1. -/

namespace Verdict

/-- The sorts of the arguments and of the result of a function. -/
structure FunctionSort where
  args : List SmtSort
  result : SmtSort
deriving DecidableEq, Repr

/-- The constants and functions that occur in some terms. -/
structure Declarations where
  consts : NameMap SmtSort
  funs : NameMap FunctionSort
deriving Inhabited

namespace Encoding

/-- Encoding records declarations, also when it fails. -/
abbrev EncodeM := ExceptT Fault (StateM Declarations)

/-- The variables and functions in scope, and the variables that are bound by quantifiers around the
place of encoding. -/
structure Env where
  scope : Scope
  bound : List String

/-- The environment below a binder. -/
def Env.bind (env : Env) (x : String) (t : Ty) : Env :=
  ⟨env.scope.declare x t, x :: env.bound⟩

/-- A value as a term of a sort, with its side conditions. -/
structure Encoded where
  checks : List Check
  term : Term
  sort : SmtSort

/-- A tuple as one array for each sort of its elements, under the tag of the sort. -/
structure EncodedTuple where
  checks : List Check
  parts : NameMap Term
  elements : List Ty

/-- The arguments of a call, tuples replaced by their parts. -/
structure EncodedArgs where
  checks : List Check
  terms : List Term
  sorts : List SmtSort

/-- The solver function for a function of the program. -/
def functionName (f : String) : String := f ++ "'fn"

/-- The array that holds the elements of a sort of a named tuple. -/
def partName (x : String) (s : SmtSort) : String := x ++ "'" ++ s.tag

/-- Records a constant, unless the name is that of a bound variable. -/
def declareConst (env : Env) (x : String) (s : SmtSort) : EncodeM Unit :=
  if env.bound.contains x then return ()
  else modify fun d => { d with consts := d.consts.insert x s }

def declareFun (f : String) (sig : FunctionSort) : EncodeM Unit :=
  modify fun d => { d with funs := d.funs.insert f sig }

def fail {α : Type} (o : Origin) (c : Cause) : EncodeM α := throw (.of o c)

/-- A result, or the failure for a cause that has no node of its own. -/
def orFail {α : Type} (r : Except Cause α) : EncodeM α :=
  match r with
  | .ok a => return a
  | .error c => fail none c

/-- A result, or its fault. -/
def lift {α : Type} (r : Except Fault α) : EncodeM α :=
  match r with
  | .ok a => return a
  | .error e => throw e

def lookup (env : Env) (x : String) (o : Origin) : EncodeM Ty :=
  match env.scope.type? x with
  | some t => return t
  | none => fail o (.unknownVariable x)

/-- The part of a tuple for a sort. -/
def part (parts : NameMap Term) (s : SmtSort) : Term := (parts.get? s.tag).getD .absent

/-- The sorts of the elements of a tuple, each once, in the order of their tags. -/
def tupleSorts (ts : List Ty) : List SmtSort :=
  let sorts := ts.filterMap fun t => t.sortOf.toOption
  (NameMap.ofList (sorts.map fun s => (s.tag, s))).entries.map Prod.snd

def namedTuple (env : Env) (x : String) (parts : NameMap Term) : List Ty → EncodeM (NameMap Term)
  | [] => return parts
  | t :: ts => do
    let s ← orFail t.sortOf
    declareConst env (partName x s) (.array s)
    namedTuple env x (parts.insert s.tag (.const (partName x s))) ts

/-- Reads an element of an array at an encoded index. An index that is known to be in bounds needs no
side condition. Bounds are words, as in side conditions. -/
def arrayElement (array : Term) (element : Ty) (length : Nat) (i : Value) (index : Encoded) :
    EncodeM Encoded := do
  let s ← orFail element.sortOf
  let inBounds := i.constantIndex?.any fun n => (n : Int) < (Int64.ofNat length).toInt
  let checks := if inBounds then index.checks
    else index.checks ++ [Check.index i index.term length]
  return ⟨checks, .select array index.term, s⟩

def tupleElement (o : Origin) (t : EncodedTuple) (i : Value) : EncodeM Encoded :=
  match i.constantIndex? with
  | none => fail o .indexNotConstant
  | some n =>
    match t.elements[n]? with
    | none => fail o (.indexOutOfBounds n (.tuple t.elements))
    | some e => do
      let s ← orFail e.sortOf
      return ⟨t.checks, .select (part t.parts s) (.int (Int64.ofNat n)), s⟩

/-- Checks that a value has an expected sort. -/
def requireSort (v : Value) (s : SmtSort) (r : Encoded) : EncodeM Encoded :=
  if r.sort = s then return r
  else fail v.origin (.wrongSort s.print r.sort.print v.print)

def requireInt (e : Expr) (r : Encoded) : EncodeM Encoded :=
  match e with
  | .value v => requireSort v .int r
  | _ => return r

/-- The solver function of an operator. -/
def operatorName : Operator → String
  | .add => "+"
  | .sub => "-"
  | .mul => "*"
  | .div => "div"
  | .rem => "mod"

/-- The side condition of an operation, if it needs one: a divisor that is a literal other than zero
needs none. -/
def operationChecks (o : Operator) (e : Expr) (t : Term) : List Check :=
  match o, e with
  | .div, .num n | .rem, .num n => if n = 0 then [Check.divisor e t] else []
  | .div, _ | .rem, _ => [Check.divisor e t]
  | _, _ => []

/-- The term for the order of two terms of a sort. Falsehood comes before truth; arrays have no
order. -/
def orderTerm (c : Comparison) (s : SmtSort) (a b : Term) : Option Term :=
  match s, c with
  | .int, c => some (.app c.print [a, b])
  | .bool, .ge => some (.implies b a)
  | .bool, .le => some (.implies a b)
  | .bool, .gt => some (.and [a, .not b])
  | .bool, .lt => some (.and [.not a, b])
  | .array _, _ => none

/-- The side conditions of a conditional: those of a branch are needed only if it is chosen. -/
def branchChecks (c : Formula) (r : Encoded) (thenChecks elseChecks : List Check) : List Check :=
  r.checks ++ thenChecks.map (Check.guard c r.term) ++
    elseChecks.map (Check.guard c.negate r.term.not)

/-- The parts of a literal tuple after one more element, at position `i`. -/
def literalPart (parts : NameMap Term) (i : Nat) (r : Encoded) : NameMap Term :=
  parts.insert r.sort.tag
    (match parts.get? r.sort.tag with
      | some p => .store p (.int (Int64.ofNat i)) r.term
      | none => .constArray r.sort r.term)

/-- The element types of a tuple value. -/
def tupleType (env : Env) (v : Value) : EncodeM (List Ty) := do
  let t ← lift (v.typeOf env.scope)
  match t.underlying with
  | .tuple ts => return ts
  | _ => fail v.origin (.notTuple t.print)

/-- The functions that hold the parts of the result of a call, and the parts. -/
def callParts (f : String) (args : EncodedArgs) (parts : NameMap Term) :
    List SmtSort → EncodeM (NameMap Term)
  | [] => return parts
  | s :: ss => do
    let name := partName (functionName f) s
    declareFun name ⟨args.sorts, .array s⟩
    callParts f args (parts.insert s.tag (.app name args.terms)) ss

mutual

/-- Encodes the value read from a place. -/
def place (env : Env) : Place → EncodeM Encoded
  | .name x o => do
    let t ← lookup env x o
    match t.sortOf with
    | .ok s => do
      declareConst env x s
      return ⟨[], .const x, s⟩
    | .error _ => fail o (.variableNotScalar x t)
  | .wildcard o => fail o .wildcardRead
  | .elem .array x i o => do
    let t ← lookup env x o
    match t.underlying with
    | .array e n => do
      let s ← orFail (Ty.array e n).sortOf
      declareConst env x s
      let index ← requireSort i .int (← value env i)
      arrayElement (.const x) e n i index
    | _ => fail o (.notArray t.print)
  | .elem .tuple x i o => do
    let t ← lookup env x o
    match t.underlying with
    | .tuple ts => do
      let parts ← namedTuple env x .empty ts
      tupleElement o ⟨[], parts, ts⟩ i
    | _ => fail o (.notTuple t.print)

/-- Encodes a value that is not a tuple. -/
def value (env : Env) : Value → EncodeM Encoded
  | .expr e _ => do requireInt e (← expr env e)
  | .formula f _ => formula env f
  | .place p _ => place env p
  | .array [] o => fail o .emptyArray
  | .array (v :: vs) o => do
    let r ← value env v
    elements env o ⟨r.checks, .constArray r.sort r.term, .array r.sort⟩ r.sort 1 vs
  | .call f vs o =>
    match env.scope.function? f with
    | none => fail o (.unknownFunction f)
    | some g =>
      match g.output.sortOf with
      | .error _ => fail o (.resultNotScalar f g.output)
      | .ok s => do
        let as ← args env vs
        declareFun (functionName f) ⟨as.sorts, s⟩
        return ⟨as.checks, .app (functionName f) as.terms, s⟩
  | .ref v _ _ => value env v
  | .deref v _ => value env v
  | .ite c t e o => do
    let rc ← formula env c
    let rt ← value env t
    let re ← value env e
    if rt.sort = re.sort then
      return ⟨branchChecks c rc rt.checks re.checks, .ite rc.term rt.term re.term, rt.sort⟩
    else fail o .mixedBranches
  | .select .tuple b i o => do tupleElement o (← tuple env b) i
  | .select .array b i o => do
    let t ← lift (b.typeOf env.scope)
    match t.underlying with
    | .array e n => do
      let array ← value env b
      let index ← requireSort i .int (← value env i)
      let r ← arrayElement array.term e n i index
      return ⟨array.checks ++ r.checks, r.term, r.sort⟩
    | _ => fail o (.notArray t.print)
  | .store .tuple _ _ _ o => fail o .tupleNotScalar
  | .store .array b i e _ => do
    let array ← value env b
    let index ← requireSort i .int (← value env i)
    let r ← value env e
    return ⟨array.checks ++ index.checks ++ r.checks,
      .store array.term index.term r.term, array.sort⟩
  | .tuple vs o => fail o (.showing (.tuple vs o) .notScalar)
  | .unit o => fail o (.notScalar (Value.unit o).print)
  | .missing => fail none (.missing .type)

/-- Encodes the further elements of a literal array, the next one at position `i`. -/
def elements (env : Env) (o : Origin) (array : Encoded) (element : SmtSort) (i : Nat) :
    List Value → EncodeM Encoded
  | [] => return array
  | v :: vs => do
    let r ← value env v
    if r.sort = element then
      elements env o ⟨array.checks ++ r.checks,
        .store array.term (.int (Int64.ofNat i)) r.term, array.sort⟩ element (i + 1) vs
    else fail o .mixedArray

def args (env : Env) : List Value → EncodeM EncodedArgs
  | [] => return ⟨[], [], []⟩
  | v :: vs => do
    let t ← lift (v.typeOf env.scope)
    match t.underlying with
    | .tuple _ => do
      let r ← tuple env v
      let sorts := tupleSorts r.elements
      let rest ← args env vs
      return ⟨r.checks ++ rest.checks, sorts.map (part r.parts) ++ rest.terms,
        sorts.map .array ++ rest.sorts⟩
    | _ => do
      let r ← value env v
      let rest ← args env vs
      return ⟨r.checks ++ rest.checks, r.term :: rest.terms, r.sort :: rest.sorts⟩

def tuple (env : Env) : Value → EncodeM EncodedTuple
  | .place (.name x o) o' => do
    let ts ← tupleType env (.place (.name x o) o')
    return ⟨[], ← namedTuple env x .empty ts, ts⟩
  | .tuple vs o => do
    let ts ← tupleType env (.tuple vs o)
    let (checks, parts) ← literal env [] .empty 0 vs
    return ⟨checks, parts, ts⟩
  | .ref v m o => do
    let _ ← tupleType env (.ref v m o)
    tuple env v
  | .deref v o => do
    let _ ← tupleType env (.deref v o)
    tuple env v
  | .ite c t e o => do
    let ts ← tupleType env (.ite c t e o)
    let rc ← formula env c
    let rt ← tuple env t
    let re ← tuple env e
    return ⟨branchChecks c rc rt.checks re.checks,
      rt.parts.map fun tag p => .ite rc.term p ((re.parts.get? tag).getD .absent), ts⟩
  | .store s b i e o => do
    let ts ← tupleType env (.store s b i e o)
    let rb ← tuple env b
    match i.constantIndex?.filter (· < ts.length) with
    | none => fail o (.showing i .invalidTupleIndex)
    | some n => do
      let r ← value env e
      return ⟨rb.checks ++ r.checks,
        rb.parts.insert r.sort.tag
          (.store (part rb.parts r.sort) (.int (Int64.ofNat n)) r.term), ts⟩
  | .call f vs o => do
    let ts ← tupleType env (.call f vs o)
    let as ← args env vs
    return ⟨as.checks, ← callParts f as .empty (tupleSorts ts), ts⟩
  | v => do
    let _ ← tupleType env v
    fail v.origin .nestedTuple

/-- Encodes the elements of a literal tuple, the next one at position `i`. -/
def literal (env : Env) (checks : List Check) (parts : NameMap Term) (i : Nat) :
    List Value → EncodeM (List Check × NameMap Term)
  | [] => return (checks, parts)
  | v :: vs => do
    let r ← value env v
    literal env (checks ++ r.checks) (literalPart parts i r) (i + 1) vs

/-- Encodes an expression, which may stand for a value of any sort. -/
def expr (env : Env) : Expr → EncodeM Encoded
  | .num n => return ⟨[], .int (Int64.ofInt n.toInt), .int⟩
  | .value v => value env v
  | .op o a b => do
    let ra ← requireInt a (← expr env a)
    let rb ← requireInt b (← expr env b)
    return ⟨ra.checks ++ rb.checks ++ operationChecks o b rb.term,
      .app (operatorName o) [ra.term, rb.term], .int⟩

def formula (env : Env) : Formula → EncodeM Encoded
  | .lit b => return ⟨[], .lit b, .bool⟩
  | .and f g => do
    let rf ← formula env f
    let rg ← formula env g
    return ⟨rf.checks ++ rg.checks.map (Check.guard f rf.term), .and [rf.term, rg.term], .bool⟩
  | .or f g => do
    let rf ← formula env f
    let rg ← formula env g
    return ⟨rf.checks ++ rg.checks.map (Check.guard f.negate rf.term.not),
      .or [rf.term, rg.term], .bool⟩
  | .not f => do
    let r ← formula env f
    return ⟨r.checks, r.term.not, .bool⟩
  | .value v => do requireSort v .bool (← value env v)
  | .equal a b => do
    let ra ← expr env a
    let rb ← expr env b
    if ra.sort = rb.sort then return ⟨ra.checks ++ rb.checks, .eq ra.term rb.term, .bool⟩
    else fail none (.incomparable ra.sort.print rb.sort.print)
  | .compare c a b => do
    let ra ← expr env a
    let rb ← expr env b
    if ra.sort = rb.sort then
      match orderTerm c ra.sort ra.term rb.term with
      | some t => return ⟨ra.checks ++ rb.checks, t, .bool⟩
      | none => fail none (.unordered ra.sort.print)
    else fail none (.incomparable ra.sort.print rb.sort.print)
  | .quant q x t f => do
    let s ← orFail t.sortOf
    let r ← formula (env.bind x t) f
    return ⟨r.checks.map (Check.close x t s), .quant q x s r.term, .bool⟩

end

/-- The environment of a scope, outside all quantifiers. -/
def Env.ofScope (scope : Scope) : Env := ⟨scope, []⟩

def int (env : Env) (e : Expr) : EncodeM Encoded := do requireInt e (← expr env e)

def scalar (env : Env) (s : SmtSort) (v : Value) : EncodeM Encoded := do
  requireSort v s (← value env v)

def array (env : Env) (v : Value) : EncodeM Encoded := do
  let r ← value env v
  match r.sort with
  | .array _ => return r
  | _ => fail v.origin (.notArray v.print)

end Encoding

end Verdict
