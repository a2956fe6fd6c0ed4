import Verdict.Lang.Typing

/-! # Scoping rules

The check that a program can be verified at all: every name that is read is known, every name that is
introduced is new and has a type, and only what may change is assigned to. All violations are
listed, in the order of the program. -/

namespace Verdict

namespace Scoping

/-- What is known of a variable. -/
structure Entry where
  type : Ty
  mutable : Bool

/-- The variables in scope and the functions of the program. -/
structure Env where
  vars : NameMap Entry
  functions : List Function

namespace Env

def scope (e : Env) : Scope := ⟨e.vars.map fun _ v => v.type, e.functions⟩

/-- The environment with one more variable. -/
def add (e : Env) (x : String) (t : Ty) (mutable : Bool) : Env :=
  { e with vars := e.vars.insert x ⟨t, mutable⟩ }

end Env

/-- Whether a name is not for the program to introduce: those of the result and of entry values. -/
def isReserved (x : String) : Bool := x == resultName || x.toList.contains '\''

/-- The violations of declaring a variable at a node. -/
def declareFaults (e : Env) (o : Origin) (x : String) (t : Ty) : List Fault :=
  if x = "_" then []
  else
    (if isReserved x then [Fault.of o (.reservedName x)]
      else if e.vars.contains x then [Fault.of o (.shadowing x)] else []) ++
      if t.hasUnknown then [Fault.of o (.unknownType x)] else []

def declare (e : Env) (x : String) (t : Ty) (mutable : Bool) : Env :=
  if x = "_" then e else e.add x t mutable

/-- The violation of reading a place itself, its index aside. -/
def readPlace (e : Env) (p : Place) : List Fault :=
  if p.base = "" then [.of p.origin .wildcardRead]
  else if !e.vars.contains p.base then [.of p.origin (.unknownVariable p.base)]
  else
    match p.typeOf e.scope with
    | .ok _ => []
    | .error err => [.of p.origin err.cause]

/-- The violation of a call itself, its arguments aside. -/
def readCall (e : Env) (f : String) (args : Nat) (o : Origin) : List Fault :=
  match e.functions.find? fun g => g.name == f with
  | none => [.of o (.unknownFunction f)]
  | some g =>
    if g.inputs.length = args then [] else [.of o (.wrongArity f g.inputs.length args)]

mutual

/-- The violations of reading a place. -/
def readsPlace (e : Env) : Place → List Fault
  | .name x o => readPlace e (.name x o)
  | .wildcard o => readPlace e (.wildcard o)
  | .elem s x i o => readPlace e (.elem s x i o) ++ readsValue e i

def readsValue (e : Env) : Value → List Fault
  | .expr a _ => readsExpr e a
  | .formula f _ => readsFormula e f
  | .place p _ => readsPlace e p
  | .tuple vs _ => readsValues e vs
  | .array vs _ => readsValues e vs
  | .call f vs o => readCall e f vs.length o ++ readsValues e vs
  | .ref v _ _ => readsValue e v
  | .deref v _ => readsValue e v
  | .unit _ => []
  | .ite c t f _ => readsFormula e c ++ readsValue e t ++ readsValue e f
  | .select _ b i _ => readsValue e b ++ readsValue e i
  | .store _ b i v _ => readsValue e b ++ readsValue e i ++ readsValue e v
  | .missing => []

def readsValues (e : Env) : List Value → List Fault
  | [] => []
  | v :: vs => readsValue e v ++ readsValues e vs

def readsExpr (e : Env) : Expr → List Fault
  | .num _ => []
  | .value v => readsValue e v
  | .op _ a b => readsExpr e a ++ readsExpr e b

/-- The violations of reading a formula. A quantified variable may have the name of another one. -/
def readsFormula (e : Env) : Formula → List Fault
  | .lit _ => []
  | .and f g => readsFormula e f ++ readsFormula e g
  | .or f g => readsFormula e f ++ readsFormula e g
  | .not f => readsFormula e f
  | .value v => readsValue e v
  | .equal a b => readsExpr e a ++ readsExpr e b
  | .compare _ a b => readsExpr e a ++ readsExpr e b
  | .quant _ x t f =>
    (if t.hasUnknown then [Fault.of none (.unknownType x)] else []) ++
      readsFormula (e.add x t false) f

end

/-- Whether a variable can be assigned to: it is mutable, or a reference that allows it. -/
def Entry.canAssign (v : Entry) : Bool :=
  v.mutable ||
    match v.type with
    | .ref _ mutable => mutable
    | _ => false

/-- The violation of writing to a variable at a node. -/
def writeFaults (e : Env) (o : Origin) (x : String) : List Fault :=
  if x.toList.contains '\'' then [.of o (.assignToEntryValue x)]
  else
    match e.vars.get? x with
    | some v => if v.canAssign then [] else [.of o (.assignToImmutable x)]
    | none => []

/-- The violations of writing to a place at a node. -/
def writes (e : Env) (o : Origin) : Place → List Fault
  | .wildcard _ => []
  | p => readsPlace e p ++ writeFaults e o p.base

/-- Declares the targets of a tuple at a node. -/
def declareAll (o : Origin) (e : Env) : List Declaration → Env × List Fault
  | [] => (e, [])
  | d :: ds =>
    let (e', fs) := declareAll o (declare e d.name d.type d.mutable) ds
    (e', declareFaults e o d.name d.type ++ fs)

mutual

/-- The environment after a command, and its violations. -/
def command (e : Env) : Command → Env × List Fault
  | .declare d => (declare e d.name d.type d.mutable, declareFaults e d.origin d.name d.type)
  | .bind d v =>
    (declare e d.name d.type d.mutable,
      readsValue e v ++ declareFaults e d.origin d.name d.type)
  | .bindTuple ds v o =>
    let (e', fs) := declareAll o e ds
    (e', readsValue e v ++ fs)
  | .assign a => (e, readsValue e a.value ++ writes e a.origin a.target)
  | .assignAll as o =>
    (e, as.flatMap (fun a => readsValue e a.value) ++ as.flatMap fun a => writes e o a.target)
  | .assert f _ => (e, readsFormula e f)
  | .assume f _ => (e, readsFormula e f)
  | .invariant f _ => (e, readsFormula e f)
  | .cond bs _ => (e, branches e bs)
  | .forRange i lo hi inv body o =>
    let inner := declare e i .i32 false
    (e, readsValue e lo ++ readsValue e hi ++ declareFaults e o i .i32 ++ readsFormula inner inv ++
      (block inner body).2)
  | .whileLoop c inv variant body _ =>
    (e, readsFormula e c ++ readsFormula e inv ++
      (match variant with
        | none => []
        | some v => readsExpr e v) ++ (block e body).2)
  | .noop _ => (e, [])

def branches (e : Env) : Branches → List Fault
  | .otherwise b => (block e b).2
  | .branch c b rest => readsFormula e c ++ (block e b).2 ++ branches e rest

def block (e : Env) : List Command → Env × List Fault
  | [] => (e, [])
  | c :: cs =>
    let (e', fs) := command e c
    let (e'', gs) := block e' cs
    (e'', fs ++ gs)

end

/-- The violations of a function. The precondition sees the inputs, the body also their values on
entry, and the postcondition also the result and the variables of the body. -/
def function (functions : List Function) (f : Function) : List Fault :=
  let inputs := f.inputs.foldl
    (fun (r : Env × List Fault) d =>
      (declare r.1 d.name d.type d.mutable, r.2 ++ declareFaults r.1 d.origin d.name d.type))
    (⟨.empty, functions⟩, [])
  let entry := f.inputs.foldl (fun (e : Env) d => e.add (oldName d.name) d.type false) inputs.1
  let (exit, body) := block entry f.body
  let faults := inputs.2 ++
    (if f.output.hasUnknown then [Fault.of f.origin .unknownResultType] else []) ++
    readsFormula inputs.1 f.precondition ++ body ++ readsValue exit f.result ++
    readsFormula (exit.add resultName f.output false) f.postcondition
  faults.map fun e => e.within f.name

/-- The violations of several functions, `seen` being the names of those before. -/
def functions (all : List Function) (seen : List String) : List Function → List Fault
  | [] => []
  | f :: fs =>
    (if seen.contains f.name then
        [(Fault.of f.origin (.duplicateFunction f.name)).within f.name]
      else []) ++ function all f ++ functions all (f.name :: seen) fs

end Scoping

/-- The violations of the scoping rules in a program. -/
def Program.validate (p : Program) : List Fault := Scoping.functions p.functions [] p.functions

end Verdict
