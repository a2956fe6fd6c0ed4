import Verdict.Obligation.State

/-! # Generation of obligations

A function is run once, symbolically. Each command changes the symbolic state and adds the obligations
that make it safe: that what it evaluates is well-defined, that assertions hold, that loop invariants
hold on entry and are preserved, that variants decrease. A loop is left with constants of which only
the invariant is known; the branches of a conditional are merged. -/

namespace Verdict

namespace Generation

/-! ### Evaluation -/

/-- The scope in which the values of a program are typed. -/
def programScope (ctx : GenContext) (s : SymState) : Scope := s.frame.scopeOver ctx.ghosts

/-- The side conditions of a value of any type. -/
def valueChecks (env : Encoding.Env) (v : Value) : Encoding.EncodeM (List Check) := do
  let t ← Encoding.lift (v.typeOf env.scope)
  match t.underlying with
  | .unit => return []
  | .tuple _ => return (← Encoding.tuple env v).checks
  | _ => return (← Encoding.value env v).checks

/-- Adds the obligations for side conditions. -/
def emitChecks (ctx : GenContext) (s : SymState) (subject : Subject) : List Check → GenM Unit
  | [] => return ()
  | c :: cs => do
    emit ctx s (.sideCondition c.kind) subject (← substFormula s.values c.cond)
    emitChecks ctx s subject cs

/-- The result of encoding, its declarations left aside. -/
def encoded {α : Type} (m : Encoding.EncodeM α) : GenM α := ofFault (m.run.run default).1

/-- A call of a function. -/
structure Call where
  function : String
  args : List Value
  origin : Origin

/-- The call that a node is, if it is one. -/
def call? : Node → Option Call
  | .value (.call f vs o) => some ⟨f, vs, o⟩
  | _ => none

/-- The meanings of several values under a substitution. -/
def substValues (m : Substitution) : List Value → GenM (List Value)
  | [] => return []
  | v :: vs => do return (← substValue m v) :: (← substValues m vs)

/-- The replacements for the inputs of a callee and their values on entry. -/
def argumentMap (inputs : List Declaration) (args : List Value) : Substitution :=
  (inputs.zip args).foldl
    (fun m (d, v) => (m.insert d.name v).insert (oldName d.name) v) .empty

/-- Uses the contract of a callee: its precondition has to hold, and its postcondition is known to
hold, unless that mentions variables of the callee. -/
def contract (ctx : GenContext) (s : SymState) (subject : Subject) (c : Call) : GenM SymState :=
  match ctx.functions.find? fun f => f.name == c.function with
  | none => fault (.of c.origin (.unknownFunction c.function))
  | some callee =>
    if callee.inputs.length ≠ c.args.length then
      fault (.of c.origin (.wrongArity c.function callee.inputs.length c.args.length))
    else do
      let args ← substValues s.values c.args
      let map := argumentMap callee.inputs args
      emit ctx s .precondition subject (← substFormula map callee.precondition)
      let known x := map.contains x || x == resultName
      if callee.postcondition.freeVars.members.all known then
        let map := map.insert resultName (← keep (.call c.function args none))
        return s.assume (← substFormula map callee.postcondition)
      else return s

/-- Uses the contracts of several calls in turn. -/
def contracts (ctx : GenContext) (subject : Subject) (s : SymState) : List Call → GenM SymState
  | [] => return s
  | c :: cs => do contracts ctx subject (← contract ctx s subject c) cs

/-- Uses the contracts of the calls among some nodes, the innermost calls first. -/
def calls (ctx : GenContext) (s : SymState) (subject : Subject) (nodes : List Node) :
    GenM SymState :=
  match ctx.modes.calls with
  | .uninterpreted => return s
  | .contracts => aside (contracts ctx subject s (nodes.filterMap call?).reverse)

/-- Adds the obligations of evaluating a value. -/
def conditionsOfValue (ctx : GenContext) (s : SymState) (subject : Subject) (v : Value) :
    GenM SymState := do
  let checks ← encoded (valueChecks (.ofScope (programScope ctx s)) v)
  emitChecks ctx s subject checks
  calls ctx s subject (v.visit Frame.outsideQuantifiers)

def conditionsOfFormula (ctx : GenContext) (s : SymState) (subject : Subject) (f : Formula) :
    GenM SymState := do
  let r ← encoded (Encoding.formula (.ofScope (programScope ctx s)) f)
  emitChecks ctx s subject r.checks
  calls ctx s subject (f.visit Frame.outsideQuantifiers)

/-- Evaluates a value: its meaning, and the state with what is learned on the way. -/
def value (ctx : GenContext) (s : SymState) (subject : Subject) (v : Value) :
    GenM (Value × SymState) := do
  let s ← conditionsOfValue ctx s subject v
  return (← substValue s.values v, s)

def formula (ctx : GenContext) (s : SymState) (subject : Subject) (f : Formula) :
    GenM (Formula × SymState) := do
  let s ← conditionsOfFormula ctx s subject f
  return (← substFormula s.values f, s)

def expr (ctx : GenContext) (s : SymState) (subject : Subject) (e : Expr) :
    GenM (Expr × SymState) := do
  let s ← conditionsOfValue ctx s subject e.toValue
  return (← substExpr s.values e, s)

/-- Evaluates a formula that has to hold. -/
def check (ctx : GenContext) (s : SymState) (kind : ObligationKind) (subject : Subject)
    (f : Formula) : GenM SymState := do
  let (goal, s) ← formula ctx s subject f
  emit ctx s kind subject goal
  return s

/-! ### Assignments -/

/-- Evaluates the place that is assigned to: the index of an element is. -/
def location (ctx : GenContext) (s : SymState) (subject : Subject) (p : Place) :
    GenM (Place × SymState) := do
  match p with
  | .elem shape x i o => do
    let s ← conditionsOfValue ctx s subject (.place (.elem shape x i o) none)
    require fun _ => i.need s.values
    noteAlikes fun vars => p.indexAlikes vars s.values
    return (p.substIndex s.values, s)
  | p => return (p, s)

/-- Writes a value to an evaluated place. -/
def write (s : SymState) (p : Place) (v : Value) : GenM SymState :=
  match p with
  | .wildcard _ => return s
  | p =>
    if !s.isVariable p.base then throw (.outOfScope (.of p.origin (.unknownVariable p.base)))
    else
      match p with
      | .elem shape x i _ => do return s.set x (← keep (.update shape (s.valueOf x) i v))
      | p => return s.set p.base v

/-- Evaluates the values and places of assignments. -/
def targets (ctx : GenContext) (subject : Subject) (s : SymState) :
    List Assignment → GenM (List (Place × Value) × SymState)
  | [] => return ([], s)
  | a :: as => do
    let (v, s) ← value ctx s subject a.value
    let (p, s) ← location ctx s subject a.target
    let (rest, s) ← targets ctx subject s as
    return ((p, v) :: rest, s)

def writeAll (s : SymState) : List (Place × Value) → GenM SymState
  | [] => return s
  | (p, v) :: rest => do writeAll (← write s p v) rest

/-- Carries out assignments at the same time: all is evaluated before anything is written. -/
def assign (ctx : GenContext) (s : SymState) (subject : Subject) (as : List Assignment) :
    GenM SymState := do
  let (writes, s) ← targets ctx subject s as
  writeAll s writes

/-- Gives the targets of a tuple their elements, the next one element `i`. -/
def bindElements (s : SymState) (v : Value) (i : Nat) : List Declaration → GenM SymState
  | [] => return s
  | d :: ds => do
    if d.name = "_" then bindElements s v (i + 1) ds
    else
      let index := Value.int (Int32.ofNat i)
      require fun _ => Value.elementNeed .tuple index v
      noteAlikes fun vars => Value.elementAlikes vars .tuple index v
      bindElements (s.set d.name (← keep (.element .tuple v index))) v (i + 1) ds

/-- Binds variables to the elements of a tuple. -/
def destructure (ctx : GenContext) (s : SymState) (subject : Subject) (ds : List Declaration)
    (v : Value) : GenM SymState := do
  let (v, s) ← value ctx s subject v
  let t ← ofFault (v.typeOf ⟨(← get).symbols, ctx.functions⟩)
  match t.underlying with
  | .tuple ts =>
    if ts.length = ds.length then bindElements s v 0 ds
    else fault (.of subject.origin (.cannotDestructure t ds.length))
  | _ => fault (.of subject.origin (.cannotDestructure t ds.length))

/-! ### Loops -/

/-- Gives new constants to the variables among some names. -/
def havoc (s : SymState) : List String → GenM SymState
  | [] => return s
  | x :: xs => do
    match s.isVariable x, s.frame.type? x with
    | true, some t => havoc (s.set x (← constant x t true)) xs
    | _, _ => havoc s xs

/-- The state at the start of any iteration of a loop: what it writes may have any value that the
invariant allows. -/
def iteration (ctx : GenContext) (s : SymState) (subject : Subject) (written : Names)
    (invariant : Formula) : GenM SymState := do
  let h ← havoc s written.members
  let (inv, h) ← formula ctx h subject invariant
  return h.assume inv

/-! ### Conditionals -/

/-- The value of a variable after a conditional, from its values after the two branches. -/
def mergeValue (cond : Formula) (t e : Value) : GenM Value := do
  require fun _ => Value.ternaryNeed cond t e
  noteAlikes fun vars => Value.ternaryAlikes vars cond t e
  keep (.ternary cond t e)

/-- Gives some variables the values that follow from those after the two branches of a conditional. A
variable keeps a value that both branches leave as it is. -/
def mergeValues (cond : Formula) (t e : SymState) (s : SymState) : List String → GenM SymState
  | [] => return s
  | x :: xs => do
    if t.valueOf x = s.valueOf x ∧ e.valueOf x = s.valueOf x then mergeValues cond t e s xs
    else mergeValues cond t e (s.set x (← mergeValue cond (t.valueOf x) (e.valueOf x))) xs

/-- The state after a conditional, from the state before it and the states after its two branches.
Variables that the branches have declared are gone. -/
def merge (cond : Formula) (t e : SymState) (s : SymState) : GenM SymState := do
  noteLoss (t.lacks s.values.names || e.lacks s.values.names)
  mergeValues cond t e s s.values.names

/-- The state with the values that its variables have in another one. -/
def copyValues (source : SymState) (s : SymState) : GenM SymState := do
  noteLoss (source.lacks s.values.names)
  return s.values.names.foldl (fun s x => s.set x (source.valueOf x)) s

/-! ### Commands -/

mutual

/-- Runs a command in a frame that allows it. -/
def run (ctx : GenContext) (s : SymState) (subject : Subject) : Command → GenM SymState
  | .declare d => do return s.set d.name (← constant d.name d.type false)
  | .bind d v => do
    let (v, s) ← value ctx s subject v
    return s.set d.name v
  | .bindTuple ds v _ => destructure ctx s subject ds v
  | .assign a => assign ctx s subject [a]
  | .assignAll as _ => assign ctx s subject as
  | .assert f _ => check ctx s .assertion subject f
  | .invariant f _ => check ctx s .invariant subject f
  | .assume f _ => do
    let (f, s) ← formula ctx s subject f
    return s.assume f
  | .cond bs _ => conditional ctx s subject bs
  | .whileLoop c inv variant body _ => do
    let s ← check ctx s .invariantEntry subject inv
    let h ← iteration ctx s subject (Command.affectedAll body) inv
    let (guard, h) ← formula ctx h subject c
    let b := h.assume guard
    match ctx.modes.termination, variant with
    | .total, some e => do
      let (before, b) ← expr ctx b subject e
      emit ctx b .variantNonnegative subject (.compare .ge before (.num 0))
      let b ← block ctx b body
      let b ← check ctx b .invariantPreserved subject inv
      let (after, b) ← expr ctx b subject e
      emit ctx b .variantDecreases subject (.compare .lt after before)
    | .total, none => do
      emit ctx b .variantMissing subject (.lit false)
      let b ← block ctx b body
      let _ ← check ctx b .invariantPreserved subject inv
    | .unchecked, _ => do
      let b ← block ctx b body
      let _ ← check ctx b .invariantPreserved subject inv
    return h.assume guard.negate
  | .forRange i lo hi inv body _ => do
    let (lo, s) ← value ctx s subject lo
    let (hi, s) ← value ctx s subject hi
    let frame ← inScope (s.frame.step (.declare ⟨i, .i32, false, none⟩))
    let inner := { s.set i lo with frame }
    let inner ← check ctx inner .invariantEntry subject inv
    let h ← iteration ctx inner subject ((Command.affectedAll body).insert i) inv
    let guard := Formula.compare .lt (h.valueOf i).toExpr hi.toExpr
    let b ← block ctx (h.assume guard) body
    noteLoss (!b.isVariable i)
    let next ← keep (Expr.toValue (.op .add (b.valueOf i).toExpr (.num 1)))
    let _ ← check ctx (b.set i next) .invariantPreserved subject inv
    return { (h.assume guard.negate).forget i with frame := s.frame }
  | .noop _ => return s

/-- Runs a conditional. What the branches assume is not known after it. -/
def conditional (ctx : GenContext) (s : SymState) (subject : Subject) : Branches → GenM SymState
  | .otherwise b => do
    let e ← block ctx s b
    copyValues e s
  | .branch c b rest => do
    let (cond, s) ← formula ctx s subject c
    let t ← block ctx (s.assume cond) b
    let e ← alternative ctx (s.assume cond.negate) subject rest
    merge cond t e s

/-- Runs the further branches of a conditional, in the state in which no condition before holds. -/
def alternative (ctx : GenContext) (s : SymState) (subject : Subject) :
    Branches → GenM SymState
  | .otherwise b => block ctx s b
  | .branch c b rest => do
    let (cond, s) ← formula ctx s subject c
    let t ← block ctx (s.assume cond) b
    let e ← alternative ctx (s.assume cond.negate) subject rest
    merge cond t e s

def block (ctx : GenContext) (s : SymState) : List Command → GenM SymState
  | [] => return s
  | c :: cs => do
    let frame ← inScope (s.frame.step c)
    let s ← run ctx s ⟨c.origin, c.print⟩ c
    block ctx { s with frame } cs

end

/-- Runs a command: first its frame is found, then the command is run in the frame before. -/
def command (ctx : GenContext) (s : SymState) (c : Command) : GenM SymState := do
  let frame ← inScope (s.frame.step c)
  let s ← run ctx s ⟨c.origin, c.print⟩ c
  return { s with frame }

/-! ### Functions -/

/-- The types of the values on entry and of the result. -/
def ghosts (f : Function) : NameMap Ty :=
  (f.inputs.foldl (fun m d => m.insert (oldName d.name) d.type) NameMap.empty).insert
    resultName f.output

/-- The state in which inputs and their values on entry are the same constants. -/
def initial (frame : Frame) (f : Function) : SymState :=
  f.inputs.foldl
    (fun s d => (s.set d.name (.var d.name)).set (oldName d.name) (.var d.name))
    ⟨frame, .empty, []⟩

/-- The symbolic constants for the inputs. -/
def inputSymbols (f : Function) : NameMap Ty :=
  f.inputs.foldl (fun m d => m.insert d.name d.type) .empty

/-- Runs a function: the precondition is assumed, and the postcondition has to hold at the end. -/
def function (modes : Modes) (functions : List Function) (f : Function) : GenM Unit := do
  let frame ← inScope (Frame.entry functions f)
  let ctx : GenContext := ⟨modes, functions, f.name, ghosts f⟩
  modify fun g => { g with symbols := inputSymbols f }
  let requires : Subject := ⟨none, "requires " ++ f.precondition.print⟩
  let (pre, s) ← formula ctx (initial frame f) requires f.precondition
  let s ← block ctx (s.assume pre) f.body
  let returns : Subject := ⟨f.result.origin, "returns " ++ f.result.print⟩
  let (result, s) ← value ctx s returns f.result
  let ensures : Subject := ⟨none, "ensures " ++ f.postcondition.print⟩
  let _ ← check ctx (s.set resultName result) .postcondition ensures f.postcondition

end Generation

/-- Gives all obligations of a function the scope of all its symbolic constants. -/
def Generator.finish (functions : List Function) (g : Generator) : List Obligation :=
  g.obligations.map fun o => { o with scope := ⟨g.symbols, functions⟩ }

def Function.obligations (modes : Modes) (functions : List Function) (f : Function) :
    Except GenerationError (List Obligation) :=
  match (Generation.function modes functions f).run default with
  | .ok (_, g) => .ok (g.finish functions)
  | .error stop => .error (stop.toError.within f.name)

/-- The pairs of values that are taken for one another while the obligations of a function are
generated. -/
def Function.alikes (modes : Modes) (functions : List Function) (f : Function) : List Alike :=
  match (Generation.function modes functions f).run default with
  | .ok (_, g) => g.alikes
  | .error _ => []

def Obligation.numberFrom (i : Nat) : List Obligation → List Obligation
  | [] => []
  | o :: os => { o with index := i } :: numberFrom (i + 1) os

/-- The obligations of a program, and the errors of the functions without any. -/
def Program.obligations (modes : Modes) (p : Program) : List Obligation × List GenerationError :=
  let rs := p.functions.map (Function.obligations modes p.functions)
  let os := rs.flatMap fun r => (r.toOption).getD []
  let es := rs.filterMap fun r =>
    match r with
    | .ok _ => none
    | .error e => some e
  (Obligation.numberFrom 0 os, es)

end Verdict
