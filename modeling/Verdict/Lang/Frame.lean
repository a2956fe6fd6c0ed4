import Verdict.Lang.Subst
import Verdict.Lang.Typing
import Verdict.Lang.Visit

/-! # Frames

A frame is what is known at a point of a body without looking into blocks: the variables in scope with
the value last given to each, the values that have been met and the assumptions that have been made.
A command leads from one frame to the next. -/

namespace Verdict

namespace Frame

/-- A variable in scope, with the value last given to it. -/
structure Var where
  name : String
  type : Ty
  mutable : Bool
  value : Option Value

/-- A value that has been met, with its type. -/
structure Met where
  value : Value
  type : Ty

end Frame

/-- What is known at a point of a body. -/
structure Frame where
  functions : List Function
  /-- The variables in scope, in the order of declaration. -/
  vars : List Frame.Var
  /-- The values that have been met, each once. -/
  met : List Frame.Met
  assumptions : List Formula
  /-- The types of the inputs under the names of their values on entry. -/
  olds : NameMap Ty
deriving Inhabited

namespace Frame

def find? (f : Frame) (x : String) : Option Var := f.vars.find? fun v => v.name == x

/-- The type of a variable or entry value. -/
def type? (f : Frame) (x : String) : Option Ty :=
  match f.find? x with
  | some v => some v.type
  | none => f.olds.get? x

/-- The scope of a frame, on top of some variables that are known in addition. -/
def scopeOver (f : Frame) (more : NameMap Ty) : Scope :=
  let olds := f.olds.entries.foldl (fun m e => m.insert e.1 e.2) more
  ⟨f.vars.foldl (fun m v => m.insert v.name v.type) olds, f.functions⟩

def scope (f : Frame) : Scope := f.scopeOver .empty

/-- Puts a variable in the place of the one with its name, or after all others. -/
def setVar (v : Var) : List Var → List Var
  | [] => [v]
  | w :: ws => if w.name = v.name then v :: ws else w :: setVar v ws

/-- Declares a variable. Its type has to be known. -/
def declare (f : Frame) (d : Declaration) (value : Option Value) : Except Fault Frame :=
  if d.type.hasUnknown then .error (.of d.origin (.unknownType d.name))
  else .ok { f with vars := setVar ⟨d.name, d.type, d.mutable, value⟩ f.vars }

/-- Records a value and its type, unless one that prints alike has been met. -/
def record (f : Frame) (v : Value) : Except Fault Frame :=
  if f.met.any fun m => m.value.print = v.print then .ok f
  else do
    let t ← v.typeOf f.scope
    return { f with met := f.met ++ [⟨v, t⟩] }

/-- Whether a node is not a quantified formula. -/
def outsideQuantifiers : Node → Bool
  | .formula (.quant _ _ _ _) => false
  | _ => true

/-- Records the values among some nodes. -/
def recordAll (f : Frame) : List Node → Except Fault Frame
  | [] => .ok f
  | .value v :: ns => do (← f.record v).recordAll ns
  | _ :: ns => f.recordAll ns

def recordValue (f : Frame) (v : Value) : Except Fault Frame :=
  f.recordAll (v.visit outsideQuantifiers)

/-- Records the values in a formula, those under quantifiers left out. -/
def recordFormula (f : Frame) (g : Formula) : Except Fault Frame :=
  f.recordAll (g.visit outsideQuantifiers)

/-- The value of a variable after an assignment to it or to an element of it. -/
def assigned (v : Var) (a : Assignment) : Value :=
  match a.target with
  | .elem shape _ i _ => .store shape (v.value.getD (.var v.name)) i a.value none
  | _ => a.value

def assign (f : Frame) (a : Assignment) : Except Fault Frame :=
  match a.target with
  | .wildcard _ => f.recordValue a.value
  | p =>
    match f.find? p.base with
    | none => .error (.of p.origin (.unknownVariable p.base))
    | some v =>
      let vars := setVar { v with value := some (assigned v a) } f.vars
      { f with vars }.recordValue a.value

/-- Declares the targets of a tuple, the next one being its element `i`. -/
def declareAll (f : Frame) (v : Value) (i : Nat) : List Declaration → Except Fault Frame
  | [] => .ok f
  | d :: ds =>
    if d.name = "_" then f.declareAll v (i + 1) ds
    else do
      let f ← f.declare d (some (.element .tuple v (.int (Int32.ofNat i))))
      f.declareAll v (i + 1) ds

/-- The frame after a command. A command with blocks leaves it as it is. -/
def step (f : Frame) : Command → Except Fault Frame
  | .declare d => f.declare d none
  | .bind d v => do (← f.declare d (some v)).recordValue v
  | .bindTuple ds v _ => do (← f.declareAll v 0 ds).recordValue v
  | .assign a => f.assign a
  | .assignAll as _ => as.foldlM assign f
  | .assume g _ => { f with assumptions := f.assumptions ++ [g] }.recordFormula g
  | .assert g _ => f.recordFormula g
  | .invariant g _ => f.recordFormula g
  | .cond _ _ | .whileLoop _ _ _ _ _ | .forRange _ _ _ _ _ _ | .noop _ => .ok f

def declareInputs (f : Frame) : List Declaration → Except Fault Frame
  | [] => .ok f
  | d :: ds => do
    let f ← f.declare d none
    { f with olds := f.olds.insert (oldName d.name) d.type }.declareInputs ds

/-- The frame at the start of a function. -/
def entry (functions : List Function) (f : Function) : Except Fault Frame := do
  let frame ← (⟨functions, [], [], [], .empty⟩ : Frame).declareInputs f.inputs
  { frame with assumptions := [f.precondition] }.recordFormula f.precondition

/-- A variable with its type and value, on one line. -/
def Var.print (v : Var) : String :=
  v.name ++ ": " ++ v.type.print ++ " = " ++ (v.value.map Value.print).getD "?"

/-- The variables and assumptions of a frame, one line each. -/
def print (f : Frame) : String :=
  String.join (f.vars.map fun v => v.print ++ "\n") ++
    String.join ((f.assumptions.filter fun a => !a.isTrue).map fun a => "assume " ++ a.print ++ "\n")

/-- The frames after each command of a block, up to the first fault. -/
def traceFrom (f : Frame) : List Command → List Frame × Option Fault
  | [] => ([], none)
  | c :: cs =>
    match f.step c with
    | .error e => ([], some e)
    | .ok g =>
      let (fs, e) := g.traceFrom cs
      (g :: fs, e)

/-- The frames at the start of a function and after each command of its body, up to the first
fault. -/
def trace (functions : List Function) (f : Function) : List Frame × Option Fault :=
  match entry functions f with
  | .error e => ([], some e)
  | .ok frame =>
    let (fs, e) := frame.traceFrom f.body
    (frame :: fs, e)

end Frame

end Verdict
