import Verdict.Lang.Typing

/-! # Inference of types

One pass through every body fills in the types of bindings that are not given, where the bound value
has a type without unknown parts. A type that is given stays. -/

namespace Verdict

namespace Declaration

/-- The declaration with its type replaced by `t`, if it has unknown parts and `t` has none. -/
def refine (d : Declaration) (t : Ty) : Declaration :=
  if d.type.hasUnknown && !t.hasUnknown then { d with type := t } else d

/-- Declares variables in a scope, wildcards left out. -/
def declareAll (s : Scope) (ds : List Declaration) : Scope :=
  ds.foldl (fun s d => if d.name = "_" then s else s.declare d.name d.type) s

end Declaration

/-- What inference makes of a node: the node with its types, the scope after it and the faults. -/
structure Inferred (α : Type) where
  node : α
  scope : Scope
  faults : List Fault

namespace Inference

/-- Infers the types of the targets of a tuple. If the shapes do not agree, that is a fault and the
targets are not declared. -/
def bindTuple (function : String) (s : Scope) (ds : List Declaration) (v : Value) (o : Origin) :
    Inferred Command :=
  let fault c := ⟨.bindTuple ds v o, s, [(Fault.of o c).within function]⟩
  match v.typeOf s with
  | .error _ => ⟨.bindTuple ds v o, Declaration.declareAll s ds, []⟩
  | .ok t =>
    match t.underlying with
    | .tuple ts =>
      if ts.length = ds.length then
        let ds := List.zipWith Declaration.refine ds ts
        ⟨.bindTuple ds v o, Declaration.declareAll s ds, []⟩
      else fault (.wrongPattern ds.length t)
    | _ => fault (.notDestructible t)

/-- Infers the type of one binding. -/
def bind (s : Scope) (d : Declaration) (v : Value) : Declaration :=
  match v.typeOf s with
  | .ok t => d.refine t
  | .error _ => d

mutual

/-- Infers types in a command. -/
def command (function : String) (s : Scope) : Command → Inferred Command
  | .declare d => ⟨.declare d, s.declare d.name d.type, []⟩
  | .bind d v =>
    let d := bind s d v
    ⟨.bind d v, s.declare d.name d.type, []⟩
  | .bindTuple ds v o => bindTuple function s ds v o
  | .cond bs o =>
    let r := branches function s bs
    ⟨.cond r.node o, s, r.faults⟩
  | .forRange i lo hi inv body o =>
    let r := block function (s.declare i .i32) body
    ⟨.forRange i lo hi inv r.node o, s, r.faults⟩
  | .whileLoop c inv variant body o =>
    let r := block function s body
    ⟨.whileLoop c inv variant r.node o, s, r.faults⟩
  | c => ⟨c, s, []⟩

def branches (function : String) (s : Scope) : Branches → Inferred Branches
  | .otherwise b =>
    let r := block function s b
    ⟨.otherwise r.node, s, r.faults⟩
  | .branch c b rest =>
    let r := block function s b
    let rs := branches function s rest
    ⟨.branch c r.node rs.node, s, r.faults ++ rs.faults⟩

def block (function : String) (s : Scope) : List Command → Inferred (List Command)
  | [] => ⟨[], s, []⟩
  | c :: cs =>
    let r := command function s c
    let rs := block function r.scope cs
    ⟨r.node :: rs.node, rs.scope, r.faults ++ rs.faults⟩

end

def inputs (p : Program) (f : Function) : Scope :=
  f.inputs.foldl (fun s d => s.declare d.name d.type) ⟨.empty, p.functions⟩

/-- Infers types in a function. -/
def function (p : Program) (f : Function) : Function × List Fault :=
  let r := block f.name (inputs p f) f.body
  ({ f with body := r.node }, r.faults)

end Inference

namespace Program

/-- The program with the types that can be inferred, and the faults met on the way. -/
def infer (p : Program) : Program × List Fault :=
  let rs := p.functions.map (Inference.function p)
  (⟨rs.map Prod.fst⟩, rs.flatMap Prod.snd)

end Program

end Verdict
