import Verdict.Lang.Syntax

/-! # Visiting nodes

All nodes of a tree in the order in which they are written, each before its parts. A visitor decides at
each node whether to go on to its parts. -/

namespace Verdict

/-- A node of a tree. -/
inductive Node where
  | value (v : Value)
  | expr (e : Expr)
  | formula (f : Formula)
  | place (p : Place)
  | command (c : Command)

/-- The node and, if `enter` allows, the nodes of its parts. -/
def Node.with (enter : Node → Bool) (n : Node) (parts : List Node) : List Node :=
  if enter n then n :: parts else [n]

mutual

/-- The nodes of a place. -/
def Place.visit (enter : Node → Bool) : Place → List Node
  | .name x o => [.place (.name x o)]
  | .wildcard o => [.place (.wildcard o)]
  | .elem s x i o => Node.with enter (.place (.elem s x i o)) (i.visit enter)

def Value.visit (enter : Node → Bool) : Value → List Node
  | .expr e o => Node.with enter (.value (.expr e o)) (e.visit enter)
  | .formula f o => Node.with enter (.value (.formula f o)) (f.visit enter)
  | .place p o => Node.with enter (.value (.place p o)) (p.visit enter)
  | .tuple vs o => Node.with enter (.value (.tuple vs o)) (Value.visitAll enter vs)
  | .array vs o => Node.with enter (.value (.array vs o)) (Value.visitAll enter vs)
  | .call f vs o => Node.with enter (.value (.call f vs o)) (Value.visitAll enter vs)
  | .ref v m o => Node.with enter (.value (.ref v m o)) (v.visit enter)
  | .deref v o => Node.with enter (.value (.deref v o)) (v.visit enter)
  | .unit o => [.value (.unit o)]
  | .ite c t e o =>
    Node.with enter (.value (.ite c t e o)) (c.visit enter ++ t.visit enter ++ e.visit enter)
  | .select s b i o =>
    Node.with enter (.value (.select s b i o)) (b.visit enter ++ i.visit enter)
  | .store s b i e o =>
    Node.with enter (.value (.store s b i e o)) (b.visit enter ++ i.visit enter ++ e.visit enter)
  | .missing => []

def Value.visitAll (enter : Node → Bool) : List Value → List Node
  | [] => []
  | v :: vs => v.visit enter ++ Value.visitAll enter vs

def Expr.visit (enter : Node → Bool) : Expr → List Node
  | .num n => [.expr (.num n)]
  | .value v => Node.with enter (.expr (.value v)) (v.visit enter)
  | .op o a b => Node.with enter (.expr (.op o a b)) (a.visit enter ++ b.visit enter)

def Formula.visit (enter : Node → Bool) : Formula → List Node
  | .lit b => [.formula (.lit b)]
  | .and f g => Node.with enter (.formula (.and f g)) (f.visit enter ++ g.visit enter)
  | .or f g => Node.with enter (.formula (.or f g)) (f.visit enter ++ g.visit enter)
  | .not f => Node.with enter (.formula (.not f)) (f.visit enter)
  | .value v => Node.with enter (.formula (.value v)) (v.visit enter)
  | .equal a b => Node.with enter (.formula (.equal a b)) (a.visit enter ++ b.visit enter)
  | .compare c a b =>
    Node.with enter (.formula (.compare c a b)) (a.visit enter ++ b.visit enter)
  | .quant q x t f => Node.with enter (.formula (.quant q x t f)) (f.visit enter)

end

def Assignment.visit (enter : Node → Bool) (a : Assignment) : List Node :=
  Node.with enter (.command (.assign a)) (a.target.visit enter ++ a.value.visit enter)

mutual

/-- The nodes of a command. -/
def Command.visit (enter : Node → Bool) : Command → List Node
  | .declare d => [.command (.declare d)]
  | .bind d v => Node.with enter (.command (.bind d v)) (v.visit enter)
  | .bindTuple ds v o => Node.with enter (.command (.bindTuple ds v o)) (v.visit enter)
  | .assign a => a.visit enter
  | .assignAll as o =>
    Node.with enter (.command (.assignAll as o)) (as.flatMap (Assignment.visit enter))
  | .assert f o => Node.with enter (.command (.assert f o)) (f.visit enter)
  | .assume f o => Node.with enter (.command (.assume f o)) (f.visit enter)
  | .invariant f o => Node.with enter (.command (.invariant f o)) (f.visit enter)
  | .cond bs o => Node.with enter (.command (.cond bs o)) (bs.visit enter)
  | .forRange i lo hi inv body o =>
    Node.with enter (.command (.forRange i lo hi inv body o))
      (lo.visit enter ++ hi.visit enter ++ inv.visit enter ++ Command.visitAll enter body)
  | .whileLoop c inv variant body o =>
    Node.with enter (.command (.whileLoop c inv variant body o))
      (c.visit enter ++ inv.visit enter ++
        (match variant with
          | none => []
          | some e => e.visit enter) ++ Command.visitAll enter body)
  | .noop o => [.command (.noop o)]

def Branches.visit (enter : Node → Bool) : Branches → List Node
  | .otherwise block => Command.visitAll enter block
  | .branch c block rest => c.visit enter ++ Command.visitAll enter block ++ rest.visit enter

def Command.visitAll (enter : Node → Bool) : List Command → List Node
  | [] => []
  | c :: cs => c.visit enter ++ Command.visitAll enter cs

end

/-- The nodes of a node. -/
def Node.visit (enter : Node → Bool) : Node → List Node
  | .value v => v.visit enter
  | .expr e => e.visit enter
  | .formula f => f.visit enter
  | .place p => p.visit enter
  | .command c => c.visit enter

end Verdict
