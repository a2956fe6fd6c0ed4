import Verdict.SortedSet
import Verdict.Lang.Syntax

/-! # Free and affected variables

The variables that occur free in a node, and the variables that a command may change. Commands count
the variables they introduce. -/

namespace Verdict

abbrev Names := SortedSet String

def Names.single (x : String) : Names := ⟨[x], List.pairwise_singleton ..⟩

mutual

/-- The variables of a place. -/
def Place.freeVars : Place → Names
  | .name x _ => .single x
  | .wildcard _ => .empty
  | .elem _ x i _ => (Names.single x).union i.freeVars

def Value.freeVars : Value → Names
  | .expr e _ => e.freeVars
  | .formula f _ => f.freeVars
  | .place p _ => p.freeVars
  | .tuple vs _ => Value.freeVarsAll vs
  | .array vs _ => Value.freeVarsAll vs
  | .call _ vs _ => Value.freeVarsAll vs
  | .ref v _ _ => v.freeVars
  | .deref v _ => v.freeVars
  | .unit _ => .empty
  | .ite c t e _ => (c.freeVars.union t.freeVars).union e.freeVars
  | .select _ b i _ => b.freeVars.union i.freeVars
  | .store _ b i e _ => (b.freeVars.union i.freeVars).union e.freeVars
  | .missing => .empty

def Value.freeVarsAll : List Value → Names
  | [] => .empty
  | v :: vs => v.freeVars.union (Value.freeVarsAll vs)

def Expr.freeVars : Expr → Names
  | .num _ => .empty
  | .value v => v.freeVars
  | .op _ a b => a.freeVars.union b.freeVars

def Formula.freeVars : Formula → Names
  | .lit _ => .empty
  | .and f g => f.freeVars.union g.freeVars
  | .or f g => f.freeVars.union g.freeVars
  | .not f => f.freeVars
  | .value v => v.freeVars
  | .equal a b => a.freeVars.union b.freeVars
  | .compare _ a b => a.freeVars.union b.freeVars
  | .quant _ x _ f => f.freeVars.erase x

end

/-- The names of declarations, wildcards left out. -/
def Declaration.namesOf (ds : List Declaration) : Names :=
  SortedSet.ofList ((ds.map Declaration.name).filter (· ≠ "_"))

def Assignment.freeVars (a : Assignment) : Names := a.target.freeVars.union a.value.freeVars

/-- The variable that an assignment affects: none if it has the empty name. -/
def Assignment.affected (a : Assignment) : Names :=
  if a.target.base = "" then .empty else .single a.target.base

mutual

/-- The variables that a command mentions. -/
def Command.freeVars : Command → Names
  | .declare d => .single d.name
  | .bind d v => (Names.single d.name).union v.freeVars
  | .bindTuple ds v _ => (Declaration.namesOf ds).union v.freeVars
  | .assign a => a.freeVars
  | .assignAll as _ => .unions (as.map Assignment.freeVars)
  | .assert f _ => f.freeVars
  | .assume f _ => f.freeVars
  | .invariant f _ => f.freeVars
  | .cond bs _ => bs.freeVars
  | .forRange i lo hi inv body _ =>
    ((((Names.single i).union lo.freeVars).union hi.freeVars).union inv.freeVars).union
      (Command.freeVarsAll body)
  | .whileLoop c inv variant body _ =>
    ((c.freeVars.union inv.freeVars).union
      (match variant with
        | none => .empty
        | some e => e.freeVars)).union (Command.freeVarsAll body)
  | .noop _ => .empty

def Branches.freeVars : Branches → Names
  | .otherwise block => Command.freeVarsAll block
  | .branch c block rest => (c.freeVars.union (Command.freeVarsAll block)).union rest.freeVars

def Command.freeVarsAll : List Command → Names
  | [] => .empty
  | c :: cs => c.freeVars.union (Command.freeVarsAll cs)

end

mutual

/-- The variables that a command may change or introduce. -/
def Command.affected : Command → Names
  | .declare d => .single d.name
  | .bind d _ => .single d.name
  | .bindTuple ds _ _ => Declaration.namesOf ds
  | .assign a => a.affected
  | .assignAll as _ => .unions (as.map Assignment.affected)
  | .assert _ _ | .assume _ _ | .invariant _ _ | .noop _ => .empty
  | .cond bs _ => bs.affected
  | .forRange i _ _ _ body _ => (Names.single i).union (Command.affectedAll body)
  | .whileLoop _ _ _ body _ => Command.affectedAll body

def Branches.affected : Branches → Names
  | .otherwise block => Command.affectedAll block
  | .branch _ block rest => (Command.affectedAll block).union rest.affected

def Command.affectedAll : List Command → Names
  | [] => .empty
  | c :: cs => c.affected.union (Command.affectedAll cs)

end

end Verdict
