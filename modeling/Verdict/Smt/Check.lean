import Verdict.Smt.Term

/-! # Side conditions

What has to hold for an expression to be well-defined: that a divisor is not zero, that an index is
within an array. A side condition is kept both as a formula and as a solver term. -/

namespace Verdict

/-- What a side condition rules out. -/
inductive CheckKind where
  | divisionByZero
  | arrayIndex
deriving DecidableEq, Repr

/-- The wording of what is ruled out. -/
def CheckKind.print : CheckKind → String
  | divisionByZero => "division by zero"
  | arrayIndex => "array index out of bounds"

/-- A side condition. -/
structure Check where
  kind : CheckKind
  cond : Formula
  term : Term

namespace Check

/-- The side condition that is needed only if the given condition holds. -/
def guard (cond : Formula) (term : Term) (c : Check) : Check :=
  ⟨c.kind, cond.implies c.cond, term.implies c.term⟩

/-- The side condition for all values of a variable. -/
def close (x : String) (t : Ty) (s : SmtSort) (c : Check) : Check :=
  ⟨c.kind, .quant .all x t c.cond, .quant .all x s c.term⟩

/-- The side condition of a division. -/
def divisor (e : Expr) (t : Term) : Check :=
  ⟨.divisionByZero, .notEqual e (.num 0), .not (.eq t (.int 0))⟩

/-- The side condition of an index into an array of a length. -/
def index (i : Value) (t : Term) (length : Nat) : Check :=
  ⟨.arrayIndex,
    .conj [.compare .le (.num 0) i.toExpr, .compare .lt i.toExpr (.num (Int32.ofNat length))],
    .and [.app "<=" [.int 0, t], .app "<" [t, .int (Int64.ofNat length)]]⟩

end Check

end Verdict
