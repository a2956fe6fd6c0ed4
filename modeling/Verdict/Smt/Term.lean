import Verdict.Smt.Sort
import Verdict.SExpr.Layout
import Verdict.Text.Decimal

/-! # Solver terms

The terms that queries are made of. A tuple is represented by one array for each sort of its elements;
where such an array is missing, a term has an absent part and cannot be written. -/

namespace Verdict

/-- A solver term. -/
inductive Term where
  | const (name : String)
  | int (n : Int64)
  | lit (b : Bool)
  | app (fn : String) (args : List Term)
  | quant (q : Quantifier) (x : String) (sort : SmtSort) (body : Term)
  /-- The array, of elements of a sort, that holds the same term everywhere. -/
  | constArray (element : SmtSort) (term : Term)
  /-- The part of a tuple for a sort that none of its elements has. -/
  | absent
deriving Repr, Inhabited

namespace Term

/-! ### Construction -/

/-- Whether a term is a given literal. -/
def isLit (b : Bool) : Term → Bool
  | lit c => c == b
  | _ => false

/-- Joins terms by a connective, its neutral literal left out. -/
def join (fn : String) (neutral : Bool) (ts : List Term) : Term :=
  match ts.filter fun t => !t.isLit neutral with
  | [] => lit neutral
  | [t] => t
  | ts => app fn ts

def and (ts : List Term) : Term := join "and" true ts

def or (ts : List Term) : Term := join "or" false ts

def not : Term → Term
  | lit b => lit (!b)
  | t => app "not" [t]

/-- The implication between two terms. -/
def implies (a b : Term) : Term := if a.isLit true then b else app "=>" [a, b]

/-- The equation of two terms. -/
def eq (a b : Term) : Term := app "=" [a, b]

/-- The term that is `t` if `c` holds and `e` otherwise. -/
def ite (c t e : Term) : Term := app "ite" [c, t, e]

def select (array index : Term) : Term := app "select" [array, index]

/-- The array with one element replaced. -/
def store (array index element : Term) : Term := app "store" [array, index, element]

/-! ### Printing -/

/-- An integer literal as the solver reads it. A negative one is the negation of its opposite. -/
def intToSExp (n : Int64) : SExp :=
  if n < 0 then .app "-" [.symbol (toString (-n).toInt)] else .symbol (toString n.toInt)

mutual

/-- A term as the solver reads it, unless a part of it is absent. -/
def toSExp : Term → Option SExp
  | const x => some (.symbol x)
  | int n => some (intToSExp n)
  | lit true => some (.symbol "true")
  | lit false => some (.symbol "false")
  | app fn [] => some (.symbol fn)
  | app fn (t :: ts) => do
    let a ← t.toSExp
    let as ← toSExps ts
    return .app fn (a :: as)
  | quant q x s t => do
    let body ← t.toSExp
    return .app q.print [.list [.list [.symbol x, s.toSExp]], body]
  | constArray s t => do
    let a ← t.toSExp
    return .list [.app "as" [.symbol "const", (SmtSort.array s).toSExp], a]
  | absent => none

/-- Several terms as the solver reads them. -/
def toSExps : List Term → Option (List SExp)
  | [] => some []
  | t :: ts => do
    let a ← t.toSExp
    let as ← toSExps ts
    return a :: as

end

/-- The text of a term on one line, unless a part of it is absent. -/
def print? (t : Term) : Option String := t.toSExp.map SExp.print

/-! ### Reading -/

/-- Why an S-expression is not a term. -/
inductive ReadError where
  | empty
  | unknown (text : String)
  | notArraySort
  | binding (text : String)
  | sort (e : SmtSort.ReadError)

def ReadError.message : ReadError → String
  | empty => "empty term"
  | unknown text => "unknown term " ++ text
  | notArraySort => "constant array requires array sort"
  | binding text => "unsupported quantifier binding " ++ text
  | sort e => e.message

/-- The integer literal that a symbol stands for. -/
def literal? (x : String) : Option Int64 := (Text.readSigned? 64 x).map Int64.ofInt

/-- Reads a symbol as a term. -/
def ofSymbol (x : String) : Term :=
  if x = "true" then lit true
  else if x = "false" then lit false
  else
    match literal? x with
    | some n => int n
    | none => const x

/-- The negative literal that a list of elements stands for, if it does. -/
def negative? : List SExp → Option Int64
  | [.symbol "-", .symbol x] => (literal? x).map (-·)
  | _ => none

/-- Reads the sort of a constant array, from the head `(as const S)`. -/
def arraySort : SExp → Except ReadError SmtSort
  | t => do
    match ← (SmtSort.ofSExp t).mapError .sort with
    | .array s => return s
    | _ => .error .notArraySort

mutual

def ofSExp : SExp → Except ReadError Term
  | .symbol x => return ofSymbol x
  | .list [] => .error .empty
  | .list (.list inner :: args) =>
    match inner, args with
    | [.symbol "as", .symbol "const", s], [t] => do
      let s ← arraySort s
      return constArray s (← ofSExp t)
    | _, _ => .error (.unknown (SExp.list (.list inner :: args)).printPlain)
  | .list (.symbol head :: args) =>
    if head = "forall" ∨ head = "exists" then
      match args with
      | [b, t] =>
        match b with
        | .list [.list [.symbol x, s]] => do
          let s ← (SmtSort.ofSExp s).mapError .sort
          return quant (if head = "forall" then .all else .some) x s (← ofSExp t)
        | b => .error (.binding b.printPlain)
      | args => return app head (← ofSExps args)
    else
      match negative? (.symbol head :: args) with
      | some n => return int n
      | none => return app head (← ofSExps args)

def ofSExps : List SExp → Except ReadError (List Term)
  | [] => return []
  | t :: ts => return (← ofSExp t) :: (← ofSExps ts)

end

end Term

/-- The layout of queries: the heads that bind names or start an assertion keep their first argument
beside them. -/
def queryLayout (width : Nat) : Layout :=
  ⟨width, ["assert", "forall", "exists", "declare-const", "declare-fun", "=>", "ite"]⟩

end Verdict
