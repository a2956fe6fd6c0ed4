import Verdict.Reading.Values

/-! # Reading commands -/

namespace Verdict.Reading

/-- Reads the assignment of a value to a place. -/
def assignment (unitAt : Span → Origin) (s : Span) (target v : STree) : Read Assignment := do
  return ⟨← place unitAt target, ← value unitAt v, s.origin⟩

/-- Reads one of several assignments that take place at the same time. -/
def pair (unitAt : Span → Origin) : STree → Read Assignment
  | .list s [t, v] => assignment unitAt s t v
  | t => fail t.span .assignment

/-- Reads the variable, type and initial value of a binding. -/
def binding (unitAt : Span → Origin) (s : Span) (mutable : Bool) : List STree → Read Command
  | [.symbol _ x, t] =>
    if isName x then return .declare ⟨x, ← type t, mutable, s.origin⟩
    else fail s (.invalidCommand "let")
  | [.symbol _ x, t, v] =>
    if isName x then do
      let t ← type t
      return .bind ⟨x, t, mutable, s.origin⟩ (← value unitAt v)
    else fail s (.invalidCommand "let")
  | _ => fail s (.invalidCommand "let")

/-- Reads a command without blocks. -/
def simple (unitAt : Span → Origin) (s : Span) (head : String) (args : List STree) :
    Read Command :=
  match head, args with
  | "let", .symbol _ "mut" :: args => binding unitAt s true args
  | "let", args => binding unitAt s false args
  | "let-tuple", [.list _ ts, v] => do
    let ds ← ts.mapM target
    return .bindTuple ds (← value unitAt v) s.origin
  | "let-tuple", _ => fail s (.invalidCommand "let-tuple")
  | "set", [t, v] => return .assign (← assignment unitAt s t v)
  | "set", _ => fail s (.invalidCommand "set")
  | "set-tuple", [] => fail s .emptyAssignments
  | "set-tuple", args => return .assignAll (← args.mapM (pair unitAt)) s.origin
  | "assert", [f] => return .assert (← formula unitAt f) s.origin
  | "assert", _ => fail s (.invalidCommand "assert")
  | "assume", [f] => return .assume (← formula unitAt f) s.origin
  | "assume", _ => fail s (.invalidCommand "assume")
  | "invariant", [f] => return .invariant (← formula unitAt f) s.origin
  | "invariant", _ => fail s (.invalidCommand "invariant")
  | "noop", [] => return .noop s.origin
  | "noop", _ => fail s (.invalidCommand "noop")
  | _, _ => fail s .unknownCommand

/-- What precedes the commands in a loop, and the commands. -/
structure LoopParts where
  invariant : Formula
  variant : Option Expr
  body : List Command

/-- Refuses the variant of a loop over a range, which is read at span `range`. -/
def checkVariant (range : Option Span) (variant : Option Expr) : Read Unit :=
  match range, variant with
  | some s, some _ => fail s .variantOfRange
  | _, _ => return ()

mutual

def command (unitAt : Span → Origin) : STree → Read Command
  | .symbol s _ => fail s .expectedCommand
  | .list s [] => fail s .expectedCommand
  | .list s (.list _ _ :: _) => fail s .expectedCommand
  | .list s (.symbol _ head :: args) =>
    if head = "if" then do
      match ← branches unitAt args with
      | .otherwise _ => fail s .noCondition
      | bs => return .cond bs s.origin
    else if head = "while" then
      match args with
      | [] => fail s (.invalidCommand "while")
      | c :: rest => do
        let c ← formula unitAt c
        let parts ← loopParts unitAt none [] none rest
        return .whileLoop c parts.invariant parts.variant parts.body s.origin
    else if head = "for" then
      match args with
      | .symbol _ x :: lo :: hi :: rest =>
        if isName x then do
          let lo ← value unitAt lo
          let hi ← value unitAt hi
          let parts ← loopParts unitAt (some s) [] none rest
          return .forRange x lo hi parts.invariant parts.body s.origin
        else fail s (.invalidCommand "for")
      | _ => fail s (.invalidCommand "for")
    else simple unitAt s head args

def block (unitAt : Span → Origin) : List STree → Read (List Command)
  | [] => return []
  | t :: ts => return (← command unitAt t) :: (← block unitAt ts)

/-- Reads the branches of a conditional. The last one may be without a condition. -/
def branches (unitAt : Span → Origin) : List STree → Read Branches
  | [] => return .otherwise []
  | .symbol s _ :: _ => fail s .branch
  | .list s [] :: _ => fail s .branch
  | .list _ (c :: body) :: rest =>
    match c, rest with
    | .symbol _ "else", [] => return .otherwise (← block unitAt body)
    | c, rest => do
      let c ← formula unitAt c
      let b ← block unitAt body
      return .branch c b (← branches unitAt rest)

/-- Reads the invariants and the variant of a loop, as long as there are any, and then its
commands. -/
def loopParts (unitAt : Span → Origin) (range : Option Span) (invariants : List Formula)
    (variant : Option Expr) : List STree → Read LoopParts
  | [] => do
    checkVariant range variant
    return ⟨.conj invariants, variant, []⟩
  | t :: ts =>
    match t, variant with
    | .list _ [.symbol _ "invariant", f], _ => do
      let f ← formula unitAt f
      loopParts unitAt range (invariants ++ [f]) variant ts
    | .list _ [.symbol _ "variant", e], none => do
      let v ← value unitAt e
      loopParts unitAt range invariants (some v.toExpr) ts
    | _, _ => do
      checkVariant range variant
      let c ← command unitAt t
      return ⟨.conj invariants, variant, c :: (← block unitAt ts)⟩

end

end Verdict.Reading
