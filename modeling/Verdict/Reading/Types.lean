import Verdict.Reading.Problem
import Verdict.SExpr.Reader
import Verdict.Text.Decimal
import Verdict.Lang.Syntax

/-! # Reading names, types and declarations -/

namespace Verdict.Reading

/-- Whether a character can be part of a name; `first` tells whether it starts the name. -/
def isNameChar (first : Bool) (c : Char) : Bool :=
  c == '_' || c == '\'' || c.isAlpha || (!first && c.isDigit)

/-- Whether a symbol names a variable: letters, digits, underscores and primes, not starting with a
digit, and no word of the language. -/
def isName (x : String) : Bool :=
  !(["_", "true", "false", "mut"].contains x) &&
    match x.toList with
    | [] => false
    | c :: cs => isNameChar true c && cs.all (isNameChar false)

/-- The length of an array: a number that is a valid index. -/
def length? : STree → Option Nat
  | .symbol _ x => ((Text.readSigned? 32 x).filter (0 ≤ ·)).map Int.toNat
  | .list _ _ => none

mutual

def type : STree → Read Ty
  | .symbol s x =>
    match x with
    | "bool" => return .bool
    | "i32" => return .i32
    | "usize" => return .i32
    | "unit" => return .unit
    | "_" => return .unknown
    | _ => fail s .unknownType
  | .list _ [] => return .unit
  | .list s (.symbol _ head :: args) =>
    match head, args with
    | "tuple", args => return .tuple (← types args)
    | "array", [t, n] => do
      let t ← type t
      match length? n with
      | some n => return .array t n
      | none => fail n.span .arrayLength
    | "ref", [t] => return .ref (← type t) false
    | "mutref", [t] => return .ref (← type t) true
    | _, _ => fail s .unknownType
  | .list s (.list _ _ :: _) => fail s .unknownType

def types : List STree → Read (List Ty)
  | [] => return []
  | t :: ts => return (← type t) :: (← types ts)

end

/-- Reads the name and type of a declaration at a span. -/
def typedName (s : Span) (mutable : Bool) : List STree → Read Declaration
  | [.symbol _ x, t] =>
    if isName x then return ⟨x, ← type t, mutable, s.origin⟩ else fail s .declaration
  | _ => fail s .declaration

def declaration : STree → Read Declaration
  | .list s [.symbol _ "mut", x, t] => typedName s true [x, t]
  | .list s [.symbol _ "mut", _] => fail s .declaration
  | .list s [x, t] => typedName s false [x, t]
  | t => fail t.span .declaration

/-- Reads a declaration whose type may be left out. -/
def target : STree → Read Declaration
  | .symbol s x =>
    if isName x || x == "_" then return ⟨x, .unknown, false, s.origin⟩ else fail s .variableName
  | t => declaration t

def inputs : STree → Read (List Declaration)
  | .symbol s _ => fail s .expectedInputs
  | .list _ ts => ts.mapM declaration

end Verdict.Reading
