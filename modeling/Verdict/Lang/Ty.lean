/-! # Types

The types of the language: logical values, integers, tuples, arrays of a fixed length and references
to any of them. A type that has not been determined yet is unknown. -/

namespace Verdict

/-- The type of a value. -/
inductive Ty where
  | bool
  | i32
  | unit
  /-- A type that inference has to fill in. -/
  | unknown
  | tuple (elements : List Ty)
  | array (element : Ty) (length : Nat)
  | ref (inner : Ty) (mutable : Bool)
deriving Repr, Inhabited

namespace Ty

mutual

def print : Ty → String
  | bool => "bool"
  | i32 => "i32"
  | unit => "()"
  | unknown => "_"
  | tuple ts => "(" ++ printAll ts ++ ")"
  | array t n => "[" ++ t.print ++ "; " ++ toString n ++ "]"
  | ref t mutable => (if mutable then "&mut " else "&") ++ t.print

/-- The types of a list as written, with commas between them. -/
def printAll : List Ty → String
  | [] => ""
  | [t] => t.print
  | t :: ts => t.print ++ ", " ++ printAll ts

end

/-- The type behind all references. -/
def underlying : Ty → Ty
  | ref t _ => t.underlying
  | t => t

mutual

/-- Whether two types are the same when references are not looked at. -/
def same : Ty → Ty → Bool
  | ref t _, u => t.same u
  | t, u =>
    match t, u.underlying with
    | bool, bool => true
    | i32, i32 => true
    | unit, unit => true
    | unknown, unknown => true
    | tuple ts, tuple us => sameAll ts us
    | array t n, array u m => n == m && t.same u
    | _, _ => false

/-- Whether two lists of types are the same, element by element. -/
def sameAll : List Ty → List Ty → Bool
  | [], [] => true
  | t :: ts, u :: us => t.same u && sameAll ts us
  | _, _ => false

end

mutual

/-- Whether a part of a type is unknown. -/
def hasUnknown : Ty → Bool
  | unknown => true
  | tuple ts => anyUnknown ts
  | array t _ => t.hasUnknown
  | ref t _ => t.hasUnknown
  | bool | i32 | unit => false

/-- Whether a part of some type in a list is unknown. -/
def anyUnknown : List Ty → Bool
  | [] => false
  | t :: ts => t.hasUnknown || anyUnknown ts

end

/-- Whether a type is unknown as a whole. -/
def isUnknown : Ty → Bool
  | unknown => true
  | _ => false

/-- Whether the values of a type are logical values or integers. -/
def isScalar (t : Ty) : Bool :=
  match t.underlying with
  | bool | i32 => true
  | _ => false

/-- The type that a reference points to; any other type is itself. -/
def deref : Ty → Ty
  | ref t _ => t
  | t => t

end Ty

end Verdict
