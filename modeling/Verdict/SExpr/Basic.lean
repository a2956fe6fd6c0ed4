/-! # S-expressions

An S-expression is a symbol or a list of S-expressions. Written out, a symbol that is not simple is
enclosed in bars. -/

namespace Verdict

/-- A symbol, or a list of S-expressions. -/
inductive SExp where
  | symbol (value : String)
  | list (elements : List SExp)
deriving Repr, Inhabited

namespace SExp

/-- The punctuation that a simple symbol may contain. -/
def punctuation : List Char := "~!@$%^&*_-+=<>.?/".toList

/-- The characters of a simple symbol. -/
def isSimpleChar (c : Char) : Bool := c.isAlphanum || punctuation.contains c

def dropColon : List Char → List Char
  | ':' :: cs => cs
  | cs => cs

/-- A symbol that is written without bars: letters, digits and punctuation, at least one, perhaps
with a colon in front. -/
def isSimple (value : String) : Bool :=
  let cs := dropColon value.toList
  !cs.isEmpty && cs.all isSimpleChar

/-- A symbol as written: in bars unless it is simple. -/
def quote (value : String) : String := if isSimple value then value else "|" ++ value ++ "|"

mutual

/-- An S-expression on one line, its symbols written by `write`. -/
def printWith (write : String → String) : SExp → String
  | symbol value => write value
  | list elements => "(" ++ printElements write elements ++ ")"

/-- The elements of a list on one line, one blank between neighbours. -/
def printElements (write : String → String) : List SExp → String
  | [] => ""
  | [t] => printWith write t
  | t :: ts => printWith write t ++ " " ++ printElements write ts

end

/-- An S-expression on one line, as it can be read back. -/
def print (t : SExp) : String := printWith quote t

/-- An S-expression on one line, every symbol as it is. -/
def printPlain (t : SExp) : String := printWith id t

/-- The symbol at the front of a list of elements. -/
def headOf : List SExp → Option String
  | symbol value :: _ => some value
  | _ => none

/-- The list of a head symbol and its arguments. -/
def app (head : String) (args : List SExp) : SExp := list (symbol head :: args)

/-- Whether the elements start with the given symbols. -/
def startsWith : List SExp → List String → Bool
  | _, [] => true
  | symbol value :: ts, s :: ss => value == s && startsWith ts ss
  | _, _ :: _ => false

/-- Whether there are at least `n` elements and they start with the given symbols, of which there
are at most `n`. -/
def matchSymbols (elements : List SExp) (n : Int) (symbols : List String) : Bool :=
  n ≤ elements.length && symbols.length ≤ n && startsWith elements symbols

mutual

/-- Equality of S-expressions is decidable. -/
def decEq : (a b : SExp) → Decidable (a = b)
  | symbol v, symbol w => decidable_of_iff (v = w) (by simp)
  | list ts, list us =>
    match decEqs ts us with
    | isTrue h => isTrue (by rw [h])
    | isFalse h => isFalse (by simpa using h)
  | symbol _, list _ => isFalse (by simp)
  | list _, symbol _ => isFalse (by simp)

def decEqs : (ts us : List SExp) → Decidable (ts = us)
  | [], [] => isTrue rfl
  | t :: ts, u :: us =>
    match decEq t u, decEqs ts us with
    | isTrue h, isTrue hs => isTrue (by rw [h, hs])
    | isFalse h, _ => isFalse (by simp [h])
    | _, isFalse h => isFalse (by simp [h])
  | [], _ :: _ => isFalse (by simp)
  | _ :: _, [] => isFalse (by simp)

end

instance : DecidableEq SExp := decEq

end SExp

end Verdict
