/-! # Terminal escapes

Escape sequences that change how a terminal shows the text after them: a sequence of attribute
numbers between an opening and a closing mark. The number of an attribute is a word of 64 bits. -/

namespace Verdict

/-- An escape sequence under construction: its text so far and the number of attributes in it. -/
structure Escape where
  text : String
  attributes : Nat
deriving DecidableEq, Repr

namespace Escape

/-- The sequence without text or attributes. -/
def none : Escape := ⟨"", 0⟩

/-- The sequence that takes all attributes back. -/
def reset : Escape := ⟨"\x1b[0", 1⟩

/-- The sequence that makes text bold. -/
def bold : Escape := ⟨"\x1b[1", 1⟩

def foreground (e : Escape) (colour : UInt64) : Escape :=
  let code := toString (colour + 30).toNat
  ⟨e.text ++ (if 0 < e.attributes then ";" else "[") ++ code, e.attributes + 1⟩

def finish (e : Escape) : String := e.text ++ "m"

end Escape

end Verdict
