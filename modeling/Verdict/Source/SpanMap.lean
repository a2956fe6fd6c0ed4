import Verdict.Source.File

/-! # Span maps

A span map records where in a file each of some items stands. An item is recorded at most once. -/

namespace Verdict

/-- Where each recorded item stands. -/
structure SpanMap (κ : Type) where
  entries : List (κ × Span)
deriving Repr

/-- Why an operation on a span map fails. -/
inductive SpanMapError (κ : Type) where
  /-- The item has been recorded before. -/
  | duplicate (key : κ)
  /-- The item has not been recorded. -/
  | missing (key : κ)
deriving DecidableEq, Repr

namespace SpanMapError

def message {κ : Type} [ToString κ] : SpanMapError κ → String
  | duplicate k => s!"source map key already exists: {toString k}"
  | missing k => s!"invalid source map key: {toString k}"

end SpanMapError

namespace SpanMap

variable {κ ι : Type} [DecidableEq κ]

/-- The map that records nothing. -/
def empty : SpanMap κ := ⟨[]⟩

/-- The span of an item, if it has been recorded. -/
def get? (m : SpanMap κ) (key : κ) : Option Span := m.entries.lookup key

/-- Whether an item has been recorded. -/
def contains (m : SpanMap κ) (key : κ) : Bool := (m.get? key).isSome

def get (m : SpanMap κ) (key : κ) : Except (SpanMapError κ) Span :=
  match m.get? key with
  | some span => .ok span
  | none => .error (.missing key)

/-- Records an item. -/
def put (m : SpanMap κ) (key : κ) (span : Span) : Except (SpanMapError κ) (SpanMap κ) :=
  if m.contains key then .error (.duplicate key) else .ok ⟨m.entries ++ [(key, span)]⟩

/-- The line on which an item starts, if it has been recorded. -/
def line? (m : SpanMap κ) (f : SourceFile) (key : κ) : Option SourceLine :=
  (m.get? key).map f.lineOf

/-- A message about an item. -/
def syntaxError (m : SpanMap κ) (key : κ) (message : String) :
    Except (SpanMapError κ) SyntaxError :=
  (m.get key).map fun span => ⟨span, message⟩

/-- Records the items of another map, renamed by `rename`. -/
def join (m : SpanMap κ) (other : SpanMap ι) (rename : ι → κ) :
    Except (SpanMapError κ) (SpanMap κ) :=
  other.entries.foldlM (fun m (key, span) => m.put (rename key) span) m

end SpanMap

end Verdict
