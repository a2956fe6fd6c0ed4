import Verdict.Text.Decimal

/-! # Spans

A span is a stretch of positions in a text, given by the position of its first character and the
position just after its last one. Positions count characters. A position may be any integer, but
what is measured between two positions is a word of 64 bits. -/

namespace Verdict

/-- The positions from `start` up to, but not including, `stop`. -/
structure Span where
  start : Int
  stop : Int
  start_le_stop : start ≤ stop := by omega
deriving DecidableEq, Repr

namespace Span

/-- The span between two positions, if they are in order. -/
def ofBounds? (start stop : Int) : Option Span :=
  if h : start ≤ stop then some ⟨start, stop, h⟩ else none

/-- The span of `n` characters from position `start`. -/
def ofLength (start n : Nat) : Span := ⟨start, start + n, by omega⟩

/-- The number of characters in a span, reduced to a word. -/
def length (s : Span) : Int64 := Int64.ofInt (s.stop - s.start)

@[simp] theorem start_ofLength (p n : Nat) : (ofLength p n).start = p := rfl

@[simp] theorem stop_ofLength (p n : Nat) : (ofLength p n).stop = p + n := rfl

@[simp] theorem length_ofLength (p n : Nat) : (ofLength p n).length = Int64.ofNat n := by
  have h : (p + n : Int) - p = n := by omega
  simp only [length, start_ofLength, stop_ofLength, h, Int64.ofInt_eq_ofNat]

end Span

end Verdict
