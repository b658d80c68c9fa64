/-!
# Half-open ranges

Positions in a source text count UTF-8 bytes; positions in a segment store count segments.
Both kinds of range are spans.
-/

namespace Stencil

/-- The positions from `start` up to, not including, `stop`. -/
structure Span where
  start : Nat
  stop : Nat
  deriving Repr, BEq, DecidableEq

namespace Span

/-- How many positions a span covers. -/
def size (s : Span) : Nat := s.stop - s.start

/-- The span moved `n` positions to the right. -/
def shift (s : Span) (n : Nat) : Span := ⟨s.start + n, s.stop + n⟩

@[simp] theorem start_shift (s : Span) (n : Nat) : (s.shift n).start = s.start + n := rfl

@[simp] theorem stop_shift (s : Span) (n : Nat) : (s.shift n).stop = s.stop + n := rfl

@[simp] theorem size_shift (s : Span) (n : Nat) : (s.shift n).size = s.size := by
  simp only [size, shift]; omega

end Span

end Stencil
