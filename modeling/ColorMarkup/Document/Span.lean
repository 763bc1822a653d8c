import ColorMarkup.Style
/-!
Styled spans of a text. A span holds the byte offsets from its start up to but
not including its stop; the depth says how many tags enclosed the one it came
from.
-/
namespace ColorMarkup

structure Span where
  start : Nat
  stop : Nat
  style : Style
  depth : Nat
  deriving DecidableEq, Repr

namespace Span

/-- Zero for a span that stops before it starts. -/
def length (span : Span) : Nat := span.stop - span.start

def isEmpty (span : Span) : Bool := span.stop ≤ span.start

def contains (span : Span) (offset : Nat) : Bool :=
  span.start ≤ offset && offset < span.stop

def overlaps (a b : Span) : Bool := a.start < b.stop && b.start < a.stop

theorem overlaps_comm (a b : Span) : a.overlaps b = b.overlaps a := by
  simp only [overlaps, Bool.and_comm]

theorem not_contains_of_isEmpty {span : Span} (h : span.isEmpty) (offset : Nat) :
    ¬ span.contains offset := by
  simp only [isEmpty, contains, decide_eq_true_eq, Bool.and_eq_true] at h ⊢
  omega

end Span
end ColorMarkup
