import ColorMarkup.Text.Basic
/-!
Sets of characters given by closed ranges of code points, the form in which the
tables of character properties are written.
-/
namespace ColorMarkup

/-- The first and the last code point of each range, in increasing order. -/
abbrev CodeRanges := List (Nat × Nat)

namespace CodeRanges

def contains (ranges : CodeRanges) (c : Char) : Bool :=
  ranges.any fun (low, high) => low ≤ c.toNat && c.toNat ≤ high

theorem contains_iff {ranges : CodeRanges} {c : Char} :
    ranges.contains c ↔ ∃ r ∈ ranges, r.1 ≤ c.toNat ∧ c.toNat ≤ r.2 := by
  simp [contains]

end CodeRanges
end ColorMarkup
