import ColorMarkup.Document.Span
/-!
A document: a text and the styled spans over it. Spans later in the list are laid
over earlier ones. Cutting the text into segments of one style walks from one
start or stop of a span to the next and fails if such an offset lies inside a
character.
-/
namespace ColorMarkup

structure Document where
  text : Text
  spans : List Span
  deriving DecidableEq, Repr

/-- A piece of a document's text with the style all of it has. -/
structure Segment where
  text : Text
  style : Style
  deriving DecidableEq, Repr

namespace Document

def plain (text : Text) : Document := ⟨text, []⟩

def isPlain (doc : Document) : Bool := doc.spans.isEmpty

def byteLength (doc : Document) : Nat := doc.text.byteLength

def spansAt (doc : Document) (offset : Nat) : List Span :=
  doc.spans.filter fun span => span.contains offset

/-- The styles of all spans at an offset, laid over each other in their order. -/
def styleAt (doc : Document) (offset : Nat) : Style :=
  (doc.spansAt offset).foldl (fun style span => style.overlay span.style) ∅

/-- The starts and stops of all spans. -/
def boundaries (doc : Document) : List Nat :=
  doc.spans.flatMap fun span => [span.start, span.stop]

/-- The offsets inside the text at which the style may change, in order. -/
def cuts (doc : Document) : List Nat :=
  let length := doc.byteLength
  (doc.boundaries.filter fun b => 0 < b && b < length).mergeSort

/-- Segments of `rest`, the text from `offset` on, cut at the given offsets. A cut
that is met again makes no further segment. -/
def segmentsFrom? (doc : Document) (offset : Nat) (rest : Text) : List Nat → Option (List Segment)
  | [] => if rest = [] then some [] else some [⟨rest, doc.styleAt offset⟩]
  | next :: cuts =>
    if next ≤ offset then doc.segmentsFrom? offset rest cuts
    else
      match rest.splitAtByte? (next - offset) with
      | none => none
      | some (text, after) =>
        (doc.segmentsFrom? next after cuts).map (⟨text, doc.styleAt offset⟩ :: ·)

/-- The text cut at all boundaries, none if one of them is inside a character. -/
def segments? (doc : Document) : Option (List Segment) :=
  doc.segmentsFrom? 0 doc.text doc.cuts

theorem mem_cuts {doc : Document} {offset : Nat} :
    offset ∈ doc.cuts ↔ offset ∈ doc.boundaries ∧ 0 < offset ∧ offset < doc.byteLength := by
  simp [cuts, List.mem_mergeSort]

theorem segments?_nil (spans : List Span) : segments? ⟨[], spans⟩ = some [] := by
  have hcuts : cuts ⟨[], spans⟩ = [] := by
    rw [List.eq_nil_iff_forall_not_mem]
    intro offset hmem
    have hlt := (mem_cuts.1 hmem).2.2
    exact Nat.not_lt_zero offset hlt
  rw [segments?, hcuts]
  rfl

end Document
end ColorMarkup
